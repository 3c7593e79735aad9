import Librfn.Logic.Program

/-!
# Two programs side by side

A relational logic for fuelled programs.  `Coupled m n Q s t` says that `m` and
`n` do the same thing from `s` and from `t`: both stop with one fault, or both
return and `Q` relates what they return.  `Code` packs a program with the proof
that more fuel never changes what it returns.
-/

namespace Librfn.Logic

variable {σ τ α β γ δ : Type}

namespace Prog

def Coupled (m : Prog σ α) (n : Prog τ β) (Q : α → σ → β → τ → Prop) (s : σ) (t : τ) : Prop :=
  match m s, n t with
  | .ok (a, s'), .ok (b, t') => Q a s' b t'
  | .error e, .error e' => e = e'
  | _, _ => False

section Coupled

variable {m : Prog σ α} {n : Prog τ β} {Q R : α → σ → β → τ → Prop} {s : σ} {t : τ}

theorem Coupled.ok (h : Coupled m n Q s t) {a : α} {s' : σ} (hm : m s = .ok (a, s')) :
    ∃ b t', n t = .ok (b, t') ∧ Q a s' b t' := by
  unfold Coupled at h
  rw [hm] at h
  cases hn : n t with
  | error e => simp [hn] at h
  | ok p =>
      simp only [hn] at h
      exact ⟨p.1, p.2, rfl, h⟩

theorem Coupled.error (h : Coupled m n Q s t) {e : Fault} (hm : m s = .error e) :
    n t = .error e := by
  unfold Coupled at h
  rw [hm] at h
  cases hn : n t with
  | error e' =>
      simp only [hn] at h
      rw [h]
  | ok p => simp [hn] at h

theorem Coupled.of_ok {a : α} {b : β} {s' : σ} {t' : τ} (hm : m s = .ok (a, s'))
    (hn : n t = .ok (b, t')) (h : Q a s' b t') : Coupled m n Q s t := by
  unfold Coupled
  rw [hm, hn]
  exact h

theorem Coupled.of_error {e : Fault} (hm : m s = .error e) (hn : n t = .error e) :
    Coupled m n Q s t := by
  unfold Coupled
  rw [hm, hn]

theorem Coupled.congr {m' : Prog σ α} {n' : Prog τ β} {s' : σ} {t' : τ} (hm : m s = m' s')
    (hn : n t = n' t') (h : Coupled m' n' Q s' t') : Coupled m n Q s t := by
  unfold Coupled
  rw [hm, hn]
  exact h

theorem Coupled.symm (h : Coupled m n Q s t) :
    Coupled n m (fun b t a s => Q a s b t) t s := by
  unfold Coupled at h ⊢
  cases hm : m s with
  | error e =>
      cases hn : n t with
      | error e' =>
          simp only [hm, hn] at h
          exact h.symm
      | ok p => simp [hm, hn] at h
  | ok p =>
      cases hn : n t with
      | error e' => simp [hm, hn] at h
      | ok q =>
          simp only [hm, hn] at h
          exact h

theorem Coupled.mono (h : Coupled m n Q s t) (himp : ∀ a s b t, Q a s b t → R a s b t) :
    Coupled m n R s t := by
  unfold Coupled at h ⊢
  cases hm : m s with
  | error e =>
      cases hn : n t with
      | error e' => simpa [hm, hn] using h
      | ok p => simp [hm, hn] at h
  | ok p =>
      cases hn : n t with
      | error e' => simp [hm, hn] at h
      | ok q =>
          simp only [hm, hn] at h
          exact himp _ _ _ _ h

theorem Coupled.pure {a : α} {b : β} (h : Q a s b t) :
    Coupled (pure a) (pure b) Q s t := h

theorem Coupled.throw (e : Fault) :
    Coupled (throw e : Prog σ α) (throw e : Prog τ β) Q s t := rfl

theorem Coupled.bind {f : α → Prog σ γ} {g : β → Prog τ δ} {R : γ → σ → δ → τ → Prop}
    (h : Coupled m n Q s t)
    (hf : ∀ a s' b t', Q a s' b t' → Coupled (f a) (g b) R s' t') :
    Coupled (m >>= f) (n >>= g) R s t := by
  unfold Coupled at h ⊢
  change (match (m s >>= fun p => f p.1 p.2), (n t >>= fun p => g p.1 p.2) with
    | .ok (a, s'), .ok (b, t') => R a s' b t'
    | .error e, .error e' => e = e'
    | _, _ => False)
  cases hm : m s with
  | error e =>
      cases hn : n t with
      | error e' =>
          simp only [hm, hn] at h
          exact h
      | ok p => simp [hm, hn] at h
  | ok p =>
      cases hn : n t with
      | error e' => simp [hm, hn] at h
      | ok q =>
          simp only [hm, hn] at h
          exact hf _ _ _ _ h

theorem Coupled.zoom {get : τ → σ} {put : σ → τ → τ} {m : Prog σ α} {t : τ}
    {Q : α → σ → α → τ → Prop} (h : ∀ a s, Q a s a (put s t)) :
    Coupled m (zoom get put m) Q (get t) t := by
  unfold Coupled Prog.zoom
  cases hm : m (get t) with
  | error e => simp
  | ok p => exact h p.1 p.2

end Coupled

/-! ## One program on related states -/

/-- From related states the program does the same and leaves related states. -/
def Respects (R : σ → σ → Prop) (m : Prog σ α) : Prop :=
  ∀ s t, R s t → Coupled m m (fun a s b t => a = b ∧ R s t) s t

section Respects

variable {R : σ → σ → Prop} {m : Prog σ α}

theorem Respects.pure (a : α) : Respects R (pure a : Prog σ α) :=
  fun _ _ h => Coupled.pure ⟨rfl, h⟩

theorem Respects.throw (e : Fault) : Respects R (throw e : Prog σ α) :=
  fun _ _ _ => Coupled.throw e

theorem Respects.modify {f : σ → σ} (hf : ∀ s t, R s t → R (f s) (f t)) :
    Respects R (modify f : Prog σ PUnit) :=
  fun s t h => Coupled.of_ok rfl rfl ⟨rfl, hf s t h⟩

theorem Respects.bind {f : α → Prog σ β} (hm : Respects R m) (hf : ∀ a, Respects R (f a)) :
    Respects R (m >>= f) := by
  intro s t h
  refine (hm s t h).bind ?_
  rintro a s' _ t' ⟨rfl, h'⟩
  exact hf a s' t' h'

theorem Respects.get_bind {f : σ → Prog σ α} (hf : ∀ s t, R s t → f t = f s)
    (hr : ∀ s, Respects R (f s)) : Respects R (get >>= f) := by
  intro s t h
  exact Coupled.congr rfl (congrFun (hf s t h) t) (hr s s t h)

theorem Respects.ite {p : Prop} [Decidable p] {n : Prog σ α} (hm : Respects R m)
    (hn : Respects R n) : Respects R (if p then m else n) := by
  split
  · exact hm
  · exact hn

end Respects

end Prog

/-- A program with fuel whose result does not depend on the fuel. -/
structure Code (σ α : Type) where
  run : Nat → Prog σ α
  mono : Prog.Monotone run

namespace Code

def pure (a : α) : Code σ α := ⟨fun _ => Pure.pure a, fun _ => .refl _⟩

def lift (m : Prog σ α) : Code σ α := ⟨fun _ => m, fun _ => .refl _⟩

def bind (m : Code σ α) (f : α → Code σ β) : Code σ β :=
  ⟨fun fuel => m.run fuel >>= fun a => (f a).run fuel,
    fun fuel => .bind (m.mono fuel) fun a => (f a).mono fuel⟩

def zoom (get : τ → σ) (put : σ → τ → τ) (m : Code σ α) : Code τ α :=
  ⟨fun fuel => Prog.zoom get put (m.run fuel), fun fuel => .zoom (m.mono fuel)⟩

theorem run_bind (m : Code σ α) (f : α → Code σ β) (fuel : Nat) (s : σ) :
    (m.bind f).run fuel s = match m.run fuel s with
      | .ok (a, s') => (f a).run fuel s'
      | .error e => .error e := by
  change (m.run fuel s >>= fun p => (f p.1).run fuel p.2) = _
  cases m.run fuel s <;> rfl

theorem run_zoom (get : τ → σ) (put : σ → τ → τ) (m : Code σ α) (fuel : Nat) (t : τ) :
    (zoom get put m).run fuel t = match m.run fuel (get t) with
      | .ok (a, s) => .ok (a, put s t)
      | .error e => .error e := rfl

theorem run_get (fuel : Nat) (s : σ) : (lift get : Code σ σ).run fuel s = .ok (s, s) := rfl

def Returns (m : Code σ α) (s : σ) (r : α × σ) : Prop := Prog.Returns m.run s r

variable {m : Code σ α} {s s' : σ}

theorem returns_iff {r : α × σ} : m.Returns s r ↔ ∃ fuel, m.run fuel s = .ok r := by
  constructor
  · rintro ⟨enough, h⟩
    exact ⟨enough, h enough (Nat.le_refl _)⟩
  · rintro ⟨fuel, h⟩
    exact m.mono.returns h

theorem Returns.unique {r r' : α × σ} (h : m.Returns s r) (h' : m.Returns s r') : r = r' :=
  Prog.Returns.unique h h'

@[simp] theorem returns_pure {a : α} {r : α × σ} : (pure a).Returns s r ↔ r = (a, s) := by
  constructor
  · intro h
    exact h.unique (Prog.Returns.pure a s)
  · rintro rfl
    exact Prog.Returns.pure a s

@[simp] theorem returns_modify {f : σ → σ} {r : Unit × σ} :
    (lift (modify f)).Returns s r ↔ r = ((), f s) := by
  constructor
  · intro h
    exact h.unique ⟨0, fun _ _ => rfl⟩
  · rintro rfl
    exact ⟨0, fun _ _ => rfl⟩

@[simp] theorem returns_bind {f : α → Code σ β} {r : β × σ} :
    (m.bind f).Returns s r ↔ ∃ a t, m.Returns s (a, t) ∧ (f a).Returns t r := by
  constructor
  · exact Prog.Returns.of_bind m.mono fun a => (f a).mono
  · rintro ⟨a, t, hm, hf⟩
    exact Prog.Returns.bind hm hf

@[simp] theorem returns_zoom {get : τ → σ} {put : σ → τ → τ} {t : τ} {r : α × τ} :
    (zoom get put m).Returns t r ↔ ∃ s, m.Returns (get t) (r.1, s) ∧ r.2 = put s t := by
  simp only [returns_iff]
  constructor
  · rintro ⟨fuel, h⟩
    have hzoom : ∃ s, m.run fuel (get t) = .ok (r.1, s) ∧ r.2 = put s t := Prog.zoom_eq_ok h
    obtain ⟨s, hm, ht⟩ := hzoom
    exact ⟨s, ⟨fuel, hm⟩, ht⟩
  · rintro ⟨s, ⟨fuel, hm⟩, ht⟩
    refine ⟨fuel, ?_⟩
    change Prog.zoom get put (m.run fuel) t = _
    unfold Prog.zoom
    rw [hm]
    exact congrArg (fun t' => Except.ok (r.1, t')) ht.symm

/-! ## Statements

A statement either ends, with `none`, or leaves the function with a result.
-/

def andThen (m n : Code σ (Option β)) : Code σ (Option β) :=
  m.bind fun
    | none => n
    | some b => pure (some b)

theorem returns_andThen {m n : Code σ (Option β)} {r : Option β × σ} :
    (m.andThen n).Returns s r ↔
      (∃ t, m.Returns s (none, t) ∧ n.Returns t r) ∨
        ∃ b t, m.Returns s (some b, t) ∧ r = (some b, t) := by
  unfold andThen
  rw [returns_bind]
  constructor
  · rintro ⟨a, t, hm, hr⟩
    cases a with
    | none => exact .inl ⟨t, hm, hr⟩
    | some b => exact .inr ⟨b, t, hm, returns_pure.mp hr⟩
  · rintro (⟨t, hm, hr⟩ | ⟨b, t, hm, rfl⟩)
    · exact ⟨none, t, hm, hr⟩
    · exact ⟨some b, t, hm, returns_pure.mpr rfl⟩

/-- At most `n` turns of `while (c) m`. -/
def turns (c : Prog σ Bool) (m : Prog σ (Option β)) : Nat → Prog σ (Option β)
  | 0 => throw .outOfFuel
  | n + 1 => do
      if ← c then
        match ← m with
        | none => turns c m n
        | some b => return some b
      else return none

theorem turns_le {c c' : Prog σ Bool} {m m' : Prog σ (Option β)} (hc : Prog.Le c c')
    (hm : Prog.Le m m') {i j : Nat} (hij : i ≤ j) :
    Prog.Le (turns c m i) (turns c' m' j) := by
  induction i generalizing j with
  | zero => exact .throw _ _
  | succ i ih =>
      obtain ⟨j, rfl⟩ : ∃ k, j = k + 1 := ⟨j - 1, by omega⟩
      refine .bind hc fun b => ?_
      cases b with
      | false => exact .refl _
      | true =>
          refine .bind hm fun o => ?_
          cases o with
          | none => exact ih (by omega)
          | some b => exact .refl _

def whileLoop (c : Code σ Bool) (m : Code σ (Option β)) : Code σ (Option β) :=
  ⟨fun fuel => turns (c.run fuel) (m.run fuel) fuel,
    fun fuel => turns_le (c.mono fuel) (m.mono fuel) (Nat.le_succ fuel)⟩

/-- What holds of the turns of a loop, from the last one back to the first. -/
theorem whileLoop_induction {c : Code σ Bool} {m : Code σ (Option β)}
    {P : σ → Option β → σ → Prop}
    (hdone : ∀ s s', c.Returns s (false, s') → P s none s')
    (hleave : ∀ s s₁ b s₂, c.Returns s (true, s₁) → m.Returns s₁ (some b, s₂) →
      P s (some b) s₂)
    (hturn : ∀ s s₁ s₂ r s', c.Returns s (true, s₁) → m.Returns s₁ (none, s₂) →
      P s₂ r s' → P s r s') {s s' : σ} {r : Option β}
    (h : (whileLoop c m).Returns s (r, s')) : P s r s' := by
  obtain ⟨fuel, hrun⟩ := returns_iff.mp h
  have hturns : ∀ n s, turns (c.run fuel) (m.run fuel) n s = .ok (r, s') → P s r s' := by
    intro n
    induction n with
    | zero =>
        intro s hs
        cases hs
    | succ n ih =>
        intro s hs
        obtain ⟨b, s₁, hcond, hrest⟩ := Prog.bind_eq_ok hs
        have hc := c.mono.returns hcond
        cases b with
        | false =>
            cases hrest
            exact hdone s _ hc
        | true =>
            obtain ⟨o, s₂, hbody, hlast⟩ := Prog.bind_eq_ok hrest
            have hm := m.mono.returns hbody
            cases o with
            | none => exact hturn s s₁ s₂ r s' hc hm (ih s₂ hlast)
            | some b =>
                cases hlast
                exact hleave s s₁ b _ hc hm
  exact hturns fuel s hrun

theorem whileLoop_run_succ (c : Code σ Bool) (m : Code σ (Option β)) (fuel : Nat) :
    (whileLoop c m).run (fuel + 1) = (do
      if ← c.run (fuel + 1) then
        match ← m.run (fuel + 1) with
        | none => turns (c.run (fuel + 1)) (m.run (fuel + 1)) fuel
        | some b => return some b
      else return none) := rfl

theorem Returns.whileLoop {c : Code σ Bool} {m : Code σ (Option β)} {r : Option β × σ}
    (h : (c.bind fun b => if b then m.andThen (whileLoop c m) else pure none).Returns s r) :
    (Code.whileLoop c m).Returns s r := by
  obtain ⟨fuel, hrun⟩ := returns_iff.mp h
  refine returns_iff.mpr ⟨fuel + 1, ?_⟩
  rw [whileLoop_run_succ]
  refine Prog.Le.bind (c.mono fuel) (fun b => ?_) s r hrun
  cases b with
  | false => exact .refl _
  | true =>
      refine .bind (m.mono fuel) fun o => ?_
      cases o with
      | none => exact turns_le (c.mono fuel) (m.mono fuel) (Nat.le_refl fuel)
      | some b => exact .refl _

/-! ## Weakest preconditions -/

section Wp

variable {n : Nat}

@[simp] theorem wp_pure (a : α) (Q : α → σ → Prop) :
    Prog.wp ((pure a).run n) Q s ↔ Q a s := Iff.rfl

@[simp] theorem wp_lift (m : Prog σ α) (Q : α → σ → Prop) :
    Prog.wp ((lift m).run n) Q s ↔ Prog.wp m Q s := Iff.rfl

@[simp] theorem wp_bind (m : Code σ α) (f : α → Code σ β) (Q : β → σ → Prop) :
    Prog.wp ((m.bind f).run n) Q s ↔
      Prog.wp (m.run n) (fun a t => Prog.wp ((f a).run n) Q t) s :=
  Prog.wp_bind _ _ _ _

@[simp] theorem wp_zoom (get : τ → σ) (put : σ → τ → τ) (m : Code σ α) (Q : α → τ → Prop)
    (t : τ) : Prog.wp ((zoom get put m).run n) Q t ↔
      Prog.wp (m.run n) (fun a s => Q a (put s t)) (get t) :=
  Prog.wp_zoom _ _ _ _ _

theorem wp_ite (b : Bool) (m k : Code σ α) (Q : α → σ → Prop) :
    Prog.wp ((if b then m else k).run n) Q s ↔
      if b then Prog.wp (m.run n) Q s else Prog.wp (k.run n) Q s := by
  cases b <;> rfl

@[simp] theorem wp_andThen (m k : Code σ (Option β)) (Q : Option β → σ → Prop) :
    Prog.wp ((m.andThen k).run n) Q s ↔ Prog.wp (m.run n) (fun o t =>
      match o with
      | none => Prog.wp (k.run n) Q t
      | some b => Q (some b) t) s := by
  unfold andThen
  rw [wp_bind]
  refine Eq.to_iff (congrArg (fun R => Prog.wp (m.run n) R s) ?_)
  funext o t
  cases o <;> rfl

theorem wp_turns_succ (c : Prog σ Bool) (m : Prog σ (Option β)) (Q : Option β → σ → Prop) :
    Prog.wp (turns c m (n + 1)) Q s ↔ Prog.wp c (fun b t =>
      if b then Prog.wp m (fun o u =>
        match o with
        | none => Prog.wp (turns c m n) Q u
        | some b => Q (some b) u) t
      else Q none t) s := by
  rw [turns, Prog.wp_bind]
  refine Eq.to_iff (congrArg (fun R => Prog.wp c R s) ?_)
  funext b t
  cases b with
  | false => rfl
  | true =>
      rw [if_pos rfl, if_pos rfl]
      refine (propext (Prog.wp_bind _ _ _ _)).trans ?_
      refine congrArg (fun R => Prog.wp m R t) ?_
      funext o u
      cases o <;> rfl

@[simp] theorem wp_whileLoop_succ (c : Code σ Bool) (m : Code σ (Option β))
    (Q : Option β → σ → Prop) : Prog.wp ((whileLoop c m).run (n + 1)) Q s ↔
      Prog.wp (c.run (n + 1)) (fun b t =>
        if b then Prog.wp (m.run (n + 1)) (fun o u =>
          match o with
          | none => Prog.wp (turns (c.run (n + 1)) (m.run (n + 1)) n) Q u
          | some b => Q (some b) u) t
        else Q none t) s :=
  wp_turns_succ _ _ _

end Wp

end Code

end Librfn.Logic
