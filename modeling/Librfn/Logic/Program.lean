import Mathlib.Tactic.Common

/-!
# State-and-fault programs

A small logic for C code read as a state transformer that may fault.  A
program over a state `σ` either returns a value and a new state or stops with
a `Fault`.  Loops carry explicit fuel; running out of it is a fault of its
own, so a program that returns has really terminated.
-/

namespace Librfn.Logic

/-- The ways in which a program can fail to return. -/
inductive Fault where
  | assertion
  | nullPointer
  | badPointer
  | outOfFuel
  deriving DecidableEq, Repr

abbrev Prog (σ α : Type) := StateT σ (Except Fault) α

namespace Prog

variable {σ τ α β : Type}

def assert (c : Prop) [Decidable c] : Prog σ Unit :=
  if c then pure () else throw .assertion

/-- Run a program on one component of a larger state. -/
def zoom (get : τ → σ) (put : σ → τ → τ) (m : Prog σ α) : Prog τ α := fun t =>
  match m (get t) with
  | .ok (a, s) => .ok (a, put s t)
  | .error e => .error e

/-- Total-correctness weakest precondition: `m` returns and `Q` holds then. -/
def wp (m : Prog σ α) (Q : α → σ → Prop) (s : σ) : Prop :=
  match m s with
  | .ok (a, s') => Q a s'
  | .error _ => False

theorem wp_iff_exists {m : Prog σ α} {Q : α → σ → Prop} {s : σ} :
    wp m Q s ↔ ∃ a s', m s = .ok (a, s') ∧ Q a s' := by
  unfold wp
  cases h : m s with
  | error e => simp
  | ok r =>
      obtain ⟨a, s'⟩ := r
      constructor
      · intro hq
        exact ⟨a, s', rfl, hq⟩
      · rintro ⟨a', s'', heq, hq⟩
        cases heq
        exact hq

theorem wp_iff_of_eq {m : Prog σ α} {Q : α → σ → Prop} {s s' : σ} {a : α}
    (h : m s = .ok (a, s')) : wp m Q s ↔ Q a s' := by
  unfold wp
  rw [h]

theorem wp_of_eq {m : Prog σ α} {Q : α → σ → Prop} {s s' : σ} {a : α}
    (h : m s = .ok (a, s')) (hq : Q a s') : wp m Q s :=
  wp_iff_exists.mpr ⟨a, s', h, hq⟩

instance (m : Prog σ α) (Q : α → σ → Prop) [∀ a s', Decidable (Q a s')]
    (s : σ) : Decidable (wp m Q s) :=
  match h : m s with
  | .ok (a, s') => decidable_of_iff (Q a s') (by unfold wp; rw [h])
  | .error _ => .isFalse (by unfold wp; rw [h]; exact id)

theorem wp_mono {m : Prog σ α} {P Q : α → σ → Prop} {s : σ}
    (h : wp m P s) (himp : ∀ a s', P a s' → Q a s') : wp m Q s := by
  obtain ⟨a, s', heq, hp⟩ := wp_iff_exists.mp h
  exact wp_of_eq heq (himp a s' hp)

theorem wp_and {m : Prog σ α} {P Q : α → σ → Prop} {s : σ} (hp : wp m P s)
    (hq : wp m Q s) : wp m (fun a s' => P a s' ∧ Q a s') s := by
  obtain ⟨a, s', heq, hpa⟩ := wp_iff_exists.mp hp
  exact wp_of_eq heq ⟨hpa, (wp_iff_of_eq heq).mp hq⟩

@[simp] theorem wp_pure (a : α) (Q : α → σ → Prop) (s : σ) :
    wp (pure a) Q s ↔ Q a s := Iff.rfl

@[simp] theorem wp_bind (m : Prog σ α) (f : α → Prog σ β)
    (Q : β → σ → Prop) (s : σ) :
    wp (m >>= f) Q s ↔ wp m (fun a s' => wp (f a) Q s') s := by
  change (match (m >>= f) s with
    | .ok (b, s') => Q b s'
    | .error _ => False) ↔ _
  have hrun : (m >>= f) s = match m s with
      | .ok (a, s') => f a s'
      | .error e => .error e := by
    change (m s >>= fun p => f p.1 p.2) = _
    cases m s <;> rfl
  rw [hrun]
  unfold wp
  cases m s <;> rfl

theorem bind_eq_ok {m : Prog σ α} {f : α → Prog σ β} {s s' : σ} {b : β}
    (h : (m >>= f) s = .ok (b, s')) :
    ∃ a t, m s = .ok (a, t) ∧ f a t = .ok (b, s') := by
  change (m s >>= fun p => f p.1 p.2) = _ at h
  cases hm : m s with
  | error e =>
      rw [hm] at h
      cases h
  | ok p =>
      rw [hm] at h
      exact ⟨p.1, p.2, rfl, h⟩

@[simp] theorem wp_map (f : α → β) (m : Prog σ α) (Q : β → σ → Prop) (s : σ) :
    wp (f <$> m) Q s ↔ wp m (fun a s' => Q (f a) s') s := by
  rw [← bind_pure_comp, wp_bind]
  rfl

@[simp] theorem wp_get (Q : σ → σ → Prop) (s : σ) :
    wp (get : Prog σ σ) Q s ↔ Q s s := Iff.rfl

@[simp] theorem wp_set (t : σ) (Q : PUnit → σ → Prop) (s : σ) :
    wp (set t : Prog σ PUnit) Q s ↔ Q ⟨⟩ t := Iff.rfl

@[simp] theorem wp_modify (f : σ → σ) (Q : PUnit → σ → Prop) (s : σ) :
    wp (modify f : Prog σ PUnit) Q s ↔ Q ⟨⟩ (f s) := Iff.rfl

@[simp] theorem wp_modifyGet (f : σ → α × σ) (Q : α → σ → Prop) (s : σ) :
    wp (modifyGet f : Prog σ α) Q s ↔ Q (f s).1 (f s).2 := Iff.rfl

@[simp] theorem wp_throw (e : Fault) (Q : α → σ → Prop) (s : σ) :
    wp (throw e : Prog σ α) Q s ↔ False := Iff.rfl

@[simp] theorem wp_ite (c : Prop) [Decidable c] (m n : Prog σ α)
    (Q : α → σ → Prop) (s : σ) :
    wp (if c then m else n) Q s ↔ if c then wp m Q s else wp n Q s := by
  split <;> rfl

@[simp] theorem wp_assert (c : Prop) [Decidable c] (Q : Unit → σ → Prop)
    (s : σ) : wp (assert c) Q s ↔ c ∧ Q () s := by
  unfold assert
  by_cases h : c <;> simp [h]

@[simp] theorem wp_zoom (get : τ → σ) (put : σ → τ → τ) (m : Prog σ α)
    (Q : α → τ → Prop) (t : τ) :
    wp (zoom get put m) Q t ↔ wp m (fun a s => Q a (put s t)) (get t) := by
  unfold wp zoom
  cases m (get t) <;> rfl

theorem zoom_eq_ok {get : τ → σ} {put : σ → τ → τ} {m : Prog σ α} {t t' : τ}
    {a : α} (h : zoom get put m t = .ok (a, t')) :
    ∃ s, m (get t) = .ok (a, s) ∧ t' = put s t := by
  unfold zoom at h
  cases hm : m (get t) with
  | error e =>
      rw [hm] at h
      cases h
  | ok p =>
      rw [hm] at h
      cases h
      exact ⟨p.2, rfl, rfl⟩

theorem zoom_map (get : τ → σ) (put : σ → τ → τ) (f : α → β) (m : Prog σ α) :
    zoom get put (f <$> m) = f <$> zoom get put m := by
  funext t
  change zoom get put (f <$> m) t =
    (zoom get put m t >>= fun p => .ok (f p.1, p.2))
  have hmap : (f <$> m) (get t) = (m (get t) >>= fun p => .ok (f p.1, p.2)) := rfl
  unfold zoom
  rw [hmap]
  cases m (get t) <;> rfl

/-! ## Frames

`Keeps R m` says that `m`, if it returns, leads from a state to one that is
related to it.
-/

def Keeps (R : σ → σ → Prop) (m : Prog σ α) : Prop :=
  ∀ s a t, m s = .ok (a, t) → R s t

section Keeps

variable {R : σ → σ → Prop}

theorem Keeps.throw (e : Fault) : Keeps R (throw e : Prog σ α) :=
  fun _ _ _ h => nomatch h

theorem Keeps.pure (hrefl : ∀ s, R s s) (a : α) : Keeps R (pure a : Prog σ α) := by
  intro s b t h
  cases h
  exact hrefl s

theorem Keeps.get (hrefl : ∀ s, R s s) : Keeps R (get : Prog σ σ) := by
  intro s b t h
  cases h
  exact hrefl s

theorem Keeps.modify {f : σ → σ} (hf : ∀ s, R s (f s)) :
    Keeps R (modify f : Prog σ PUnit) := by
  intro s b t h
  cases h
  exact hf s

theorem Keeps.bind {m : Prog σ α} {f : α → Prog σ β}
    (htrans : ∀ s t u, R s t → R t u → R s u) (hm : Keeps R m)
    (hf : ∀ a, Keeps R (f a)) : Keeps R (m >>= f) := by
  intro s b u h
  obtain ⟨a, t, hfirst, hrest⟩ := bind_eq_ok h
  exact htrans s t u (hm s a t hfirst) (hf a t b u hrest)

theorem Keeps.zoom {R : τ → τ → Prop} {get : τ → σ} {put : σ → τ → τ}
    {m : Prog σ α} (h : ∀ t a s, m (get t) = .ok (a, s) → R t (put s t)) :
    Keeps R (zoom get put m) := by
  intro t a t' hm
  obtain ⟨s, heq, rfl⟩ := zoom_eq_ok hm
  exact h t a s heq

theorem Keeps.ite {c : Prop} [Decidable c] {m n : Prog σ α} (hm : Keeps R m)
    (hn : Keeps R n) : Keeps R (if c then m else n) := by
  split
  · exact hm
  · exact hn

theorem Keeps.assert (hrefl : ∀ s, R s s) (c : Prop) [Decidable c] :
    Keeps R (assert c) := .ite (.pure hrefl ()) (.throw _)

theorem Keeps.eq {m : Prog σ α} (hm : Keeps (· = ·) m) {s t : σ} {a : α}
    (h : m s = .ok (a, t)) : t = s := (hm s a t h).symm

end Keeps

/-! ## Fuel

`Le m n` says that `n` returns whatever `m` returns: `n` is `m` with more
fuel.  Programs built from monotone pieces are monotone, so what a program
returns does not depend on the fuel that was enough for it.
-/

def Le (m n : Prog σ α) : Prop :=
  ∀ s r, m s = .ok r → n s = .ok r

theorem Le.refl (m : Prog σ α) : Le m m := fun _ _ h => h

theorem Le.trans {l m n : Prog σ α} (h₁ : Le l m) (h₂ : Le m n) : Le l n :=
  fun s r h => h₂ s r (h₁ s r h)

theorem Le.throw (e : Fault) (m : Prog σ α) : Le (throw e) m :=
  fun _ _ h => nomatch h

theorem Le.bind {m n : Prog σ α} {f g : α → Prog σ β}
    (hm : Le m n) (hf : ∀ a, Le (f a) (g a)) : Le (m >>= f) (n >>= g) := by
  intro s r h
  change (m s >>= fun p => f p.1 p.2) = _ at h
  change (n s >>= fun p => g p.1 p.2) = _
  cases hms : m s with
  | error e =>
      rw [hms] at h
      cases h
  | ok p =>
      rw [hms] at h
      rw [hm s p hms]
      exact hf p.1 p.2 r h

theorem Le.ite {c : Prop} [Decidable c] {m m' n n' : Prog σ α}
    (hm : Le m m') (hn : Le n n') :
    Le (if c then m else n) (if c then m' else n') := by
  split
  · exact hm
  · exact hn

theorem Le.zoom {get : τ → σ} {put : σ → τ → τ} {m n : Prog σ α}
    (h : Le m n) : Le (zoom get put m) (zoom get put n) := by
  intro t r hr
  unfold Prog.zoom at hr ⊢
  cases hm : m (get t) with
  | error e =>
      rw [hm] at hr
      cases hr
  | ok p =>
      rw [hm] at hr
      rw [h _ _ hm]
      exact hr

/-- A fuelled program whose result does not change once it has one. -/
def Monotone (m : Nat → Prog σ α) : Prop := ∀ fuel, Le (m fuel) (m (fuel + 1))

theorem Monotone.le {m : Nat → Prog σ α} (h : Monotone m) {i j : Nat}
    (hij : i ≤ j) : Le (m i) (m j) := by
  induction hij with
  | refl => exact Le.refl _
  | step _ ih => exact ih.trans (h _)

/-- The call returns `r`: every large enough amount of fuel gives `r`. -/
def Returns (m : Nat → Prog σ α) (s : σ) (r : α × σ) : Prop :=
  ∃ enough, ∀ fuel, enough ≤ fuel → m fuel s = .ok r

theorem Returns.unique {m : Nat → Prog σ α} {s : σ} {r r' : α × σ}
    (h : Returns m s r) (h' : Returns m s r') : r = r' := by
  obtain ⟨i, hi⟩ := h
  obtain ⟨j, hj⟩ := h'
  have hr := hi (max i j) (Nat.le_max_left i j)
  rw [hj (max i j) (Nat.le_max_right i j)] at hr
  exact (Except.ok.inj hr).symm

theorem Monotone.returns {m : Nat → Prog σ α} (h : Monotone m) {fuel : Nat}
    {s : σ} {r : α × σ} (hr : m fuel s = .ok r) : Returns m s r :=
  ⟨fuel, fun _ hle => h.le hle s r hr⟩

theorem Returns.of_forall_wp {m : Nat → Prog σ α} {s s' : σ} {a : α}
    (h : ∃ enough, ∀ fuel, enough ≤ fuel →
      wp (m fuel) (fun b t => b = a ∧ t = s') s) : Returns m s (a, s') := by
  obtain ⟨enough, h⟩ := h
  refine ⟨enough, fun fuel hle => ?_⟩
  obtain ⟨b, t, heq, rfl, rfl⟩ := wp_iff_exists.mp (h fuel hle)
  exact heq

/-- A caller may pass on less fuel than it has. -/
theorem Returns.of_succ {m : Nat → Prog σ α} {s : σ} {r : α × σ}
    (h : Returns (fun fuel => m (fuel + 1)) s r) : Returns m s r := by
  obtain ⟨enough, h⟩ := h
  refine ⟨enough + 1, fun fuel hle => ?_⟩
  obtain ⟨fuel, rfl⟩ : ∃ k, fuel = k + 1 := ⟨fuel - 1, by omega⟩
  exact h fuel (by omega)

theorem Returns.pure (a : α) (s : σ) :
    Returns (fun _ => (pure a : Prog σ α)) s (a, s) :=
  ⟨0, fun _ _ => rfl⟩

theorem Returns.bind {m : Nat → Prog σ α} {f : Nat → α → Prog σ β}
    {s s' : σ} {a : α} {r : β × σ} (hm : Returns m s (a, s'))
    (hf : Returns (fun fuel => f fuel a) s' r) :
    Returns (fun fuel => m fuel >>= f fuel) s r := by
  obtain ⟨i, hi⟩ := hm
  obtain ⟨j, hj⟩ := hf
  refine ⟨max i j, fun fuel hle => ?_⟩
  change (m fuel s >>= fun p => f fuel p.1 p.2) = _
  rw [hi fuel (by omega)]
  exact hj fuel (by omega)

theorem Returns.of_bind {m : Nat → Prog σ α} {f : Nat → α → Prog σ β}
    (hm : Monotone m) (hf : ∀ a, Monotone (fun fuel => f fuel a)) {s : σ}
    {r : β × σ} (h : Returns (fun fuel => m fuel >>= f fuel) s r) :
    ∃ a t, Returns m s (a, t) ∧ Returns (fun fuel => f fuel a) t r := by
  obtain ⟨enough, h⟩ := h
  obtain ⟨a, t, hfirst, hrest⟩ := bind_eq_ok (h enough (Nat.le_refl _))
  exact ⟨a, t, hm.returns hfirst, (hf a).returns hrest⟩

/-- A call that meets `Q` with any sufficient fuel returns, and what it
returns meets `Q`. -/
theorem exists_returns {m : Nat → Prog σ α} (hm : Monotone m) {s : σ}
    {Q : α → σ → Prop} {enough : Nat} (h : wp (m enough) Q s) :
    ∃ a s', Returns m s (a, s') ∧ Q a s' := by
  obtain ⟨a, s', heq, hq⟩ := wp_iff_exists.mp h
  exact ⟨a, s', hm.returns heq, hq⟩

theorem Returns.of_wp {m : Nat → Prog σ α} (hm : Monotone m) {s : σ}
    {Q : α → σ → Prop} {enough : Nat} (h : wp (m enough) Q s)
    {a : α} {s' : σ} (hr : Returns m s (a, s')) : Q a s' := by
  obtain ⟨b, t, hbt, hq⟩ := exists_returns hm h
  cases hr.unique hbt
  exact hq

end Prog

end Librfn.Logic
