import Librfn.Protothreads.Coroutine

/-!
# Calling a protothread synchronously

`PT_CALL` runs a protothread to its end.  What it does is what the body does
with every point where it may be left taken out: a wait becomes a busy loop and
the call of a child a loop around the child.
-/

namespace Librfn.Protothread

open Librfn.Logic

variable {σ : Type}

/-- `pt_spawn_res` is new in every call. -/
def resetSpawnRes : Code (Locals σ) Unit :=
  .lift (modify fun l => { l with spawnRes := .yielded })

abbrev Plain (σ : Type) := Stmt (Locals σ) PtState

def busyWait (c : Code (Locals σ) Bool) : Plain σ :=
  .loop (c.bind fun b => .pure !b) (.act resetSpawnRes)

def busyCall (thread : Code (Locals σ) PtState) : Plain σ :=
  .loop ((assignSpawnRes thread).bind fun _ => spawnActive) (.act resetSpawnRes)

/-- The body without the points where it may be left. -/
def Thread.erase : Thread σ → Plain σ
  | .skip => .skip
  | .act m => .act m
  | .seq t u => .seq t.erase u.erase
  | .ite c t u => .ite c t.erase u.erase
  | .loop c t => .loop c t.erase
  | .wait _ => .act resetSpawnRes
  | .waitUntil _ c => busyWait c
  | .yield _ => .act resetSpawnRes
  | .exit => .ret (.pure .exited)
  | .fail => .ret (.pure .failed)
  | .spawn _ init thread => .seq (.act init) (busyCall thread)

def Suspended.erase : Suspended σ → Plain σ
  | .after => .skip
  | .polling c => busyWait c
  | .awaiting thread => busyCall thread
  | .within k t => .seq k.erase t.erase

/-- A thread that is called until it has ended, its last result, and the
variables then. -/
inductive Completes : Running σ → Locals σ → Option PtState → Locals σ → Prop
  | done {m : Running σ} {l l' : Locals σ} : m.Returns l (none, l') → Completes m l none l'
  | ended {m : Running σ} {l l' : Locals σ} {left : Leave σ} :
      m.Returns l (some left, l') → left.rest = none → Completes m l (some left.result) l'
  | again {m : Running σ} {l l₁ l' : Locals σ} {left : Leave σ} {k : Suspended σ}
      {res : Option PtState} :
      m.Returns l (some left, l₁) → left.rest = some k →
      Completes k.resume { l₁ with spawnRes := .yielded } res l' → Completes m l res l'

theorem Completes.of_returns {m n : Running σ} {l₁ l l' : Locals σ} {res : Option PtState}
    (h : Completes m l₁ res l') (hmn : ∀ r, m.Returns l₁ r → n.Returns l r) :
    Completes n l res l' := by
  cases h with
  | done hm => exact .done (hmn _ hm)
  | ended hm hrest => exact .ended (hmn _ hm) hrest
  | again hm hrest hk => exact .again (hmn _ hm) hrest hk

theorem returns_before {t : Thread σ} {m : Running σ} {l l' : Locals σ}
    {o : Option (Leave σ)} (h : m.Returns l (o, l')) :
    (before t m).Returns l (o.map (Leave.before t), l') :=
  Code.returns_bind.mpr ⟨o, l', h, Code.returns_pure.mpr rfl⟩

theorem of_returns_before {t : Thread σ} {m : Running σ} {l l' : Locals σ}
    {o : Option (Leave σ)} (h : (before t m).Returns l (o, l')) :
    ∃ o', m.Returns l (o', l') ∧ o = o'.map (Leave.before t) := by
  obtain ⟨o', l₁, hm, hr⟩ := Code.returns_bind.mp h
  cases Code.returns_pure.mp hr
  exact ⟨o', hm, rfl⟩

/-! ## The plain body ends where the thread ends -/

section Completes

variable {m : Running σ} {t : Thread σ} {c : Code (Locals σ) Bool} {l l₁ l' : Locals σ}
  {res : Option PtState}

theorem Completes.andThen (h : Completes m l none l₁) (ht : Completes t.run l₁ res l') :
    Completes ((before t m).andThen t.run) l res l' := by
  generalize hnone : (none : Option PtState) = o at h
  induction h with
  | done hm =>
      apply ht.of_returns
      intro r hr
      exact Code.returns_andThen.mpr (.inl ⟨_, returns_before hm, hr⟩)
  | ended hm hrest => cases hnone
  | @again m l l₁ _ left k _ hm hrest hk ih =>
      have hleft := returns_before (t := t) hm
      apply Completes.again (Code.returns_andThen.mpr (.inr ⟨_, _, hleft, rfl⟩))
      · simp only [Leave.before, hrest]
        rfl
      · exact ih ht hnone

theorem Completes.leave {last : PtState} (h : Completes m l (some last) l') :
    Completes ((before t m).andThen t.run) l (some last) l' := by
  generalize hsome : some last = o at h
  induction h with
  | done hm => cases hsome
  | ended hm hrest =>
      have hleft := returns_before (t := t) hm
      apply Completes.ended (Code.returns_andThen.mpr (.inr ⟨_, _, hleft, rfl⟩))
      simp only [Leave.before, hrest]
      rfl
  | @again m l l₁ _ left k _ hm hrest hk ih =>
      have hleft := returns_before (t := t) hm
      apply Completes.again (Code.returns_andThen.mpr (.inr ⟨_, _, hleft, rfl⟩))
      · simp only [Leave.before, hrest]
        rfl
      · exact ih hsome

theorem Completes.turn (hc : c.Returns l (true, l₁))
    (h : Completes ((before (.loop c t) t.run).andThen (Thread.loop c t).run) l₁ res l') :
    Completes (Thread.loop c t).run l res l' := by
  apply h.of_returns
  intro r hr
  apply Code.Returns.whileLoop
  exact Code.returns_bind.mpr ⟨true, l₁, hc, hr⟩

theorem returns_act {m : Code (Locals σ) Unit} {r : Option PtState × Locals σ} :
    (Stmt.act m).exec.Returns l r ↔ m.Returns l ((), r.2) ∧ r.1 = none := by
  simp only [Stmt.exec, Code.returns_bind, Code.returns_pure]
  constructor
  · rintro ⟨_, l', hm, rfl⟩
    exact ⟨hm, rfl⟩
  · rintro ⟨hm, hr⟩
    exact ⟨(), r.2, hm, Prod.ext hr rfl⟩

theorem returns_reset {r : Option PtState × Locals σ} :
    (Stmt.act resetSpawnRes).exec.Returns l r ↔
      r = (none, { l with spawnRes := .yielded }) := by
  rw [returns_act]
  unfold resetSpawnRes
  rw [Code.returns_modify]
  constructor
  · rintro ⟨hl, hr⟩
    have hvars : r.2 = { l with spawnRes := .yielded } := congrArg Prod.snd hl
    exact Prod.ext hr hvars
  · rintro rfl
    exact ⟨rfl, rfl⟩

theorem returns_ret {last : PtState} {r : Option PtState × Locals σ} :
    (Stmt.ret (.pure last)).exec.Returns l r ↔ r = (some last, l) := by
  simp [Stmt.exec]

theorem completes_busyWait (h : (busyWait c).exec.Returns l (res, l')) :
    Completes (poll c) l res l' := by
  have hpoll : ∀ {l l₁ : Locals σ} {b : Bool},
      (c.bind fun b => Code.pure !b).Returns l (b, l₁) → c.Returns l (!b, l₁) := by
    intro l l₁ b hb
    obtain ⟨b', l₂, hc, hr⟩ := Code.returns_bind.mp hb
    cases Code.returns_pure.mp hr
    rwa [Bool.not_not]
  refine Code.whileLoop_induction (P := fun l res l' => Completes (poll c) l res l')
    ?_ ?_ ?_ h
  · intro l l' hc
    exact .done (Code.returns_bind.mpr ⟨true, l', hpoll hc, Code.returns_pure.mpr rfl⟩)
  · intro l l₁ b l₂ hc hreset
    cases returns_reset.mp hreset
  · intro l l₁ l₂ res l' hc hreset ih
    cases returns_reset.mp hreset
    have hleft : (poll c).Returns l (some ⟨.waiting, some (.polling c), by simp [active]⟩, l₁) :=
      Code.returns_bind.mpr ⟨false, l₁, hpoll hc, Code.returns_pure.mpr rfl⟩
    exact .again hleft rfl ih

theorem returns_spawnActive {r : Bool × Locals σ} :
    spawnActive.Returns l r ↔ r = (active l.spawnRes, l) := by
  constructor
  · intro h
    exact h.unique ⟨0, fun _ _ => rfl⟩
  · rintro rfl
    exact ⟨0, fun _ _ => rfl⟩

theorem returns_await {thread : Code (Locals σ) PtState} {r : Option (Leave σ) × Locals σ} :
    (await thread).Returns l r ↔ ∃ l₁, (assignSpawnRes thread).Returns l ((), l₁) ∧
      (if h : active l₁.spawnRes = true then suspend l₁.spawnRes (.awaiting thread) h
        else .pure none).Returns l₁ r := by
  unfold await
  simp only [Code.returns_bind]
  constructor
  · rintro ⟨_, l₁, hassign, l₂, l₃, hget, hr⟩
    have heq : (l₂, l₃) = (l₁, l₁) := hget.unique ⟨0, fun _ _ => rfl⟩
    cases heq
    exact ⟨l₁, hassign, hr⟩
  · rintro ⟨l₁, hassign, hr⟩
    exact ⟨(), l₁, hassign, l₁, l₁, ⟨0, fun _ _ => rfl⟩, hr⟩

theorem completes_busyCall {thread : Code (Locals σ) PtState}
    (h : (busyCall thread).exec.Returns l (res, l')) : Completes (await thread) l res l' := by
  have hcond : ∀ {l l₁ : Locals σ} {b : Bool},
      ((assignSpawnRes thread).bind fun _ => spawnActive).Returns l (b, l₁) →
      (assignSpawnRes thread).Returns l ((), l₁) ∧ b = active l₁.spawnRes := by
    intro l l₁ b hb
    obtain ⟨_, l₂, hassign, hactive⟩ := Code.returns_bind.mp hb
    cases returns_spawnActive.mp hactive
    exact ⟨hassign, rfl⟩
  refine Code.whileLoop_induction (P := fun l res l' => Completes (await thread) l res l')
    ?_ ?_ ?_ h
  · intro l l' hc
    obtain ⟨hassign, hactive⟩ := hcond hc
    refine .done (returns_await.mpr ⟨l', hassign, ?_⟩)
    simp [← hactive]
  · intro l l₁ b l₂ hc hreset
    cases returns_reset.mp hreset
  · intro l l₁ l₂ res l' hc hreset ih
    cases returns_reset.mp hreset
    obtain ⟨hassign, hactive⟩ := hcond hc
    have hleft : (await thread).Returns l
        (some ⟨l₁.spawnRes, some (.awaiting thread), by simp [← hactive]⟩, l₁) := by
      refine returns_await.mpr ⟨l₁, hassign, ?_⟩
      rw [dif_pos hactive.symm]
      exact Code.returns_pure.mpr rfl
    exact .again hleft rfl ih

theorem Thread.completes_of_erase (t : Thread σ) {l l' : Locals σ} {res : Option PtState}
    (h : t.erase.exec.Returns l (res, l')) : Completes t.run l res l' := by
  induction t generalizing l l' res with
  | skip =>
      cases Code.returns_pure.mp h
      exact .done (Code.returns_pure.mpr rfl)
  | act m =>
      obtain ⟨hm, rfl⟩ := returns_act.mp h
      exact .done (Code.returns_bind.mpr ⟨_, l', hm, Code.returns_pure.mpr rfl⟩)
  | seq t u iht ihu =>
      rcases Code.returns_andThen.mp h with ⟨l₁, ht, hu⟩ | ⟨last, l₁, ht, hr⟩
      · exact (iht ht).andThen (ihu hu)
      · cases hr
        exact (iht ht).leave
  | ite c t u iht ihu =>
      obtain ⟨b, l₁, hc, hr⟩ := Code.returns_bind.mp h
      cases b with
      | true =>
          apply (iht hr).of_returns
          exact fun r hr => Code.returns_bind.mpr ⟨true, l₁, hc, hr⟩
      | false =>
          apply (ihu hr).of_returns
          exact fun r hr => Code.returns_bind.mpr ⟨false, l₁, hc, hr⟩
  | loop c t ih =>
      refine Code.whileLoop_induction
        (P := fun l res l' => Completes (Thread.loop c t).run l res l') ?_ ?_ ?_ h
      · intro l l' hc
        apply Completes.done
        apply Code.Returns.whileLoop
        exact Code.returns_bind.mpr ⟨false, l', hc, Code.returns_pure.mpr rfl⟩
      · intro l l₁ last l₂ hc ht
        exact .turn hc (ih ht).leave
      · intro l l₁ l₂ res l' hc ht hrest
        exact .turn hc ((ih ht).andThen hrest)
  | wait line =>
      cases returns_reset.mp h
      exact .again (Code.returns_pure.mpr rfl) rfl (.done (Code.returns_pure.mpr rfl))
  | yield line =>
      cases returns_reset.mp h
      exact .again (Code.returns_pure.mpr rfl) rfl (.done (Code.returns_pure.mpr rfl))
  | waitUntil line c => exact completes_busyWait h
  | exit =>
      cases returns_ret.mp h
      exact .ended (Code.returns_pure.mpr rfl) rfl
  | fail =>
      cases returns_ret.mp h
      exact .ended (Code.returns_pure.mpr rfl) rfl
  | spawn line init thread =>
      rcases Code.returns_andThen.mp h with ⟨l₁, hinit, hcall⟩ | ⟨last, l₁, hinit, hr⟩
      · apply (completes_busyCall hcall).of_returns
        exact fun r hr => Code.returns_bind.mpr ⟨_, l₁, (returns_act.mp hinit).1, hr⟩
      · cases (returns_act.mp hinit).2

end Completes

/-! ## The thread ends where the plain body ends -/

def Finishes (o : Option (Leave σ)) (l : Locals σ) (res : Option PtState) (l' : Locals σ) :
    Prop :=
  match o with
  | none => res = none ∧ l' = l
  | some left =>
      match left.rest with
      | none => res = some left.result ∧ l' = l
      | some k => k.erase.exec.Returns { l with spawnRes := .yielded } (res, l')

/-- `s` does what the calls of `m` and of what is left of it do. -/
def Flattens (s : Plain σ) (m : Running σ) : Prop :=
  ∀ l o l₁ res l', m.Returns l (o, l₁) → Finishes o l₁ res l' → s.exec.Returns l (res, l')

section Flattens

variable {m : Running σ} {s : Plain σ} {t u : Thread σ} {c : Code (Locals σ) Bool}

theorem Finishes.none {l l' : Locals σ} {res : Option PtState}
    (h : Finishes Option.none l res l') : res = Option.none ∧ l' = l := h

theorem Flattens.before (h : Flattens s m) {l l₁ l' : Locals σ} {o : Option (Leave σ)}
    {res : Option PtState} (hm : m.Returns l (o, l₁))
    (hfin : Finishes (o.map (Leave.before t)) l₁ res l') (hsome : o ≠ .none) :
    (s.exec.andThen t.erase.exec).Returns l (res, l') := by
  cases o with
  | none => exact absurd rfl hsome
  | some left =>
      cases hrest : left.rest with
      | none =>
          simp only [Finishes, Option.map_some, Leave.before, hrest, Option.map_none] at hfin
          obtain ⟨rfl, rfl⟩ := hfin
          have hs : s.exec.Returns l (some left.result, l') := by
            apply h l (some left) l' _ _ hm
            simp [Finishes, hrest]
          exact Code.returns_andThen.mpr (.inr ⟨_, _, hs, rfl⟩)
      | some k =>
          simp only [Finishes, Option.map_some, Leave.before, hrest] at hfin
          have hs : ∀ r l₂, k.erase.exec.Returns { l₁ with spawnRes := .yielded } (r, l₂) →
              s.exec.Returns l (r, l₂) := by
            intro r l₂ hk
            apply h l (some left) l₁ _ _ hm
            simpa [Finishes, hrest] using hk
          rcases Code.returns_andThen.mp hfin with ⟨l₂, hk, ht⟩ | ⟨last, l₂, hk, hr⟩
          · exact Code.returns_andThen.mpr (.inl ⟨l₂, hs _ _ hk, ht⟩)
          · cases hr
            exact Code.returns_andThen.mpr (.inr ⟨last, _, hs _ _ hk, rfl⟩)

theorem Flattens.andThen (h : Flattens s m) (ht : Flattens t.erase t.run) :
    Flattens (.seq s t.erase) ((Protothread.before t m).andThen t.run) := by
  intro l o l₁ res l' hm hfin
  rcases Code.returns_andThen.mp hm with ⟨l₂, hbefore, hrun⟩ | ⟨left, l₂, hbefore, hr⟩
  · obtain ⟨o', hm', ho⟩ := of_returns_before hbefore
    obtain rfl := Option.map_eq_none_iff.mp ho.symm
    have hs : s.exec.Returns l (none, l₂) := h _ _ _ _ _ hm' ⟨rfl, rfl⟩
    exact Code.returns_andThen.mpr (.inl ⟨l₂, hs, ht _ _ _ _ _ hrun hfin⟩)
  · cases hr
    obtain ⟨o', hm', ho⟩ := of_returns_before hbefore
    rw [ho] at hfin
    exact h.before hm' hfin (by rintro rfl; cases ho)

theorem flattens_poll : Flattens (busyWait c) (poll c) := by
  intro l o l₁ res l' hm hfin
  obtain ⟨b, l₂, hc, hr⟩ := Code.returns_bind.mp hm
  have hcond : (c.bind fun b => Code.pure !b).Returns l (!b, l₂) :=
    Code.returns_bind.mpr ⟨b, l₂, hc, Code.returns_pure.mpr rfl⟩
  apply Code.Returns.whileLoop
  refine Code.returns_bind.mpr ⟨!b, l₂, hcond, ?_⟩
  cases b with
  | true =>
      cases Code.returns_pure.mp hr
      obtain ⟨rfl, rfl⟩ := hfin.none
      exact Code.returns_pure.mpr rfl
  | false =>
      cases Code.returns_pure.mp hr
      exact Code.returns_andThen.mpr (.inl ⟨_, returns_reset.mpr rfl, hfin⟩)

theorem flattens_await {thread : Code (Locals σ) PtState} :
    Flattens (busyCall thread) (await thread) := by
  intro l o l₁ res l' hm hfin
  obtain ⟨l₂, hassign, hr⟩ := returns_await.mp hm
  have hcond : ((assignSpawnRes thread).bind fun _ => spawnActive).Returns l
      (active l₂.spawnRes, l₂) :=
    Code.returns_bind.mpr ⟨_, l₂, hassign, returns_spawnActive.mpr rfl⟩
  apply Code.Returns.whileLoop
  refine Code.returns_bind.mpr ⟨_, l₂, hcond, ?_⟩
  split at hr
  · rename_i hactive
    cases Code.returns_pure.mp hr
    rw [hactive]
    exact Code.returns_andThen.mpr (.inl ⟨_, returns_reset.mpr rfl, hfin⟩)
  · rename_i hactive
    cases Code.returns_pure.mp hr
    obtain ⟨rfl, rfl⟩ := hfin.none
    rw [if_neg hactive]
    exact Code.returns_pure.mpr rfl

theorem Thread.flattens (t : Thread σ) : Flattens t.erase t.run := by
  induction t with
  | skip =>
      intro l o l₁ res l' hm hfin
      cases Code.returns_pure.mp hm
      obtain ⟨rfl, rfl⟩ := hfin.none
      exact Code.returns_pure.mpr rfl
  | act m =>
      intro l o l₁ res l' hm hfin
      obtain ⟨_, l₂, hact, hr⟩ := Code.returns_bind.mp hm
      cases Code.returns_pure.mp hr
      obtain ⟨rfl, rfl⟩ := hfin.none
      exact returns_act.mpr ⟨hact, rfl⟩
  | seq t u iht ihu => exact iht.andThen ihu
  | ite c t u iht ihu =>
      intro l o l₁ res l' hm hfin
      obtain ⟨b, l₂, hc, hr⟩ := Code.returns_bind.mp hm
      refine Code.returns_bind.mpr ⟨b, l₂, hc, ?_⟩
      cases b with
      | true => exact iht _ _ _ _ _ hr hfin
      | false => exact ihu _ _ _ _ _ hr hfin
  | loop c t ih =>
      intro l o l₁ res l' hm hfin
      refine Code.whileLoop_induction (P := fun l o l₁ => Finishes o l₁ res l' →
        (Thread.loop c t).erase.exec.Returns l (res, l')) ?_ ?_ ?_ hm hfin
      · intro l l₁ hc hfin
        obtain ⟨rfl, rfl⟩ := hfin.none
        apply Code.Returns.whileLoop
        exact Code.returns_bind.mpr ⟨false, _, hc, Code.returns_pure.mpr rfl⟩
      · intro l l₁ left l₂ hc hm hfin
        obtain ⟨o', hm', ho⟩ := of_returns_before hm
        rw [ho] at hfin
        apply Code.Returns.whileLoop
        refine Code.returns_bind.mpr ⟨true, l₁, hc, ?_⟩
        exact ih.before hm' hfin (by rintro rfl; cases ho)
      · intro l l₁ l₂ o l₃ hc hm hrest hfin
        obtain ⟨o', hm', ho⟩ := of_returns_before hm
        obtain rfl := Option.map_eq_none_iff.mp ho.symm
        apply Code.Returns.whileLoop
        refine Code.returns_bind.mpr ⟨true, l₁, hc, ?_⟩
        have ht : t.erase.exec.Returns l₁ (none, l₂) := ih _ _ _ _ _ hm' ⟨rfl, rfl⟩
        exact Code.returns_andThen.mpr (.inl ⟨l₂, ht, hrest hfin⟩)
  | wait line =>
      intro l o l₁ res l' hm hfin
      cases Code.returns_pure.mp hm
      cases Code.returns_pure.mp hfin
      exact returns_reset.mpr rfl
  | yield line =>
      intro l o l₁ res l' hm hfin
      cases Code.returns_pure.mp hm
      cases Code.returns_pure.mp hfin
      exact returns_reset.mpr rfl
  | waitUntil line c => exact flattens_poll
  | exit =>
      intro l o l₁ res l' hm hfin
      cases Code.returns_pure.mp hm
      obtain ⟨rfl, rfl⟩ := hfin
      exact returns_ret.mpr rfl
  | fail =>
      intro l o l₁ res l' hm hfin
      cases Code.returns_pure.mp hm
      obtain ⟨rfl, rfl⟩ := hfin
      exact returns_ret.mpr rfl
  | spawn line init thread =>
      intro l o l₁ res l' hm hfin
      obtain ⟨_, l₂, hinit, hawait⟩ := Code.returns_bind.mp hm
      have hcall := flattens_await _ _ _ _ _ hawait hfin
      exact Code.returns_andThen.mpr (.inl ⟨l₂, returns_act.mpr ⟨hinit, rfl⟩, hcall⟩)

theorem Suspended.flattens (k : Suspended σ) : Flattens k.erase k.resume := by
  induction k with
  | after =>
      intro l o l₁ res l' hm hfin
      cases Code.returns_pure.mp hm
      obtain ⟨rfl, rfl⟩ := hfin.none
      exact Code.returns_pure.mpr rfl
  | polling c => exact flattens_poll
  | awaiting thread => exact flattens_await
  | within k t ih => exact ih.andThen t.flattens

theorem Completes.erased {l l' : Locals σ} {res : Option PtState} (h : Completes m l res l')
    (hs : Flattens s m) : s.exec.Returns l (res, l') := by
  induction h generalizing s with
  | done hm => exact hs _ _ _ _ _ hm ⟨rfl, rfl⟩
  | ended hm hrest =>
      apply hs _ _ _ _ _ hm
      simp [Finishes, hrest]
  | again hm hrest hk ih =>
      apply hs _ _ _ _ _ hm
      simpa [Finishes, hrest] using ih (Suspended.flattens _)

end Flattens

theorem completes_iff {t : Thread σ} {l l' : Locals σ} {res : Option PtState} :
    Completes (Suspended.within .after t).resume l res l' ↔
      t.erase.exec.Returns l (res, l') := by
  constructor
  · intro h
    have hflat := h.erased (Suspended.flattens _)
    rcases Code.returns_andThen.mp hflat with ⟨l₁, hskip, ht⟩ | ⟨_, _, hskip, -⟩
    · cases Code.returns_pure.mp hskip
      exact ht
    · cases Code.returns_pure.mp hskip
  · intro h
    exact Completes.andThen (.done (Code.returns_pure.mpr rfl)) (t.completes_of_erase h)

/-! ## The loop of `PT_CALL` -/

section Call

variable {t : Thread σ} {k : Suspended σ} {pt pt' : BitVec 16} {s s' : σ}

/-- What one call of the function does, read off the coroutine. -/
theorem returns_ptFunction (h : t.Compiles) (hk : t.LeadsTo k pt) {res : PtState}
    (hcall : (ptFunction t.expand).Returns ⟨pt, s⟩ (res, ⟨pt', s'⟩)) :
    ∃ k', resumeCall.Returns (k, s) (res, k', s') ∧
      (active res = true → t.LeadsTo k' pt') := by
  obtain ⟨fuel, hfuel⟩ := Code.returns_iff.mp hcall
  have hright : (ptThread t).call.run fuel (pt, s) = .ok (res, pt', s') := by
    change (Code.zoom _ _ (ptFunction t.expand)).run fuel (pt, s) = _
    rw [Code.run_zoom, hfuel]
  have hsame := (Thread.LeadsTo.call h k pt s fuel hk).symm
  obtain ⟨res', ⟨k', s₁⟩, hleft, rfl, hs, hfound⟩ := hsame.ok hright
  cases hs
  refine ⟨k', Code.returns_iff.mpr ⟨fuel, hleft⟩, fun hactive => ?_⟩
  exact hfound (by simp [coroutine, hactive])

theorem ptFunction_returns (h : t.Compiles) (hk : t.LeadsTo k pt) {res : PtState}
    {k' : Suspended σ} (hcall : resumeCall.Returns (k, s) (res, k', s')) :
    ∃ pt', (ptFunction t.expand).Returns ⟨pt, s⟩ (res, ⟨pt', s'⟩) ∧
      (active res = true → t.LeadsTo k' pt') := by
  obtain ⟨fuel, hfuel⟩ := Code.returns_iff.mp hcall
  obtain ⟨res', ⟨pt', s₁⟩, hright, rfl, hs, hfound⟩ :=
    (Thread.LeadsTo.call h k pt s fuel hk).ok hfuel
  cases hs
  obtain ⟨a, hrun, heq⟩ := Code.returns_zoom.mp (Code.returns_iff.mpr ⟨fuel, hright⟩)
  obtain ⟨hpt, hvars⟩ := Prod.mk.inj heq
  refine ⟨a.pt, ?_, fun hactive => ?_⟩
  · rw [show s' = a.vars from hvars]
    exact hrun
  · rw [← show pt' = a.pt from hpt]
    exact hfound (by simp [coroutine, hactive])

theorem returns_resumeCall {res : PtState} {k' : Suspended σ}
    (h : resumeCall.Returns (k, s) (res, k', s')) :
    ∃ o l, k.resume.Returns ⟨.yielded, s⟩ (o, l) ∧ l.vars = s' ∧
      match o with
      | none => res = .exited
      | some left => res = left.result ∧ k' = left.rest.getD k := by
  obtain ⟨fuel, hfuel⟩ := Code.returns_iff.mp h
  rw [resumeCall_run] at hfuel
  cases hrun : k.resume.run fuel ⟨.yielded, s⟩ with
  | error e => simp [hrun] at hfuel
  | ok r =>
      obtain ⟨o, l⟩ := r
      refine ⟨o, l, Code.returns_iff.mpr ⟨fuel, hrun⟩, ?_⟩
      cases o with
      | none =>
          simp only [hrun, Except.ok.injEq, Prod.mk.injEq] at hfuel
          exact ⟨hfuel.2.2, hfuel.1.symm⟩
      | some left =>
          simp only [hrun, Except.ok.injEq, Prod.mk.injEq] at hfuel
          exact ⟨hfuel.2.2, hfuel.1.symm, hfuel.2.1.symm⟩

theorem resumeCall_returns {o : Option (Leave σ)} {l : Locals σ}
    (h : k.resume.Returns ⟨.yielded, s⟩ (o, l)) :
    resumeCall.Returns (k, s) ((o.map Leave.result).getD .exited,
      (o.bind Leave.rest).getD k, l.vars) := by
  obtain ⟨fuel, hfuel⟩ := Code.returns_iff.mp h
  refine Code.returns_iff.mpr ⟨fuel, ?_⟩
  rw [resumeCall_run, hfuel]
  cases o <;> rfl

theorem completes_of_callLoop (h : t.Compiles) {a a' : Instance σ} {o : Option PtState}
    (hloop : (callLoop (ptFunction t.expand)).Returns a (o, a')) (hk : t.LeadsTo k a.pt) :
    ∃ res l, Completes k.resume ⟨.yielded, a.vars⟩ res l ∧ l.vars = a'.vars := by
  refine Code.whileLoop_induction (P := fun a _ a' => ∀ k, t.LeadsTo k a.pt →
    ∃ res l, Completes k.resume ⟨.yielded, a.vars⟩ res l ∧ l.vars = a'.vars)
    ?_ ?_ ?_ hloop k hk
  · intro a a' hcond k hk
    obtain ⟨res, a₁, hcall, hactive⟩ := Code.returns_bind.mp hcond
    obtain ⟨hover, rfl⟩ := Prod.mk.inj (Code.returns_pure.mp hactive)
    obtain ⟨k', hresume, -⟩ := returns_ptFunction h hk hcall
    obtain ⟨o, l, hrun, hvars, hres⟩ := returns_resumeCall hresume
    cases o with
    | none => exact ⟨none, l, .done hrun, hvars⟩
    | some left =>
        have hrest := left.finished.mpr (by rw [← hres.1, ← hover])
        exact ⟨_, l, .ended hrun hrest, hvars⟩
  · intro a a₁ b a₂ _ hbody
    cases Code.returns_pure.mp hbody
  · intro a a₁ a₂ o a' hcond hbody ih k hk
    cases Code.returns_pure.mp hbody
    obtain ⟨res, a₂, hcall, hactive⟩ := Code.returns_bind.mp hcond
    obtain ⟨hover, rfl⟩ := Prod.mk.inj (Code.returns_pure.mp hactive)
    obtain ⟨k', hresume, hfound⟩ := returns_ptFunction h hk hcall
    obtain ⟨o, l, hrun, hvars, hres⟩ := returns_resumeCall hresume
    obtain ⟨res', l', hcomp, hvars'⟩ := ih k' (hfound hover.symm)
    cases o with
    | none =>
        rw [show res = .exited from hres] at hover
        cases hover
    | some left =>
        cases hrest : left.rest with
        | none =>
            rw [hres.1, left.finished.mp hrest] at hover
            cases hover
        | some k'' =>
            have hk' : k' = k'' := by simpa [hrest] using hres.2
            subst hk'
            rw [← hvars] at hcomp
            exact ⟨res', l', .again hrun hrest hcomp, hvars'⟩

theorem callLoop_of_completes (h : t.Compiles) {l : Locals σ} {res : Option PtState}
    (hcomp : Completes k.resume ⟨.yielded, s⟩ res l) (hk : t.LeadsTo k pt) :
    ∃ pt', (callLoop (ptFunction t.expand)).Returns ⟨pt, s⟩ (none, ⟨pt', l.vars⟩) := by
  generalize hm : k.resume = m at hcomp
  generalize hstart : (⟨.yielded, s⟩ : Locals σ) = start at hcomp
  have hover : ∀ {res : PtState} {pt pt' : BitVec 16} {s s' : σ}, active res = false →
      (ptFunction t.expand).Returns ⟨pt, s⟩ (res, ⟨pt', s'⟩) →
      (callLoop (ptFunction t.expand)).Returns ⟨pt, s⟩ (none, ⟨pt', s'⟩) := by
    intro res pt pt' s s' hactive hcall
    apply Code.Returns.whileLoop
    refine Code.returns_bind.mpr ⟨false, ⟨pt', s'⟩, ?_, Code.returns_pure.mpr rfl⟩
    exact Code.returns_bind.mpr ⟨res, _, hcall, Code.returns_pure.mpr (by rw [hactive])⟩
  induction hcomp generalizing k pt s with
  | done hrun =>
      subst hm hstart
      obtain ⟨pt', hcall, -⟩ := ptFunction_returns h hk (resumeCall_returns hrun)
      exact ⟨pt', hover rfl hcall⟩
  | @ended _ _ _ left hrun hrest =>
      subst hm hstart
      obtain ⟨pt', hcall, -⟩ := ptFunction_returns h hk (resumeCall_returns hrun)
      exact ⟨pt', hover (left.finished.mp hrest) hcall⟩
  | @again _ _ l₁ _ left k' _ hrun hrest _ ih =>
      subst hm hstart
      obtain ⟨pt₁, hcall, hfound⟩ := ptFunction_returns h hk (resumeCall_returns hrun)
      have hactive : active left.result = true := by
        rw [← Bool.not_eq_false, ← left.finished.not, hrest]
        simp
      have hk' : t.LeadsTo k' pt₁ := by simpa [hrest] using hfound hactive
      obtain ⟨pt', hloop⟩ := ih hk' rfl rfl
      refine ⟨pt', ?_⟩
      apply Code.Returns.whileLoop
      refine Code.returns_bind.mpr ⟨true, ⟨pt₁, l₁.vars⟩, ?_, ?_⟩
      · exact Code.returns_bind.mpr ⟨_, _, hcall, Code.returns_pure.mpr (by simp [hactive])⟩
      · exact Code.returns_andThen.mpr (.inl ⟨_, Code.returns_pure.mpr rfl, hloop⟩)

/-- `PT_CALL` does what the body does when it never returns in between. -/
theorem ptCall_returns_iff (t : Thread σ) (h : t.Compiles) (pt : BitVec 16) (s s' : σ) :
    (∃ pt', (ptCall (ptFunction t.expand)).Returns ⟨pt, s⟩ ((), ⟨pt', s'⟩)) ↔
      ∃ res spawnRes, t.erase.exec.Returns ⟨.yielded, s⟩ (res, ⟨spawnRes, s'⟩) := by
  have hstart : t.LeadsTo (.within .after t) 0 := ⟨⟨trivial, h.toLabelled⟩, rfl⟩
  constructor
  · rintro ⟨pt', hcall⟩
    obtain ⟨_, a, hinit, hrest⟩ := Code.returns_bind.mp hcall
    cases Code.returns_modify.mp hinit
    obtain ⟨o, a', hloop, hr⟩ := Code.returns_bind.mp hrest
    cases Code.returns_pure.mp hr
    obtain ⟨res, l, hcomp, rfl⟩ := completes_of_callLoop h hloop hstart
    exact ⟨res, l.spawnRes, completes_iff.mp hcomp⟩
  · rintro ⟨res, spawnRes, hplain⟩
    obtain ⟨pt', hloop⟩ := callLoop_of_completes h (completes_iff.mpr hplain) hstart
    refine ⟨pt', Code.returns_bind.mpr ⟨(), ⟨0, s⟩, Code.returns_modify.mpr rfl, ?_⟩⟩
    exact Code.returns_bind.mpr ⟨none, _, hloop, Code.returns_pure.mpr rfl⟩

theorem ptCall_returns_iff_exitThread :
    (∃ pt', (ptCall (ptFunction (exitThread : Thread Nat).expand)).Returns ⟨7, 0⟩
      ((), ⟨pt', 0⟩)) ↔
      ∃ res spawnRes, (exitThread : Thread Nat).erase.exec.Returns ⟨.yielded, 0⟩
        (res, ⟨spawnRes, 0⟩) :=
  ptCall_returns_iff exitThread exitThread_compiles 7 0 0

end Call

end Librfn.Protothread
