import Librfn.Fibre.FastPath
import Librfn.Fibre.Wakeups

/-!
# What the queues know of one fibre

While no interrupt handler runs, whether a fibre is queued and whether it is on
the timer queue depends on the same two facts in the state before.
-/

namespace Librfn

open Librfn.Logic

variable {F : Type} [DecidableEq F]

namespace Sched

/-- From `s` to `s'` entries are moved to the run queue.  The fibre joins it if
it was there, pending or asked for, and leaves the timer queue for it. -/
structure Joins (f : F) (asked : Prop) (s s' : Sched F) : Prop where
  queued : s'.Queued f ↔ s.Queued f ∨ asked
  timerq : f ∈ s'.timerq ↔ f ∈ s.timerq ∧ ¬ s'.Queued f
  tainted : s'.taintFlags.getLsbD 0 = s.taintFlags.getLsbD 0

variable {s s' s'' : Sched F} {f g : F} {asked asked' : Prop}

omit [DecidableEq F] in
theorem Joins.trans (h : Joins f asked s s') (h' : Joins f asked' s' s'') :
    Joins f (asked ∨ asked') s s'' where
  queued := by rw [h'.queued, h.queued, or_assoc]
  timerq := by
    have hstays : ¬ s''.Queued f → ¬ s'.Queued f := mt fun hq => h'.queued.mpr (.inl hq)
    rw [h'.timerq, h.timerq]
    tauto
  tainted := h'.tainted.trans h.tainted

omit [DecidableEq F] in
theorem Settled.queued_iff (h : Settled s) (hheld : s.held = []) (f : F) :
    s.Queued f ↔ f ∈ s.runq := by
  simp [Queued, h.pending, hheld]

theorem enqueue_queued (s : Sched F) (g f : F) :
    (s.enqueue g).Queued f ↔ s.Queued f ∨ g = f := by
  unfold enqueue
  split
  · next hg =>
      refine ⟨.inl, fun h => h.elim id ?_⟩
      rintro rfl
      exact .inl hg
  · simp only [Queued, List.mem_append, List.mem_singleton]
    tauto

theorem enqueue_taintFlags (s : Sched F) (g : F) : (s.enqueue g).taintFlags = s.taintFlags := by
  unfold enqueue
  split <;> rfl

theorem mem_enqueue_timerq (hne : g ≠ f) : f ∈ (s.enqueue g).timerq ↔ f ∈ s.timerq := by
  unfold enqueue
  split
  · rfl
  · exact List.mem_erase_of_ne hne.symm

/-- What is on the run queue is not on the timer queue. -/
theorem Settled.enqueue_joins (h : Settled s) (hheld : s.held = []) (hd : Distinct s) (g : F) :
    Joins f (g = f) s (s.enqueue g) where
  queued := s.enqueue_queued g f
  timerq := by
    have hqueued := (h.enqueue g).queued_iff ((s.enqueue_held g).trans hheld) f
    by_cases hq : (s.enqueue g).Queued f
    · have hmem := (enqueue_distinct g hd).not_mem (hqueued.mp hq)
      simp [hq, hmem]
    · have hne : g ≠ f := fun heq => hq ((s.enqueue_queued g f).mpr (.inr heq))
      simp [hq, mem_enqueue_timerq hne]
  tainted := by rw [enqueue_taintFlags]

theorem release_enqueue_queued {gs : List F} (hheld : s.held = g :: gs) :
    (s.enqueue g).release.Queued f ↔ s.Queued f := by
  have hrunq := s.mem_enqueue_runq g
  have hqueued := s.enqueue_queued g f
  have hg : s.Queued g := .inr (.inr (hheld ▸ List.mem_cons_self))
  have hheld' : (s.enqueue g).held = g :: gs := (s.enqueue_held g).trans hheld
  have hrelease : (s.enqueue g).release.Queued f ↔ (s.enqueue g).Queued f := by
    simp only [Queued, release, hheld', List.tail_cons, List.mem_cons]
    constructor
    · tauto
    · rintro (hf | hf | rfl | hf)
      · exact .inl hf
      · exact .inr (.inl hf)
      · exact .inl hrunq
      · exact .inr (.inr hf)
  rw [hrelease, hqueued]
  refine ⟨fun h => h.elim id ?_, .inl⟩
  rintro rfl
  exact hg

theorem Drain.joins (h : Drain s s') (hquiet : s.interrupts = []) (hheld : s.held = [])
    (hd : Distinct s) (f : F) : Joins f False s s' := by
  have hsettled := h.settled hquiet
  have hinv : s'.interrupts = [] ∧ (s'.Queued f ↔ s.Queued f) ∧
      (¬ s.Queued f → (f ∈ s'.timerq ↔ f ∈ s.timerq)) ∧ s'.taintFlags = s.taintFlags := by
    refine h.invariant (I := fun u => u.interrupts = [] ∧ (u.Queued f ↔ s.Queued f) ∧
      (¬ s.Queued f → (f ∈ u.timerq ↔ f ∈ s.timerq)) ∧ u.taintFlags = s.taintFlags)
      ⟨hquiet, .rfl, fun _ => .rfl, rfl⟩ ?_ ?_ ?_
    · intro u hu
      rwa [interrupt_of_quiet hu.1]
    · rintro u g gs ⟨hu, hqueued, htimerq, htainted⟩ hpending
      refine ⟨hu, ?_, htimerq, htainted⟩
      rw [← hqueued]
      simp only [Queued, receive, hpending, List.mem_cons]
      tauto
    · rintro u g gs ⟨hu, hqueued, htimerq, htainted⟩ hheld'
      have hquiet' : (u.enqueue g).interrupts = [] := (enqueue_interrupts u g).trans hu
      rw [interrupt_of_quiet hquiet']
      refine ⟨hquiet', (release_enqueue_queued hheld').trans hqueued, fun hq => ?_,
        (enqueue_taintFlags u g).trans htainted⟩
      have hne : g ≠ f := by
        rintro rfl
        exact hq (hqueued.mp (.inr (.inr (hheld' ▸ List.mem_cons_self))))
      exact (mem_enqueue_timerq hne).trans (htimerq hq)
  obtain ⟨-, hqueued, htimerq, htainted⟩ := hinv
  refine ⟨by rw [hqueued, or_false], ?_, by rw [htainted]⟩
  by_cases hq : s'.Queued f
  · have hrunq := (hsettled.queued_iff (h.held.trans hheld) f).mp hq
    simp [hq, (h.distinct hd).not_mem hrunq]
  · simp [hq, htimerq (mt hqueued.mpr hq)]

/-! ## A whole pass -/

omit [DecidableEq F] in
theorem Settled.joins_of_eq (h : Settled s) (hheld : s.held = []) (hd : Distinct s)
    (hsame : s'.runq = s.runq ∧ s'.timerq = s.timerq ∧ s'.pending = s.pending ∧
      s'.held = s.held) (htaint : s'.taintFlags.getLsbD 0 = s.taintFlags.getLsbD 0) (f : F) :
    Joins f False s s' := by
  obtain ⟨hrunq, htimerq, hpending, hheld'⟩ := hsame
  have hqueued : s'.Queued f ↔ s.Queued f := by
    rw [Queued, hrunq, hpending, hheld']
    rfl
  refine ⟨by rw [hqueued, or_false], ?_, htaint⟩
  rw [hqueued, htimerq, h.queued_iff hheld]
  exact ⟨fun hf => ⟨hf, fun hrun => hd.not_mem hrun hf⟩, And.left⟩

theorem UpdateCurrent.joins (h : UpdateCurrent g s s') (hs : Settled s) (hheld : s.held = [])
    (hd : Distinct s) (f : F) : Joins f (s.state = .yielded ∧ g = f) s s' := by
  have hnot (hne : s.state ≠ .yielded) : s.state = .yielded ∧ g = f ↔ False := by simp [hne]
  cases h with
  | yielded hstate hdrain =>
      have hsettled : Settled (s.storeState g) := ⟨hs.pending, hs.quiet⟩
      rw [hdrain.of_empty hsettled.quiet hsettled.pending]
      obtain ⟨hqueued, htimerq, htainted⟩ := @Settled.enqueue_joins _ _ _ f hsettled hheld hd g
      have hasked : (s.state = .yielded ∧ g = f) ↔ g = f := and_iff_right hstate
      exact ⟨by rw [hasked]; exact hqueued, htimerq, htainted⟩
  | waiting hstate =>
      rw [hnot (by simp [hstate])]
      refine hs.joins_of_eq hheld hd ⟨?_, ?_, ?_, ?_⟩ ?_ f <;> rfl
  | exited hstate =>
      rw [hnot (by simp [hstate])]
      refine hs.joins_of_eq hheld hd ⟨?_, ?_, ?_, ?_⟩ ?_ f <;> rfl
  | failed hstate =>
      rw [hnot (by simp [hstate])]
      have htaint : (s.taintFlags ||| flag 32 5).getLsbD 0 = s.taintFlags.getLsbD 0 := by
        rw [getLsbD_or_flag _ (by decide)]
        simp
      refine hs.joins_of_eq hheld hd ⟨?_, ?_, ?_, ?_⟩ htaint f <;> rfl

theorem Update.joins (h : Update s s') (hquiet : s.interrupts = []) (hheld : s.held = [])
    (hd : Distinct s) (f : F) : Joins f (s.justYielded = some f) s s' := by
  cases h with
  | @idle s₁ hdrain hcurrent =>
      have hs := hdrain.settled hquiet
      rw [interrupt_of_quiet hs.quiet] at hcurrent ⊢
      rw [interrupt_of_quiet hs.quiet]
      have hnone : s.justYielded = none :=
        justYielded_none (hdrain.drained.current.symm.trans hcurrent)
      rw [hnone]
      simpa using hdrain.joins hquiet hheld hd f
  | @current s₁ s₂ g hdrain hcurrent hupdate =>
      have hs := hdrain.settled hquiet
      rw [interrupt_of_quiet hs.quiet] at hcurrent hupdate
      rw [interrupt_of_quiet (hupdate.settled hs).quiet]
      have hcurrent' : s.current = some g := hdrain.drained.current.symm.trans hcurrent
      have hasked : s.justYielded = some f ↔ False ∨ (s₁.state = .yielded ∧ g = f) := by
        rw [justYielded, hcurrent', hdrain.drained.state]
        simp
      rw [hasked]
      exact (hdrain.joins hquiet hheld hd f).trans
        (hupdate.joins hs (hdrain.held.trans hheld) (hdrain.distinct hd) f)

omit [DecidableEq F] in
theorem timerq_of_alone (hd : Distinct s) (halone : ∀ g ∈ s.timerq, g = f) :
    s.timerq = [] ∨ s.timerq = [f] := by
  have hnodup := (List.nodup_append.mp hd).2.1
  cases htimerq : s.timerq with
  | nil => exact .inl rfl
  | cons g gs =>
      rw [htimerq] at halone hnodup
      cases gs with
      | nil => exact .inr (by rw [halone g (by simp)])
      | cons g' gs =>
          rw [halone g (by simp), halone g' (by simp)] at hnodup
          simp at hnodup

omit [DecidableEq F] in
theorem Settled.expire_joins (h : Settled s) (hheld : s.held = []) (hd : Distinct s)
    (halone : ∀ g ∈ s.timerq, g = f) : Joins f (f ∈ s.timerq ∧ s.Due f) s s.expire := by
  have hqueued := h.queued_iff hheld f
  rcases timerq_of_alone hd halone with htimerq | htimerq
  · rw [expire_nil htimerq]
    exact ⟨by simp [htimerq], by simp [htimerq], rfl⟩
  · have hnot : f ∉ s.runq := fun hrun => hd.not_mem hrun (by simp [htimerq])
    by_cases hdue : s.Due f
    · have hmem : f ∈ s.expire.runq := by simp [expire, htimerq, hdue]
      refine ⟨by simp [Queued, hmem, htimerq, hdue], ?_, rfl⟩
      simp [expire, htimerq, hdue, Queued]
    · rw [expire_of_not_due htimerq hdue]
      refine ⟨by simp [hdue], ?_, rfl⟩
      simp [htimerq, hqueued, hnot]

/-- Whether a pass finds the fibre queued, just yielded or late. -/
def Asked (time : BitVec 32) (s : Sched F) (f : F) : Prop :=
  s.Queued f ∨ s.justYielded = some f ∨
    f ∈ s.timerq ∧ cyclecmp32 (s.fibre f).duetime time ≤ 0

/-- What a pass does to one fibre.  It is called at most then. -/
structure Pass.Marks (time : BitVec 32) (f : F) (s s' : Sched F) : Prop where
  settled : Settled s'
  called : s'.current = some f → Asked time s f
  queued : s'.Queued f ↔ Asked time s f ∧ s'.current ≠ some f
  timerq : f ∈ s'.timerq ↔ f ∈ s.timerq ∧ ¬ Asked time s f
  duetime : (s'.fibre f).duetime = (s.fibre f).duetime
  tainted : s'.taintFlags.getLsbD 0 = s.taintFlags.getLsbD 0

omit [DecidableEq F] in
theorem nextTask_queued (h : Settled s) (hheld : s.held = []) (hd : Distinct s) (f : F) :
    (s.nextTask.current = some f → s.Queued f) ∧
      (s.nextTask.Queued f ↔ s.Queued f ∧ s.nextTask.current ≠ some f) := by
  have hnext : Settled s.nextTask := ⟨h.pending, h.quiet⟩
  rw [hnext.queued_iff hheld, h.queued_iff hheld]
  have hnodup := (List.nodup_append.mp hd).1
  unfold nextTask
  cases hrunq : s.runq with
  | nil => simp
  | cons g gs =>
      rw [hrunq, List.nodup_cons] at hnodup
      refine ⟨?_, ?_, ?_⟩
      · rintro ⟨⟩
        exact List.mem_cons_self
      · intro hf
        refine ⟨List.mem_cons_of_mem g hf, ?_⟩
        rintro ⟨⟩
        exact hnodup.1 hf
      · rintro ⟨hf, hne⟩
        exact (List.mem_cons.mp hf).resolve_left fun heq => hne (by simp [heq])

omit [DecidableEq F] in
theorem dispatch_queued (s : Sched F) (f : F) : s.dispatch.Queued f ↔ s.Queued f := by
  unfold dispatch
  split <;> rfl

omit [DecidableEq F] in
theorem dispatch_taintFlags (s : Sched F) : s.dispatch.taintFlags = s.taintFlags := by
  unfold dispatch
  split <;> rfl

omit [DecidableEq F] in
theorem FastPath.marks {time : BitVec 32} (h : FastPath s) (hheld : s.held = [])
    (hsettled : Settled ({ s with now := time } : Sched F).dispatch) :
    Pass.Marks time f s ({ s with now := time } : Sched F).dispatch := by
  obtain ⟨hstate, hrunq, htimerq, hpending⟩ := h
  have hnot : ¬ s.Queued f := by
    rintro (hf | hf | hf)
    · exact absurd (hrunq ▸ hf) List.not_mem_nil
    · exact absurd (hpending ▸ hf) List.not_mem_nil
    · exact absurd (hheld ▸ hf) List.not_mem_nil
  have hyielded : s.justYielded = s.current := if_pos hstate
  have hmem : f ∉ s.timerq := fun hf => absurd (htimerq ▸ hf) List.not_mem_nil
  have hasked : Asked time s f ↔ s.current = some f := by simp [Asked, hnot, hmem, hyielded]
  have hcurrent : ({ s with now := time } : Sched F).dispatch.current = s.current :=
    dispatch_current _
  refine ⟨hsettled, ?_, ?_, ?_, by rw [(dispatch_same _).fibre], ?_⟩
  · rw [hcurrent, hasked]
    exact id
  · rw [dispatch_queued, hasked, hcurrent]
    exact ⟨fun hf => absurd hf hnot, fun hf => absurd hf.1 hf.2⟩
  · rw [(dispatch_same _).timerq]
    simp [hmem]
  · rw [dispatch_taintFlags]

theorem Update.asked_iff {time : BitVec 32} (h : Update { s with now := time } s')
    (hjoins : Joins f (s.justYielded = some f) { s with now := time } s')
    (hexpires : Joins f (f ∈ s'.timerq ∧ s'.Due f) s' s'.expire) :
    Asked time s f ↔ s'.expire.Queued f := by
  have hdue : s'.Due f ↔ cyclecmp32 (s.fibre f).duetime time ≤ 0 := by
    rw [Due, h.drained.duetime, h.drained.now]
  have hwas : s'.Queued f ↔ s.Queued f ∨ s.justYielded = some f := hjoins.queued
  have hwaits : f ∈ s'.timerq ↔ f ∈ s.timerq ∧ ¬ s'.Queued f := hjoins.timerq
  rw [hexpires.queued, hwaits, hwas, hdue, Asked, ← or_assoc]
  constructor
  · rintro (hq | ⟨hf, hlate⟩)
    · exact .inl hq
    · exact (Classical.em _).imp id fun hq => ⟨⟨hf, hq⟩, hlate⟩
  · exact Or.imp_right fun ⟨⟨hf, _⟩, hlate⟩ => ⟨hf, hlate⟩

theorem Pass.marks {time : BitVec 32} (h : Pass time s s') (hquiet : s.interrupts = [])
    (hheld : s.held = []) (hd : Distinct s) (halone : ∀ g ∈ s.timerq, g = f) :
    Pass.Marks time f s s' := by
  have hsettled := h.settled hquiet
  have hidle := interrupt_of_quiet (s := { s with now := time }) hquiet
  cases h with
  | fast hfast =>
      rw [hidle] at hfast hsettled ⊢
      rw [hidle] at hsettled ⊢
      exact FastPath.marks (s := s) hfast hheld hsettled
  | @slow s₁ hfast hupdate =>
      rw [hidle] at hupdate
      have hs₁ := hupdate.calm hquiet
      have hheld₁ : s₁.held = [] := hupdate.held.trans hheld
      have hd₁ := hupdate.distinct (s := { s with now := time }) hd
      have hjoins := hupdate.joins (s := { s with now := time }) hquiet hheld hd f
      have hexpires := hs₁.expire_joins hheld₁ hd₁
        fun g hg => halone g (hupdate.drained.timerq.subset hg)
      have hs₂ : Settled s₁.expire := ⟨hs₁.pending, hs₁.quiet⟩
      have hs₃ : Settled s₁.expire.nextTask := ⟨hs₁.pending, hs₁.quiet⟩
      rw [interrupt_of_quiet hs₂.quiet, interrupt_of_quiet hs₃.quiet] at hsettled ⊢
      obtain ⟨-, htimerq, htainted⟩ := hjoins.trans hexpires
      obtain ⟨hcalled, hnext⟩ := nextTask_queued hs₂ hheld₁ (expire_distinct hd₁) f
      have hasked := hupdate.asked_iff hjoins hexpires
      refine ⟨hsettled, ?_, ?_, ?_, ?_, ?_⟩
      · rw [dispatch_current, hasked]
        exact hcalled
      · rw [dispatch_queued, hasked, dispatch_current]
        exact hnext
      · rw [(dispatch_same _).timerq, hasked]
        exact htimerq
      · rw [(dispatch_same _).fibre]
        exact hupdate.drained.duetime f
      · rw [dispatch_taintFlags]
        exact htainted

end Sched

end Librfn
