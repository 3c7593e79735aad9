import Librfn.Fibre.Refinement

/-!
# Scheduler passes

`fibre_scheduler_next` up to the call of a fibre's function, and from its
return on.
-/

namespace Librfn

open Librfn.Logic

variable {F : Type} {s : Sched F} {w : World F}

theorem Entries.messageqEmpty_eq {mq : Messageq} {buf : Nat → Option F}
    {m : Messages} {pending : List F} {held : Nat} {reading : Option (Nat × F)}
    (h : Entries mq buf m pending held reading) :
    messageqEmpty mq = decide (pending = []) := by
  rw [h.queue.toTracks.empty, Messages.next?]
  cases pending with
  | nil =>
      rw [h.not_sent]
      rfl
  | cons f fs =>
      rw [h.sent _ h.head.1]
      rfl

theorem World.Represents.lists_empty (h : w.Represents s) (list : KernelList) :
    Prog.wp (onLists (listEmpty list)) (fun empty w' =>
      empty = decide (s.seq list = []) ∧ w' = w) w := by
  obtain ⟨lists, mq, buf, m, rfl, hlists, hentries⟩ := h
  simp only [wp_onLists, listEmpty, Prog.wp_bind, wp_load, Prog.wp_pure,
    hlists.link_head, firstPtr_none_eq_none, and_self]

theorem World.Represents.messageqEmpty_eq (h : w.Represents s) :
    messageqEmpty w.kernel.atomicRunq = decide (s.pending = []) := by
  obtain ⟨lists, mq, buf, m, rfl, hlists, hentries⟩ := h
  exact hentries.messageqEmpty_eq

instance (s : Sched F) : Decidable s.FastPath :=
  inferInstanceAs (Decidable (_ ∧ _ ∧ _ ∧ _))

theorem fastPath_spec (h : w.Represents s) :
    Prog.wp fastPath (fun fast w' => fast = decide s.FastPath ∧ w' = w) w := by
  simp only [fastPath, Prog.wp_bind]
  refine Prog.wp_mono (h.lists_empty .runq) ?_
  rintro _ _ ⟨rfl, rfl⟩
  refine Prog.wp_mono (h.lists_empty .timerq) ?_
  rintro _ _ ⟨rfl, rfl⟩
  obtain ⟨-, hstate, -⟩ := h.scalars
  simp only [Prog.wp_get, Prog.wp_pure, hstate, h.messageqEmpty_eq,
    decide_eq_true_eq, and_true]
  rfl

variable [DecidableEq F]

theorem World.Represents.storeState (h : w.Represents s) (f : F) :
    World.Represents { w with
      fibre := Function.update w.fibre f { w.fibre f with
        state := w.kernel.state } } (s.storeState f) := by
  obtain ⟨-, hstate, -, hfibre, -⟩ := h.scalars
  rw [hstate, hfibre]
  exact h.withFibre _

theorem ptInit_spec (h : w.Represents s) (f : F) :
    Prog.wp (ptInit f) (fun _ w' => w'.Represents (s.restart f)) w := by
  obtain ⟨-, -, -, hfibre, -⟩ := h.scalars
  simp only [ptInit, Prog.wp_modify, hfibre]
  exact h.withFibre _

def FibreState.Returned (state : FibreState) : Prop :=
  state = .yielded ∨ state = .waiting ∨ state = .exited ∨ state = .failed

theorem updateCurrentState_spec (h : w.Represents s) {f : F}
    (hcurrent : s.current = some f) (hstate : s.state.Returned) {fuel : Nat}
    (hfuel : s.weight < fuel) :
    Prog.wp (updateCurrentState fuel) (fun _ w' =>
      ∃ s', Sched.UpdateCurrent f s s' ∧ w'.Represents s') w := by
  obtain ⟨hcurrent', hstate', -⟩ := h.scalars
  have hstore := h.storeState f
  simp only [updateCurrentState, Prog.wp_bind, Prog.wp_get, hcurrent', hcurrent,
    Prog.wp_modify]
  rcases hstate with hs | hs | hs | hs
  · rw [hstate', hs] at hstore ⊢
    refine Prog.wp_mono (fibreRun_spec hstore f hfuel) ?_
    rintro _ w' ⟨s', hs', hw'⟩
    exact ⟨_, .yielded hs hs', hw'⟩
  · rw [hstate', hs] at hstore ⊢
    exact ⟨_, .waiting hs, hstore⟩
  · rw [hstate', hs] at hstore ⊢
    refine Prog.wp_mono (ptInit_spec hstore f) ?_
    intro _ w' hw'
    exact ⟨_, .exited hs, hw'⟩
  · rw [hstate', hs] at hstore ⊢
    have htaint := hstore.withTaintFlags (s.taintFlags ||| flag 32 5)
    simp only [Prog.wp_bind, wp_addTaint 'F' (i := 5) rfl (by decide)]
    refine Prog.wp_mono (ptInit_spec (s := { s.storeState f with
      taintFlags := s.taintFlags ||| flag 32 5 }) ?_ f) ?_
    · simpa only [h.taintFlags] using htaint
    · intro _ w' hw'
      exact ⟨_, .failed hs, hw'⟩

/-! ## Up to the call -/

theorem Sched.UpdateCurrent.weight_le {f : F} {s s' : Sched F}
    (h : Sched.UpdateCurrent f s s') : s'.weight ≤ s.weight + 1 := by
  cases h with
  | @yielded s₁ _ hdrain =>
      have h₁ := hdrain.weight_le
      have h₂ := s₁.enqueue_weight_le f
      have h₃ : (s.storeState f).weight = s.weight := rfl
      omega
  | waiting _ => exact Nat.le_succ _
  | exited _ => exact Nat.le_succ _
  | failed _ => exact Nat.le_succ _

theorem Sched.Update.weight_le {s s' : Sched F} (h : Sched.Update s s') :
    s'.weight ≤ s.weight + 1 := by
  cases h with
  | @idle s₁ hdrain _ =>
      have h₁ := hdrain.weight_le
      have h₂ := s₁.interrupt_weight_le
      have h₃ := s₁.interrupt.interrupt_weight_le
      omega
  | @current s₁ s₂ f hdrain _ hupdate =>
      have h₁ := hdrain.weight_le
      have h₂ := s₁.interrupt_weight_le
      have h₃ := hupdate.weight_le
      have h₄ := s₂.interrupt_weight_le
      omega

theorem schedulerUpdate_spec (h : w.Represents s) (hstate : s.state.Returned)
    {fuel : Nat} (hfuel : s.weight < fuel) :
    Prog.wp (schedulerUpdate fuel) (fun _ w' =>
      ∃ s', Sched.Update s s' ∧ w'.Represents s') w := by
  simp only [schedulerUpdate, Prog.wp_bind]
  refine Prog.wp_mono (handleAtomicRunq_spec fuel h hfuel) ?_
  rintro _ w₁ ⟨s₁, hs₁, h₁⟩
  have hle₁ := hs₁.weight_le
  have hle₂ := s₁.interrupt_weight_le
  have hstate₂ : s₁.interrupt.state.Returned := by
    rw [(Sched.interrupt_same _).state, hs₁.drained.state]
    exact hstate
  refine Prog.wp_mono (interrupt_spec h₁) ?_
  intro _ w₂ h₂
  rw [Prog.wp_get, Prog.wp_ite, h₂.scalars.1]
  cases hcurrent : s₁.interrupt.current with
  | none =>
      rw [if_neg (not_not.mpr rfl)]
      refine Prog.wp_mono (interrupt_spec h₂) ?_
      intro _ w₃ h₃
      exact ⟨_, .idle hs₁ hcurrent, h₃⟩
  | some f =>
      rw [if_pos (Option.some_ne_none f), Prog.wp_bind]
      refine Prog.wp_mono
        (updateCurrentState_spec h₂ hcurrent hstate₂ (by omega)) ?_
      rintro _ w₃ ⟨s₃, hs₃, h₃⟩
      refine Prog.wp_mono (interrupt_spec h₃) ?_
      intro _ w₄ h₄
      exact ⟨_, .current hs₁ hcurrent hs₃, h₄⟩

omit [DecidableEq F] in
theorem dispatched_spec (h : w.Represents s) :
    Prog.wp dispatched (fun current w' =>
      current = s.current ∧ w'.Represents s.dispatch) w := by
  obtain ⟨hcurrent, -, -, -, hlog⟩ := h.scalars
  simp only [dispatched, Prog.wp_bind, Prog.wp_get, hcurrent]
  cases hs : s.current with
  | none =>
      rw [Sched.dispatch_none hs]
      exact ⟨rfl, h⟩
  | some f =>
      simp only [Prog.wp_bind, wp_note, Prog.wp_pure, hlog, true_and]
      rw [Sched.dispatch_some hs]
      exact h.withLog _

omit [DecidableEq F] in
theorem Sched.dispatch_current (s : Sched F) : s.dispatch.current = s.current :=
  s.dispatch_same.current

/-- What the fast path skips, with what comes after it. -/
theorem slowPath_spec {α : Type} {m : Prog (World F) α} {Q : α → World F → Prop}
    (h : w.Represents s) (hstate : s.state.Returned) {fuel : Nat}
    (hfuel : s.weight + 1 < fuel)
    (hm : ∀ s₁ w', Sched.Update s s₁ →
      w'.Represents s₁.expire.interrupt.nextTask → Prog.wp m Q w') :
    Prog.wp (do
      schedulerUpdate fuel
      handleTimerq fuel
      interrupt
      switchTask
      m) Q w := by
  simp only [Prog.wp_bind]
  refine Prog.wp_mono (schedulerUpdate_spec h hstate (by omega)) ?_
  rintro _ w₂ ⟨s₂, hs₂, h₂⟩
  have hweight₂ := hs₂.weight_le
  have htimerq : s₂.timerq.length < fuel := by
    have := s₂.timerq_length_le
    omega
  refine Prog.wp_mono (handleTimerq_spec h₂ htimerq) ?_
  intro _ w₃ h₃
  refine Prog.wp_mono (interrupt_spec h₃) ?_
  intro _ w₄ h₄
  refine Prog.wp_mono (switchTask_spec h₄) ?_
  intro _ w₅ h₅
  exact hm s₂ w₅ hs₂ h₅

theorem Sched.interrupted (s : Sched F) (time : BitVec 32) (hstate : s.state.Returned) :
    ({ s with now := time } : Sched F).interrupt.weight ≤ s.weight ∧
      ({ s with now := time } : Sched F).interrupt.state.Returned := by
  constructor
  · exact interrupt_weight_le { s with now := time }
  · rw [(interrupt_same _).state]
    exact hstate

theorem schedulerDispatch_spec (h : w.Represents s) (time : BitVec 32)
    (hstate : s.state.Returned) {fuel : Nat} (hfuel : s.weight + 1 < fuel) :
    Prog.wp (schedulerDispatch fuel time) (fun current w' =>
      ∃ s', Sched.Pass time s s' ∧ current = s'.current ∧ w'.Represents s') w := by
  obtain ⟨hweight, hstate₁⟩ := s.interrupted time hstate
  simp only [schedulerDispatch, Prog.wp_bind, wp_onKernel, Prog.wp_modify]
  refine Prog.wp_mono (interrupt_spec (h.withNow time)) ?_
  intro _ w₁ h₁
  refine Prog.wp_mono (fastPath_spec h₁) ?_
  rintro _ _ ⟨rfl, rfl⟩
  by_cases hfast : ({ s with now := time } : Sched F).interrupt.FastPath
  · rw [if_neg (not_not.mpr (decide_eq_true hfast)), Prog.wp_bind]
    refine Prog.wp_mono (interrupt_spec h₁) ?_
    intro _ w₂ h₂
    refine Prog.wp_mono (dispatched_spec h₂) ?_
    rintro _ w₃ ⟨rfl, h₃⟩
    exact ⟨_, .fast hfast, (Sched.dispatch_current _).symm, h₃⟩
  · rw [if_pos (fun hdec => hfast (of_decide_eq_true hdec))]
    refine slowPath_spec h₁ hstate₁ (by omega) ?_
    intro s₂ w₂ hs₂ h₂
    rw [Prog.wp_bind]
    refine Prog.wp_mono (interrupt_spec h₂) ?_
    intro _ w₃ h₃
    refine Prog.wp_mono (dispatched_spec h₃) ?_
    rintro _ w₄ ⟨rfl, h₄⟩
    exact ⟨_, .slow hfast hs₂, (Sched.dispatch_current _).symm, h₄⟩

/-! ## From the return on -/

def Sched.wakeup (s : Sched F) : BitVec 32 :=
  if s.pending ≠ [] ∨ s.runq ≠ [] then s.now
  else
    match s.timerq with
    | [] => s.now + fibreUnboundedSleep
    | f :: _ => (s.fibre f).duetime

omit [DecidableEq F] in
theorem listPeek_spec (h : w.Represents s) {f : F} {fs : List F}
    (htimerq : s.timerq = f :: fs) :
    Prog.wp (onLists (do realNode (← listPeek .timerq))) (fun g w' =>
      g = f ∧ w' = w) w := by
  obtain ⟨lists, mq, buf, m, rfl, hlists, hentries⟩ := h
  have hhead := hlists.link_head .timerq
  simp only [Sched.seq, htimerq, firstPtr_cons] at hhead
  simp only [wp_onLists, listPeek, Prog.wp_bind, wp_load, hhead, realNode_next,
    Prog.wp_pure, and_self]

theorem getNextWakeup_spec (h : w.Represents s) :
    Prog.wp getNextWakeup (fun time w' =>
      time = s.interrupt.wakeup ∧ w'.Represents s.interrupt) w := by
  simp only [getNextWakeup, Prog.wp_bind]
  refine Prog.wp_mono (interrupt_spec h) ?_
  intro _ w₁ h₁
  obtain ⟨-, -, hnow, hfibre, -⟩ := h₁.scalars
  rw [Prog.wp_get]
  refine Prog.wp_mono (h₁.lists_empty .runq) ?_
  rintro _ w₂ ⟨rfl, rfl⟩
  have hcond : (messageqEmpty w₂.kernel.atomicRunq = false ∨
      ¬ decide (s.interrupt.seq .runq = []) = true) ↔
      (s.interrupt.pending ≠ [] ∨ s.interrupt.runq ≠ []) := by
    rw [h₁.messageqEmpty_eq, decide_eq_false_iff_not, decide_eq_true_eq]
    rfl
  unfold Sched.wakeup
  by_cases hbusy : s.interrupt.pending ≠ [] ∨ s.interrupt.runq ≠ []
  · rw [if_pos (hcond.mpr hbusy), if_pos hbusy]
    exact ⟨hnow, h₁⟩
  · rw [if_neg (mt hcond.mp hbusy), if_neg hbusy, Prog.wp_bind]
    refine Prog.wp_mono (h₁.lists_empty .timerq) ?_
    rintro _ _ ⟨rfl, rfl⟩
    cases htimerq : s.interrupt.timerq with
    | nil =>
        have heq : decide (s.interrupt.seq .timerq = []) = true :=
          decide_eq_true htimerq
        rw [if_pos heq, Prog.wp_pure, hnow]
        exact ⟨rfl, h₁⟩
    | cons f fs =>
        have hne : ¬ decide (s.interrupt.seq .timerq = []) = true := by
          simp [Sched.seq, htimerq]
        rw [if_neg hne, Prog.wp_bind]
        refine Prog.wp_mono (listPeek_spec h₁ htimerq) ?_
        rintro _ _ ⟨rfl, rfl⟩
        simp only [Prog.wp_bind, Prog.wp_get, Prog.wp_pure, hfibre]
        exact ⟨trivial, h₁⟩

def Sched.returned (s : Sched F) (f : F) (state : FibreState) : Sched F :=
  { s with state, log := .returned f state :: s.log }

theorem schedulerReturn_spec (h : w.Represents s) (f : F) (state : FibreState) :
    Prog.wp (schedulerReturn f state) (fun time w' =>
      if state = .yielded then
        time = s.now ∧ w'.Represents (s.returned f state)
      else
        time = (s.returned f state).interrupt.wakeup ∧
          w'.Represents (s.returned f state).interrupt) w := by
  have hreturned : World.Represents
      { w with
        kernel := { w.kernel with state }
        log := .returned f state :: w.log } (s.returned f state) := by
    rw [h.scalars.2.2.2.2]
    exact (h.withState state).withLog _
  simp only [schedulerReturn, Prog.wp_bind, wp_note, wp_onKernel,
    Prog.wp_modify, Prog.wp_ite, Prog.wp_get, Prog.wp_pure]
  by_cases hyield : state = .yielded
  · simp only [hyield, if_true]
    exact ⟨h.scalars.2.2.1, hyield ▸ hreturned⟩
  · simp only [hyield, if_false]
    exact getNextWakeup_spec hreturned

end Librfn
