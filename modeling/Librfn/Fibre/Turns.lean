import Librfn.Fibre.Kill

/-!
# Taking turns

The run queue is first come, first served.  While a fibre is in line, every
scheduler pass calls a fibre in front of it, and none of these twice: whatever
joins the queue meanwhile joins it behind.
-/

namespace Librfn

open Librfn.Logic

variable {F : Type}

def FibreEvent.called : FibreEvent F → Option F
  | .dispatched f => some f
  | _ => none

def dispatchOrder (log : List (FibreEvent F)) : List F :=
  log.reverse.filterMap FibreEvent.called

@[simp] theorem dispatchOrder_dispatched (f : F) (log : List (FibreEvent F)) :
    dispatchOrder (.dispatched f :: log) = dispatchOrder log ++ [f] := by
  simp [dispatchOrder, FibreEvent.called]

@[simp] theorem dispatchOrder_returned (f : F) (state : FibreState)
    (log : List (FibreEvent F)) :
    dispatchOrder (.returned f state :: log) = dispatchOrder log := by
  simp [dispatchOrder, FibreEvent.called]

theorem dispatchOrder_append {new : List (FibreEvent F)} (log : List (FibreEvent F))
    (hnew : ∀ f, .dispatched f ∉ new) :
    dispatchOrder (new ++ log) = dispatchOrder log := by
  have hnone : new.reverse.filterMap FibreEvent.called = [] := by
    apply List.filterMap_eq_nil_iff.mpr
    intro event hevent
    cases event with
    | dispatched f => exact absurd (List.mem_reverse.mp hevent) (hnew f)
    | _ => rfl
  simp [dispatchOrder, hnone]

def Action.IsPass : Action F → Bool
  | .schedulerNext _ => true
  | _ => false

namespace System

def order (sys : System F) : List F := dispatchOrder sys.world.log

def passes (steps : List (Step F)) : Nat := steps.countP fun step => step.action.IsPass

@[simp] theorem passes_append (steps steps' : List (Step F)) :
    passes (steps ++ steps') = passes steps + passes steps' :=
  List.countP_append

end System

namespace Sched

variable {s s' : Sched F} {f : F}

theorem Requests.order (h : Requests s s') : dispatchOrder s'.log = dispatchOrder s.log := by
  obtain ⟨new, hlog, hnew, -⟩ := h
  rw [hlog]
  exact dispatchOrder_append _ hnew

theorem dispatch_order (s : Sched F) :
    dispatchOrder s.dispatch.log = dispatchOrder s.log ++ s.current.toList := by
  cases hcurrent : s.current with
  | none => simp [dispatch_none hcurrent]
  | some g => simp [dispatch_some hcurrent]

variable [DecidableEq F]

theorem Pass.order {time : BitVec 32} (h : Pass time s s') :
    dispatchOrder s'.log = dispatchOrder s.log ++ s'.current.toList := by
  have hnow : Requests s ({ s with now := time }).interrupt :=
    Requests.trans (.of_eq rfl rfl rfl rfl) (interrupt_requests _)
  cases h with
  | fast _ =>
      rw [dispatch_order, (dispatch_same _).current,
        (hnow.trans (interrupt_requests _)).order]
  | @slow s₁ _ hupdate =>
      have hexpired := ((hnow.trans hupdate.requests).trans
        (expire_requests s₁)).trans (interrupt_requests _)
      have htask := interrupt_requests s₁.expire.interrupt.nextTask
      rw [dispatch_order, (dispatch_same _).current, htask.order, ← hexpired.order]
      rfl

theorem Does.order {action : Action F} {frames frames' : List (Frame F)}
    (h : Does action frames s frames' s') (hpass : action.IsPass = false) :
    dispatchOrder s'.log = dispatchOrder s.log := by
  cases h with
  | run hdrain => exact (hdrain.requests.trans (enqueue_requests _ _)).order
  | @call _ _ call => exact (handlerCall_requests s call).order
  | kill hdrain => exact (hdrain.requests.trans (interrupt_requests _)).order
  | past _ => rfl
  | arm _ => rfl
  | idle _ _ => cases hpass
  | dispatch _ _ => cases hpass
  | yield => exact dispatchOrder_returned _ _ _
  | @ret frame _ _ state _ =>
      rw [(interrupt_requests _).order]
      exact dispatchOrder_returned _ _ _

theorem Acts.order {action : Action F} {frames frames' : List (Frame F)}
    (h : Acts action frames s frames' s') (hpass : action.IsPass = false) :
    dispatchOrder s'.log = dispatchOrder s.log := by
  cases h with
  | does _ hdoes => exact hdoes.order hpass
  | past _ => rfl
  | arm _ _ _ => rfl

theorem Does.pass_order {time : BitVec 32} {frames frames' : List (Frame F)}
    (h : Does (.schedulerNext time) frames s frames' s') : ∃ s₁, Pass time s s₁ ∧
      s'.runq = s₁.runq ∧
      dispatchOrder s'.log = dispatchOrder s.log ++ s₁.current.toList := by
  obtain ⟨s₁, hpass, hcase⟩ := h.pass
  refine ⟨s₁, hpass, ?_⟩
  rw [← hpass.order]
  rcases hcase with ⟨-, -, rfl⟩ | ⟨_, -, rfl⟩
  · exact ⟨(interrupt_same s₁).runq, (interrupt_requests s₁).order⟩
  · exact ⟨rfl, rfl⟩

/-- The fibre is in line, with these fibres in front of it. -/
def InLine (s : Sched F) (front : List F) (f : F) : Prop :=
  ∃ back, s.runq = front ++ f :: back

section InLine

variable {front : List F}

omit [DecidableEq F] in
theorem InLine.of_prefix (h : s.InLine front f) (hqueue : s.runq <+: s'.runq) :
    s'.InLine front f := by
  obtain ⟨back, hrunq⟩ := h
  obtain ⟨more, hmore⟩ := hqueue
  refine ⟨back ++ more, ?_⟩
  rw [← hmore, hrunq, List.append_assoc]
  rfl

theorem InLine.kill (h : s.InLine front f) {g : F} (hne : g ≠ f) :
    ∃ front', front'.Sublist front ∧ (s.kill g).InLine front' f := by
  obtain ⟨back, hrunq⟩ := h
  by_cases hmem : g ∈ front
  · refine ⟨front.erase g, List.erase_sublist, back, ?_⟩
    change s.runq.erase g = _
    rw [hrunq, List.erase_append_left _ hmem]
  · refine ⟨front, .refl _, back.erase g, ?_⟩
    change s.runq.erase g = _
    rw [hrunq, List.erase_append_right _ hmem, List.erase_cons_tail (by simpa using hne.symm)]

theorem InLine.does (h : s.InLine front f) {action : Action F}
    {frames frames' : List (Frame F)} (hdoes : Does action frames s frames' s')
    (hpass : action.IsPass = false) (hkill : action ≠ .kill f) :
    ∃ front', front'.Sublist front ∧ s'.InLine front' f := by
  cases hdoes with
  | run hdrain =>
      exact ⟨front, .refl _, h.of_prefix (hdrain.drained.trans (enqueue_drained _ _)).runq⟩
  | @call _ _ call => exact ⟨front, .refl _, h.of_prefix (handlerCall_same s call).drained.runq⟩
  | @kill _ _ s₁ g hdrain =>
      have hline := h.of_prefix (hdrain.drained.trans (interrupt_same s₁).drained).runq
      exact hline.kill fun heq => hkill (by rw [heq])
  | past _ => exact ⟨front, .refl _, h⟩
  | arm _ => exact ⟨front, .refl _, h⟩
  | idle _ _ => cases hpass
  | dispatch _ _ => cases hpass
  | yield => exact ⟨front, .refl _, h⟩
  | @ret frame _ _ state _ =>
      have hreturned : (s.returned frame.fibre state).InLine front f := h
      exact ⟨front, .refl _, hreturned.of_prefix (interrupt_same _).drained.runq⟩

theorem InLine.acts (h : s.InLine front f) {action : Action F}
    {frames frames' : List (Frame F)} (hacts : Acts action frames s frames' s')
    (hpass : action.IsPass = false) (hkill : action ≠ .kill f) :
    ∃ front', front'.Sublist front ∧ s'.InLine front' f := by
  cases hacts with
  | does _ hdoes => exact h.does hdoes hpass hkill
  | past _ => exact ⟨front, .refl _, h⟩
  | arm _ _ _ => exact ⟨front, .refl _, h⟩

theorem InLine.pass (h : s.InLine front f) {time : BitVec 32} {frames frames' : List (Frame F)}
    (hdoes : Does (.schedulerNext time) frames s frames' s') :
    match front with
    | [] => dispatchOrder s'.log = dispatchOrder s.log ++ [f]
    | g :: front => dispatchOrder s'.log = dispatchOrder s.log ++ [g] ∧ s'.InLine front f := by
  obtain ⟨back, hrunq⟩ := h
  obtain ⟨s₁, hpass, hrunq', horder⟩ := hdoes.pass_order
  rw [horder]
  cases front with
  | nil =>
      obtain ⟨hcurrent, -⟩ := hpass.head hrunq
      simp [hcurrent]
  | cons g front =>
      obtain ⟨hcurrent, hqueue⟩ := hpass.head hrunq
      refine ⟨by simp [hcurrent], InLine.of_prefix (s := { s with runq := front ++ f :: back })
        ⟨back, rfl⟩ ?_⟩
      rw [hrunq']
      exact hqueue

end InLine

end Sched

namespace System

variable [DecidableEq F]

omit [DecidableEq F] in
theorem Tidy.order_eq {sys : System F} {s : Sched F} (h : sys.Tidy s) :
    sys.order = dispatchOrder s.log := by
  rw [order, h.represents.scalars.2.2.2.2]

omit [DecidableEq F] in
theorem schedulerNext_of_isPass {action : Action F} (h : action.IsPass = true) :
    ∃ time, action = .schedulerNext time := by
  cases action with
  | schedulerNext time => exact ⟨time, rfl⟩
  | _ => cases h

theorem Tidy.order_grows {sys sys' : System F} {s : Sched F} {step : Step F} (h : sys.Tidy s)
    (hnext : FreeNext FibresTimeOut sys step sys') :
    ∃ new, sys'.order = sys.order ++ new := by
  obtain ⟨s', hacts, h'⟩ := h.next fibresTimeOut_anyCalls hnext
  rw [h.order_eq, h'.order_eq]
  cases hpass : step.action.IsPass with
  | false => exact ⟨[], by rw [hacts.order hpass]; simp⟩
  | true =>
      obtain ⟨time, haction⟩ := schedulerNext_of_isPass hpass
      rw [haction] at hacts
      obtain ⟨s₁, -, -, horder⟩ := (hacts.of_ne nofun).pass_order
      exact ⟨_, horder⟩

/-- Since `sys₀` the fibre has been waiting, and those called since then stood
in front of it. -/
structure Waits (sys₀ : System F) (ahead : List F) (f : F) (steps : List (Step F))
    (sys : System F) : Prop where
  turns : ∃ turn front s, sys.order = sys₀.order ++ turn ∧ turn.length = passes steps ∧
    (turn ++ front).Sublist ahead ∧ sys.Tidy s ∧ s.InLine front f

def HadTurn (sys₀ : System F) (ahead : List F) (f : F) (sys : System F) : Prop :=
  ∃ turn later, turn.Sublist ahead ∧ sys.order = sys₀.order ++ turn ++ f :: later

theorem Waits.next {sys₀ sys sys' : System F} {ahead : List F} {f : F}
    {steps : List (Step F)} {step : Step F} (h : Waits sys₀ ahead f steps sys)
    (hnext : FreeNext FibresTimeOut sys step sys') (hkill : step.action ≠ .kill f) :
    HadTurn sys₀ ahead f sys' ∨ Waits sys₀ ahead f (steps ++ [step]) sys' := by
  obtain ⟨turn, front, s, horder, hlen, hsub, htidy, hline⟩ := h
  obtain ⟨s', hacts, htidy'⟩ := htidy.next fibresTimeOut_anyCalls hnext
  have hlog := htidy.order_eq
  have hlog' := htidy'.order_eq
  have hline₀ : Sched.InLine { s with interrupts := step.interrupts } front f := hline
  cases hpass : step.action.IsPass with
  | false =>
      obtain ⟨front', hfront, hline'⟩ := hline₀.acts hacts hpass hkill
      refine .inr ⟨turn, front', s', ?_, ?_, ?_, htidy', hline'⟩
      · rw [hlog', hacts.order hpass, ← horder, hlog]
      · simp [hlen, passes, hpass]
      · exact (hfront.append_left turn).trans hsub
  | true =>
      obtain ⟨time, haction⟩ := schedulerNext_of_isPass hpass
      rw [haction] at hacts
      have hturn := hline₀.pass (hacts.of_ne nofun)
      cases front with
      | nil =>
          refine .inl ⟨turn, [], by simpa using hsub, ?_⟩
          rw [hlog', hturn, ← horder, hlog]
      | cons g front =>
          obtain ⟨hcalled, hline'⟩ := hturn
          refine .inr ⟨turn ++ [g], front, s', ?_, ?_, by simpa using hsub, htidy', hline'⟩
          · rw [hlog', hcalled, ← List.append_assoc, ← horder, hlog]
          · simp [hlen, passes, hpass]

/-- A fibre in line, that nobody kills, is called after no more passes than
there are fibres in front of it, and after none of them twice. -/
theorem dispatched_in_turn {atomicRunqBuf : Nat} {eventq : F → Messageq}
    {steps₀ steps : List (Step F)} {sys sys' : System F} {ahead rest timerq : List F} {f : F}
    (hrun₀ : Run (FreeNext FibresTimeOut) (init atomicRunqBuf eventq) steps₀ sys)
    (hqueues : sys.world.Queues (ahead ++ f :: rest) timerq)
    (hrun : Run (FreeNext FibresTimeOut) sys steps sys')
    (hkill : ∀ step ∈ steps, step.action ≠ .kill f) :
    (∃ turn later, turn.Sublist ahead ∧ sys'.order = sys.order ++ turn ++ f :: later) ∨
      ∃ turn, turn.Sublist ahead ∧ sys'.order = sys.order ++ turn ∧
        turn.length = passes steps := by
  obtain ⟨s₀, htidy₀⟩ := run_tidy fibresTimeOut_anyCalls hrun₀
  have hstart : Waits sys ahead f [] sys := by
    obtain ⟨hrunq, -⟩ := htidy₀.represents.queues.unique hqueues
    exact ⟨[], ahead, s₀, by simp, rfl, .refl _, htidy₀, rest, hrunq⟩
  have hreach : (∃ s, sys'.Tidy s) ∧ (HadTurn sys ahead f sys' ∨ Waits sys ahead f steps sys') := by
    induction hrun with
    | nil => exact ⟨⟨s₀, htidy₀⟩, .inr hstart⟩
    | @snoc steps sys₁ step sys₂ _ hnext ih =>
        obtain ⟨⟨s₁, h₁⟩, hcase⟩ := ih fun step hmem => hkill step (List.mem_append_left _ hmem)
        have hstep := hkill step (List.mem_append_right _ List.mem_cons_self)
        obtain ⟨s₂, -, h₂⟩ := h₁.next fibresTimeOut_anyCalls hnext
        refine ⟨⟨s₂, h₂⟩, ?_⟩
        rcases hcase with ⟨turn, later, hsub, horder⟩ | hwaits
        · obtain ⟨new, hnew⟩ := h₁.order_grows hnext
          refine .inl ⟨turn, later ++ new, hsub, ?_⟩
          rw [hnew, horder]
          simp
        · exact hwaits.next hnext hstep
  rcases hreach.2 with hturn | ⟨turn, front, s, horder, hlen, hsub, -⟩
  · exact .inl hturn
  · exact .inr ⟨turn, (List.sublist_append_left _ _).trans hsub, horder, hlen⟩

/-- Two fibres are in front of the third.  The first of them is run again while
it is executed, and waits behind. -/
theorem dispatched_in_turn_third : ∃ sys sys' : System (Fin 3),
    Run (FreeNext FibresTimeOut) (init 64 fun _ : Fin 3 => messageqInit 0 32 4)
      [{ action := .run 0 }, { action := .run 1 }, { action := .run 2 }] sys ∧
    sys.world.Queues ([0, 1] ++ 2 :: []) [] ∧
    Run (FreeNext FibresTimeOut) sys [{ action := .schedulerNext 0 }, { action := .run 0 },
      { action := .ret .waiting }, { action := .schedulerNext 1 }, { action := .ret .yielded },
      { action := .schedulerNext 2 }] sys' ∧
    ((∃ turn later, turn.Sublist [0, 1] ∧ sys'.order = sys.order ++ turn ++ 2 :: later) ∨
      ∃ turn, turn.Sublist [0, 1] ∧ sys'.order = sys.order ++ turn ∧ turn.length = 3) := by
  have hvalues : (follow (F := Fin 3) FibresTimeOut 9
      [{ action := .run 0 }, { action := .run 1 }, { action := .run 2 }]
      (init 64 fun _ : Fin 3 => messageqInit 0 32 4)).any (fun sys : System (Fin 3) => decide
        (sys.world.kernel.lists.link (.head .runq) = some (.next 0) ∧
          sys.world.kernel.lists.link (.next 0) = some (.next 1) ∧
          sys.world.kernel.lists.link (.next 1) = some (.next 2) ∧
          sys.world.kernel.lists.link (.next 2) = none ∧
          sys.world.kernel.lists.link (.head .timerq) = none) &&
        (follow (F := Fin 3) FibresTimeOut 9 [{ action := .schedulerNext 0 }, { action := .run 0 },
          { action := .ret .waiting }, { action := .schedulerNext 1 },
          { action := .ret .yielded }, { action := .schedulerNext 2 }] sys).isSome) = true := by
    decide +kernel
  obtain ⟨sys, hsys, hpost⟩ := (Option.any_eq_true _ _).mp hvalues
  obtain ⟨hlinks, hsome⟩ := Bool.and_eq_true_iff.mp hpost
  obtain ⟨hhead, h0, h1, h2, htimerq⟩ := of_decide_eq_true hlinks
  obtain ⟨sys', hsys'⟩ := Option.isSome_iff_exists.mp hsome
  have hrun := freeRun_of_run (follow_run hsys) (by simp)
  have hrun' := freeRun_of_run (follow_run hsys') (by simp)
  obtain ⟨s, htidy⟩ := run_tidy fibresTimeOut_anyCalls hrun
  have hqueues := htidy.represents.queues
  have hfibres : s.runq = [0, 1] ++ 2 :: [] :=
    (hqueues.chain .runq).unique ⟨hhead, h0, h1, h2⟩
  have hnone : s.timerq = [] := (hqueues.chain .timerq).unique htimerq
  rw [hfibres, hnone] at hqueues
  exact ⟨sys, sys', hrun, hqueues, hrun', dispatched_in_turn hrun hqueues hrun' (by simp)⟩

end System

end Librfn
