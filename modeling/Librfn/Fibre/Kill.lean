import Librfn.Fibre.Calls
import Librfn.Fibre.Requests

/-!
# Killed fibres

`fibre_kill` takes a fibre off every queue.  A fibre that has just yielded is
on none of them: it is the current fibre, and the next scheduler pass puts it
on the run queue as if it had not been killed.
-/

namespace Librfn

open Librfn.Logic

variable {F : Type}

/-! ## Asking for a fibre -/

def HandlerCall.Requests : HandlerCall F → F → Prop
  | .runAtomic g, f => g = f
  | .eventqClaim _, _ => False
  | .eventqSend g _, f => g = f

def Action.Requests : Action F → F → Prop
  | .run g, f => g = f
  | .call handler, f => handler.Requests f
  | _, _ => False

def Step.Requests (step : Step F) (f : F) : Prop :=
  step.action.Requests f ∨
    ∃ calls ∈ step.interrupts, ∃ call ∈ calls, call.Requests f

namespace System

variable [DecidableEq F]

def dispatches (sys : System F) (f : F) : Nat :=
  sys.world.log.count (.dispatched f)

/-- Killing the fibre now keeps it from being dispatched until it is asked for
again. -/
def KillStops (sys : System F) (f : F) : Prop :=
  ∀ (step : Step F) (steps : List (Step F)) (sys' sys'' : System F),
    step.action = .kill f → FreeNext FibresTimeOut sys step sys' →
    ¬ step.Requests f → Run (FreeNext FibresTimeOut) sys' steps sys'' →
    (∀ step ∈ steps, ¬ step.Requests f) →
    sys''.dispatches f = sys.dispatches f

end System

namespace Sched

def Quiet (s : Sched F) (f : F) : Prop :=
  ∀ calls ∈ s.interrupts, ∀ call ∈ calls, ¬ call.Requests f

/-- The fibre is in none of the queues, and no handler will change that. -/
structure Off (s : Sched F) (f : F) : Prop where
  quiet : s.Quiet f
  runq : f ∉ s.runq
  timerq : f ∉ s.timerq
  pending : f ∉ s.pending
  held : f ∉ s.held

section

variable {s s' : Sched F} {f g : F}

theorem runAtomic_pending (h : f ∉ s.pending) (hne : g ≠ f) :
    f ∉ (s.runAtomic g).pending := by
  unfold runAtomic
  split
  · rw [List.mem_append, List.mem_singleton, not_or]
    exact ⟨h, hne.symm⟩
  · exact h

variable [DecidableEq F]

theorem handlerCall_pending (h : f ∉ s.pending) {call : HandlerCall F}
    (hcall : ¬ call.Requests f) : f ∉ (s.handlerCall call).pending := by
  cases call with
  | runAtomic g => exact runAtomic_pending h hcall
  | eventqClaim g =>
      change f ∉ (s.produceClaim g).pending
      unfold produceClaim
      split <;> exact h
  | eventqSend g event =>
      change f ∉ (s.produceSend g event).pending
      unfold produceSend
      split
      · exact runAtomic_pending (s := s.sendEvent g _) h hcall
      · exact h

theorem handlerCalls_interrupts (calls : List (HandlerCall F)) (s : Sched F) :
    (calls.foldl handlerCall s).interrupts = s.interrupts := by
  induction calls generalizing s with
  | nil => rfl
  | cons call calls ih =>
      exact (ih (s.handlerCall call)).trans (s.handlerCall_pending_le call).2

theorem handlerCalls_pending (calls : List (HandlerCall F)) {s : Sched F}
    (h : f ∉ s.pending) (hcalls : ∀ call ∈ calls, ¬ call.Requests f) :
    f ∉ (calls.foldl handlerCall s).pending := by
  induction calls generalizing s with
  | nil => exact h
  | cons call calls ih =>
      obtain ⟨hfirst, hrest⟩ := List.forall_mem_cons.mp hcalls
      exact ih (handlerCall_pending h hfirst) hrest

theorem Quiet.interrupt (h : s.Quiet f) : s.interrupt.Quiet f := by
  unfold Sched.interrupt
  split
  · exact h
  · rename_i calls interrupts heq
    unfold Quiet at h ⊢
    rw [heq] at h
    rw [handlerCalls_interrupts]
    exact (List.forall_mem_cons.mp h).2

theorem Quiet.pending (hquiet : s.Quiet f) (h : f ∉ s.pending) :
    f ∉ s.interrupt.pending := by
  unfold Sched.interrupt
  split
  · exact h
  · rename_i calls interrupts heq
    refine handlerCalls_pending calls h (hquiet calls ?_)
    rw [heq]
    exact List.mem_cons_self

theorem Quiet.enqueue (h : s.Quiet f) (g : F) : (s.enqueue g).Quiet f := by
  unfold Sched.enqueue
  split <;> exact h

theorem Quiet.drain (h : s.Quiet f) (hdrain : Drain s s') : s'.Quiet f :=
  hdrain.invariant (I := fun s => s.Quiet f) h (fun _ hu => hu.interrupt)
    (fun _ _ _ hu _ => hu) (fun _ g _ hu _ => (hu.enqueue g).interrupt)

/-! ## A fibre that is off the queues stays off -/

theorem Off.interrupt (h : s.Off f) : s.interrupt.Off f := by
  have hsame := s.interrupt_same
  exact ⟨h.quiet.interrupt, hsame.runq ▸ h.runq, hsame.timerq ▸ h.timerq,
    h.quiet.pending h.pending, hsame.held ▸ h.held⟩

theorem Off.enqueue (h : s.Off f) (hne : g ≠ f) : (s.enqueue g).Off f := by
  unfold Sched.enqueue
  split
  · exact ⟨h.quiet, h.runq, h.timerq, h.pending, h.held⟩
  · refine ⟨h.quiet, ?_, fun hmem => h.timerq (List.erase_sublist.subset hmem),
      h.pending, h.held⟩
    rw [List.mem_append, List.mem_singleton, not_or]
    exact ⟨h.runq, hne.symm⟩

theorem Off.drain (h : s.Off f) (hdrain : Drain s s') : s'.Off f := by
  refine hdrain.invariant (I := fun s => s.Off f) h (fun _ h => h.interrupt) ?_ ?_
  · intro u g gs hu hpending
    have hnot := hu.pending
    rw [hpending, List.mem_cons, not_or] at hnot
    refine ⟨hu.quiet, hu.runq, hu.timerq, hnot.2, ?_⟩
    rw [receive, List.mem_cons, not_or]
    exact ⟨hnot.1, hu.held⟩
  · intro u g gs hu hheld
    have hnot := hu.held
    rw [hheld, List.mem_cons, not_or] at hnot
    have hinserted := (hu.enqueue (Ne.symm hnot.1)).interrupt
    exact ⟨hinserted.quiet, hinserted.runq, hinserted.timerq, hinserted.pending,
      fun hmem => hinserted.held (List.mem_of_mem_tail hmem)⟩

theorem Off.updateCurrent (h : s.Off f) (hupdate : UpdateCurrent g s s')
    (hstate : s.state = .yielded → g ≠ f) : s'.Off f := by
  have hstore : (s.storeState g).Off f :=
    ⟨h.quiet, h.runq, h.timerq, h.pending, h.held⟩
  cases hupdate with
  | yielded hyielded hdrain => exact (hstore.drain hdrain).enqueue (hstate hyielded)
  | waiting _ => exact hstore
  | exited _ => exact ⟨h.quiet, h.runq, h.timerq, h.pending, h.held⟩
  | failed _ => exact ⟨h.quiet, h.runq, h.timerq, h.pending, h.held⟩

theorem Off.update (h : s.Off f) (hupdate : Update s s')
    (hcurrent : s.current = some f → s.state ≠ .yielded) : s'.Off f := by
  cases hupdate with
  | idle hdrain _ => exact (h.drain hdrain).interrupt.interrupt
  | @current s₁ s₂ g hdrain hg hupdate =>
      have hdrained := hdrain.drained.trans (interrupt_same s₁).drained
      refine ((h.drain hdrain).interrupt.updateCurrent hupdate ?_).interrupt
      rintro hstate rfl
      rw [hdrained.state] at hstate
      rw [hdrained.current] at hg
      exact hcurrent hg hstate

omit [DecidableEq F] in
theorem Off.expire (h : s.Off f) : s.expire.Off f := by
  refine ⟨h.quiet, ?_, fun hmem => h.timerq ((List.dropWhile_sublist _).subset hmem),
    h.pending, h.held⟩
  change f ∉ s.runq ++ _
  rw [List.mem_append, not_or]
  exact ⟨h.runq, fun hmem => h.timerq ((List.takeWhile_sublist _).subset hmem)⟩

omit [DecidableEq F] in
theorem Off.nextTask (h : s.Off f) :
    s.nextTask.Off f ∧ s.nextTask.current ≠ some f :=
  ⟨⟨h.quiet, fun hmem => h.runq (List.mem_of_mem_tail hmem), h.timerq, h.pending,
    h.held⟩, fun hhead => h.runq (List.mem_of_head? hhead)⟩

omit [DecidableEq F] in
theorem Off.dispatch (h : s.Off f) : s.dispatch.Off f := by
  unfold Sched.dispatch
  split <;> exact ⟨h.quiet, h.runq, h.timerq, h.pending, h.held⟩

theorem Off.pass {time : BitVec 32} (h : s.Off f) (hpass : Pass time s s')
    (hcurrent : s.current = some f → s.state ≠ .yielded) :
    s'.Off f ∧ s'.current ≠ some f := by
  have hnow : ({ s with now := time } : Sched F).Off f :=
    ⟨h.quiet, h.runq, h.timerq, h.pending, h.held⟩
  have hsame := interrupt_same { s with now := time }
  cases hpass with
  | fast hfast =>
      have hsame' := (interrupt_same ({ s with now := time }).interrupt).trans
        (dispatch_same _)
      refine ⟨hnow.interrupt.interrupt.dispatch, ?_⟩
      rw [hsame'.current, hsame.current]
      exact fun hf => hcurrent hf (hsame.state.symm.trans hfast.1)
  | @slow s₁ _ hupdate =>
      have hsame' := (interrupt_same s₁.expire.interrupt.nextTask).trans
        (dispatch_same _)
      have hupdated := hnow.interrupt.update hupdate fun hf hstate =>
        hcurrent (hsame.current.symm.trans hf) (hsame.state.symm.trans hstate)
      obtain ⟨htask, hne⟩ := hupdated.expire.interrupt.nextTask
      exact ⟨htask.interrupt.dispatch, hsame'.current ▸ hne⟩

/-! ## How often a fibre is dispatched -/

theorem Requests.dispatches (h : Requests s s') (f : F) :
    s'.log.count (.dispatched f) = s.log.count (.dispatched f) := by
  obtain ⟨new, hlog, hnew, -⟩ := h
  rw [hlog, List.count_append, List.count_eq_zero_of_not_mem (hnew f), Nat.zero_add]

theorem dispatch_dispatches (s : Sched F) (f : F) :
    s.dispatch.log.count (.dispatched f) =
      s.log.count (.dispatched f) + if s.dispatch.current = some f then 1 else 0 := by
  rw [(dispatch_same s).current]
  unfold Sched.dispatch
  split
  · rename_i hnone
    rw [hnone, if_neg nofun]
    rfl
  · rename_i g hg
    rw [hg, List.count_cons]
    simp

theorem Pass.dispatches {time : BitVec 32} (h : Pass time s s') (f : F) :
    s'.log.count (.dispatched f) =
      s.log.count (.dispatched f) + if s'.current = some f then 1 else 0 := by
  have hnow : Requests s ({ s with now := time }).interrupt :=
    Requests.trans (.of_eq rfl rfl rfl rfl) (interrupt_requests _)
  cases h with
  | fast _ =>
      rw [dispatch_dispatches, (hnow.trans (interrupt_requests _)).dispatches]
  | @slow s₁ _ hupdate =>
      have hexpired := ((hnow.trans hupdate.requests).trans
        (expire_requests s₁)).trans (interrupt_requests _)
      have htask := interrupt_requests s₁.expire.interrupt.nextTask
      rw [dispatch_dispatches, htask.dispatches, ← hexpired.dispatches]
      rfl

theorem handlerCall_dispatches (s : Sched F) (call : HandlerCall F) (f : F) :
    (s.handlerCall call).log.count (.dispatched f) = s.log.count (.dispatched f) :=
  (handlerCall_requests s call).dispatches f

/-! ## Steps of a run after the kill -/

/-- The fibre is off the queues, and the next pass will not put it back. -/
structure Stopped (frames : List (Frame F)) (s : Sched F) (f : F) : Prop where
  off : s.Off f
  current : s.current = some f → frames = [] ∧ s.state ≠ .yielded

omit [DecidableEq F] in
theorem Stopped.of_drained {frames : List (Frame F)} (h : Stopped frames s f)
    (hoff : s'.Off f) (hdrained : Drained s s') : Stopped frames s' f := by
  refine ⟨hoff, ?_⟩
  rw [hdrained.current, hdrained.state]
  exact h.current

theorem Stopped.does {action : Action F} {frames frames' : List (Frame F)}
    (h : Stopped frames s f) (hdoes : Does action frames s frames' s')
    (haction : ∀ duetime, action ≠ .timeout duetime) (hnot : ¬ action.Requests f) :
    Stopped frames' s' f ∧
      s'.log.count (.dispatched f) = s.log.count (.dispatched f) := by
  cases hdoes with
  | run hdrain =>
      refine ⟨h.of_drained ((h.off.drain hdrain).enqueue hnot)
        (hdrain.drained.trans (enqueue_drained _ _)), ?_⟩
      exact (hdrain.requests.trans (enqueue_requests _ _)).dispatches f
  | @call _ _ call =>
      have hsame := handlerCall_same s call
      have hquiet : (s.handlerCall call).Quiet f := by
        unfold Quiet
        rw [(s.handlerCall_pending_le call).2]
        exact h.off.quiet
      exact ⟨h.of_drained ⟨hquiet, hsame.runq ▸ h.off.runq, hsame.timerq ▸ h.off.timerq,
        handlerCall_pending h.off.pending hnot, hsame.held ▸ h.off.held⟩ hsame.drained,
        handlerCall_dispatches s call f⟩
  | @kill _ _ s₁ g hdrain =>
      have hoff := (h.off.drain hdrain).interrupt
      have hkept := h.of_drained hoff (hdrain.drained.trans (interrupt_same _).drained)
      refine ⟨⟨⟨hoff.quiet, fun hmem => hoff.runq (List.erase_sublist.subset hmem),
        fun hmem => hoff.timerq (List.erase_sublist.subset hmem), hoff.pending,
        hoff.held⟩, hkept.current⟩, ?_⟩
      exact (hdrain.requests.trans (interrupt_requests _)).dispatches f
  | past _ => exact absurd rfl (haction _)
  | arm _ => exact absurd rfl (haction _)
  | @idle _ _ s₁ time hpass hnone =>
      obtain ⟨hoff, hne⟩ := h.off.pass hpass fun hf => (h.current hf).2
      refine ⟨⟨hoff.interrupt, ?_⟩, ?_⟩
      · rw [(interrupt_same s₁).current]
        exact fun hf => absurd hf hne
      · rw [(interrupt_requests s₁).dispatches, hpass.dispatches, if_neg hne]
        rfl
  | dispatch hpass _ =>
      obtain ⟨hoff, hne⟩ := h.off.pass hpass fun hf => (h.current hf).2
      refine ⟨⟨hoff, fun hf => absurd hf hne⟩, ?_⟩
      rw [hpass.dispatches, if_neg hne]
      rfl
  | @yield frame _ _ =>
      refine ⟨⟨⟨h.off.quiet, h.off.runq, h.off.timerq, h.off.pending, h.off.held⟩,
        fun hf => nomatch (h.current hf).1⟩, ?_⟩
      simp [returned]
  | @ret frame _ _ state _ =>
      have hoff : (s.returned frame.fibre state).Off f :=
        ⟨h.off.quiet, h.off.runq, h.off.timerq, h.off.pending, h.off.held⟩
      refine ⟨⟨hoff.interrupt, ?_⟩, ?_⟩
      · rw [(interrupt_same _).current]
        exact fun hf => nomatch (h.current hf).1
      · rw [(interrupt_requests _).dispatches]
        simp [returned]

theorem Stopped.acts {action : Action F} {frames frames' : List (Frame F)}
    (h : Stopped frames s f) (hacts : Acts action frames s frames' s')
    (hframes : ∀ duetime, action = .timeout duetime → frames ≠ [])
    (hnot : ¬ action.Requests f) :
    Stopped frames' s' f ∧
      s'.log.count (.dispatched f) = s.log.count (.dispatched f) := by
  cases hacts with
  | does haction hdoes => exact h.does hdoes haction hnot
  | past _ => exact ⟨h, rfl⟩
  | @arm _ _ duetime g _ hcurrent _ =>
      have hne : g ≠ f := by
        rintro rfl
        exact hframes duetime rfl (h.current hcurrent).1
      refine ⟨⟨⟨h.off.quiet, h.off.runq, ?_, h.off.pending, h.off.held⟩,
        fun hf => absurd (hcurrent.symm.trans hf) (by simpa using hne)⟩, rfl⟩
      unfold Sched.arm
      dsimp only
      split
      · exact h.off.timerq
      · intro hmem
        rcases List.mem_cons.mp ((insertSorted_perm _ _ _).subset hmem) with rfl | hold
        · exact hne rfl
        · exact h.off.timerq hold

theorem Does.pass {time : BitVec 32} {frames frames' : List (Frame F)}
    (h : Does (.schedulerNext time) frames s frames' s') : ∃ s₁, Pass time s s₁ ∧
      ((s₁.current = none ∧ frames' = markNested frames ∧ s' = s₁.interrupt) ∨
        ∃ frame, frames' = frame :: markNested frames ∧ s' = s₁) := by
  cases h with
  | idle hpass hnone => exact ⟨_, hpass, .inl ⟨hnone, rfl, rfl⟩⟩
  | dispatch hpass _ => exact ⟨_, hpass, .inr ⟨_, rfl, rfl⟩⟩

theorem Does.returned {state : FibreState} {frames frames' : List (Frame F)}
    (h : Does (.ret state) frames s frames' s') : s'.runq = s.runq ∧
      s'.current = s.current ∧ s'.state = state ∧
      ∀ f, s'.log.count (.dispatched f) = s.log.count (.dispatched f) := by
  have hcount : ∀ (frame : Frame F) f, (s.returned frame.fibre state).log.count
      (.dispatched f) = s.log.count (.dispatched f) := by
    intro frame f
    simp [Sched.returned]
  cases h with
  | yield => exact ⟨rfl, rfl, rfl, hcount _⟩
  | @ret frame _ _ _ _ =>
      have hsame := interrupt_same (s.returned frame.fibre state)
      refine ⟨hsame.runq, hsame.current, hsame.state, fun f => ?_⟩
      rw [(interrupt_requests _).dispatches]
      exact hcount frame f

theorem Update.yielded (h : Update s s') (hcurrent : s.current = some f)
    (hstate : s.state = .yielded) : f ∈ s'.runq := by
  cases h with
  | @idle s₁ hdrain hnone =>
      rw [(hdrain.drained.trans (interrupt_same s₁).drained).current, hcurrent] at hnone
      cases hnone
  | @current s₁ s₂ g hdrain hg hupdate =>
      have hdrained := hdrain.drained.trans (interrupt_same s₁).drained
      rw [hdrained.current, hcurrent] at hg
      cases hg
      rw [(interrupt_same s₂).runq]
      cases hupdate with
      | yielded _ _ => exact mem_enqueue_runq _ f
      | waiting hwaiting => rw [hdrained.state, hstate] at hwaiting; cases hwaiting
      | exited hexited => rw [hdrained.state, hstate] at hexited; cases hexited
      | failed hfailed => rw [hdrained.state, hstate] at hfailed; cases hfailed

theorem Pass.head {time : BitVec 32} (h : Pass time s s') {g : F} {gs : List F}
    (hrunq : s.runq = g :: gs) : s'.current = some g ∧ gs <+: s'.runq := by
  have hsame := interrupt_same { s with now := time }
  cases h with
  | fast hfast =>
      have hnil := hsame.runq.symm.trans hfast.2.1
      change s.runq = [] at hnil
      rw [hnil] at hrunq
      cases hrunq
  | @slow s₁ _ hupdate =>
      have hsame' := (interrupt_same s₁.expire.interrupt.nextTask).trans
        (dispatch_same _)
      have hfront : g :: gs <+: s₁.expire.interrupt.runq := by
        rw [(interrupt_same s₁.expire).runq, ← hrunq]
        have hupdated := hupdate.drained.runq
        rw [hsame.runq] at hupdated
        exact hupdated.trans (List.prefix_append _ _)
      obtain ⟨rest, hrest⟩ := hfront
      rw [hsame'.current, hsame'.runq]
      refine ⟨?_, rest, ?_⟩
      · change s₁.expire.interrupt.runq.head? = some g
        rw [← hrest]
        rfl
      · change gs ++ rest = s₁.expire.interrupt.runq.tail
        rw [← hrest]
        rfl

theorem Pass.yielded {time : BitVec 32} (h : Pass time s s')
    (hcurrent : s.current = some f) (hstate : s.state = .yielded) :
    s'.current = some f ∨ f ∈ s'.runq := by
  have hsame := interrupt_same { s with now := time }
  cases h with
  | fast _ =>
      rw [((interrupt_same _).trans (dispatch_same _)).current, hsame.current]
      exact .inl hcurrent
  | @slow s₁ _ hupdate =>
      have hsame' := (interrupt_same s₁.expire.interrupt.nextTask).trans
        (dispatch_same _)
      have hmem : f ∈ s₁.expire.interrupt.runq := by
        rw [(interrupt_same s₁.expire).runq]
        refine List.mem_append_left _ (hupdate.yielded ?_ ?_)
        · exact hsame.current.trans hcurrent
        · exact hsame.state.trans hstate
      rw [hsame'.current, hsame'.runq]
      cases hrunq : s₁.expire.interrupt.runq with
      | nil =>
          rw [hrunq] at hmem
          cases hmem
      | cons g gs =>
          rw [hrunq] at hmem
          rcases List.mem_cons.mp hmem with rfl | hmem
          · exact .inl (congrArg List.head? hrunq)
          · refine .inr ?_
            change f ∈ s₁.expire.interrupt.runq.tail
            rw [hrunq]
            exact hmem

theorem Acts.of_ne {action : Action F} {frames frames' : List (Frame F)}
    (h : Acts action frames s frames' s') (haction : ∀ duetime, action ≠ .timeout duetime) :
    Does action frames s frames' s' := by
  cases h with
  | does _ hdoes => exact hdoes
  | past _ => exact absurd rfl (haction _)
  | arm _ _ _ => exact absurd rfl (haction _)

theorem Acts.kill {frames frames' : List (Frame F)}
    (h : Acts (.kill f) frames s frames' s') :
    frames' = frames ∧ ∃ s₁, Drain s s₁ ∧ s' = s₁.interrupt.kill f := by
  cases h with
  | does _ hdoes =>
      cases hdoes with
      | kill hdrain => exact ⟨rfl, _, hdrain, rfl⟩

end

end Sched

namespace System

variable [DecidableEq F] {sys sys' : System F} {s : Sched F} {f : F}

omit [DecidableEq F] in
theorem fibresTimeOut_anyCalls (frames : List (Frame F)) (now : BitVec 32)
    (action : Action F) (h : FibresTimeOut frames now action) :
    AnyCalls frames now action := h.1

omit [DecidableEq F] in
theorem quiet_of_not_requests {step : Step F} (h : ¬ step.Requests f) :
    Sched.Quiet { s with interrupts := step.interrupts } f :=
  fun calls hcalls call hcall hrequests => h (.inr ⟨calls, hcalls, call, hcall, hrequests⟩)

theorem Tidy.dispatches_eq (h : sys.Tidy s) (f : F) :
    sys.dispatches f = s.log.count (.dispatched f) := by
  rw [dispatches, h.represents.scalars.2.2.2.2]

theorem run_dispatches {steps : List (Step F)} (h : sys.Tidy s)
    (hstopped : Sched.Stopped sys.frames { s with interrupts := [] } f)
    (hrun : Run (FreeNext FibresTimeOut) sys steps sys')
    (hnot : ∀ step ∈ steps, ¬ step.Requests f) :
    sys'.dispatches f = sys.dispatches f := by
  have key : ∃ s', sys'.Tidy s' ∧
      Sched.Stopped sys'.frames { s' with interrupts := [] } f ∧
      s'.log.count (.dispatched f) = s.log.count (.dispatched f) := by
    induction hrun with
    | nil => exact ⟨s, h, hstopped, rfl⟩
    | @snoc steps sys₁ step sys₂ _ hnext ih =>
        obtain ⟨s₁, h₁, hstopped₁, hcount₁⟩ := ih fun step hmem =>
          hnot step (List.mem_append_left _ hmem)
        have hstep := hnot step (List.mem_append_right _ List.mem_cons_self)
        obtain ⟨s₂, hacts, h₂⟩ := h₁.next fibresTimeOut_anyCalls hnext
        have hstart : Sched.Stopped sys₁.frames
            { s₁ with interrupts := step.interrupts } f :=
          ⟨⟨quiet_of_not_requests hstep, hstopped₁.off.runq, hstopped₁.off.timerq,
            hstopped₁.off.pending, hstopped₁.off.held⟩, hstopped₁.current⟩
        have hframes : ∀ duetime, step.action = .timeout duetime →
            sys₁.frames ≠ [] := by
          intro duetime haction
          have hrule := hnext.1.1
          rw [haction] at hrule
          exact hrule.2
        obtain ⟨hstopped₂, hcount₂⟩ := hstart.acts hacts hframes
          fun hrequests => hstep (.inl hrequests)
        exact ⟨s₂, h₂, ⟨⟨nofun, hstopped₂.off.runq, hstopped₂.off.timerq,
          hstopped₂.off.pending, hstopped₂.off.held⟩, hstopped₂.current⟩,
          hcount₂.trans hcount₁⟩
  obtain ⟨s', h', -, hcount⟩ := key
  rw [h'.dispatches_eq, h.dispatches_eq, hcount]

theorem Tidy.step (h : sys.Tidy s) (step : Step F)
    (hrule : FibresTimeOut sys.frames sys.world.kernel.now step.action)
    (haction : ∀ duetime, step.action ≠ .timeout duetime) :
    ∃ sys' s', FreeNext FibresTimeOut sys step sys' ∧
      Sched.Does step.action sys.frames { s with interrupts := step.interrupts }
        sys'.frames s' ∧ sys'.Tidy s' := by
  have hw := h.withInterrupts step.interrupts
  have hframes : ∀ state, step.action = .ret state → sys.frames ≠ [] := by
    intro state hstate
    rw [hstate] at hrule
    exact hrule.1.1
  obtain ⟨_, sys', hret, -⟩ := Prog.exists_returns (exec_monotone step.action)
    (exec_does hw.represents hw.sound.state haction hframes (Nat.lt_succ_self _))
  have hnext : FreeNext FibresTimeOut sys step sys' :=
    ⟨⟨hrule, hret⟩, offTimerq_of_ne haction⟩
  obtain ⟨s', hacts, h'⟩ := h.next fibresTimeOut_anyCalls hnext
  exact ⟨sys', s', hnext, hacts.of_ne haction, h'⟩

theorem Tidy.kill (h : sys.Tidy s) {step : Step F} (haction : step.action = .kill f)
    (hnext : FreeNext FibresTimeOut sys step sys') : ∃ s', sys'.Tidy s' ∧
      sys'.frames = sys.frames ∧ s'.current = s.current ∧ s'.state = s.state ∧
      f ∉ s'.runq ∧ f ∉ s'.timerq ∧
      s'.log.count (.dispatched f) = s.log.count (.dispatched f) ∧
      (¬ step.Requests f → f ∉ s'.pending) := by
  obtain ⟨s', hacts, h'⟩ := h.next fibresTimeOut_anyCalls hnext
  rw [haction] at hacts
  obtain ⟨hframes, s₁, hdrain, rfl⟩ := hacts.kill
  have hdrained := hdrain.drained.trans (Sched.interrupt_same s₁).drained
  have hdistinct := List.nodup_append.mp
    ((Sched.interrupt_same s₁).distinct (hdrain.distinct h.sound.distinct))
  refine ⟨_, h', hframes, hdrained.current, hdrained.state,
    hdistinct.1.not_mem_erase, hdistinct.2.1.not_mem_erase, ?_, ?_⟩
  · exact (hdrain.requests.trans (Sched.interrupt_requests _)).dispatches f
  · intro hnot
    refine ((quiet_of_not_requests hnot).drain hdrain).pending ?_
    rw [hdrain.pending]
    exact List.not_mem_nil

/-! ## A fibre in line is dispatched -/

omit [DecidableEq F] in
theorem schedulerNext_not_requests (time : BitVec 32) (f : F) :
    ¬ Step.Requests { action := .schedulerNext time } f := by
  simp [Step.Requests, Action.Requests]

omit [DecidableEq F] in
theorem ret_not_requests (state : FibreState) (f : F) :
    ¬ Step.Requests { action := .ret state } f := by
  simp [Step.Requests, Action.Requests]

theorem Tidy.pass (h : sys.Tidy s) : ∃ sys' s',
    FreeNext FibresTimeOut sys { action := .schedulerNext sys.world.kernel.now } sys' ∧
      Sched.Pass sys.world.kernel.now { s with interrupts := [] } s' ∧
      ((s'.current = none ∧ sys'.Tidy s'.interrupt) ∨
        ∃ frame, sys'.frames = frame :: markNested sys.frames ∧ sys'.Tidy s') := by
  obtain ⟨sys', s', hnext, hdoes, h'⟩ :=
    h.step { action := .schedulerNext sys.world.kernel.now } ⟨trivial, trivial⟩ nofun
  obtain ⟨s₁, hpass, hcase⟩ := hdoes.pass
  refine ⟨sys', s₁, hnext, hpass, ?_⟩
  rcases hcase with ⟨hnone, -, rfl⟩ | ⟨frame, hframes, rfl⟩
  · exact .inl ⟨hnone, h'⟩
  · exact .inr ⟨frame, hframes, h'⟩

/-- Until it is the turn of a fibre in line, the others wait. -/
theorem Tidy.exists_dispatch (h : sys.Tidy s) {xs ys : List F}
    (hrunq : s.runq = xs ++ f :: ys) : ∃ steps sys',
      Run (FreeNext FibresTimeOut) sys steps sys' ∧
        (∀ step ∈ steps, ¬ step.Requests f) ∧ sys.dispatches f < sys'.dispatches f := by
  induction xs generalizing sys s ys with
  | nil =>
      obtain ⟨sys', s', hnext, hpass, hcase⟩ := h.pass
      obtain ⟨hcurrent, -⟩ := hpass.head hrunq
      have hcount := hpass.dispatches f
      rw [if_pos hcurrent] at hcount
      refine ⟨_, sys', .single hnext, ?_, ?_⟩
      · intro step hmem
        rw [List.mem_singleton.mp hmem]
        exact schedulerNext_not_requests _ f
      · obtain ⟨hnone, -⟩ | ⟨frame, -, h'⟩ := hcase
        · rw [hcurrent] at hnone
          cases hnone
        · rw [h.dispatches_eq, h'.dispatches_eq, hcount]
          exact Nat.lt_succ_self _
  | cons g gs ih =>
      obtain ⟨sys₁, s₁, hnext₁, hpass, hcase⟩ := h.pass
      obtain ⟨hcurrent, rest, hrest⟩ := hpass.head hrunq
      have hcount₁ := hpass.dispatches f
      obtain ⟨hnone, -⟩ | ⟨frame, hframes, h₁⟩ := hcase
      · rw [hcurrent] at hnone
        cases hnone
      · have hne : sys₁.frames ≠ [] := by simp [hframes]
        obtain ⟨sys₂, s₂, hnext₂, hdoes, h₂⟩ := h₁.step { action := .ret .waiting }
          ⟨⟨hne, .inr (.inl rfl)⟩, trivial⟩ nofun
        obtain ⟨hrunq₂, -, -, hcount₂⟩ := hdoes.returned
        have hline : s₂.runq = gs ++ f :: (ys ++ rest) := by
          rw [hrunq₂]
          change s₁.runq = _
          rw [← hrest]
          exact List.append_assoc gs (f :: ys) rest
        obtain ⟨steps, sys', hrun, hnot, hlt⟩ := ih h₂ hline
        refine ⟨_, sys', .cons hnext₁ (.cons hnext₂ hrun), ?_, ?_⟩
        · intro step hmem
          rcases List.mem_cons.mp hmem with rfl | hmem
          · exact schedulerNext_not_requests _ f
          rcases List.mem_cons.mp hmem with rfl | hmem
          · exact ret_not_requests _ f
          · exact hnot step hmem
        · rw [h.dispatches_eq]
          rw [h₂.dispatches_eq, hcount₂] at hlt
          change s₁.log.count (.dispatched f) < _ at hlt
          change _ = s.log.count (.dispatched f) + _ at hcount₁
          omega

/-- A current fibre that has yielded runs again without being asked for. -/
theorem Tidy.yielded_dispatch (h : sys.Tidy s) (hcurrent : s.current = some f)
    (hstate : s.state = .yielded) : ∃ steps sys',
      Run (FreeNext FibresTimeOut) sys steps sys' ∧
        (∀ step ∈ steps, ¬ step.Requests f) ∧ sys.dispatches f < sys'.dispatches f := by
  obtain ⟨sys₁, s₁, hnext₁, hpass, hcase⟩ := h.pass
  have hcount₁ := hpass.dispatches f
  change _ = s.log.count (.dispatched f) + _ at hcount₁
  have hline : ∃ s₂, sys₁.Tidy s₂ ∧ s₂.runq = s₁.runq ∧
      s₂.log.count (.dispatched f) = s₁.log.count (.dispatched f) := by
    obtain ⟨-, h₁⟩ | ⟨frame, -, h₁⟩ := hcase
    · exact ⟨_, h₁, (Sched.interrupt_same s₁).runq,
        (Sched.interrupt_requests s₁).dispatches f⟩
    · exact ⟨_, h₁, rfl, rfl⟩
  obtain ⟨s₂, h₂, hrunq₂, hcount₂⟩ := hline
  rcases hpass.yielded hcurrent hstate with hnow | hmem
  · refine ⟨_, sys₁, .single hnext₁, ?_, ?_⟩
    · intro step hmem
      rw [List.mem_singleton.mp hmem]
      exact schedulerNext_not_requests _ f
    · rw [if_pos hnow] at hcount₁
      rw [h.dispatches_eq, h₂.dispatches_eq]
      omega
  · obtain ⟨xs, ys, hsplit⟩ := List.append_of_mem hmem
    obtain ⟨steps, sys', hrun, hnot, hlt⟩ := h₂.exists_dispatch (hrunq₂.trans hsplit)
    refine ⟨_, sys', .cons hnext₁ hrun, ?_, ?_⟩
    · intro step hmem
      rcases List.mem_cons.mp hmem with rfl | hmem
      · exact schedulerNext_not_requests _ f
      · exact hnot step hmem
    · rw [h₂.dispatches_eq] at hlt
      rw [h.dispatches_eq]
      omega

/-- A kill in any state that a run reaches returns.  It keeps the fibre from
being dispatched again exactly if the fibre is not the current one, or no
function is being executed and the fibre has not yielded. -/
theorem kill_stops_iff {atomicRunqBuf : Nat} {eventq : F → Messageq}
    {steps : List (Step F)} {sys : System F}
    (hrun : Run (FreeNext FibresTimeOut) (init atomicRunqBuf eventq) steps sys)
    (f : F) :
    (∀ interrupts, ∃ sys',
      FreeNext FibresTimeOut sys { action := .kill f, interrupts } sys') ∧
    (sys.KillStops f ↔ sys.world.kernel.current ≠ some f ∨
      sys.frames = [] ∧ sys.world.kernel.state ≠ .yielded) := by
  obtain ⟨s, h⟩ := run_tidy fibresTimeOut_anyCalls hrun
  obtain ⟨hcurrent, hstate, -⟩ := h.represents.scalars
  rw [hcurrent, hstate]
  refine ⟨fun interrupts => ?_, ?_, ?_⟩
  · obtain ⟨sys', -, hnext, -⟩ :=
      h.step { action := .kill f, interrupts } ⟨trivial, trivial⟩ nofun
    exact ⟨sys', hnext⟩
  · intro hstops
    by_contra hcond
    rw [not_or, not_not, not_and, not_not] at hcond
    obtain ⟨sys₁, _, hnext, -⟩ := h.step { action := .kill f } ⟨trivial, trivial⟩ nofun
    obtain ⟨s₁, h₁, hframes₁, hcurrent₁, hstate₁, -, -, hcount₁, -⟩ := h.kill rfl hnext
    have hyield : ∃ steps sys₂ s₂, Run (FreeNext FibresTimeOut) sys₁ steps sys₂ ∧
        (∀ step ∈ steps, ¬ step.Requests f) ∧ sys₂.Tidy s₂ ∧
        s₂.current = some f ∧ s₂.state = .yielded ∧
        sys₂.dispatches f = sys₁.dispatches f := by
      by_cases hframes : sys.frames = []
      · exact ⟨[], sys₁, s₁, .nil, nofun, h₁, hcurrent₁.trans hcond.1,
          hstate₁.trans (hcond.2 hframes), rfl⟩
      · -- the fibre that made the call yields in place of the killed one
        obtain ⟨sys₂, s₂, hnext₂, hdoes, h₂⟩ := h₁.step { action := .ret .yielded }
          ⟨⟨hframes₁ ▸ hframes, .inl rfl⟩, trivial⟩ nofun
        obtain ⟨-, hcurrent₂, hstate₂, hcount₂⟩ := hdoes.returned
        refine ⟨_, sys₂, s₂, .single hnext₂, ?_, h₂,
          hcurrent₂.trans (hcurrent₁.trans hcond.1), hstate₂, ?_⟩
        · intro step hmem
          rw [List.mem_singleton.mp hmem]
          exact ret_not_requests _ f
        · rw [h₂.dispatches_eq, hcount₂, h₁.dispatches_eq]
    obtain ⟨steps₂, sys₂, s₂, hrun₂, hnot₂, h₂, hcurrent₂, hstate₂, hcount₂⟩ := hyield
    obtain ⟨steps₃, sys₃, hrun₃, hnot₃, hlt⟩ := h₂.yielded_dispatch hcurrent₂ hstate₂
    have heq := hstops _ _ sys₁ sys₃ rfl hnext (by simp [Step.Requests, Action.Requests])
      (hrun₂.append hrun₃) (List.forall_mem_append.mpr ⟨hnot₂, hnot₃⟩)
    rw [hcount₂, h₁.dispatches_eq, hcount₁, ← h.dispatches_eq] at hlt
    omega
  · intro hcond step steps sys' sys'' haction hnext hnot hrun' hnots
    obtain ⟨s', h', hframes, hcurrent', hstate', hrunq, htimerq, hcount, hpending⟩ :=
      h.kill haction hnext
    have hstopped : Sched.Stopped sys'.frames { s' with interrupts := [] } f := by
      refine ⟨⟨nofun, hrunq, htimerq, hpending hnot, ?_⟩, ?_⟩
      · change f ∉ s'.held
        rw [h'.sound.held]
        exact List.not_mem_nil
      · intro hf
        have hf' : s.current = some f := hcurrent'.symm.trans hf
        obtain ⟨hnil, hne⟩ := hcond.resolve_left (not_not.mpr hf')
        exact ⟨hframes.trans hnil, fun hyielded => hne (hstate'.symm.trans hyielded)⟩
    rw [run_dispatches h' hstopped hrun' hnots, h'.dispatches_eq, hcount,
      h.dispatches_eq]

theorem kill_stops_iff_waiting : ∃ sys : System Bool,
    Run (FreeNext FibresTimeOut) (init 64 fun _ => messageqInit 0 32 4)
      [{ action := .run true }, { action := .schedulerNext 0 },
        { action := .ret .waiting }] sys ∧
      (sys.KillStops true ↔ sys.world.kernel.current ≠ some true ∨
        sys.frames = [] ∧ sys.world.kernel.state ≠ .yielded) := by
  have hsome : (follow (F := Bool) FibresTimeOut 9
      [{ action := .run true }, { action := .schedulerNext 0 },
        { action := .ret .waiting }]
      (init 64 fun _ => messageqInit 0 32 4)).isSome = true := by
    decide +kernel
  obtain ⟨sys, hsys⟩ := Option.isSome_iff_exists.mp hsome
  have hrun := freeRun_of_run (follow_run hsys) (by simp)
  exact ⟨sys, hrun, (kill_stops_iff hrun true).2⟩

/-- A fibre yields, the main loop kills it, and the next pass calls it. -/
theorem kill_misses_yielded : ∃ sys : System Bool,
    Run (FreeNext FibresTimeOut) (init 64 fun _ => messageqInit 0 32 4)
      [{ action := .run true }, { action := .schedulerNext 0 },
        { action := .ret .yielded }] sys ∧
      sys.frames = [] ∧ ¬ sys.KillStops true := by
  have hsome : (follow (F := Bool) FibresTimeOut 9
      [{ action := .run true }, { action := .schedulerNext 0 },
        { action := .ret .yielded }]
      (init 64 fun _ => messageqInit 0 32 4)).any (fun sys => sys.frames = [] ∧
        (follow FibresTimeOut 9 [{ action := .kill true }] sys).any fun sys' =>
          (follow FibresTimeOut 9 [{ action := .schedulerNext 1 }] sys').any
            fun sys'' => sys''.dispatches true ≠ sys.dispatches true) = true := by
    decide +kernel
  obtain ⟨sys, hsys, hpost⟩ := (Option.any_eq_true _ _).mp hsome
  obtain ⟨hframes, hpost⟩ := of_decide_eq_true hpost
  obtain ⟨sys', hsys', hpost⟩ := (Option.any_eq_true _ _).mp hpost
  obtain ⟨sys'', hsys'', hpost⟩ := (Option.any_eq_true _ _).mp hpost
  refine ⟨sys, freeRun_of_run (follow_run hsys) (by simp), hframes, fun hstops => ?_⟩
  have hkill := (freeRun_of_run (follow_run hsys') (by simp)).of_single
  have hnext := freeRun_of_run (follow_run hsys'') (by simp)
  exact of_decide_eq_true hpost (hstops _ _ sys' sys'' rfl hkill
    (by simp [Step.Requests, Action.Requests]) hnext
    (by simp [Step.Requests, Action.Requests]))

end System

end Librfn
