import Librfn.Fibre.Api

/-!
# What the calls depend on

Nothing that the scheduler does or answers depends on the states recorded in
the fibres.  Two memories that differ in these only stay so, whatever is
called.
-/

namespace Librfn

open Librfn.Logic

namespace Sched

variable {F : Type}

def blankStates (fibre : F → Fibre) : F → Fibre := fun f =>
  { fibre f with state := .yielded }

/-- The sequences without the states recorded in the fibres and without the
log. -/
def visible (s : Sched F) : Sched F :=
  { s with fibre := blankStates s.fibre, log := [] }

/-- The two differ in what is recorded only. -/
def Agrees (s t : Sched F) : Prop := s.visible = t.visible

section Agrees

variable {s t : Sched F}

theorem Agrees.symm (h : Agrees s t) : Agrees t s := Eq.symm h

theorem Agrees.trans {u : Sched F} (h : Agrees s t) (h' : Agrees t u) :
    Agrees s u := Eq.trans h h'

theorem Agrees.map {g : Sched F → Sched F}
    (hg : ∀ s, (g s).visible = (g s.visible).visible) (h : Agrees s t) :
    Agrees (g s) (g t) := by
  unfold Agrees at h ⊢
  rw [hg s, h, ← hg t]

theorem Agrees.eq {α : Type} {g : Sched F → α} (h : Agrees s t)
    (hg : ∀ u, g u.visible = g u) : g s = g t := by
  unfold Agrees at h
  rw [← hg s, h, hg t]

theorem Agrees.runq (h : Agrees s t) : s.runq = t.runq := h.eq fun _ => rfl

theorem Agrees.timerq (h : Agrees s t) : s.timerq = t.timerq := h.eq fun _ => rfl

theorem Agrees.pending (h : Agrees s t) : s.pending = t.pending :=
  h.eq fun _ => rfl

theorem Agrees.current (h : Agrees s t) : s.current = t.current :=
  h.eq fun _ => rfl

theorem Agrees.state (h : Agrees s t) : s.state = t.state := h.eq fun _ => rfl

theorem Agrees.now (h : Agrees s t) : s.now = t.now := h.eq fun _ => rfl

theorem Agrees.eventq (h : Agrees s t) : s.eventq = t.eventq := h.eq fun _ => rfl

theorem Agrees.interrupts (h : Agrees s t) : s.interrupts = t.interrupts :=
  h.eq fun _ => rfl

theorem Agrees.wakeup (h : Agrees s t) : s.wakeup = t.wakeup := h.eq fun _ => rfl

theorem Agrees.fastPath (h : Agrees s t) : s.FastPath ↔ t.FastPath :=
  iff_of_eq (h.eq fun _ => rfl)

end Agrees

/-! ## Each change -/

variable [DecidableEq F] (s : Sched F)

omit [DecidableEq F] in
theorem runAtomic_visible (f : F) :
    (s.runAtomic f).visible = (s.visible.runAtomic f).visible := by
  by_cases h : s.Room
  · have h' : s.visible.Room := h
    simp only [runAtomic, h, h', if_true]
    rfl
  · have h' : ¬ s.visible.Room := h
    simp only [runAtomic, h, h', if_false]
    rfl

theorem enqueue_visible (f : F) :
    (s.enqueue f).visible = (s.visible.enqueue f).visible := by
  by_cases h : f ∈ s.runq
  · have h' : f ∈ s.visible.runq := h
    simp only [enqueue, h, h', if_true]
    rfl
  · have h' : f ∉ s.visible.runq := h
    simp only [enqueue, h, h', if_false]
    rfl

theorem produceClaim_visible (f : F) :
    (s.produceClaim f).visible = (s.visible.produceClaim f).visible := by
  obtain ⟨evtp, mq, heq⟩ := messageqClaim_returns (s.eventq f)
  have heq' : messageqClaim (s.visible.eventq f) = .ok (evtp, mq) := heq
  rw [produceClaim, produceClaim, heq, heq']
  cases evtp <;> rfl

theorem produceSend_visible (f : F) (event : Nat) :
    (s.produceSend f event).visible = (s.visible.produceSend f event).visible := by
  have hclaims : s.visible.claims = s.claims := rfl
  unfold produceSend
  rw [hclaims]
  rcases (s.claims f)[event]? with _ | ⟨evtp, _ | queued⟩
  · rfl
  · have hsent := (s.sendEvent f evtp).runAtomic_visible f
    exact congrArg (fun u : Sched F => { u with
      claims := Function.update s.claims f
        ((s.claims f).set event ⟨evtp, some (decide s.Room)⟩) }) hsent
  · rfl

theorem handlerCall_visible (call : HandlerCall F) :
    (s.handlerCall call).visible = (s.visible.handlerCall call).visible := by
  cases call with
  | runAtomic f => exact s.runAtomic_visible f
  | eventqClaim f => exact s.produceClaim_visible f
  | eventqSend f event => exact s.produceSend_visible f event

theorem handlerCalls_visible (calls : List (HandlerCall F)) (s : Sched F) :
    (calls.foldl handlerCall s).visible =
      (calls.foldl handlerCall s.visible).visible := by
  induction calls generalizing s with
  | nil => rfl
  | cons call calls ih =>
      rw [List.foldl_cons, List.foldl_cons, ih, handlerCall_visible, ← ih]

theorem interrupt_visible : s.interrupt.visible = s.visible.interrupt.visible := by
  unfold interrupt
  have hinterrupts : s.visible.interrupts = s.interrupts := rfl
  rw [hinterrupts]
  cases s.interrupts with
  | nil => rfl
  | cons calls interrupts => exact handlerCalls_visible calls { s with interrupts }

omit [DecidableEq F] in
theorem receive_visible (f : F) (fs : List F) :
    (s.receive f fs).visible = (s.visible.receive f fs).visible := rfl

omit [DecidableEq F] in
theorem release_visible : s.release.visible = s.visible.release.visible := rfl

theorem blankStates_update (fibre : F → Fibre) (f : F) (x : Fibre) :
    blankStates (Function.update fibre f x) =
      Function.update (blankStates fibre) f { x with state := .yielded } := by
  funext g
  by_cases hg : g = f
  · subst hg
    simp [blankStates]
  · simp [blankStates, Function.update_of_ne hg]

theorem storeState_visible (f : F) : (s.storeState f).visible = s.visible := by
  have hfibre : blankStates (s.storeState f).fibre = blankStates s.fibre := by
    rw [storeState, blankStates_update]
    exact Function.update_eq_self f _
  exact congrArg (fun fibre => { s.visible with fibre }) hfibre

theorem restart_visible (f : F) :
    (s.restart f).visible = (s.visible.restart f).visible := by
  simp only [visible, restart, blankStates_update]
  rfl

theorem setPriv_visible (f : F) (priv : BitVec 16) :
    (s.setPriv f priv).visible = (s.visible.setPriv f priv).visible := by
  simp only [visible, setPriv, blankStates_update]
  rfl

theorem arm_visible (f : F) (duetime : BitVec 32) :
    (s.arm f duetime).visible = (s.visible.arm f duetime).visible := by
  have hcmp : ∀ fibre : F → Fibre,
      duetimeCmp (blankStates fibre) = duetimeCmp fibre := fun _ => rfl
  have hfibre : blankStates (Function.update s.visible.fibre f
      { s.visible.fibre f with duetime }) =
        blankStates (Function.update s.fibre f { s.fibre f with duetime }) := by
    rw [blankStates_update, blankStates_update]
    rfl
  simp only [visible, arm]
  rw [← hcmp (Function.update s.fibre f _), ← hfibre, hcmp]
  rfl

omit [DecidableEq F] in
theorem expire_visible : s.expire.visible = s.visible.expire.visible := rfl

omit [DecidableEq F] in
theorem nextTask_visible : s.nextTask.visible = s.visible.nextTask.visible := rfl

omit [DecidableEq F] in
theorem dispatch_visible : s.dispatch.visible = s.visible := by
  unfold dispatch
  split <;> rfl

theorem kill_visible (f : F) :
    (s.kill f).visible = (s.visible.kill f).visible := rfl

/-! ## A whole pass -/

variable {s} {t s' t' : Sched F}

theorem Agrees.interrupt (h : Agrees s t) : Agrees s.interrupt t.interrupt :=
  h.map interrupt_visible

theorem Agrees.enqueue (h : Agrees s t) (f : F) :
    Agrees (s.enqueue f) (t.enqueue f) := h.map fun u => u.enqueue_visible f

theorem Agrees.storeState (h : Agrees s t) (f : F) :
    Agrees (s.storeState f) (t.storeState f) := by
  unfold Agrees
  rw [storeState_visible, storeState_visible]
  exact h

/-- Draining is the same for both.  The induction is on what the first one
does; the entries that the second one finds are the same. -/
theorem Drain.agrees (hs : Drain s s') (ht : Drain t t') (h : Agrees s t) :
    Agrees s' t' := by
  induction hs generalizing t t' with
  | @empty s hpending =>
      cases ht with
      | empty _ => exact h.interrupt
      | @entry _ _ _ f fs hpending' _ _ =>
          rw [h.interrupt.pending, hpending'] at hpending
          cases hpending
  | @entry s s₁ s₂ f fs hpending _ _ ihinner ihouter =>
      cases ht with
      | empty hpending' =>
          rw [h.interrupt.pending, hpending'] at hpending
          cases hpending
      | @entry _ t₁ _ g gs hpending' hinner' houter' =>
          rw [h.interrupt.pending, hpending'] at hpending
          cases hpending
          have hreceived := h.interrupt.map fun u => u.receive_visible f fs
          have hinner := ihinner hinner' hreceived.interrupt
          exact ihouter houter'
            ((hinner.enqueue f).interrupt.map release_visible)

theorem UpdateCurrent.agrees {f : F} (hs : UpdateCurrent f s s')
    (ht : UpdateCurrent f t t') (h : Agrees s t) : Agrees s' t' := by
  have hstate := h.state
  have hstored := h.storeState f
  cases hs with
  | yielded hyielded hdrain =>
      cases ht with
      | yielded _ hdrain' => exact (hdrain.agrees hdrain' hstored).enqueue f
      | _ => simp_all
  | waiting hwaiting =>
      cases ht with
      | waiting _ => exact hstored
      | _ => simp_all
  | exited hexited =>
      cases ht with
      | exited _ => exact hstored.map fun u => u.restart_visible f
      | _ => simp_all
  | failed hfailed =>
      cases ht with
      | failed _ =>
          have htaint : Agrees
              { s.storeState f with taintFlags := s.taintFlags ||| flag 32 5 }
              { t.storeState f with taintFlags := t.taintFlags ||| flag 32 5 } :=
            hstored.map (g := fun u =>
              { u with taintFlags := u.taintFlags ||| flag 32 5 }) fun _ => rfl
          exact htaint.map fun u => u.restart_visible f
      | _ => simp_all

theorem Update.agrees (hs : Update s s') (ht : Update t t') (h : Agrees s t) :
    Agrees s' t' := by
  cases hs with
  | idle hdrain hcurrent =>
      cases ht with
      | idle hdrain' _ => exact (hdrain.agrees hdrain' h).interrupt.interrupt
      | current hdrain' hcurrent' _ =>
          rw [(hdrain.agrees hdrain' h).interrupt.current, hcurrent'] at hcurrent
          cases hcurrent
  | current hdrain hcurrent hupdate =>
      cases ht with
      | idle hdrain' hcurrent' =>
          rw [(hdrain.agrees hdrain' h).interrupt.current, hcurrent'] at hcurrent
          cases hcurrent
      | current hdrain' hcurrent' hupdate' =>
          have hdrained := (hdrain.agrees hdrain' h).interrupt
          rw [hdrained.current, hcurrent'] at hcurrent
          cases hcurrent
          exact (hupdate.agrees hupdate' hdrained).interrupt

theorem Agrees.switched (h : Agrees s t) :
    Agrees s.expire.interrupt.nextTask.interrupt.dispatch
      t.expire.interrupt.nextTask.interrupt.dispatch := by
  have hexpired := (h.map expire_visible).interrupt
  have hnext := (hexpired.map nextTask_visible).interrupt
  unfold Agrees
  rw [dispatch_visible, dispatch_visible]
  exact hnext

/-! ## Every call -/

omit [DecidableEq F] in
theorem Agrees.runAtomic (h : Agrees s t) (f : F) :
    Agrees (s.runAtomic f) (t.runAtomic f) := h.map fun u => u.runAtomic_visible f

theorem Agrees.setEventq (h : Agrees s t) (f : F) (mq : Messageq) :
    Agrees (s.setEventq f mq) (t.setEventq f mq) :=
  h.map (g := fun u => u.setEventq f mq) fun _ => rfl

/-- In two memories that agree a call answers the same, whichever way
`fibre_scheduler_next` goes about it. -/
theorem Answers.agrees {P P' : BitVec 32 → Sched F → Sched F → Prop}
    (hP : ∀ {time u v}, P time s u → P' time t v → Agrees u v) {c : ApiCall F}
    {fs fs' gs' : List F} {reply reply' : Reply F}
    (hs : Answers P c fs s reply fs' s') (ht : Answers P' c fs t reply' gs' t')
    (h : Agrees s t) : reply = reply' ∧ fs' = gs' ∧ Agrees s' t' := by
  have hroom : decide s.Room = decide t.Room :=
    h.eq (g := fun u => decide u.Room) fun _ => rfl
  cases hs with
  | self =>
      cases ht with
      | self => exact ⟨congrArg Reply.fibre h.current, rfl, h⟩
  | @run _ _ _ f hdrain =>
      cases ht with
      | run hdrain' => exact ⟨rfl, rfl, (hdrain.agrees hdrain' h).enqueue f⟩
  | runAtomic =>
      cases ht with
      | runAtomic => exact ⟨congrArg Reply.answer hroom, rfl, h.runAtomic _⟩
  | @kill _ _ u f hdrain =>
      cases ht with
      | @kill _ _ v _ hdrain' =>
          have hdrained := hdrain.agrees hdrain' h
          refine ⟨?_, rfl, hdrained.interrupt.map fun u => u.kill_visible f⟩
          rw [hdrained.runq, hdrained.timerq]
  | past hpast =>
      cases ht with
      | past _ => exact ⟨rfl, rfl, h⟩
      | arm hpast' _ _ => exact absurd (h.now ▸ hpast) hpast'
  | @arm _ _ duetime f hpast hcurrent _ =>
      cases ht with
      | past hpast' => exact absurd (h.now ▸ hpast') hpast
      | arm _ hcurrent' _ =>
          rw [h.current, hcurrent'] at hcurrent
          cases hcurrent
          exact ⟨rfl, rfl, h.map fun u => u.arm_visible f duetime⟩
  | @eventqClaim _ _ f evtp mq hclaim =>
      cases ht with
      | eventqClaim hclaim' =>
          rw [h.eventq, hclaim'] at hclaim
          cases hclaim
          refine ⟨rfl, rfl, (h.setEventq f mq).map (g := fun u => u.claimed evtp) ?_⟩
          intro u
          cases evtp <;> rfl
  | @eventqSend _ _ f evtp =>
      cases ht with
      | eventqSend =>
          refine ⟨congrArg Reply.answer hroom, rfl, Agrees.runAtomic ?_ f⟩
          exact h.map (g := fun u => u.sendEvent f evtp) fun _ => rfl
  | eventqEmpty =>
      cases ht with
      | eventqEmpty =>
          rw [h.eventq]
          exact ⟨rfl, rfl, h⟩
  | eventqReceive hreceive =>
      cases ht with
      | eventqReceive hreceive' =>
          rw [h.eventq, hreceive'] at hreceive
          cases hreceive
          exact ⟨rfl, rfl, h.setEventq _ _⟩
  | eventqRelease =>
      cases ht with
      | eventqRelease =>
          rw [h.eventq]
          exact ⟨rfl, rfl, h.setEventq _ _⟩
  | idle hp hcurrent =>
      cases ht with
      | idle hp' _ =>
          have hpassed := (hP hp hp').interrupt
          exact ⟨congrArg Reply.wakeup hpassed.wakeup, rfl, hpassed⟩
      | dispatch hp' hcurrent' =>
          rw [(hP hp hp').current, hcurrent'] at hcurrent
          cases hcurrent
  | @dispatch _ _ _ _ f hp hcurrent =>
      cases ht with
      | idle hp' hcurrent' =>
          rw [(hP hp hp').current, hcurrent'] at hcurrent
          cases hcurrent
      | dispatch hp' hcurrent' =>
          have hpassed := hP hp hp'
          rw [hpassed.current, hcurrent'] at hcurrent
          cases hcurrent
          have hpriv := hpassed.eq (g := fun u => (u.fibre f).priv) fun _ => rfl
          exact ⟨congrArg (Reply.dispatched f) hpriv, rfl, hpassed⟩
  | @setPriv _ _ priv f =>
      cases ht with
      | setPriv => exact ⟨rfl, rfl, h.map fun u => u.setPriv_visible f priv⟩
  | @yield _ _ f =>
      have hreturned := h.map (g := fun u => u.returned f .yielded) fun _ => rfl
      cases ht with
      | yield => exact ⟨congrArg Reply.wakeup h.now, rfl, hreturned⟩
      | ret hne => exact absurd rfl hne
  | @ret _ _ state f hne =>
      have hreturned := (h.map (g := fun u => u.returned f state)
        fun _ => rfl).interrupt
      cases ht with
      | yield => exact absurd rfl hne
      | ret _ => exact ⟨congrArg Reply.wakeup hreturned.wakeup, rfl, hreturned⟩

end Sched

end Librfn
