import Librfn.Fibre.Agreement

/-!
# The slots of the atomic run queue

Which slots of the atomic run queue are free depends on the requests that were
made, and on nothing else.
-/

namespace Librfn

open Librfn.Logic

variable {F : Type}

/-- The fields of a queue that receiving and releasing leave alone. -/
def Messageq.sender (mq : Messageq) : Nat × Nat × Nat :=
  (mq.basep, mq.msgLen, mq.sendp)

/-- Without interrupt handlers no request is made, and a part of the atomic run
queue stays as it is. -/
def World.KeepsRequests {κ : Type} (key : Messageq → κ) (w w' : World F) : Prop :=
  w.interrupts = [] → w'.interrupts = [] ∧
    w'.kernel.atomicRunqBuf = w.kernel.atomicRunqBuf ∧
    key w'.kernel.atomicRunq = key w.kernel.atomicRunq

theorem onLists_eq_ok {α : Type} {m : Prog (ListMem KernelList F) α} {a : α}
    {w w' : World F} (h : onLists m w = .ok (a, w')) :
    ∃ lists, m w.kernel.lists = .ok (a, lists) ∧
      w' = { w with kernel := { w.kernel with lists } } := by
  unfold onLists onKernel at h
  obtain ⟨k, hk, rfl⟩ := Prog.zoom_eq_ok h
  obtain ⟨lists, hlists, rfl⟩ := Prog.zoom_eq_ok hk
  exact ⟨lists, hlists, rfl⟩

theorem onAtomicRunq_eq_ok {α : Type} {m : Prog Messageq α} {a : α} {w w' : World F}
    (h : onAtomicRunq m w = .ok (a, w')) :
    ∃ atomicRunq, m w.kernel.atomicRunq = .ok (a, atomicRunq) ∧
      w' = { w with kernel := { w.kernel with atomicRunq } } := by
  unfold onAtomicRunq onKernel at h
  obtain ⟨k, hk, rfl⟩ := Prog.zoom_eq_ok h
  obtain ⟨mq, hmq, rfl⟩ := Prog.zoom_eq_ok hk
  exact ⟨mq, hmq, rfl⟩

section Keeps

open Librfn.Logic.Prog (Keeps)

variable {κ : Type} {key : Messageq → κ}

theorem World.KeepsRequests.refl (w : World F) : w.KeepsRequests key w :=
  fun hquiet => ⟨hquiet, rfl, rfl⟩

theorem World.KeepsRequests.trans (w w' w'' : World F)
    (h : w.KeepsRequests key w') (h' : w'.KeepsRequests key w'') :
    w.KeepsRequests key w'' := by
  intro hquiet
  obtain ⟨hquiet', hbuf, hkey⟩ := h hquiet
  obtain ⟨hquiet'', hbuf', hkey'⟩ := h' hquiet'
  exact ⟨hquiet'', hbuf'.trans hbuf, hkey'.trans hkey⟩

open World.KeepsRequests (refl trans)

theorem onLists_keeps {α : Type} (m : Prog (ListMem KernelList F) α) :
    Keeps (World.KeepsRequests key) (onLists m) := by
  intro w a w' hm hquiet
  obtain ⟨lists, -, rfl⟩ := onLists_eq_ok hm
  exact ⟨hquiet, rfl, rfl⟩

theorem onAtomicRunq_keeps {α : Type} {m : Prog Messageq α}
    (h : Keeps (fun mq mq' => key mq' = key mq) m) :
    Keeps (World.KeepsRequests key) (onAtomicRunq m : Prog (World F) α) := by
  intro w a w' hm hquiet
  obtain ⟨mq, heq, rfl⟩ := onAtomicRunq_eq_ok hm
  exact ⟨hquiet, rfl, h _ _ _ heq⟩

theorem modifyKernel_keeps {f : Kernel F → Kernel F}
    (hbuf : ∀ k, (f k).atomicRunqBuf = k.atomicRunqBuf)
    (hmq : ∀ k, (f k).atomicRunq = k.atomicRunq) :
    Keeps (World.KeepsRequests key) (onKernel (modify f)) := by
  refine .zoom fun w _ k hm hquiet => ?_
  cases hm
  exact ⟨hquiet, hbuf _, congrArg key (hmq _)⟩

theorem note_keeps (event : FibreEvent F) :
    Keeps (World.KeepsRequests key) (note event) :=
  .modify fun _ hquiet => ⟨hquiet, rfl, rfl⟩

theorem modifyFibre_keeps (f : World F → F → Fibre) :
    Keeps (World.KeepsRequests key) (modify fun w => { w with fibre := f w }) :=
  .modify fun _ hquiet => ⟨hquiet, rfl, rfl⟩

theorem addTaint_keeps (id : Char) :
    Keeps (World.KeepsRequests key) (addTaint id : Prog (World F) Unit) :=
  .bind trans (.assert refl _) fun _ => modifyKernel_keeps (fun _ => rfl) fun _ => rfl

theorem readEntry_keeps (entry : Nat) :
    Keeps (World.KeepsRequests Messageq.sender) (readEntry (F := F) entry) := by
  refine .bind trans (.get refl) fun w => ?_
  cases w.kernel.atomicRunqBuf entry with
  | none => exact .throw _
  | some f => exact .pure refl f

variable [DecidableEq F]

theorem onEventq_keeps {α : Type} (f : F) (m : Prog Messageq α) :
    Keeps (World.KeepsRequests key) (onEventq f m) :=
  .zoom fun _ _ _ _ hquiet => ⟨hquiet, rfl, rfl⟩

theorem fibreEventqClaim_keeps (f : F) :
    Keeps (World.KeepsRequests key) (fibreEventqClaim f) :=
  .bind trans (onEventq_keeps f _) fun _ =>
    .ite (.bind trans (addTaint_keeps 'E') fun _ => .pure refl _) (.pure refl _)

theorem interrupt_keeps : Keeps (World.KeepsRequests key) (interrupt (F := F)) := by
  intro w _ w' h hquiet
  obtain ⟨_, _, hget, h⟩ := Prog.bind_eq_ok h
  cases hget
  rw [hquiet] at h
  cases h
  exact ⟨hquiet, rfl, rfl⟩

theorem getNextWakeup_keeps :
    Keeps (World.KeepsRequests key) (getNextWakeup (F := F)) := by
  refine .bind trans interrupt_keeps fun _ => .bind trans (.get refl) fun w => ?_
  refine .bind trans (onLists_keeps _) fun empty => .ite (.pure refl _) ?_
  refine .bind trans (onLists_keeps _) fun empty => .ite (.pure refl _) ?_
  exact .bind trans (onLists_keeps _) fun f => .bind trans (.get refl) fun _ =>
    .pure refl _

theorem schedulerReturn_keeps (f : F) (state : FibreState) :
    Keeps (World.KeepsRequests key) (schedulerReturn f state) := by
  refine .bind trans (note_keeps _) fun _ =>
    .bind trans (modifyKernel_keeps (fun _ => rfl) fun _ => rfl) fun _ => ?_
  exact .ite (.bind trans (.get refl) fun _ => .pure refl _) getNextWakeup_keeps

theorem fibreTimeout_keeps (fuel : Nat) (duetime : BitVec 32) :
    Keeps (World.KeepsRequests key) (fibreTimeout (F := F) fuel duetime) := by
  refine .bind trans (.get refl) fun w => .ite (.pure refl _) ?_
  cases w.kernel.current with
  | none => exact .throw _
  | some f =>
      refine .bind trans (modifyFibre_keeps _) fun _ =>
        .bind trans (onLists_keeps _) fun res => .ite ?_ (.pure refl _)
      exact .bind trans (.get refl) fun w =>
        .bind trans (onLists_keeps _) fun _ => .pure refl _

/-! ## Draining -/

theorem messageqReceive_keeps :
    Keeps (fun mq mq' => mq'.sender = mq.sender) messageqReceive := by
  have hrefl : ∀ mq : Messageq, mq.sender = mq.sender := fun _ => rfl
  have htrans : ∀ mq mq' mq'' : Messageq, mq'.sender = mq.sender →
      mq''.sender = mq'.sender → mq''.sender = mq.sender :=
    fun _ _ _ h h' => h'.trans h
  refine .bind htrans (.get hrefl) fun mq => .bind htrans (.get hrefl) fun mq' => ?_
  refine .bind htrans (.modify fun _ => rfl) fun _ => .ite (.pure hrefl _) ?_
  exact .bind htrans (.modify fun _ => rfl) fun _ =>
    .bind htrans (.get hrefl) fun _ => .pure hrefl _

theorem messageqRelease_keeps (msg : Nat) :
    Keeps (fun mq mq' => mq'.sender = mq.sender) (messageqRelease msg) :=
  .modify fun _ => rfl

theorem fibreRunWith_keeps {drain : Prog (World F) Unit}
    (h : Keeps (World.KeepsRequests Messageq.sender) drain) (fuel : Nat) (f : F) :
    Keeps (World.KeepsRequests Messageq.sender) (fibreRunWith drain fuel f) := by
  refine .bind trans h fun _ => .bind trans (onLists_keeps _) fun res => ?_
  refine .ite (.bind trans (onLists_keeps _) fun _ =>
    .bind trans (onLists_keeps _) fun _ => note_keeps _) (note_keeps _)

theorem handleAtomicRunq_keeps (fuel : Nat) :
    Keeps (World.KeepsRequests Messageq.sender) (handleAtomicRunq (F := F) fuel) := by
  induction fuel with
  | zero => exact .throw _
  | succ fuel ih =>
      rw [handleAtomicRunq]
      refine .bind trans interrupt_keeps fun _ =>
        .bind trans (onAtomicRunq_keeps messageqReceive_keeps) fun entry => ?_
      cases entry with
      | none => exact .pure refl _
      | some entry =>
          refine .bind trans interrupt_keeps fun _ =>
            .bind trans (readEntry_keeps entry) fun f => ?_
          refine .bind trans (fibreRunWith_keeps ih fuel f) fun _ =>
            .bind trans interrupt_keeps fun _ => ?_
          exact .bind trans (onAtomicRunq_keeps (messageqRelease_keeps entry))
            fun _ => ih

theorem fibreRun_keeps (fuel : Nat) (f : F) :
    Keeps (World.KeepsRequests Messageq.sender) (fibreRun fuel f) :=
  fibreRunWith_keeps (handleAtomicRunq_keeps fuel) fuel f

theorem fibreKill_keeps (fuel : Nat) (f : F) :
    Keeps (World.KeepsRequests Messageq.sender) (fibreKill fuel f) := by
  refine .bind trans (handleAtomicRunq_keeps fuel) fun _ =>
    .bind trans interrupt_keeps fun _ => ?_
  exact .bind trans (onLists_keeps _) fun _ => .bind trans (onLists_keeps _) fun _ =>
    .pure refl _

theorem updateCurrentState_keeps (fuel : Nat) :
    Keeps (World.KeepsRequests Messageq.sender) (updateCurrentState (F := F) fuel) := by
  refine .bind trans (.get refl) fun w => ?_
  dsimp only
  cases w.kernel.current with
  | none => exact .throw _
  | some f =>
      refine .bind trans (modifyFibre_keeps _) fun _ => ?_
      cases w.kernel.state with
      | yielded => exact fibreRun_keeps fuel f
      | failed =>
          exact .bind trans (addTaint_keeps 'F') fun _ => modifyFibre_keeps _
      | exited => exact modifyFibre_keeps _
      | waiting => exact .pure refl _
      | _ => exact .assert refl False

theorem schedulerUpdate_keeps (fuel : Nat) :
    Keeps (World.KeepsRequests Messageq.sender) (schedulerUpdate (F := F) fuel) := by
  refine .bind trans (handleAtomicRunq_keeps fuel) fun _ =>
    .bind trans interrupt_keeps fun _ => .bind trans (.get refl) fun w => ?_
  exact .ite (.bind trans (updateCurrentState_keeps fuel) fun _ => interrupt_keeps)
    interrupt_keeps

theorem handleTimerqLoop_keeps (fuel : Nat) (node : NodePtr KernelList F)
    (iter : ListIterator KernelList F) :
    Keeps (World.KeepsRequests key) (handleTimerqLoop fuel node iter) := by
  induction fuel generalizing node iter with
  | zero => exact .throw _
  | succ fuel ih =>
      rw [handleTimerqLoop]
      refine .ite (.pure refl _) ?_
      refine .bind trans (onLists_keeps _) fun f => .bind trans (.get refl) fun w => ?_
      refine .ite ?_ (.pure refl _)
      exact .bind trans (onLists_keeps _) fun node => .bind trans (onLists_keeps _)
        fun _ => .bind trans (note_keeps _) fun _ => ih node iter

theorem handleTimerq_keeps (fuel : Nat) :
    Keeps (World.KeepsRequests key) (handleTimerq (F := F) fuel) :=
  .bind trans (onLists_keeps _) fun res => handleTimerqLoop_keeps fuel res.1 res.2

theorem switchTask_keeps : Keeps (World.KeepsRequests key) (switchTask (F := F)) := by
  refine .bind trans ?_ fun task => modifyKernel_keeps (fun _ => rfl) fun _ => rfl
  exact .bind trans (onLists_keeps _) fun node => .ite (.pure refl _)
    (.bind trans (onLists_keeps _) fun f => .pure refl _)

omit [DecidableEq F] in
theorem dispatched_keeps : Keeps (World.KeepsRequests key) (dispatched (F := F)) := by
  refine .bind trans (.get refl) fun w => ?_
  cases w.kernel.current with
  | none => exact .pure refl _
  | some f => exact .bind trans (note_keeps _) fun _ => .pure refl _

theorem slowPath_keeps (fuel : Nat) :
    Keeps (World.KeepsRequests Messageq.sender) (do
      schedulerUpdate (F := F) fuel
      handleTimerq fuel
      interrupt
      switchTask
      interrupt
      dispatched) :=
  .bind trans (schedulerUpdate_keeps fuel) fun _ =>
    .bind trans (handleTimerq_keeps fuel) fun _ => .bind trans interrupt_keeps fun _ =>
      .bind trans switchTask_keeps fun _ => .bind trans interrupt_keeps fun _ =>
        dispatched_keeps

theorem schedulerDispatch_keeps (fuel : Nat) (time : BitVec 32) :
    Keeps (World.KeepsRequests Messageq.sender)
      (schedulerDispatch (F := F) fuel time) := by
  have hfast : Keeps (World.KeepsRequests Messageq.sender) (fastPath (F := F)) :=
    .bind trans (onLists_keeps _) fun _ => .bind trans (onLists_keeps _) fun _ =>
      .bind trans (.get refl) fun _ => .pure refl _
  refine .bind trans (modifyKernel_keeps (fun _ => rfl) fun _ => rfl) fun _ =>
    .bind trans interrupt_keeps fun _ => .bind trans hfast fun fast => ?_
  exact .ite (slowPath_keeps fuel)
    (.bind trans interrupt_keeps fun _ => dispatched_keeps)

end Keeps

/-! ## Requests -/

def requested (f : F) (mq : Messageq) (buf : Nat → Option F) :
    Messageq × (Nat → Option F) :=
  match messageqClaim mq with
  | .error _ => (mq, buf)
  | .ok (none, mq) => (mq, buf)
  | .ok (some slot, mq) => (mq.markFull slot, Function.update buf slot (some f))

theorem fibreRunAtomic_requested (f : F) (w : World F) :
    Prog.wp (fibreRunAtomic f) (fun _ w' => w'.interrupts = w.interrupts ∧
      (w'.kernel.atomicRunq, w'.kernel.atomicRunqBuf) =
        requested f w.kernel.atomicRunq w.kernel.atomicRunqBuf) w := by
  obtain ⟨slot, mq, heq⟩ := messageqClaim_returns w.kernel.atomicRunq
  unfold requested
  rw [heq]
  simp only [fibreRunAtomic, onAtomicRunq, Prog.wp_bind, wp_onKernel, Prog.wp_zoom]
  refine Prog.wp_of_eq heq ?_
  cases slot with
  | none =>
      simp only [Prog.wp_bind, wp_addTaint 'A' (i := 0) rfl (by decide), wp_note,
        Prog.wp_pure, and_self]
  | some slot =>
      simp only [Prog.wp_bind, wp_onKernel, Prog.wp_zoom, messageqSend,
        Prog.wp_modify, wp_note, Prog.wp_pure, and_self]

/-! ## An empty queue is known -/

theorem Entries.of_empty {mq : Messageq} {buf : Nat → Option F} {m : Messages}
    (h : Entries mq buf m [] 0 none) :
    mq.queueLen = 8 ∧ mq.numFree = 8 ∧ mq.fullFlags = 0 ∧ mq.receivep = mq.sendp := by
  have hclaimed := h.claimed_eq
  have hreceived := h.held
  have hqueueLen := h.queueLen
  rw [List.length_nil, Nat.add_zero] at hclaimed
  refine ⟨h.queue.queueLen.trans hqueueLen, ?_, ?_, ?_⟩
  · rw [h.queue.numFree, Messages.outstanding]
    omega
  · refine BitVec.eq_of_getLsbD_eq fun slot _ => ?_
    have hzero : (0 : BitVec 32).getLsbD slot = false := BitVec.getLsbD_zero
    rw [hzero, Bool.eq_false_iff, Ne, h.queue.flags slot]
    rintro ⟨i, hi, hsent, -⟩
    have := m.sent_lt i hsent
    omega
  · rw [h.queue.receivep, h.queue.sendp, hreceived, hclaimed]
    rfl

theorem Entries.eq_of_empty {mq mq' : Messageq} {buf buf' : Nat → Option F}
    {m m' : Messages} (h : Entries mq buf m [] 0 none)
    (h' : Entries mq' buf' m' [] 0 none) (hsender : mq'.sender = mq.sender) :
    mq = mq' := by
  obtain ⟨hlen, hfree, hflags, hreceivep⟩ := h.of_empty
  obtain ⟨hlen', hfree', hflags', hreceivep'⟩ := h'.of_empty
  simp only [Messageq.sender, Prod.mk.injEq] at hsender
  cases mq
  cases mq'
  simp_all

/-! ## Every call -/

def ApiCall.Drains : ApiCall F → Prop
  | .run _ => True
  | .kill _ => True
  | .schedulerNext _ => True
  | _ => False

def ApiCall.Requests (f : F) : ApiCall F → Prop
  | .runAtomic g => g = f
  | .eventqSend g _ => g = f
  | _ => False

/-- The same requests were made in both memories. -/
structure World.SameSlots (w w' : World F) : Prop where
  atomicRunq : w.kernel.atomicRunq = w'.kernel.atomicRunq
  atomicRunqBuf : w.kernel.atomicRunqBuf = w'.kernel.atomicRunqBuf

namespace Session

open Librfn.Logic.Prog (Keeps)

def KeepsRequests {κ : Type} (key : Messageq → κ) (t t' : Session F) : Prop :=
  t.world.KeepsRequests key t'.world

section Keeps

variable {κ : Type} {key : Messageq → κ}

theorem KeepsRequests.refl (t : Session F) : t.KeepsRequests key t :=
  World.KeepsRequests.refl t.world

theorem KeepsRequests.trans (t t' t'' : Session F) (h : t.KeepsRequests key t')
    (h' : t'.KeepsRequests key t'') : t.KeepsRequests key t'' :=
  World.KeepsRequests.trans t.world t'.world t''.world h h'

open KeepsRequests (refl trans)

theorem onWorld_keeps {α : Type} {m : Prog (World F) α}
    (h : Keeps (World.KeepsRequests key) m) :
    Keeps (KeepsRequests key) (onWorld m) :=
  .zoom fun _ _ _ hm => h _ _ _ hm

variable [DecidableEq F]
  {schedulerDispatch : Nat → BitVec 32 → Prog (World F) (Option F)} {c : ApiCall F}

theorem call_drains_keeps (fuel : Nat) (hdrains : c.Drains)
    (hd : ∀ time, Keeps (World.KeepsRequests Messageq.sender)
      (schedulerDispatch fuel time)) :
    Keeps (KeepsRequests Messageq.sender) (call schedulerDispatch fuel c) := by
  cases c with
  | run f =>
      exact .bind trans (onWorld_keeps (fibreRun_keeps fuel f)) fun _ =>
        .pure refl _
  | kill f =>
      exact .bind trans (onWorld_keeps (fibreKill_keeps fuel f)) fun _ =>
        .pure refl _
  | schedulerNext time =>
      refine .bind trans (.get refl) fun t =>
        .bind trans (onWorld_keeps (hd time)) fun current => ?_
      cases current with
      | none =>
          exact .bind trans (onWorld_keeps getNextWakeup_keeps) fun _ =>
            .pure refl _
      | some f =>
          exact .bind trans (.modify refl) fun _ =>
            .bind trans (.get refl) fun _ => .pure refl _
  | _ => exact hdrains.elim

theorem call_keeps (fuel : Nat) (hdrains : ¬ c.Drains)
    (hrequests : ∀ f, ¬ c.Requests f) :
    Keeps (KeepsRequests key) (call schedulerDispatch fuel c) := by
  have honce : ∀ {α : Type} {m : Prog (World F) α} (reply : α → Reply F),
      Keeps (World.KeepsRequests key) m →
        Keeps (KeepsRequests key) (do return reply (← onWorld m)) := fun reply h =>
    .bind trans (onWorld_keeps h) fun _ => .pure refl _
  have hread : ∀ {α : Type} (g : World F → α),
      Keeps (World.KeepsRequests key) (do return g (← get)) := fun _ =>
    .bind World.KeepsRequests.trans (.get World.KeepsRequests.refl) fun _ =>
      .pure World.KeepsRequests.refl _
  cases c with
  | run f => exact absurd trivial hdrains
  | kill f => exact absurd trivial hdrains
  | schedulerNext time => exact absurd trivial hdrains
  | runAtomic f => exact absurd rfl (hrequests f)
  | eventqSend f evtp => exact absurd rfl (hrequests f)
  | self => exact honce _ (hread _)
  | timeout duetime => exact honce _ (fibreTimeout_keeps fuel duetime)
  | eventqClaim f => exact honce _ (fibreEventqClaim_keeps f)
  | eventqEmpty f => exact honce _ (hread _)
  | eventqReceive f => exact honce _ (onEventq_keeps f _)
  | eventqRelease f evtp => exact honce _ (onEventq_keeps f _)
  | setPriv priv =>
      refine .bind trans (.get refl) fun t => ?_
      cases t.executing with
      | nil => exact .throw _
      | cons f fs => exact honce _ (modifyFibre_keeps _)
  | ret state =>
      refine .bind trans (.get refl) fun t => ?_
      cases t.executing with
      | nil => exact .throw _
      | cons f fs =>
          exact .bind trans (onWorld_keeps (schedulerReturn_keeps f state)) fun _ =>
            .bind trans (.modify refl) fun _ => .pure refl _

theorem call_requested (fuel : Nat) {f : F} (hrequests : c.Requests f)
    (t : Session F) :
    Prog.wp (call schedulerDispatch fuel c) (fun _ t' =>
      t'.world.interrupts = t.world.interrupts ∧
        (t'.world.kernel.atomicRunq, t'.world.kernel.atomicRunqBuf) =
          requested f t.world.kernel.atomicRunq t.world.kernel.atomicRunqBuf) t := by
  cases c with
  | runAtomic g =>
      cases hrequests
      simp only [call, Prog.wp_bind, wp_onWorld, Prog.wp_pure]
      exact fibreRunAtomic_requested f t.world
  | eventqSend g evtp =>
      cases hrequests
      simp only [call, fibreEventqSend, messageqSend, Prog.wp_bind, wp_onWorld,
        wp_onEventq, Prog.wp_modify, Prog.wp_pure]
      exact fibreRunAtomic_requested f _
  | _ => exact hrequests.elim

end Keeps

end Session

end Librfn
