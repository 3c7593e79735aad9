import Librfn.LinkedList
import Librfn.Messageq

/-!
# The fibre scheduler

`fibre.c` with its two linked lists, its atomic run queue and the event queues
bound to fibres.  A fibre's own code is not part of the model; the scheduler
is split where it calls `kernel.current->fn`.

Interrupt handlers share only the atomic run queue, the event queues and the
taint flags with the rest of the program, so it is enough to let them in
before each access to these.  What they will do is written down in advance,
one batch of calls for each place where they are let in.
-/

namespace Librfn

open Librfn.Logic

inductive FibreState where
  | yielded
  | waiting
  | exited
  | failed
  | running
  | queued
  | timerWaiting
  | runnable
  deriving DecidableEq, Repr

/-- `fibre_t` without its function and its link. -/
structure Fibre where
  state : FibreState
  priv : BitVec 16
  duetime : BitVec 32
  deriving DecidableEq, Repr

/-- The two lists of the kernel. -/
inductive KernelList where
  | runq
  | timerq
  deriving DecidableEq, Repr

/-- `static struct kernel`, the links of the fibres and `atomic_runq_buf`. -/
structure Kernel (F : Type) where
  current : Option F
  state : FibreState
  now : BitVec 32
  lists : ListMem KernelList F
  atomicRunq : Messageq
  atomicRunqBuf : Nat → Option F
  taintFlags : BitVec 32

/-- A call that an interrupt handler makes.  An event is sent by its number
among the events claimed from its queue. -/
inductive HandlerCall (F : Type) where
  | runAtomic (f : F)
  | eventqClaim (f : F)
  | eventqSend (f : F) (event : Nat)
  deriving DecidableEq, Repr

/-- What has happened to the fibres. -/
inductive FibreEvent (F : Type) where
  | run (f : F)
  | runAtomic (f : F) (queued : Bool)
  | expired (f : F)
  | dispatched (f : F)
  | returned (f : F) (state : FibreState)
  deriving DecidableEq, Repr

/-- An event that was claimed: where it is, and once it was sent what
`fibre_eventq_send` returned. -/
structure ClaimedEvent where
  evtp : Nat
  sent : Option Bool
  deriving DecidableEq, Repr

/-- The memory of the program.  The event queue bound to a fibre goes by the
name of that fibre.  The last three fields are there to talk about runs: the
producers' own record of the events they claimed, what the interrupt handlers
are going to do, and what has happened so far, the latest event first. -/
structure World (F : Type) where
  kernel : Kernel F
  fibre : F → Fibre
  eventq : F → Messageq
  claims : F → List ClaimedEvent
  interrupts : List (List (HandlerCall F))
  log : List (FibreEvent F)

variable {F : Type}

/-- Static storage, the fibres as `FIBRE_VAR_INIT` or `fibre_init` leave them.
`atomic_runq_buf` holds eight pointers of eight bytes. -/
def World.init (atomicRunqBuf : Nat) (eventq : F → Messageq) : World F :=
  { kernel :=
      { current := none
        state := .yielded
        now := 0
        lists := .init KernelList F
        atomicRunq := messageqInit atomicRunqBuf 64 8
        atomicRunqBuf := fun _ => none
        taintFlags := 0 }
    fibre := fun _ => { state := .yielded, priv := 0, duetime := 0 }
    eventq
    claims := fun _ => []
    interrupts := []
    log := [] }

def cyclecmp32 (a b : BitVec 32) : Int := (a - b).toInt

def onKernel {α : Type} (m : Prog (Kernel F) α) : Prog (World F) α :=
  Prog.zoom World.kernel (fun kernel w => { w with kernel }) m

def onLists {α : Type} (m : Prog (ListMem KernelList F) α) :
    Prog (World F) α :=
  onKernel (Prog.zoom Kernel.lists (fun lists k => { k with lists }) m)

def onAtomicRunq {α : Type} (m : Prog Messageq α) : Prog (World F) α :=
  onKernel (Prog.zoom Kernel.atomicRunq (fun atomicRunq k => { k with atomicRunq }) m)

def note (event : FibreEvent F) : Prog (World F) Unit :=
  modify fun w => { w with log := event :: w.log }

def addTaint (id : Char) : Prog (World F) Unit := do
  let id : Int := (id.toNat : Int) - 'A'.toNat
  Prog.assert (0 ≤ id ∧ id < 32)
  onKernel (modify fun k =>
    { k with taintFlags := k.taintFlags ||| flag 32 id.toNat })

/-! ## Calls that interrupt handlers may make -/

def fibreRunAtomic (f : F) : Prog (World F) Bool := do
  match ← onAtomicRunq messageqClaim with
  | none =>
      addTaint 'A'
      note (.runAtomic f false)
      return false
  | some queuedFibre =>
      onKernel (modify fun k =>
        { k with atomicRunqBuf := Function.update k.atomicRunqBuf queuedFibre (some f) })
      onAtomicRunq (messageqSend queuedFibre)
      note (.runAtomic f true)
      return true

section Eventq

variable [DecidableEq F]

def onEventq {α : Type} (f : F) (m : Prog Messageq α) : Prog (World F) α :=
  Prog.zoom (fun w => w.eventq f)
    (fun mq w => { w with eventq := Function.update w.eventq f mq }) m

def fibreEventqClaim (f : F) : Prog (World F) (Option Nat) := do
  let evtp ← onEventq f messageqClaim
  if evtp = none then
    addTaint 'E'
  return evtp

def fibreEventqSend (f : F) (evtp : Nat) : Prog (World F) Bool := do
  onEventq f (messageqSend evtp)
  fibreRunAtomic f

def fibreEventqEmpty (f : F) : Prog (World F) Bool := do
  return messageqEmpty ((← get).eventq f)

def fibreEventqReceive (f : F) : Prog (World F) (Option Nat) :=
  onEventq f messageqReceive

def fibreEventqRelease (f : F) (evtp : Nat) : Prog (World F) Unit :=
  onEventq f (messageqRelease evtp)

/-- A producer claims an event and keeps its address. -/
def produceClaim (f : F) : Prog (World F) Unit := do
  if let some evtp ← fibreEventqClaim f then
    modify fun w =>
      { w with
        claims := Function.update w.claims f (w.claims f ++ [⟨evtp, none⟩]) }

/-- A producer sends an event it holds; one it does not hold it cannot send. -/
def produceSend (f : F) (event : Nat) : Prog (World F) Unit := do
  if let some ⟨evtp, none⟩ := ((← get).claims f)[event]? then
    let queued ← fibreEventqSend f evtp
    modify fun w =>
      { w with
        claims := Function.update w.claims f
          ((w.claims f).set event ⟨evtp, some queued⟩) }

def handlerCall : HandlerCall F → Prog (World F) Unit
  | .runAtomic f => do let _ ← fibreRunAtomic f
  | .eventqClaim f => produceClaim f
  | .eventqSend f event => produceSend f event

def handlerCalls : List (HandlerCall F) → Prog (World F) Unit
  | [] => pure ()
  | call :: calls => do
      handlerCall call
      handlerCalls calls

def interrupt : Prog (World F) Unit := do
  match (← get).interrupts with
  | [] => pure ()
  | calls :: interrupts =>
      modify fun w => { w with interrupts }
      handlerCalls calls

/-! ## The kernel -/

def readEntry (entry : Nat) : Prog (World F) F := do
  match (← get).kernel.atomicRunqBuf entry with
  | none => throw .badPointer
  | some f => return f

/-- The body of `fibre_run` behind its call of `handle_atomic_runq`. -/
def fibreRunWith (handleAtomicRunq : Prog (World F) Unit) (fuel : Nat)
    (f : F) : Prog (World F) Unit := do
  handleAtomicRunq
  let (queued, _) ← onLists (listContains fuel .runq f)
  if ¬ queued then
    let _ ← onLists (listRemove fuel .timerq f)
    onLists (listInsert .runq f)
  note (.run f)

def handleAtomicRunq : Nat → Prog (World F) Unit
  | 0 => throw .outOfFuel
  | fuel + 1 => do
      interrupt
      match ← onAtomicRunq messageqReceive with
      | none => pure ()
      | some entry =>
          interrupt
          fibreRunWith (handleAtomicRunq fuel) fuel (← readEntry entry)
          interrupt
          onAtomicRunq (messageqRelease entry)
          handleAtomicRunq fuel

def fibreRun (fuel : Nat) (f : F) : Prog (World F) Unit :=
  fibreRunWith (handleAtomicRunq fuel) fuel f

def handleTimerqLoop : Nat → NodePtr KernelList F →
    ListIterator KernelList F → Prog (World F) Unit
  | 0, _, _ => throw .outOfFuel
  | fuel + 1, node, iter => do
      if node = none then return ()
      let timeoutFibre ← onLists (realNode node)
      let w ← get
      if cyclecmp32 (w.fibre timeoutFibre).duetime w.kernel.now ≤ 0 then
        let node ← onLists (listIteratorRemove iter)
        onLists (listInsert .runq timeoutFibre)
        note (.expired timeoutFibre)
        handleTimerqLoop fuel node iter

def handleTimerq (fuel : Nat) : Prog (World F) Unit := do
  let (node, iter) ← onLists (listIterate .timerq)
  handleTimerqLoop fuel node iter

def getNextTask : Prog (World F) (Option F) := do
  let node ← onLists (listExtract .runq)
  if node = none then
    return none
  else
    return some (← onLists (realNode node))

def ptInit (f : F) : Prog (World F) Unit :=
  modify fun w =>
    { w with fibre := Function.update w.fibre f { w.fibre f with priv := 0 } }

def updateCurrentState (fuel : Nat) : Prog (World F) Unit := do
  let k := (← get).kernel
  match k.current with
  | none => throw .nullPointer
  | some f =>
      modify fun w =>
        { w with fibre := Function.update w.fibre f { w.fibre f with state := k.state } }
      match k.state with
      | .yielded => fibreRun fuel f
      | .failed =>
          addTaint 'F'
          ptInit f
      | .exited => ptInit f
      | .waiting => pure ()
      | _ => Prog.assert False

def fibreUnboundedSleep : BitVec 32 := 0x7fffffff

def getNextWakeup : Prog (World F) (BitVec 32) := do
  interrupt
  let k := (← get).kernel
  if messageqEmpty k.atomicRunq = false ∨ ¬ (← onLists (listEmpty .runq)) then
    return k.now
  if ← onLists (listEmpty .timerq) then
    return k.now + fibreUnboundedSleep
  let f ← onLists (do realNode (← listPeek .timerq))
  return ((← get).fibre f).duetime

def duetimeCmp (fibre : F → Fibre) (f1 f2 : F) : Int :=
  ((fibre f1).duetime - (fibre f2).duetime).toInt

def fibreSelf : Prog (World F) (Option F) := do
  return (← get).kernel.current

/-- What `fibre_scheduler_next` does before it looks at the timer queue,
unless the fast path lets it skip all this. -/
def schedulerUpdate (fuel : Nat) : Prog (World F) Unit := do
  handleAtomicRunq fuel
  interrupt
  if (← get).kernel.current ≠ none then
    updateCurrentState fuel
  interrupt

def fastPath : Prog (World F) Bool := do
  let runqEmpty ← onLists (listEmpty .runq)
  let timerqEmpty ← onLists (listEmpty .timerq)
  let k := (← get).kernel
  return k.state = .yielded ∧ runqEmpty ∧ timerqEmpty ∧ messageqEmpty k.atomicRunq

def switchTask : Prog (World F) Unit := do
  let task ← getNextTask
  onKernel (modify fun k => { k with current := task })

def dispatched : Prog (World F) (Option F) := do
  match (← get).kernel.current with
  | none => return none
  | some f =>
      note (.dispatched f)
      return some f

/-- `fibre_scheduler_next` up to the call of `kernel.current->fn`. -/
def schedulerDispatch (fuel : Nat) (time : BitVec 32) :
    Prog (World F) (Option F) := do
  onKernel (modify fun k => { k with now := time })
  interrupt
  if ¬ (← fastPath) then
    schedulerUpdate fuel
    handleTimerq fuel
    interrupt
    switchTask
  interrupt
  dispatched

/-- `fibre_scheduler_next` from the return of the function of `f` on. -/
def schedulerReturn (f : F) (state : FibreState) :
    Prog (World F) (BitVec 32) := do
  note (.returned f state)
  onKernel (modify fun k => { k with state })
  if state = .yielded then
    return (← get).kernel.now
  getNextWakeup

def fibreKill (fuel : Nat) (f : F) : Prog (World F) Bool := do
  handleAtomicRunq fuel
  interrupt
  let res ← onLists (listRemove fuel .runq f)
  let res' ← onLists (listRemove fuel .timerq f)
  return res || res'

def fibreTimeout (fuel : Nat) (duetime : BitVec 32) :
    Prog (World F) Bool := do
  let k := (← get).kernel
  if cyclecmp32 duetime k.now ≤ 0 then
    return true
  match k.current with
  | none => throw .nullPointer
  | some f =>
      modify fun w =>
        { w with fibre := Function.update w.fibre f { w.fibre f with duetime } }
      let (queued, _) ← onLists (listContains fuel .runq f)
      if ¬ queued then
        onLists (listInsertSorted fuel .timerq f (duetimeCmp (← get).fibre))
      return false

end Eventq

end Librfn
