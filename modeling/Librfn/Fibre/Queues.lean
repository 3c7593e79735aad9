import Librfn.Fibre
import Librfn.LinkedList.Operations
import Mathlib.Algebra.GroupWithZero.Nat
import Mathlib.Data.List.Nodup

/-!
# The scheduler on sequences

The same scheduler with a sequence of fibres for each of its three queues.
Between receiving an entry of the atomic run queue and releasing it, its fibre
is `held` by the call that drains the queue; draining is recursive, so what is
held is a stack.
-/

namespace Librfn

open Librfn.Logic

structure Sched (F : Type) where
  runq : List F
  timerq : List F
  /-- The entries of the atomic run queue, oldest first. -/
  pending : List F
  /-- The fibres of the entries that are received and not released. -/
  held : List F
  current : Option F
  state : FibreState
  now : BitVec 32
  taintFlags : BitVec 32
  fibre : F → Fibre
  eventq : F → Messageq
  claims : F → List ClaimedEvent
  interrupts : List (List (HandlerCall F))
  log : List (FibreEvent F)

namespace Sched

variable {F : Type}

def init (eventq : F → Messageq) : Sched F :=
  { runq := []
    timerq := []
    pending := []
    held := []
    current := none
    state := .yielded
    now := 0
    taintFlags := 0
    fibre := fun _ => { state := .yielded, priv := 0, duetime := 0 }
    eventq
    claims := fun _ => []
    interrupts := []
    log := [] }

/-- What the two linked lists hold. -/
def seq (s : Sched F) : KernelList → List F
  | .runq => s.runq
  | .timerq => s.timerq

/-- An entry of the atomic run queue is free. -/
def Room (s : Sched F) : Prop := s.pending.length + s.held.length < 8

instance (s : Sched F) : Decidable s.Room :=
  inferInstanceAs (Decidable (_ < _))

def runAtomic (s : Sched F) (f : F) : Sched F :=
  if s.Room then
    { s with pending := s.pending ++ [f], log := .runAtomic f true :: s.log }
  else
    { s with
      taintFlags := s.taintFlags ||| flag 32 0
      log := .runAtomic f false :: s.log }

def release (s : Sched F) : Sched F := { s with held := s.held.tail }

def Due (s : Sched F) (f : F) : Prop :=
  cyclecmp32 (s.fibre f).duetime s.now ≤ 0

instance (s : Sched F) : DecidablePred s.Due :=
  fun _ => inferInstanceAs (Decidable (_ ≤ _))

def expire (s : Sched F) : Sched F :=
  { s with
    timerq := s.timerq.dropWhile s.Due
    runq := s.runq ++ s.timerq.takeWhile s.Due
    log := ((s.timerq.takeWhile s.Due).map .expired).reverse ++ s.log }

theorem expire_nil {s : Sched F} (h : s.timerq = []) : s.expire = s := by
  cases s
  cases h
  simp [expire]

theorem expire_of_not_due {s : Sched F} {f : F} {fs : List F}
    (h : s.timerq = f :: fs) (hdue : ¬ s.Due f) : s.expire = s := by
  cases s
  cases h
  simp [expire, hdue]

theorem expire_of_due {s : Sched F} {f : F} {fs : List F}
    (h : s.timerq = f :: fs) (hdue : s.Due f) :
    s.expire = ({ s with
      runq := s.runq ++ [f]
      timerq := fs
      log := .expired f :: s.log } : Sched F).expire := by
  simp only [expire, h, List.takeWhile_cons, List.dropWhile_cons, hdue,
    decide_true, if_true]
  simp only [List.map_cons, List.reverse_cons, List.append_assoc,
    List.singleton_append]
  rfl

def storeState (s : Sched F) [DecidableEq F] (f : F) : Sched F :=
  { s with fibre := Function.update s.fibre f { s.fibre f with state := s.state } }

def restart (s : Sched F) [DecidableEq F] (f : F) : Sched F :=
  { s with fibre := Function.update s.fibre f { s.fibre f with priv := 0 } }

def nextTask (s : Sched F) : Sched F :=
  { s with runq := s.runq.tail, current := s.runq.head? }

def dispatch (s : Sched F) : Sched F :=
  match s.current with
  | none => s
  | some f => { s with log := .dispatched f :: s.log }

theorem dispatch_none {s : Sched F} (h : s.current = none) :
    s.dispatch = s := by
  simp [dispatch, h]

theorem dispatch_some {s : Sched F} {f : F} (h : s.current = some f) :
    s.dispatch = { s with log := .dispatched f :: s.log } := by
  simp [dispatch, h]

variable [DecidableEq F]

/-- A fibre joins the run queue, and leaves the timer queue for it. -/
def enqueue (s : Sched F) (f : F) : Sched F :=
  if f ∈ s.runq then { s with log := .run f :: s.log }
  else
    { s with
      runq := s.runq ++ [f]
      timerq := s.timerq.erase f
      log := .run f :: s.log }

def produceClaim (s : Sched F) (f : F) : Sched F :=
  match messageqClaim (s.eventq f) with
  | .error _ => s
  | .ok (none, mq) =>
      { s with
        eventq := Function.update s.eventq f mq
        taintFlags := s.taintFlags ||| flag 32 4 }
  | .ok (some evtp, mq) =>
      { s with
        eventq := Function.update s.eventq f mq
        claims := Function.update s.claims f (s.claims f ++ [⟨evtp, none⟩]) }

def sendEvent (s : Sched F) (f : F) (evtp : Nat) : Sched F :=
  { s with eventq := Function.update s.eventq f ((s.eventq f).markFull evtp) }

def produceSend (s : Sched F) (f : F) (event : Nat) : Sched F :=
  match (s.claims f)[event]? with
  | some ⟨evtp, none⟩ =>
      { (s.sendEvent f evtp).runAtomic f with
        claims := Function.update s.claims f
          ((s.claims f).set event ⟨evtp, some (decide s.Room)⟩) }
  | _ => s

def handlerCall (s : Sched F) : HandlerCall F → Sched F
  | .runAtomic f => s.runAtomic f
  | .eventqClaim f => s.produceClaim f
  | .eventqSend f event => s.produceSend f event

def interrupt (s : Sched F) : Sched F :=
  match s.interrupts with
  | [] => s
  | calls :: interrupts => calls.foldl handlerCall { s with interrupts }

def receive (s : Sched F) (f : F) (fs : List F) : Sched F :=
  { s with pending := fs, held := f :: s.held }

/-- The recursion of `handle_atomic_runq` and `fibre_run`: an entry is received,
the rest of the queue is drained, and only then does its fibre join the run
queue and the entry become free. -/
inductive Drain : Sched F → Sched F → Prop
  | empty {s : Sched F} : s.interrupt.pending = [] → Drain s s.interrupt
  | entry {s s₁ s₂ : Sched F} {f : F} {fs : List F} :
      s.interrupt.pending = f :: fs →
      Drain (s.interrupt.receive f fs).interrupt s₁ →
      Drain (s₁.enqueue f).interrupt.release s₂ →
      Drain s s₂

def kill (s : Sched F) (f : F) : Sched F :=
  { s with runq := s.runq.erase f, timerq := s.timerq.erase f }

/-- A fibre waits for a time, unless it is on the run queue already. -/
def arm (s : Sched F) (f : F) (duetime : BitVec 32) : Sched F :=
  let fibre := Function.update s.fibre f { s.fibre f with duetime }
  { s with
    fibre
    timerq :=
      if f ∈ s.runq then s.timerq
      else insertSorted (duetimeCmp fibre) f s.timerq }

/-- What becomes of the current fibre after its function has returned. -/
inductive UpdateCurrent (f : F) : Sched F → Sched F → Prop
  | yielded {s s' : Sched F} : s.state = .yielded → Drain (s.storeState f) s' →
      UpdateCurrent f s (s'.enqueue f)
  | waiting {s : Sched F} : s.state = .waiting →
      UpdateCurrent f s (s.storeState f)
  | exited {s : Sched F} : s.state = .exited →
      UpdateCurrent f s ((s.storeState f).restart f)
  | failed {s : Sched F} : s.state = .failed →
      UpdateCurrent f s (({ s.storeState f with
        taintFlags := s.taintFlags ||| flag 32 5 }).restart f)

/-- The part of a scheduler pass in front of `handle_timerq`. -/
inductive Update : Sched F → Sched F → Prop
  | idle {s s' : Sched F} : Drain s s' → s'.interrupt.current = none →
      Update s s'.interrupt.interrupt
  | current {s s' s'' : Sched F} {f : F} : Drain s s' →
      s'.interrupt.current = some f → UpdateCurrent f s'.interrupt s'' →
      Update s s''.interrupt

/-- A yielding fibre is the only one there is. -/
def FastPath (s : Sched F) : Prop :=
  s.state = .yielded ∧ s.runq = [] ∧ s.timerq = [] ∧ s.pending = []

/-- A scheduler pass at a time, up to the call of the next fibre. -/
inductive Pass (time : BitVec 32) : Sched F → Sched F → Prop
  | fast {s : Sched F} : ({ s with now := time }).interrupt.FastPath →
      Pass time s ({ s with now := time }).interrupt.interrupt.dispatch
  | slow {s s' : Sched F} : ¬ ({ s with now := time }).interrupt.FastPath →
      Update ({ s with now := time }).interrupt s' →
      Pass time s s'.expire.interrupt.nextTask.interrupt.dispatch

/-! ## What stays the same -/

/-- Interrupt handlers do not touch the run queue, the timer queue, the entries
in hand or the current fibre. -/
structure SameTasks (s s' : Sched F) : Prop where
  runq : s'.runq = s.runq
  timerq : s'.timerq = s.timerq
  held : s'.held = s.held
  current : s'.current = s.current
  state : s'.state = s.state
  now : s'.now = s.now
  fibre : s'.fibre = s.fibre

omit [DecidableEq F] in
theorem SameTasks.refl (s : Sched F) : SameTasks s s :=
  ⟨rfl, rfl, rfl, rfl, rfl, rfl, rfl⟩

omit [DecidableEq F] in
theorem SameTasks.trans {s s' s'' : Sched F} (h : SameTasks s s')
    (h' : SameTasks s' s'') : SameTasks s s'' :=
  ⟨h'.runq.trans h.runq, h'.timerq.trans h.timerq, h'.held.trans h.held,
    h'.current.trans h.current, h'.state.trans h.state, h'.now.trans h.now,
    h'.fibre.trans h.fibre⟩

omit [DecidableEq F] in
theorem runAtomic_same (s : Sched F) (f : F) : SameTasks s (s.runAtomic f) := by
  unfold runAtomic
  split <;> exact ⟨rfl, rfl, rfl, rfl, rfl, rfl, rfl⟩

theorem handlerCall_same (s : Sched F) (call : HandlerCall F) :
    SameTasks s (s.handlerCall call) := by
  cases call with
  | runAtomic f => exact s.runAtomic_same f
  | eventqClaim f =>
      change SameTasks s (s.produceClaim f)
      unfold produceClaim
      split <;> exact ⟨rfl, rfl, rfl, rfl, rfl, rfl, rfl⟩
  | eventqSend f event =>
      change SameTasks s (s.produceSend f event)
      unfold produceSend
      split
      · rename_i evtp _
        obtain ⟨hr, ht, hh, hc, hs, hn, hf⟩ := (s.sendEvent f evtp).runAtomic_same f
        exact ⟨hr, ht, hh, hc, hs, hn, hf⟩
      · exact .refl s

theorem interrupt_invariant {I : Sched F → Prop} {s : Sched F} (h : I s)
    (hpop : ∀ s interrupts, I s → I { s with interrupts })
    (hcall : ∀ s call, I s → I (s.handlerCall call)) : I s.interrupt := by
  unfold interrupt
  split
  · exact h
  · rename_i calls interrupts _
    have key : ∀ (calls : List (HandlerCall F)) (s : Sched F), I s →
        I (calls.foldl handlerCall s) := by
      intro calls
      induction calls with
      | nil => exact fun _ h => h
      | cons call calls ih => exact fun s h => ih _ (hcall s call h)
    exact key calls _ (hpop s interrupts h)

theorem interrupt_same (s : Sched F) : SameTasks s s.interrupt := by
  refine interrupt_invariant (I := SameTasks s) (.refl s) ?_ ?_
  · rintro s' _ ⟨hr, ht, hh, hc, hs, hn, hf⟩
    exact ⟨hr, ht, hh, hc, hs, hn, hf⟩
  · intro s' call h
    exact h.trans (s'.handlerCall_same call)

theorem enqueue_held (s : Sched F) (f : F) : (s.enqueue f).held = s.held := by
  unfold enqueue
  split <;> rfl

theorem enqueue_pending (s : Sched F) (f : F) : (s.enqueue f).pending = s.pending := by
  unfold enqueue
  split <;> rfl

theorem Drain.held {s s' : Sched F} (h : Drain s s') : s'.held = s.held := by
  induction h with
  | empty _ => exact (interrupt_same _).held
  | @entry s s₁ s₂ f fs _ _ _ ihinner ihouter =>
      rw [ihouter, release, (interrupt_same _).held, enqueue_held, ihinner,
        (interrupt_same _).held, receive, List.tail_cons, (interrupt_same _).held]

/-- What is kept by interrupts and by moving one entry to the run queue is kept
by draining. -/
theorem Drain.invariant {I : Sched F → Prop} {s s' : Sched F}
    (h : Drain s s') (hinit : I s)
    (hinterrupt : ∀ s, I s → I s.interrupt)
    (hreceive : ∀ s f fs, I s → s.pending = f :: fs → I (s.receive f fs))
    (hinsert : ∀ s f fs, I s → s.held = f :: fs →
      I (s.enqueue f).interrupt.release) : I s' := by
  induction h with
  | empty _ => exact hinterrupt _ hinit
  | @entry s s₁ s₂ f fs hpending hinner _ ihinner ihouter =>
      refine ihouter (hinsert s₁ f s.interrupt.held (ihinner ?_) ?_)
      · exact hinterrupt _ (hreceive _ _ _ (hinterrupt _ hinit) hpending)
      · rw [hinner.held, (interrupt_same _).held]
        rfl

theorem Drain.pending {s s' : Sched F} (h : Drain s s') : s'.pending = [] := by
  induction h with
  | empty hpending => exact hpending
  | entry _ _ _ _ ihouter => exact ihouter

/-- Fibres move to the end of the run queue, some of them from the timer queue,
and nothing else happens to the tasks. -/
structure Drained (s s' : Sched F) : Prop where
  runq : s.runq <+: s'.runq
  timerq : s'.timerq.Sublist s.timerq
  current : s'.current = s.current
  state : s'.state = s.state
  now : s'.now = s.now
  duetime : ∀ f, (s'.fibre f).duetime = (s.fibre f).duetime

omit [DecidableEq F] in
theorem SameTasks.drained {s s' : Sched F} (h : SameTasks s s') :
    Drained s s' :=
  ⟨h.runq ▸ List.prefix_rfl, h.timerq ▸ List.Sublist.refl _, h.current,
    h.state, h.now, fun f => by rw [h.fibre]⟩

omit [DecidableEq F] in
theorem Drained.trans {s s' s'' : Sched F} (h : Drained s s')
    (h' : Drained s' s'') : Drained s s'' :=
  ⟨h.runq.trans h'.runq, h'.timerq.trans h.timerq, h'.current.trans h.current,
    h'.state.trans h.state, h'.now.trans h.now,
    fun f => (h'.duetime f).trans (h.duetime f)⟩

theorem enqueue_drained (s : Sched F) (f : F) : Drained s (s.enqueue f) := by
  unfold enqueue
  split
  · exact ⟨List.prefix_rfl, List.Sublist.refl _, rfl, rfl, rfl, fun _ => rfl⟩
  · exact ⟨List.prefix_append _ _, List.erase_sublist, rfl, rfl, rfl,
      fun _ => rfl⟩

theorem Drain.drained {s s' : Sched F} (h : Drain s s') : Drained s s' := by
  refine h.invariant (I := Drained s) (SameTasks.refl s).drained ?_ ?_ ?_
  · intro u hu
    exact hu.trans (interrupt_same u).drained
  · rintro u f fs ⟨hr, ht, hc, hs, hn, hf⟩ _
    exact ⟨hr, ht, hc, hs, hn, hf⟩
  · intro u f fs hu _
    have h₁ := (hu.trans (enqueue_drained u f)).trans (interrupt_same _).drained
    exact ⟨h₁.runq, h₁.timerq, h₁.current, h₁.state, h₁.now, h₁.duetime⟩

theorem storeState_drained (s : Sched F) (f : F) :
    Drained s (s.storeState f) := by
  refine ⟨List.prefix_rfl, List.Sublist.refl _, rfl, rfl, rfl, ?_⟩
  intro g
  by_cases hg : g = f
  · subst hg
    simp [storeState]
  · simp [storeState, Function.update_of_ne hg]

theorem restart_drained (s : Sched F) (f : F) : Drained s (s.restart f) := by
  refine ⟨List.prefix_rfl, List.Sublist.refl _, rfl, rfl, rfl, ?_⟩
  intro g
  by_cases hg : g = f
  · subst hg
    simp [restart]
  · simp [restart, Function.update_of_ne hg]

theorem UpdateCurrent.drained {f : F} {s s' : Sched F}
    (h : UpdateCurrent f s s') : Drained s s' := by
  cases h with
  | yielded _ hdrain =>
      exact ((storeState_drained s f).trans hdrain.drained).trans
        (enqueue_drained _ f)
  | waiting _ => exact storeState_drained s f
  | exited _ => exact (storeState_drained s f).trans (restart_drained _ f)
  | failed _ =>
      obtain ⟨hr, ht, hc, hs, hn, hd⟩ := storeState_drained s f
      have htaint : Drained s { s.storeState f with
          taintFlags := s.taintFlags ||| flag 32 5 } := ⟨hr, ht, hc, hs, hn, hd⟩
      exact htaint.trans (restart_drained _ f)

theorem UpdateCurrent.held {f : F} {s s' : Sched F}
    (h : UpdateCurrent f s s') : s'.held = s.held := by
  cases h with
  | yielded _ hdrain =>
      rw [enqueue_held, hdrain.held]
      rfl
  | waiting _ => rfl
  | exited _ => rfl
  | failed _ => rfl

theorem Update.drained {s s' : Sched F} (h : Update s s') : Drained s s' := by
  cases h with
  | idle hdrain _ =>
      exact (hdrain.drained.trans (interrupt_same _).drained).trans
        (interrupt_same _).drained
  | current hdrain _ hupdate =>
      exact ((hdrain.drained.trans (interrupt_same _).drained).trans
        hupdate.drained).trans (interrupt_same _).drained

theorem Update.held {s s' : Sched F} (h : Update s s') : s'.held = s.held := by
  cases h with
  | idle hdrain _ =>
      rw [(interrupt_same _).held, (interrupt_same _).held, hdrain.held]
  | current hdrain _ hupdate =>
      rw [(interrupt_same _).held, hupdate.held, (interrupt_same _).held,
        hdrain.held]

/-! ## No fibre is queued twice -/

def Distinct (s : Sched F) : Prop := (s.runq ++ s.timerq).Nodup

omit [DecidableEq F] in
theorem Distinct.not_mem {s : Sched F} (h : Distinct s) {f : F}
    (hf : f ∈ s.runq) : f ∉ s.timerq := fun hf' =>
  (List.nodup_append.mp h).2.2 f hf f hf' rfl

omit [DecidableEq F] in
theorem SameTasks.distinct {s s' : Sched F} (h : SameTasks s s')
    (hd : Distinct s) : Distinct s' := by
  unfold Distinct
  rwa [h.runq, h.timerq]

theorem enqueue_distinct {s : Sched F} (f : F) (h : Distinct s) :
    Distinct (s.enqueue f) := by
  unfold enqueue
  split
  · exact h
  · rename_i hf
    obtain ⟨hr, ht, hne⟩ := List.nodup_append.mp h
    have hperm : (s.runq ++ [f] ++ s.timerq.erase f).Perm
        (f :: (s.runq ++ s.timerq.erase f)) := by
      rw [List.append_assoc]
      exact List.perm_middle
    unfold Distinct
    rw [hperm.nodup_iff, List.nodup_cons, List.mem_append, not_or]
    exact ⟨⟨hf, ht.not_mem_erase⟩,
      h.sublist (List.erase_sublist.append_left s.runq)⟩

theorem Drain.distinct {s s' : Sched F} (h : Drain s s') (hd : Distinct s) :
    Distinct s' := by
  refine h.invariant hd ?_ ?_ ?_
  · exact fun u hu => (interrupt_same u).distinct hu
  · exact fun _ _ _ hu _ => hu
  · exact fun u f _ hu _ => (interrupt_same _).distinct (enqueue_distinct f hu)

theorem UpdateCurrent.distinct {f : F} {s s' : Sched F}
    (h : UpdateCurrent f s s') (hd : Distinct s) : Distinct s' := by
  cases h with
  | yielded _ hdrain => exact enqueue_distinct f (hdrain.distinct hd)
  | waiting _ => exact hd
  | exited _ => exact hd
  | failed _ => exact hd

theorem Update.distinct {s s' : Sched F} (h : Update s s')
    (hd : Distinct s) : Distinct s' := by
  cases h with
  | idle hdrain _ =>
      exact (interrupt_same _).distinct
        ((interrupt_same _).distinct (hdrain.distinct hd))
  | current hdrain _ hupdate =>
      exact (interrupt_same _).distinct
        (hupdate.distinct ((interrupt_same _).distinct (hdrain.distinct hd)))

omit [DecidableEq F] in
theorem expire_distinct {s : Sched F} (h : Distinct s) : Distinct s.expire := by
  unfold Distinct expire
  dsimp only
  rwa [List.append_assoc, List.takeWhile_append_dropWhile]

omit [DecidableEq F] in
theorem nextTask_distinct {s : Sched F} (h : Distinct s) :
    Distinct s.nextTask :=
  h.sublist ((List.tail_sublist _).append_right _)

omit [DecidableEq F] in
theorem nextTask_free {s : Sched F} (h : Distinct s) {f : F}
    (hf : s.nextTask.current = some f) :
    f ∉ s.nextTask.runq ∧ f ∉ s.nextTask.timerq := by
  obtain ⟨fs, hfs⟩ := List.head?_eq_some_iff.mp hf
  have hmem : f ∈ s.runq := hfs ▸ List.mem_cons_self
  refine ⟨?_, h.not_mem hmem⟩
  have hnodup := (List.nodup_append.mp h).1
  rw [hfs] at hnodup
  change f ∉ s.runq.tail
  rw [hfs]
  exact (List.nodup_cons.mp hnodup).1

theorem kill_distinct {s : Sched F} (f : F) (h : Distinct s) :
    Distinct (s.kill f) :=
  h.sublist (List.erase_sublist.append List.erase_sublist)

theorem arm_distinct {s : Sched F} {f : F} (hf : f ∉ s.timerq)
    (duetime : BitVec 32) (h : Distinct s) : Distinct (s.arm f duetime) := by
  unfold Distinct arm
  dsimp only
  split
  · exact h
  · rename_i hrunq
    have hperm := (insertSorted_perm (duetimeCmp
      (Function.update s.fibre f { s.fibre f with duetime })) f s.timerq)
    rw [(hperm.append_left s.runq).nodup_iff, List.perm_middle.nodup_iff,
      List.nodup_cons, List.mem_append, not_or]
    exact ⟨⟨hrunq, hf⟩, h⟩

omit [DecidableEq F] in
theorem dispatch_same (s : Sched F) : SameTasks s s.dispatch := by
  unfold dispatch
  split
  · exact .refl s
  · exact ⟨rfl, rfl, rfl, rfl, rfl, rfl, rfl⟩

/-! ## How long a drain takes -/

def waitingCalls (s : Sched F) : Nat := (s.interrupts.map List.length).sum

/-- Every entry is received once and makes the lists longer by at most one. -/
def weight (s : Sched F) : Nat :=
  2 * (s.pending.length + s.waitingCalls) + s.runq.length + s.timerq.length

omit [DecidableEq F] in
theorem runq_length_le (s : Sched F) : s.runq.length ≤ s.weight := by
  unfold weight
  omega

omit [DecidableEq F] in
theorem timerq_length_le (s : Sched F) : s.timerq.length ≤ s.weight := by
  unfold weight
  omega

omit [DecidableEq F] in
theorem runAtomic_pending_le (s : Sched F) (f : F) :
    (s.runAtomic f).pending.length ≤ s.pending.length + 1 := by
  unfold runAtomic
  split
  · simp
  · exact Nat.le_succ _

omit [DecidableEq F] in
theorem runAtomic_interrupts (s : Sched F) (f : F) :
    (s.runAtomic f).interrupts = s.interrupts := by
  unfold runAtomic
  split <;> rfl

theorem handlerCall_pending_le (s : Sched F) (call : HandlerCall F) :
    (s.handlerCall call).pending.length ≤ s.pending.length + 1 ∧
      (s.handlerCall call).interrupts = s.interrupts := by
  cases call with
  | runAtomic f => exact ⟨s.runAtomic_pending_le f, s.runAtomic_interrupts f⟩
  | eventqClaim f =>
      change (s.produceClaim f).pending.length ≤ _ ∧
        (s.produceClaim f).interrupts = _
      unfold produceClaim
      split <;> exact ⟨Nat.le_succ _, rfl⟩
  | eventqSend f event =>
      change (s.produceSend f event).pending.length ≤ _ ∧
        (s.produceSend f event).interrupts = _
      unfold produceSend
      split
      · rename_i evtp _
        exact ⟨(s.sendEvent f evtp).runAtomic_pending_le f,
          (s.sendEvent f evtp).runAtomic_interrupts f⟩
      · exact ⟨Nat.le_succ _, rfl⟩

theorem interrupt_weight_le (s : Sched F) : s.interrupt.weight ≤ s.weight := by
  have hsame := s.interrupt_same
  have hcalls : ∀ (calls : List (HandlerCall F)) (s : Sched F),
      (calls.foldl handlerCall s).pending.length ≤
          s.pending.length + calls.length ∧
        (calls.foldl handlerCall s).interrupts = s.interrupts := by
    intro calls
    induction calls with
    | nil => exact fun _ => ⟨Nat.le_refl _, rfl⟩
    | cons call calls ih =>
        intro s
        obtain ⟨hle, hint⟩ := s.handlerCall_pending_le call
        obtain ⟨hle', hint'⟩ := ih (s.handlerCall call)
        refine ⟨?_, hint'.trans hint⟩
        rw [List.foldl_cons, List.length_cons]
        omega
  unfold weight waitingCalls
  rw [hsame.runq, hsame.timerq]
  unfold interrupt
  split
  · exact Nat.le_refl _
  · rename_i calls interrupts heq
    obtain ⟨hle, hint⟩ := hcalls calls { s with interrupts }
    rw [hint, heq, List.map_cons, List.sum_cons]
    dsimp only at hle ⊢
    omega

theorem enqueue_weight_le (s : Sched F) (f : F) :
    (s.enqueue f).weight ≤ s.weight + 1 := by
  unfold enqueue
  split
  · exact Nat.le_succ _
  · have := (List.erase_sublist (a := f) (l := s.timerq)).length_le
    simp only [weight, waitingCalls, List.length_append, List.length_cons,
      List.length_nil]
    omega

omit [DecidableEq F] in
theorem receive_weight {s : Sched F} {f : F} {fs : List F}
    (h : s.pending = f :: fs) : (s.receive f fs).weight + 2 = s.weight := by
  simp only [weight, waitingCalls, receive, h, List.length_cons]
  omega

theorem Drain.weight_le {s s' : Sched F} (h : Drain s s') :
    s'.weight ≤ s.weight := by
  induction h with
  | empty _ => exact interrupt_weight_le _
  | @entry s s₁ s₂ f fs hpending _ _ ihinner ihouter =>
      have h₁ := s.interrupt_weight_le
      have h₂ := receive_weight hpending
      have h₃ := (s.interrupt.receive f fs).interrupt_weight_le
      have h₄ := s₁.enqueue_weight_le f
      have h₅ := (s₁.enqueue f).interrupt_weight_le
      have h₆ : (s₁.enqueue f).interrupt.release.weight =
          (s₁.enqueue f).interrupt.weight := rfl
      omega

/-! ## A whole pass -/

structure Passed (time : BitVec 32) (s s' : Sched F) : Prop where
  held : s'.held = s.held
  state : s'.state = s.state
  now : s'.now = time
  timerq : s'.timerq.Sublist s.timerq
  distinct : Distinct s'
  /-- The fibre that is called is on neither queue. -/
  free : ∀ f, s'.current = some f → f ∉ s'.runq ∧ f ∉ s'.timerq

theorem Update.passed {time : BitVec 32} {s s₁ : Sched F} (hd : Distinct s)
    (hupdate : Update ({ s with now := time }).interrupt s₁) :
    Passed time s s₁.expire.interrupt.nextTask.interrupt.dispatch := by
  have h₀ : SameTasks { s with now := time } ({ s with now := time }).interrupt :=
    interrupt_same _
  have hdrained := hupdate.drained
  have hdistinct := hupdate.distinct (h₀.distinct hd)
  have h₃ := interrupt_same s₁.expire
  have h₄ := (interrupt_same s₁.expire.interrupt.nextTask).trans
    (dispatch_same _)
  have hdistinct₃ := h₃.distinct (expire_distinct hdistinct)
  refine ⟨?_, ?_, ?_, ?_, h₄.distinct (nextTask_distinct hdistinct₃), ?_⟩
  · exact (h₄.held.trans h₃.held).trans (hupdate.held.trans h₀.held)
  · exact (h₄.state.trans h₃.state).trans (hdrained.state.trans h₀.state)
  · exact (h₄.now.trans h₃.now).trans (hdrained.now.trans h₀.now)
  · rw [h₄.timerq]
    change (s₁.expire.interrupt.timerq).Sublist _
    rw [h₃.timerq]
    refine (List.dropWhile_sublist _).trans (hdrained.timerq.trans ?_)
    rw [h₀.timerq]
  · intro f hf
    rw [h₄.current] at hf
    rw [h₄.runq, h₄.timerq]
    exact nextTask_free hdistinct₃ hf

theorem Pass.passed {time : BitVec 32} {s s' : Sched F} (h : Pass time s s')
    (hd : Distinct s) : Passed time s s' := by
  cases h with
  | fast hfast =>
      have h₀ : SameTasks { s with now := time }
          ({ s with now := time }).interrupt := interrupt_same _
      have h₁ := (h₀.trans (interrupt_same _)).trans (dispatch_same _)
      obtain ⟨-, hrunq, htimerq, -⟩ := hfast
      have h₂ := (interrupt_same ({ s with now := time }).interrupt).trans
        (dispatch_same _)
      refine ⟨h₁.held, h₁.state, h₁.now, ?_, h₁.distinct hd, ?_⟩
      · rw [h₁.timerq]
      · intro f _
        rw [h₂.runq, h₂.timerq, hrunq, htimerq]
        exact ⟨List.not_mem_nil, List.not_mem_nil⟩
  | slow _ hupdate => exact hupdate.passed hd

end Sched

end Librfn
