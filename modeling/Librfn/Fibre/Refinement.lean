import Librfn.Fibre.Queues
import Librfn.Messageq.Refinement

/-!
# The scheduler keeps its sequences

One specification for each function of `fibre.c`: in a memory that represents
some sequences it returns, and leaves a memory that represents the sequences
moved as it should move them.
-/

namespace Librfn

open Librfn.Logic

variable {F : Type}

/-- The memory with these queues that is otherwise as `s` has it. -/
@[reducible] def Sched.world (s : Sched F) (lists : ListMem KernelList F)
    (atomicRunq : Messageq) (atomicRunqBuf : Nat → Option F) : World F :=
  { kernel :=
      { current := s.current
        state := s.state
        now := s.now
        lists
        atomicRunq
        atomicRunqBuf
        taintFlags := s.taintFlags }
    fibre := s.fibre
    eventq := s.eventq
    claims := s.claims
    interrupts := s.interrupts
    log := s.log }

/-- The atomic run queue holds the entries `pending` in order, and `held` more
that are received and not released.  One of these may be about to be read. -/
structure Entries (mq : Messageq) (buf : Nat → Option F) (m : Messages)
    (pending : List F) (held : Nat) (reading : Option (Nat × F)) : Prop where
  queue : mq.Represents m
  queueLen : m.queueLen = 8
  sent : ∀ i, i < m.claimed → m.sent i = true
  held : m.received = m.released + held
  pending : (List.range' m.received (m.claimed - m.received)).map
    (fun i => buf (mq.messageAddr i)) = pending.map some
  reading : ∀ addr f, reading = some (addr, f) →
    ∃ i, m.released ≤ i ∧ i < m.received ∧ addr = mq.messageAddr i ∧
      buf addr = some f

def World.Represents (w : World F) (s : Sched F)
    (reading : Option (Nat × F) := none) : Prop :=
  ∃ lists mq buf m, w = s.world lists mq buf ∧ lists.Represents s.seq ∧
    Entries mq buf m s.pending s.held.length reading

/-! ## The atomic run queue -/

namespace Entries

variable {mq : Messageq} {buf : Nat → Option F} {m : Messages}
  {pending : List F} {held : Nat} {reading : Option (Nat × F)}

theorem length (h : Entries mq buf m pending held reading) :
    pending.length = m.claimed - m.received := by
  have := congrArg List.length h.pending
  simpa using this.symm

theorem claimed_eq (h : Entries mq buf m pending held reading) :
    m.claimed = m.released + held + pending.length := by
  have := h.length
  have := h.held
  have := m.received_le
  omega

theorem free_iff (h : Entries mq buf m pending held reading) :
    m.claimed < m.released + m.queueLen ↔ pending.length + held < 8 := by
  have := h.claimed_eq
  have := h.queueLen
  omega

theorem buf_update (h : Entries mq buf m pending held reading)
    (hfree : m.claimed < m.released + m.queueLen) (ptr : Option F) :
    (List.range' m.received (m.claimed - m.received)).map
      (fun i => Function.update buf (mq.messageAddr m.claimed) ptr
        (mq.messageAddr i)) = pending.map some := by
  rw [← h.pending]
  refine List.map_congr_left ?_
  intro i hi
  have hrl := m.released_le
  have hrc := m.received_le
  rw [List.mem_range'_1] at hi
  refine Function.update_of_ne ?_ _ _
  rw [Ne, h.queue.toTracks.messageAddr_inj]
  exact mod_ne_of_window (by omega) (by omega)

theorem push (h : Entries mq buf m pending held reading)
    (hfree : m.claimed < m.released + m.queueLen) (f : F) {mq' : Messageq}
    (hi : m.claimed < (m.claim hfree).claimed)
    (hqueue : mq'.Represents ((m.claim hfree).send m.claimed hi))
    (haddr : ∀ i, mq'.messageAddr i = mq.messageAddr i) :
    Entries mq' (Function.update buf (mq.messageAddr m.claimed) (some f))
      ((m.claim hfree).send m.claimed hi) (pending ++ [f]) held reading where
  queue := hqueue
  queueLen := h.queueLen
  sent := by
    intro i hlt
    rcases Nat.lt_succ_iff_lt_or_eq.mp hlt with hlt | rfl
    · simp [Messages.send, Messages.claim, h.sent i hlt]
    · simp [Messages.send]
  held := h.held
  pending := by
    have hrc := m.received_le
    change (List.range' m.received (m.claimed + 1 - m.received)).map _ = _
    rw [show m.claimed + 1 - m.received = m.claimed - m.received + 1 by omega,
      List.range'_concat, List.map_append, List.map_append]
    simp only [haddr, List.map_cons, List.map_nil, Nat.one_mul]
    rw [h.buf_update hfree, Nat.add_sub_cancel' hrc, Function.update_self]
  reading := by
    intro addr g hreading
    obtain ⟨i, hi, hi', rfl, hg⟩ := h.reading addr g hreading
    have hrc := m.received_le
    refine ⟨i, hi, hi', (haddr i).symm, ?_⟩
    rwa [Function.update_of_ne]
    rw [Ne, h.queue.toTracks.messageAddr_inj]
    exact mod_ne_of_window (by omega) (by omega)

theorem not_sent (h : Entries mq buf m [] held reading) :
    m.sent m.received = false := by
  have hlen := h.length
  rw [List.length_nil] at hlen
  cases hsent : m.sent m.received with
  | false => rfl
  | true =>
      have := m.sent_lt _ hsent
      omega

theorem head {f : F} {fs : List F} (h : Entries mq buf m (f :: fs) held reading) :
    m.received < m.claimed ∧ buf (mq.messageAddr m.received) = some f ∧
      (List.range' (m.received + 1) (m.claimed - (m.received + 1))).map
        (fun i => buf (mq.messageAddr i)) = fs.map some := by
  have hlen := h.length
  rw [List.length_cons] at hlen
  have hlt : m.received < m.claimed := by omega
  have hpending := h.pending
  rw [show m.claimed - m.received = m.claimed - (m.received + 1) + 1 by omega,
    List.range'_succ, List.map_cons, List.map_cons, List.cons.injEq] at hpending
  exact ⟨hlt, hpending⟩

end Entries

section Specs

variable {s : Sched F} {w : World F} {lists : ListMem KernelList F}
  {mq : Messageq} {buf : Nat → Option F} {reading : Option (Nat × F)}

@[simp] theorem wp_onKernel {α : Type} (m : Prog (Kernel F) α)
    (Q : α → World F → Prop) (w : World F) :
    Prog.wp (onKernel m) Q w ↔
      Prog.wp m (fun a k => Q a { w with kernel := k }) w.kernel :=
  Prog.wp_zoom _ _ _ _ _

@[simp] theorem wp_onLists {α : Type} (m : Prog (ListMem KernelList F) α)
    (Q : α → World F → Prop) (s : Sched F) :
    Prog.wp (onLists m) Q (s.world lists mq buf) ↔
      Prog.wp m (fun a lists => Q a (s.world lists mq buf)) lists := by
  simp only [onLists, wp_onKernel, Prog.wp_zoom]

@[simp] theorem wp_onAtomicRunq {α : Type} (m : Prog Messageq α)
    (Q : α → World F → Prop) (s : Sched F) :
    Prog.wp (onAtomicRunq m) Q (s.world lists mq buf) ↔
      Prog.wp m (fun a mq => Q a (s.world lists mq buf)) mq := by
  simp only [onAtomicRunq, wp_onKernel, Prog.wp_zoom]

@[simp] theorem wp_note (event : FibreEvent F) (Q : Unit → World F → Prop)
    (w : World F) :
    Prog.wp (note event) Q w ↔ Q () { w with log := event :: w.log } := Iff.rfl

theorem wp_addTaint (id : Char) {i : Nat}
    (hi : ((id.toNat : Int) - 'A'.toNat) = i) (hlt : i < 32)
    (Q : Unit → World F → Prop) (w : World F) :
    Prog.wp (addTaint id) Q w ↔ Q () { w with
      kernel := { w.kernel with
        taintFlags := w.kernel.taintFlags ||| flag 32 i } } := by
  have hrange : (0 : Int) ≤ i ∧ (i : Int) < 32 := by omega
  simp only [addTaint, hi, Prog.wp_bind, Prog.wp_assert, hrange, and_self,
    true_and, wp_onKernel, Prog.wp_modify, Int.toNat_natCast]

theorem fibreRunAtomic_spec (h : w.Represents s reading) (f : F) :
    Prog.wp (fibreRunAtomic f) (fun queued w' => queued = decide s.Room ∧
      w'.Represents (s.runAtomic f) reading) w := by
  obtain ⟨lists, mq, buf, m, rfl, hlists, hentries⟩ := h
  simp only [fibreRunAtomic, Prog.wp_bind, wp_onAtomicRunq]
  by_cases hfree : m.claimed < m.released + m.queueLen
  · have hroom : s.Room := hentries.free_iff.mp hfree
    refine Prog.wp_mono
      (Messageq.messageqClaim_some hentries.queue hfree) ?_
    rintro _ mq₁ ⟨rfl, hq₁, hbuf₁⟩
    have haddr₁ : ∀ i, mq₁.messageAddr i = mq.messageAddr i := fun i =>
      hbuf₁.messageAddr hentries.queue.toTracks hq₁.toTracks rfl i
    have hunsent : (m.claim hfree).sent m.claimed = false := by
      cases hsent : m.sent m.claimed with
      | false => exact hsent
      | true => exact absurd (m.sent_lt _ hsent) (Nat.lt_irrefl _)
    simp only [Prog.wp_bind, wp_onKernel, Prog.wp_modify, wp_onAtomicRunq,
      wp_note, Prog.wp_pure, ← haddr₁ m.claimed]
    refine Prog.wp_mono
      (Messageq.messageqSend_spec hq₁ (Nat.lt_succ_self _) hunsent) ?_
    rintro _ mq₂ ⟨hq₂, hbuf₂⟩
    have haddr₂ : ∀ i, mq₂.messageAddr i = mq.messageAddr i := fun i =>
      (hbuf₂.messageAddr hq₁.toTracks hq₂.toTracks rfl i).trans (haddr₁ i)
    have hpush := hentries.push hfree f _ hq₂ haddr₂
    rw [Sched.runAtomic, if_pos hroom]
    rw [← haddr₁] at hpush
    exact ⟨(decide_eq_true hroom).symm, lists, mq₂, _, _, rfl, hlists, hpush⟩
  · have hroom : ¬ s.Room := fun hroom => hfree (hentries.free_iff.mpr hroom)
    refine Prog.wp_mono
      (Messageq.messageqClaim_none hentries.queue hfree) ?_
    rintro _ _ ⟨rfl, rfl⟩
    simp only [Prog.wp_bind, wp_addTaint 'A' (i := 0) rfl (by decide), wp_note,
      Prog.wp_pure]
    rw [Sched.runAtomic, if_neg hroom]
    exact ⟨(decide_eq_false hroom).symm, lists, _, buf, m, rfl, hlists,
      hentries⟩

theorem receive_none (h : w.Represents s) (hpending : s.pending = []) :
    Prog.wp (onAtomicRunq messageqReceive) (fun entry w' =>
      entry = none ∧ w'.Represents s) w := by
  obtain ⟨lists, mq, buf, m, rfl, hlists, hentries⟩ := h
  rw [hpending] at hentries
  rw [wp_onAtomicRunq]
  refine Prog.wp_mono (Messageq.messageqReceive_none hentries.queue
    hentries.not_sent) ?_
  rintro _ mq' ⟨rfl, hq, hbuf⟩
  have haddr : ∀ i, mq'.messageAddr i = mq.messageAddr i := fun i =>
    hbuf.messageAddr hentries.queue.toTracks hq.toTracks rfl i
  refine ⟨rfl, lists, mq', buf, m, rfl, hlists, hq, hentries.queueLen,
    hentries.sent, hentries.held, ?_, nofun⟩
  simpa only [haddr, hpending] using hentries.pending

theorem receive_some {f : F} {fs : List F} (h : w.Represents s)
    (hpending : s.pending = f :: fs) :
    Prog.wp (onAtomicRunq messageqReceive) (fun entry w' =>
      ∃ addr, entry = some addr ∧
        w'.Represents (s.receive f fs) (some (addr, f))) w := by
  obtain ⟨lists, mq, buf, m, rfl, hlists, hentries⟩ := h
  rw [hpending] at hentries
  obtain ⟨hlt, hf, hfs⟩ := hentries.head
  rw [wp_onAtomicRunq]
  refine Prog.wp_mono (Messageq.messageqReceive_some hentries.queue
    (hentries.sent _ hlt)) ?_
  rintro _ mq' ⟨rfl, hq, hbuf⟩
  have haddr : ∀ i, mq'.messageAddr i = mq.messageAddr i := fun i =>
    hbuf.messageAddr hentries.queue.toTracks hq.toTracks rfl i
  refine ⟨_, rfl, lists, mq', buf, _, rfl, hlists, hq, hentries.queueLen,
    hentries.sent, ?_, ?_, ?_⟩
  · have := hentries.held
    simp only [Messages.receive, Sched.receive, List.length_cons]
    omega
  · simpa only [haddr, Messages.receive, Sched.receive] using hfs
  · rintro _ _ ⟨⟩
    exact ⟨m.received, m.released_le, Nat.lt_succ_self _, (haddr _).symm, hf⟩

theorem readEntry_spec {entry : Nat} {f : F}
    (h : w.Represents s (some (entry, f))) :
    Prog.wp (readEntry entry) (fun g w' =>
      g = f ∧ w' = w ∧ w.Represents s) w := by
  obtain ⟨lists, mq, buf, m, rfl, hlists, hentries⟩ := h
  obtain ⟨i, -, -, -, hf⟩ := hentries.reading entry f rfl
  simp only [readEntry, Prog.wp_bind, Prog.wp_get, hf, Prog.wp_pure, true_and]
  exact ⟨lists, mq, buf, m, rfl, hlists, hentries.queue, hentries.queueLen,
    hentries.sent, hentries.held, hentries.pending, by simp⟩

theorem release_spec (h : w.Represents s) {f : F} {fs : List F}
    (hheld : s.held = f :: fs) (entry : Nat) :
    Prog.wp (onAtomicRunq (messageqRelease entry)) (fun _ w' =>
      w'.Represents s.release) w := by
  obtain ⟨lists, mq, buf, m, rfl, hlists, hentries⟩ := h
  have hlen := hentries.held
  rw [hheld, List.length_cons] at hlen
  have hlt : m.released < m.received := by omega
  rw [wp_onAtomicRunq]
  refine Prog.wp_mono
    (Messageq.messageqRelease_spec hentries.queue entry hlt) ?_
  rintro _ mq' ⟨hq, hbuf⟩
  have haddr : ∀ i, mq'.messageAddr i = mq.messageAddr i := fun i =>
    hbuf.messageAddr hentries.queue.toTracks hq.toTracks rfl i
  refine ⟨lists, mq', buf, _, rfl, hlists, hq, hentries.queueLen,
    hentries.sent, ?_, ?_, nofun⟩
  · simp only [Messages.release, Sched.release, hheld, List.tail_cons]
    omega
  · simpa only [haddr, Messages.release, Sched.release] using hentries.pending

theorem update_seq (s : Sched F) (runq timerq : List F) :
    Function.update (Function.update s.seq .timerq timerq) .runq runq =
      Sched.seq { s with runq, timerq } := by
  funext list
  cases list <;> rfl

/-! What is not in the queues is the same in a memory and its sequences. -/

theorem World.Represents.withInterrupts (h : w.Represents s reading)
    (interrupts : List (List (HandlerCall F))) :
    World.Represents { w with interrupts } { s with interrupts } reading := by
  obtain ⟨lists, mq, buf, m, rfl, hlists, hentries⟩ := h
  exact ⟨lists, mq, buf, m, rfl, hlists, hentries⟩

theorem World.Represents.withEventq (h : w.Represents s reading)
    (eventq : F → Messageq) :
    World.Represents { w with eventq } { s with eventq } reading := by
  obtain ⟨lists, mq, buf, m, rfl, hlists, hentries⟩ := h
  exact ⟨lists, mq, buf, m, rfl, hlists, hentries⟩

theorem World.Represents.withClaims (h : w.Represents s reading)
    (claims : F → List ClaimedEvent) :
    World.Represents { w with claims } { s with claims } reading := by
  obtain ⟨lists, mq, buf, m, rfl, hlists, hentries⟩ := h
  exact ⟨lists, mq, buf, m, rfl, hlists, hentries⟩

theorem World.Represents.withTaintFlags (h : w.Represents s reading)
    (taintFlags : BitVec 32) :
    World.Represents { w with kernel := { w.kernel with taintFlags } }
      { s with taintFlags } reading := by
  obtain ⟨lists, mq, buf, m, rfl, hlists, hentries⟩ := h
  exact ⟨lists, mq, buf, m, rfl, hlists, hentries⟩

theorem World.Represents.withState (h : w.Represents s reading)
    (state : FibreState) :
    World.Represents { w with kernel := { w.kernel with state } }
      { s with state } reading := by
  obtain ⟨lists, mq, buf, m, rfl, hlists, hentries⟩ := h
  exact ⟨lists, mq, buf, m, rfl, hlists, hentries⟩

theorem World.Represents.withNow (h : w.Represents s reading)
    (now : BitVec 32) :
    World.Represents { w with kernel := { w.kernel with now } }
      { s with now } reading := by
  obtain ⟨lists, mq, buf, m, rfl, hlists, hentries⟩ := h
  exact ⟨lists, mq, buf, m, rfl, hlists, hentries⟩

theorem World.Represents.withFibre (h : w.Represents s reading) (fibre : F → Fibre) :
    World.Represents { w with fibre } { s with fibre } reading := by
  obtain ⟨lists, mq, buf, m, rfl, hlists, hentries⟩ := h
  exact ⟨lists, mq, buf, m, rfl, hlists, hentries⟩

theorem World.Represents.withLog (h : w.Represents s reading)
    (log : List (FibreEvent F)) :
    World.Represents { w with log } { s with log } reading := by
  obtain ⟨lists, mq, buf, m, rfl, hlists, hentries⟩ := h
  exact ⟨lists, mq, buf, m, rfl, hlists, hentries⟩

theorem World.Represents.scalars (h : w.Represents s reading) :
    w.kernel.current = s.current ∧ w.kernel.state = s.state ∧
      w.kernel.now = s.now ∧ w.fibre = s.fibre ∧ w.log = s.log := by
  obtain ⟨lists, mq, buf, m, rfl, -⟩ := h
  exact ⟨rfl, rfl, rfl, rfl, rfl⟩

theorem World.Represents.taintFlags (h : w.Represents s reading) :
    w.kernel.taintFlags = s.taintFlags := by
  obtain ⟨lists, mq, buf, m, rfl, -⟩ := h
  rfl

theorem World.Represents.eventq (h : w.Represents s reading) :
    w.eventq = s.eventq := by
  obtain ⟨lists, mq, buf, m, rfl, -⟩ := h
  rfl

theorem World.Represents.claims (h : w.Represents s reading) :
    w.claims = s.claims := by
  obtain ⟨lists, mq, buf, m, rfl, -⟩ := h
  rfl

theorem World.Represents.interrupts (h : w.Represents s reading) :
    w.interrupts = s.interrupts := by
  obtain ⟨lists, mq, buf, m, rfl, -⟩ := h
  rfl

variable [DecidableEq F]

@[simp] theorem wp_onEventq {α : Type} (f : F) (m : Prog Messageq α)
    (Q : α → World F → Prop) (w : World F) :
    Prog.wp (onEventq f m) Q w ↔ Prog.wp m (fun a mq => Q a { w with
      eventq := Function.update w.eventq f mq }) (w.eventq f) :=
  Prog.wp_zoom _ _ _ _ _

theorem messageqClaim_returns (mq : Messageq) :
    ∃ evtp mq', messageqClaim mq = .ok (evtp, mq') := by
  have h : Prog.wp messageqClaim (fun _ _ => True) mq := by
    simp only [messageqClaim, Prog.wp_bind, Prog.wp_get, Prog.wp_modify,
      Prog.wp_ite, Prog.wp_pure, ite_self]
  obtain ⟨evtp, mq', heq, -⟩ := Prog.wp_iff_exists.mp h
  exact ⟨evtp, mq', heq⟩

theorem fibreEventqClaim_claims (h : w.Represents s reading) (f : F) {evtp : Option Nat}
    {mq : Messageq} (heq : messageqClaim (s.eventq f) = .ok (evtp, mq)) :
    Prog.wp (fibreEventqClaim f) (fun evtp' w' => evtp' = evtp ∧
      w'.Represents
        { s with
          eventq := Function.update s.eventq f mq
          taintFlags := if evtp = none then s.taintFlags ||| flag 32 4 else s.taintFlags }
        reading) w := by
  have hclaim := h.withEventq (Function.update s.eventq f mq)
  simp only [fibreEventqClaim, Prog.wp_bind, wp_onEventq, h.eventq]
  refine Prog.wp_of_eq heq ?_
  cases evtp with
  | none =>
      rw [Prog.wp_ite, if_pos rfl, Prog.wp_bind,
        wp_addTaint 'E' (i := 4) rfl (by decide), h.taintFlags]
      exact ⟨rfl, hclaim.withTaintFlags _⟩
  | some evtp =>
      rw [Prog.wp_ite, if_neg (by simp)]
      exact ⟨rfl, hclaim⟩

theorem produceClaim_spec (h : w.Represents s reading) (f : F) :
    Prog.wp (produceClaim f) (fun _ w' =>
      w'.Represents (s.produceClaim f) reading) w := by
  obtain ⟨evtp, mq, heq⟩ := messageqClaim_returns (s.eventq f)
  rw [produceClaim, Prog.wp_bind, Sched.produceClaim, heq]
  refine Prog.wp_mono (fibreEventqClaim_claims h f heq) ?_
  rintro evtp w' ⟨rfl, hw'⟩
  cases evtp with
  | none => exact hw'
  | some evtp =>
      rw [Prog.wp_modify, hw'.claims]
      exact hw'.withClaims _

theorem produceSend_spec (h : w.Represents s reading) (f : F) (event : Nat) :
    Prog.wp (produceSend f event) (fun _ w' =>
      w'.Represents (s.produceSend f event) reading) w := by
  simp only [produceSend, Prog.wp_bind, Prog.wp_get, Sched.produceSend, h.claims]
  rcases (s.claims f)[event]? with _ | ⟨evtp, _ | queued⟩
  · exact h
  · have hsent := h.withEventq
      (Function.update s.eventq f ((s.eventq f).markFull evtp))
    simp only [fibreEventqSend, messageqSend, Prog.wp_bind, wp_onEventq,
      Prog.wp_modify, h.eventq]
    refine Prog.wp_mono (fibreRunAtomic_spec hsent f) ?_
    rintro _ w' ⟨rfl, hw'⟩
    have hclaims : w'.claims = s.claims := by
      rw [hw'.claims, Sched.runAtomic]
      split <;> rfl
    rw [hclaims]
    exact hw'.withClaims _
  · exact h

theorem handlerCall_spec (h : w.Represents s reading) (call : HandlerCall F) :
    Prog.wp (handlerCall call) (fun _ w' =>
      w'.Represents (s.handlerCall call) reading) w := by
  cases call with
  | runAtomic f =>
      simp only [handlerCall, Prog.wp_bind, Prog.wp_pure]
      exact Prog.wp_mono (fibreRunAtomic_spec h f) fun _ _ => And.right
  | eventqClaim f => exact produceClaim_spec h f
  | eventqSend f event => exact produceSend_spec h f event

theorem handlerCalls_spec (calls : List (HandlerCall F)) {s : Sched F}
    {w : World F} (h : w.Represents s reading) :
    Prog.wp (handlerCalls calls) (fun _ w' =>
      w'.Represents (calls.foldl Sched.handlerCall s) reading) w := by
  induction calls generalizing s w with
  | nil => exact h
  | cons call calls ih =>
      simp only [handlerCalls, Prog.wp_bind]
      exact Prog.wp_mono (handlerCall_spec h call) fun _ _ h' => ih h'

theorem interrupt_spec (h : w.Represents s reading) :
    Prog.wp interrupt (fun _ w' => w'.Represents s.interrupt reading) w := by
  simp only [interrupt, Prog.wp_bind, Prog.wp_get, h.interrupts, Sched.interrupt]
  cases hint : s.interrupts with
  | nil => exact h
  | cons calls interrupts =>
      simp only [Prog.wp_bind, Prog.wp_modify]
      exact handlerCalls_spec calls (h.withInterrupts interrupts)

/-! ## Draining the atomic run queue -/

theorem lists_enqueue {f : F} (hlists : lists.Represents s.seq)
    (hf : f ∉ s.runq) {fuel : Nat} (hfuel : s.timerq.length < fuel) :
    Prog.wp (do
      let _ ← listRemove fuel .timerq f
      listInsert .runq f) (fun _ lists' => lists'.Represents
        (Function.update (Function.update s.seq .timerq (s.timerq.erase f))
          .runq (s.runq ++ [f]))) lists := by
  rw [Prog.wp_bind]
  refine Prog.wp_mono (ListMem.listRemove_spec hlists hfuel) ?_
  rintro _ lists₁ ⟨-, hlists₁⟩
  refine ListMem.listInsert_spec hlists₁ ?_
  intro list
  cases list with
  | runq => exact hf
  | timerq => exact (hlists.nodup .timerq).not_mem_erase

theorem enqueue_spec (h : w.Represents s) (f : F) {fuel : Nat}
    (hfuel : s.weight < fuel) :
    Prog.wp (fibreRunWith (pure ()) fuel f) (fun _ w' =>
      w'.Represents (s.enqueue f)) w := by
  obtain ⟨lists, mq, buf, m, rfl, hlists, hentries⟩ := h
  have hrunq : s.runq.length < fuel := Nat.lt_of_le_of_lt s.runq_length_le hfuel
  have htimerq : s.timerq.length < fuel :=
    Nat.lt_of_le_of_lt s.timerq_length_le hfuel
  simp only [fibreRunWith, pure_bind, Prog.wp_bind, wp_onLists]
  refine Prog.wp_mono (ListMem.listContains_spec hlists hrunq) ?_
  rintro _ _ ⟨rfl, rfl⟩
  unfold Sched.enqueue
  by_cases hf : f ∈ s.runq
  · have hqueued : decide (f ∈ s.seq .runq) = true := decide_eq_true hf
    simp only [hqueued, not_true_eq_false, if_false, wp_note, hf, if_true]
    exact ⟨_, mq, buf, m, rfl, hlists, hentries⟩
  · have hqueued : decide (f ∈ s.seq .runq) = false := decide_eq_false hf
    have hins := lists_enqueue hlists hf htimerq
    simp only [hqueued, Bool.false_eq_true, not_false_eq_true, if_true,
      Prog.wp_bind, wp_onLists, wp_note, hf, if_false] at hins ⊢
    refine Prog.wp_mono hins ?_
    intro _ lists₁ hlists₁
    refine Prog.wp_mono hlists₁ ?_
    intro _ lists₂ hlists₂
    rw [update_seq] at hlists₂
    exact ⟨lists₂, mq, buf, m, rfl, hlists₂, hentries⟩

theorem fibreRunWith_eq (drain : Prog (World F) Unit) (fuel : Nat) (f : F) :
    fibreRunWith drain fuel f = drain >>= fun _ => fibreRunWith (pure ()) fuel f := by
  simp only [fibreRunWith, pure_bind]

theorem fibreRunWith_spec {drain : Prog (World F) Unit} (f : F) {fuel : Nat}
    (hdrain : Prog.wp drain (fun _ w' =>
      ∃ s', Sched.Drain s s' ∧ w'.Represents s') w)
    (hfuel : s.weight < fuel) :
    Prog.wp (fibreRunWith drain fuel f) (fun _ w' =>
      ∃ s', Sched.Drain s s' ∧ w'.Represents (s'.enqueue f)) w := by
  rw [fibreRunWith_eq, Prog.wp_bind]
  refine Prog.wp_mono hdrain ?_
  rintro _ w' ⟨s', hs', hw'⟩
  have hle := hs'.weight_le
  refine Prog.wp_mono (enqueue_spec hw' f (by omega)) ?_
  intro _ w'' hw''
  exact ⟨s', hs', hw''⟩

/-- The induction is on the fuel; what makes it enough is that every entry
adds two to the weight and its fibre at most one. -/
theorem handleAtomicRunq_spec (fuel : Nat) {s : Sched F} {w : World F}
    (h : w.Represents s) (hfuel : s.weight < fuel) :
    Prog.wp (handleAtomicRunq fuel) (fun _ w' =>
      ∃ s', Sched.Drain s s' ∧ w'.Represents s') w := by
  induction fuel generalizing s w with
  | zero => exact absurd hfuel (Nat.not_lt_zero _)
  | succ fuel ih =>
      have hweight := s.interrupt_weight_le
      simp only [handleAtomicRunq, Prog.wp_bind]
      refine Prog.wp_mono (interrupt_spec h) ?_
      intro _ w₁ h₁
      cases hpending : s.interrupt.pending with
      | nil =>
          refine Prog.wp_mono (receive_none h₁ hpending) ?_
          rintro _ w₂ ⟨rfl, h₂⟩
          exact ⟨s.interrupt, .empty hpending, h₂⟩
      | cons f fs =>
          have hreceive := Sched.receive_weight hpending
          have hweight₂ := (s.interrupt.receive f fs).interrupt_weight_le
          refine Prog.wp_mono (receive_some h₁ hpending) ?_
          rintro _ w₂ ⟨entry, rfl, h₂⟩
          simp only [Prog.wp_bind]
          refine Prog.wp_mono (interrupt_spec h₂) ?_
          intro _ w₃ h₃
          refine Prog.wp_mono (readEntry_spec h₃) ?_
          rintro _ _ ⟨hread, rfl, h₄⟩
          rw [hread]
          refine Prog.wp_mono (fibreRunWith_spec f (ih h₄ (by omega))
            (by omega)) ?_
          rintro _ w₅ ⟨s₅, hs₅, h₅⟩
          have hweight₅ := hs₅.weight_le
          have hinsert := s₅.enqueue_weight_le f
          have hweight₆ := (s₅.enqueue f).interrupt_weight_le
          have hheld : (s₅.enqueue f).interrupt.held = f :: s.interrupt.held := by
            rw [(Sched.interrupt_same _).held, Sched.enqueue_held, hs₅.held,
              (Sched.interrupt_same _).held]
            rfl
          refine Prog.wp_mono (interrupt_spec h₅) ?_
          intro _ w₆ h₆
          refine Prog.wp_mono (release_spec h₆ hheld entry) ?_
          intro _ w₇ h₇
          have hweight₇ : (s₅.enqueue f).interrupt.release.weight =
              (s₅.enqueue f).interrupt.weight := rfl
          refine Prog.wp_mono (ih h₇ (by omega)) ?_
          rintro _ w₈ ⟨s₈, hs₈, h₈⟩
          exact ⟨s₈, .entry hpending hs₅ hs₈, h₈⟩

theorem fibreRun_spec (h : w.Represents s) (f : F) {fuel : Nat}
    (hfuel : s.weight < fuel) :
    Prog.wp (fibreRun fuel f) (fun _ w' =>
      ∃ s', Sched.Drain s s' ∧ w'.Represents (s'.enqueue f)) w :=
  fibreRunWith_spec f (handleAtomicRunq_spec fuel h hfuel) hfuel

/-! ## The timer queue and the run queue -/

theorem handleTimerqLoop_spec (fuel : Nat) {s : Sched F} {w : World F}
    (h : w.Represents s) (hfuel : s.timerq.length < fuel) :
    Prog.wp (handleTimerqLoop fuel (firstPtr s.timerq none)
      (iteratorAt .timerq [])) (fun _ w' => w'.Represents s.expire) w := by
  induction fuel generalizing s w with
  | zero => exact absurd hfuel (Nat.not_lt_zero _)
  | succ fuel ih =>
      cases htimerq : s.timerq with
      | nil =>
          rw [Sched.expire_nil htimerq]
          exact h
      | cons f fs =>
          obtain ⟨lists, mq, buf, m, rfl, hlists, hentries⟩ := h
          simp only [handleTimerqLoop, firstPtr_cons, reduceCtorEq, if_false,
            Prog.wp_bind, wp_onLists, realNode_next, Prog.wp_pure, Prog.wp_get,
            Prog.wp_ite]
          by_cases hdue : s.Due f
          · have hcmp : cyclecmp32 (s.fibre f).duetime s.now ≤ 0 := hdue
            have hseq : s.seq .timerq = [] ++ f :: fs := htimerq
            have hnodup := hlists.nodup .timerq
            rw [hseq, List.nil_append, List.nodup_cons] at hnodup
            have hrunq : f ∉ s.runq := fun hf => hlists.disjoint .runq .timerq
              (by decide) hf (hseq ▸ List.mem_cons_self)
            rw [if_pos hcmp]
            refine Prog.wp_mono (ListMem.listIteratorRemove_spec hlists hseq) ?_
            rintro _ lists₁ ⟨rfl, hlists₁⟩
            have hfree : ∀ list, f ∉ Function.update s.seq .timerq ([] ++ fs) list := by
              intro list
              cases list with
              | runq => exact hrunq
              | timerq => exact hnodup.1
            refine Prog.wp_mono (ListMem.listInsert_spec hlists₁ hfree) ?_
            intro _ lists₂ hlists₂
            have hsame : (Function.update s.seq .timerq ([] ++ fs)) .runq =
                s.runq := rfl
            rw [hsame, List.nil_append, update_seq] at hlists₂
            rw [Sched.expire_of_due htimerq hdue, wp_note]
            refine ih (s := { s with
              runq := s.runq ++ [f]
              timerq := fs
              log := .expired f :: s.log })
              ⟨lists₂, mq, buf, m, rfl, hlists₂, hentries⟩ ?_
            simpa [htimerq] using hfuel
          · have hcmp : ¬ cyclecmp32 (s.fibre f).duetime s.now ≤ 0 := hdue
            rw [if_neg hcmp, Sched.expire_of_not_due htimerq hdue]
            exact ⟨lists, mq, buf, m, rfl, hlists, hentries⟩

theorem handleTimerq_spec (h : w.Represents s) {fuel : Nat}
    (hfuel : s.timerq.length < fuel) :
    Prog.wp (handleTimerq fuel) (fun _ w' => w'.Represents s.expire) w := by
  have hw := h
  obtain ⟨lists, mq, buf, m, rfl, hlists, -⟩ := hw
  simp only [handleTimerq, Prog.wp_bind, wp_onLists]
  refine Prog.wp_mono (ListMem.listIterate_spec hlists) ?_
  rintro _ _ ⟨rfl, rfl⟩
  exact handleTimerqLoop_spec fuel h hfuel

theorem switchTask_spec (h : w.Represents s) :
    Prog.wp switchTask (fun _ w' => w'.Represents s.nextTask) w := by
  obtain ⟨lists, mq, buf, m, rfl, hlists, hentries⟩ := h
  simp only [switchTask, getNextTask, Prog.wp_bind, wp_onLists]
  refine Prog.wp_mono (ListMem.listExtract_spec hlists) ?_
  rintro _ lists₁ ⟨rfl, hlists₁⟩
  have hseq : (s.seq .runq) = s.runq := rfl
  have htail : Function.update s.seq .runq s.runq.tail = s.nextTask.seq := by
    funext list
    cases list <;> rfl
  rw [hseq, htail] at hlists₁
  rw [hseq]
  cases hrunq : s.runq with
  | nil =>
      simp only [firstPtr_nil, if_true, Prog.wp_pure, wp_onKernel,
        Prog.wp_modify]
      refine ⟨lists₁, mq, buf, m, ?_, hlists₁, hentries⟩
      simp [Sched.nextTask, hrunq]
  | cons f fs =>
      simp only [firstPtr_cons, reduceCtorEq, if_false, Prog.wp_bind, wp_onLists,
        realNode_next, Prog.wp_pure, wp_onKernel, Prog.wp_modify]
      refine ⟨lists₁, mq, buf, m, ?_, hlists₁, hentries⟩
      simp [Sched.nextTask, hrunq]

theorem fibreKill_spec (h : w.Represents s) (f : F) {fuel : Nat}
    (hfuel : s.weight < fuel) :
    Prog.wp (fibreKill fuel f) (fun res w' => ∃ s', Sched.Drain s s' ∧
      res = (decide (f ∈ s'.runq) || decide (f ∈ s'.timerq)) ∧
      w'.Represents (s'.interrupt.kill f)) w := by
  simp only [fibreKill, Prog.wp_bind]
  refine Prog.wp_mono (handleAtomicRunq_spec fuel h hfuel) ?_
  rintro _ w₁ ⟨s', hs', h₁⟩
  have hle := hs'.weight_le
  have hsame := s'.interrupt_same
  have hlt : s'.interrupt.weight < fuel := by
    have := s'.interrupt_weight_le
    omega
  have hrunq := Nat.lt_of_le_of_lt s'.interrupt.runq_length_le hlt
  have htimerq := Nat.lt_of_le_of_lt s'.interrupt.timerq_length_le hlt
  refine Prog.wp_mono (interrupt_spec h₁) ?_
  rintro _ w₂ ⟨lists, mq, buf, m, rfl, hlists, hentries⟩
  rw [wp_onLists]
  refine Prog.wp_mono (ListMem.listRemove_spec hlists hrunq) ?_
  rintro _ lists₁ ⟨rfl, hlists₁⟩
  rw [wp_onLists]
  refine Prog.wp_mono (ListMem.listRemove_spec hlists₁ htimerq) ?_
  rintro _ lists₂ ⟨rfl, hlists₂⟩
  refine ⟨s', hs', ?_, lists₂, mq, buf, m, rfl, ?_, hentries⟩
  · rw [← hsame.runq, ← hsame.timerq]
    rfl
  · convert hlists₂ using 1
    funext list
    cases list <;> rfl

theorem fibreTimeout_past (h : w.Represents s) {duetime : BitVec 32}
    (hpast : cyclecmp32 duetime s.now ≤ 0) {fuel : Nat} :
    Prog.wp (fibreTimeout fuel duetime) (fun res w' =>
      res = true ∧ w'.Represents s) w := by
  obtain ⟨-, -, hnow, -⟩ := h.scalars
  rw [fibreTimeout, Prog.wp_bind, Prog.wp_get]
  dsimp only
  rw [hnow, if_pos hpast, Prog.wp_pure]
  exact ⟨rfl, h⟩

/-- A fibre that waits for a time must not be waiting already. -/
theorem fibreTimeout_arm (h : w.Represents s) {duetime : BitVec 32}
    (hfuture : ¬ cyclecmp32 duetime s.now ≤ 0) {f : F}
    (hcurrent : s.current = some f) (hf : f ∉ s.timerq) {fuel : Nat}
    (hfuel : s.weight < fuel) :
    Prog.wp (fibreTimeout fuel duetime) (fun res w' =>
      res = false ∧ w'.Represents (s.arm f duetime)) w := by
  have hrunq : s.runq.length < fuel := Nat.lt_of_le_of_lt s.runq_length_le hfuel
  have htimerq : s.timerq.length < fuel :=
    Nat.lt_of_le_of_lt s.timerq_length_le hfuel
  obtain ⟨hcurrent', -, hnow, hfibre, -⟩ := h.scalars
  rw [fibreTimeout, Prog.wp_bind, Prog.wp_get]
  dsimp only
  rw [hnow, if_neg hfuture, hcurrent', hcurrent]
  simp only [Prog.wp_bind, Prog.wp_modify, Prog.wp_ite, hfibre, Prog.wp_get,
    Prog.wp_pure, true_and]
  have hset := h.withFibre
    (Function.update s.fibre f { s.fibre f with duetime })
  obtain ⟨lists, mq, buf, m, hw, hlists, hentries⟩ := hset
  rw [hw, wp_onLists]
  refine Prog.wp_mono (ListMem.listContains_spec hlists hrunq) ?_
  rintro _ _ ⟨rfl, rfl⟩
  split
  · rename_i hcontained
    have hqueued : f ∉ s.runq := fun hin => hcontained (decide_eq_true hin)
    have hseq : (s.arm f duetime).seq = Function.update s.seq .timerq
        (insertSorted (duetimeCmp
          (Function.update s.fibre f { s.fibre f with duetime })) f s.timerq) := by
      funext list
      cases list with
      | runq => rfl
      | timerq => exact if_neg hqueued
    rw [wp_onLists]
    have hfree : ∀ list, f ∉ s.seq list := by
      intro list
      cases list with
      | runq => exact hqueued
      | timerq => exact hf
    refine Prog.wp_mono (ListMem.listInsertSorted_spec hlists hfree _ htimerq) ?_
    intro _ lists₁ hlists₁
    exact ⟨lists₁, mq, buf, m, rfl, hseq ▸ hlists₁, hentries⟩
  · rename_i hcontained
    have hqueued : f ∈ s.runq := of_decide_eq_true (not_not.mp hcontained)
    have hseq : (s.arm f duetime).seq = s.seq := by
      funext list
      cases list with
      | runq => rfl
      | timerq => exact if_pos hqueued
    exact ⟨_, mq, buf, m, rfl, hseq ▸ hlists, hentries⟩

end Specs

end Librfn
