import Librfn.Logic.Transition
import Librfn.Messageq.Refinement

/-!
# Producers racing for the slots of a message queue

The atomic operations of the message queue as single steps.  Any number of
`messageq_claim` calls may be in progress, each at its own place in the
function; the single receiver releases messages in the order in which it
received them.
-/

namespace Librfn.Messageq

open Librfn.Logic

/-- Where a `messageq_claim` in progress stands. -/
inductive ClaimPc where
  /-- `num_free <= 0`; the undoing `atomic_fetch_add` comes next. -/
  | refused
  /-- `num_free > 0`; the load of `sendp` comes next. -/
  | granted
  /-- In the compare-exchange loop with this local copy of `sendp`. -/
  | looping (sendp : Nat)
  deriving DecidableEq, Repr

structure Parties where
  mq : Messageq
  /-- The claims in progress, in any number. -/
  claiming : List ClaimPc
  /-- Messages that producers hold and have not sent. -/
  unsent : List Nat
  /-- Messages that the receiver holds and has not released, oldest first. -/
  inHand : List Nat

def Parties.initial (basep baseLen msgLen : Nat) : Parties :=
  { mq := messageqInit basep baseLen msgLen
    claiming := []
    unsent := []
    inHand := [] }

inductive Event where
  | fetchSub
  | undo
  | loadSendp
  | casFail
  | claim (msg : Nat)
  | send (msg : Nat)
  | receiveNone
  | receive (msg : Nat)
  | release (msg : Nat)
  deriving DecidableEq, Repr

inductive Step : Parties → Event → Parties → Prop
  | refuse {mq cs us hs} (h : mq.numFree ≤ 0) :
      Step ⟨mq, cs, us, hs⟩ .fetchSub ⟨mq.decFree, cs ++ [.refused], us, hs⟩
  | grant {mq cs us hs} (h : ¬ mq.numFree ≤ 0) :
      Step ⟨mq, cs, us, hs⟩ .fetchSub ⟨mq.decFree, cs ++ [.granted], us, hs⟩
  | undo {mq cs cs' us hs} :
      Step ⟨mq, cs ++ .refused :: cs', us, hs⟩ .undo
        ⟨mq.incFree, cs ++ cs', us, hs⟩
  | loadSendp {mq cs cs' us hs} :
      Step ⟨mq, cs ++ .granted :: cs', us, hs⟩ .loadSendp
        ⟨mq, cs ++ .looping mq.sendp :: cs', us, hs⟩
  -- A weak compare-exchange may also fail when the values agree.
  | casFail {mq cs cs' us hs sendp} :
      Step ⟨mq, cs ++ .looping sendp :: cs', us, hs⟩ .casFail
        ⟨mq, cs ++ .looping mq.sendp :: cs', us, hs⟩
  | claim {mq cs cs' us hs} :
      Step ⟨mq, cs ++ .looping mq.sendp :: cs', us, hs⟩
        (.claim (mq.slotAddr mq.sendp))
        ⟨{ mq with sendp := mq.newSendp mq.sendp }, cs ++ cs',
          us ++ [mq.slotAddr mq.sendp], hs⟩
  | send {mq cs us us' hs msg} :
      Step ⟨mq, cs, us ++ msg :: us', hs⟩ (.send msg)
        ⟨mq.markFull msg, cs, us ++ us', hs⟩
  | receiveNone {mq cs us hs}
      (h : mq.fullFlags &&& flag 32 mq.receivep = 0) :
      Step ⟨mq, cs, us, hs⟩ .receiveNone ⟨mq.clearFull, cs, us, hs⟩
  | receive {mq cs us hs} (h : ¬ mq.fullFlags &&& flag 32 mq.receivep = 0) :
      Step ⟨mq, cs, us, hs⟩ (.receive (mq.slotAddr mq.receivep))
        ⟨{ mq.clearFull with receivep := mq.nextReceivep }, cs, us,
          hs ++ [mq.slotAddr mq.receivep]⟩
  | release {mq cs us hs msg} :
      Step ⟨mq, cs, us, msg :: hs⟩ (.release msg) ⟨mq.incFree, cs, us, hs⟩

def Event.claimed? : Event → Option Nat
  | .claim msg => some msg
  | _ => none

def Event.released? : Event → Option Nat
  | .release msg => some msg
  | _ => none

def claimedMsgs (es : List Event) : List Nat := es.filterMap Event.claimed?
def releasedMsgs (es : List Event) : List Nat := es.filterMap Event.released?

def outstandingAt (es : List Event) (msg : Nat) : Nat :=
  (claimedMsgs es).count msg - (releasedMsgs es).count msg

def outstandingSlots (es : List Event) : Nat :=
  (claimedMsgs es).length - (releasedMsgs es).length

/-- No claim returns an outstanding slot, and no more slots are outstanding
than there are. -/
structure OwnershipSafe (es : List Event) (s : Parties) : Prop where
  fresh : ∀ msg s', Step s (.claim msg) s' → outstandingAt es msg = 0
  bounded : outstandingSlots es ≤ s.mq.queueLen

/-- The steps that do not start a claim while `num_free` is out of range,
which it is when a refused claim has taken it below zero and has not put it
back. -/
def InRangeStep (s : Parties) (e : Event) (s' : Parties) : Prop :=
  Step s e s' ∧ (e = .fetchSub → s.mq.numFree ≤ s.mq.queueLen)

/-- With one slot: a first claim takes it, a second is refused and leaves 255
in `num_free`, and a third, started before the second has put it back, is
given the slot of the first. -/
theorem claim_of_full_queue : ∃ es s s',
    Run Step (.initial 64 4 4) es s ∧ s.mq.queueLen = 1 ∧
    Step s (.claim 64) s' ∧ outstandingAt es 64 = 1 ∧
    outstandingSlots (es ++ [.claim 64]) = 2 ∧ ¬ OwnershipSafe es s := by
  have hfirst : Run Step (.initial 64 4 4) [.fetchSub, .loadSendp, .claim 64]
      ⟨⟨64, 4, 1, 0, 0, 0, 0⟩, [], [64], []⟩ :=
    .cons (.grant (by decide)) (.cons (@Step.loadSendp _ [] [] _ _)
      (.single (@Step.claim _ [] [] _ _)))
  have hrefuse : Step ⟨⟨64, 4, 1, 0, 0, 0, 0⟩, [], [64], []⟩ .fetchSub
      ⟨⟨64, 4, 1, 255, 0, 0, 0⟩, [.refused], [64], []⟩ :=
    .refuse (by decide)
  have hgrant : Step ⟨⟨64, 4, 1, 255, 0, 0, 0⟩, [.refused], [64], []⟩ .fetchSub
      ⟨⟨64, 4, 1, 254, 0, 0, 0⟩, [.refused, .granted], [64], []⟩ :=
    .grant (by decide)
  have hload : Step ⟨⟨64, 4, 1, 254, 0, 0, 0⟩, [.refused, .granted], [64], []⟩
      .loadSendp ⟨⟨64, 4, 1, 254, 0, 0, 0⟩, [.refused, .looping 0], [64], []⟩ :=
    @Step.loadSendp _ [.refused] [] _ _
  have hclaim : Step
      ⟨⟨64, 4, 1, 254, 0, 0, 0⟩, [.refused, .looping 0], [64], []⟩ (.claim 64)
      ⟨⟨64, 4, 1, 254, 0, 0, 0⟩, [.refused], [64, 64], []⟩ :=
    @Step.claim _ [.refused] [] _ _
  have hrace := hfirst.append (.cons hrefuse (.cons hgrant (.single hload)))
  refine ⟨_, _, _, hrace, rfl, hclaim, by decide, by decide, ?_⟩
  intro hsafe
  exact absurd (hsafe.fresh _ _ hclaim) (by decide)

@[simp] theorem claimedMsgs_snoc (es : List Event) (e : Event) :
    claimedMsgs (es ++ [e]) = claimedMsgs es ++ e.claimed?.toList := by
  cases e <;> simp [claimedMsgs, Event.claimed?]

@[simp] theorem releasedMsgs_snoc (es : List Event) (e : Event) :
    releasedMsgs (es ++ [e]) = releasedMsgs es ++ e.released?.toList := by
  cases e <;> simp [releasedMsgs, Event.released?]

/-! ## The invariant of the runs in which `num_free` stays in range -/

def ClaimPc.isGranted : ClaimPc → Bool
  | .refused => false
  | _ => true

def ClaimPc.isRefused : ClaimPc → Bool
  | .refused => true
  | _ => false

def unsentNumbers (m : Messages) : List Nat :=
  (List.range m.claimed).filter fun i => !m.sent i

/-- `granted` claims hold permission for a slot they have not taken and
`refused` claims have taken one too many from `num_free`. -/
structure FreeCount (queueLen claimed released numFree granted refused : Nat) :
    Prop where
  le : claimed ≤ released + queueLen
  granted_le : claimed + granted ≤ released + queueLen
  refused_le : refused + claimed + granted ≤ released + queueLen + 1
  numFree : numFree =
    (256 + released + queueLen - claimed - granted - refused) % 256

structure RaceInv (addr : Nat → Nat) (es : List Event) (s : Parties)
    (m : Messages) : Prop where
  tracks : s.mq.Tracks m
  addresses : ∀ i, s.mq.messageAddr i = addr i
  claimed : claimedMsgs es = (List.range m.claimed).map addr
  released : releasedMsgs es = (List.range m.released).map addr
  free : FreeCount m.queueLen m.claimed m.released s.mq.numFree
    (s.claiming.countP ClaimPc.isGranted) (s.claiming.countP ClaimPc.isRefused)
  unsent : s.unsent.Perm ((unsentNumbers m).map addr)
  inHand : s.inHand =
    (List.range' m.released (m.received - m.released)).map addr

namespace FreeCount

variable {q c l n g r : Nat}

/-- While `num_free` is in range it is the exact number of free slots. -/
theorem grant (h : FreeCount q c l n g r) (hle : q ≤ 32) (hrange : n ≤ q)
    (hpos : ¬ n ≤ 0) : FreeCount q c l ((n + 255) % 256) (g + 1) r := by
  obtain ⟨hc, hg, hr, hn⟩ := h
  constructor <;> omega

theorem refuse (h : FreeCount q c l n g r) (hzero : n ≤ 0) :
    FreeCount q c l ((n + 255) % 256) g (r + 1) := by
  obtain ⟨hc, hg, hr, hn⟩ := h
  constructor <;> omega

theorem undo (h : FreeCount q c l n g (r + 1)) :
    FreeCount q c l ((n + 1) % 256) g r := by
  obtain ⟨hc, hg, hr, hn⟩ := h
  constructor <;> omega

theorem claim (h : FreeCount q c l n (g + 1) r) :
    FreeCount q (c + 1) l n g r := by
  obtain ⟨hc, hg, hr, hn⟩ := h
  constructor <;> omega

theorem release (h : FreeCount q c l n g r) :
    FreeCount q c (l + 1) ((n + 1) % 256) g r := by
  obtain ⟨hc, hg, hr, hn⟩ := h
  constructor <;> omega

end FreeCount

theorem mem_unsentNumbers {m : Messages} {i : Nat} :
    i ∈ unsentNumbers m ↔ i < m.claimed ∧ m.sent i = false := by
  simp [unsentNumbers]

theorem unsentNumbers_nodup (m : Messages) : (unsentNumbers m).Nodup :=
  List.nodup_range.filter _

theorem unsentNumbers_claim (m : Messages)
    (hfree : m.claimed < m.released + m.queueLen) :
    unsentNumbers (m.claim hfree) = unsentNumbers m ++ [m.claimed] := by
  have hunsent : m.sent m.claimed = false := by
    cases hs : m.sent m.claimed with
    | false => rfl
    | true => exact absurd (m.sent_lt _ hs) (Nat.lt_irrefl _)
  simp [unsentNumbers, Messages.claim, List.range_succ, List.filter_append,
    hunsent]

theorem unsentNumbers_send {m : Messages} {i : Nat} (hi : i < m.claimed)
    (hunsent : m.sent i = false) :
    (unsentNumbers m).Perm (i :: unsentNumbers (m.send i hi)) := by
  have hmem := mem_unsentNumbers.mpr ⟨hi, hunsent⟩
  refine (List.perm_cons_erase hmem).trans (List.Perm.cons i ?_)
  rw [(unsentNumbers_nodup m).erase_eq_filter, unsentNumbers,
    List.filter_filter]
  refine List.Perm.of_eq (List.filter_congr ?_)
  intro j _
  by_cases hj : j = i <;> simp [Messages.send, hj]

namespace RaceInv

variable {addr : Nat → Nat} {es : List Event} {mq : Messageq}
  {cs cs' : List ClaimPc} {us us' hs : List Nat} {m : Messages}

theorem initial (basep : Nat) {baseLen msgLen : Nat}
    (hmsg : 0 < msgLen) (hmsg' : msgLen < 2 ^ 16)
    (hpos : 0 < baseLen / msgLen) (hle : baseLen / msgLen ≤ 32) :
    RaceInv (fun i => basep + i % (baseLen / msgLen) * msgLen) []
      (.initial basep baseLen msgLen) (.init (baseLen / msgLen)) := by
  have htracks := messageq_init_tracks basep hmsg hmsg' hpos hle
  refine ⟨htracks, ?_, rfl, rfl, ?_, .refl _, rfl⟩
  · intro i
    exact htracks.messageAddr_eq rfl (Nat.mod_eq_of_lt hmsg') i
  · constructor <;> simp only [Messages.init, Parties.initial, messageqInit,
      List.countP_nil, Nat.reducePow] <;> omega

theorem claiming (h : RaceInv addr es ⟨mq, cs, us, hs⟩ m) {e : Event}
    {mq' : Messageq} (hc : e.claimed? = none) (hr : e.released? = none)
    (htracks : mq'.Tracks m) (haddr : ∀ i, mq'.messageAddr i = addr i)
    (hfree : FreeCount m.queueLen m.claimed m.released mq'.numFree
      (cs'.countP ClaimPc.isGranted) (cs'.countP ClaimPc.isRefused)) :
    RaceInv addr (es ++ [e]) ⟨mq', cs', us, hs⟩ m :=
  ⟨htracks, haddr, by simpa [hc] using h.claimed, by simpa [hr] using h.released,
    hfree, h.unsent, h.inHand⟩

theorem claim (h : RaceInv addr es
      ⟨mq, cs ++ .looping mq.sendp :: cs', us, hs⟩ m) :
    ∃ m', RaceInv addr (es ++ [.claim (mq.slotAddr mq.sendp)])
      ⟨{ mq with sendp := mq.newSendp mq.sendp }, cs ++ cs',
        us ++ [mq.slotAddr mq.sendp], hs⟩ m' := by
  obtain ⟨htracks, haddr, hclaimed, hreleased, hcount, hunsent, hhand⟩ := h
  have hcount : FreeCount m.queueLen m.claimed m.released mq.numFree
      ((cs ++ cs').countP ClaimPc.isGranted + 1)
      ((cs ++ cs').countP ClaimPc.isRefused) := by
    simpa [ClaimPc.isGranted, ClaimPc.isRefused, List.countP_append,
      List.countP_cons, Nat.add_assoc] using hcount
  have hfree : m.claimed < m.released + m.queueLen := by
    have := hcount.granted_le
    omega
  have hmsg : mq.slotAddr mq.sendp = addr m.claimed := by
    rw [← haddr, messageAddr, htracks.sendp, htracks.queueLen]
  refine ⟨m.claim hfree, htracks.claim hfree, haddr, ?_, ?_,
    hcount.claim, ?_, hhand⟩
  · simp only [claimedMsgs_snoc, Event.claimed?, Option.toList_some, hclaimed,
      hmsg, Messages.claim, List.range_succ, List.map_append, List.map_cons,
      List.map_nil]
  · simpa [Event.released?] using hreleased
  · rw [unsentNumbers_claim, List.map_append, hmsg]
    exact hunsent.append_right _

theorem send {msg : Nat}
    (h : RaceInv addr es ⟨mq, cs, us ++ msg :: us', hs⟩ m) :
    ∃ m', RaceInv addr (es ++ [.send msg])
      ⟨mq.markFull msg, cs, us ++ us', hs⟩ m' := by
  obtain ⟨htracks, haddr, hclaimed, hreleased, hcount, hunsent, hhand⟩ := h
  have hmem : msg ∈ (unsentNumbers m).map addr :=
    hunsent.subset (by simp)
  obtain ⟨i, hi, rfl⟩ := List.mem_map.mp hmem
  obtain ⟨hlt, hns⟩ := mem_unsentNumbers.mp hi
  have htracks' := htracks.send hlt hns
  rw [haddr] at htracks'
  refine ⟨m.send i hlt, htracks', haddr, ?_, ?_, hcount, ?_, hhand⟩
  · simpa [Event.claimed?] using hclaimed
  · simpa [Event.released?] using hreleased
  · have hperm := (List.perm_middle.symm.trans hunsent).trans
      ((unsentNumbers_send hlt hns).map addr)
    rw [List.map_cons] at hperm
    exact hperm.cons_inv

theorem receive (h : RaceInv addr es ⟨mq, cs, us, hs⟩ m)
    (hflag : ¬ mq.fullFlags &&& flag 32 mq.receivep = 0) :
    ∃ m', RaceInv addr (es ++ [.receive (mq.slotAddr mq.receivep)])
      ⟨{ mq.clearFull with receivep := mq.nextReceivep }, cs, us,
        hs ++ [mq.slotAddr mq.receivep]⟩ m' := by
  obtain ⟨htracks, haddr, hclaimed, hreleased, hcount, hunsent, hhand⟩ := h
  have hsent : m.sent m.received = true := by
    rw [htracks.and_flag_receivep] at hflag
    simpa using hflag
  have hmsg : mq.slotAddr mq.receivep = addr m.received := by
    rw [← haddr, messageAddr, htracks.receivep, htracks.queueLen]
  have hle := m.released_le
  refine ⟨m.receive hsent, htracks.receive_some hsent, haddr, ?_, ?_, hcount,
    hunsent, ?_⟩
  · simpa [Event.claimed?] using hclaimed
  · simpa [Event.released?] using hreleased
  · simp only at hhand
    simp only [hhand, hmsg, Messages.receive]
    rw [show m.received + 1 - m.released = m.received - m.released + 1 by omega,
      List.range'_concat, List.map_append]
    simp only [List.map_cons, List.map_nil, Nat.one_mul]
    rw [Nat.add_sub_cancel' hle]

theorem release {msg : Nat} (h : RaceInv addr es ⟨mq, cs, us, msg :: hs⟩ m) :
    ∃ m', RaceInv addr (es ++ [.release msg]) ⟨mq.incFree, cs, us, hs⟩ m' := by
  obtain ⟨htracks, haddr, hclaimed, hreleased, hcount, hunsent, hhand⟩ := h
  have hlt : m.released < m.received := by
    rcases Nat.lt_or_ge m.released m.received with hlt | hge
    · exact hlt
    · rw [Nat.sub_eq_zero_of_le hge] at hhand
      cases hhand
  rw [show m.received - m.released = m.received - (m.released + 1) + 1 by omega,
    List.range'_succ, List.map_cons, List.cons.injEq] at hhand
  refine ⟨m.release hlt, htracks.release hlt, haddr, ?_, ?_,
    hcount.release, hunsent, hhand.2⟩
  · simpa [Event.claimed?, Messages.release] using hclaimed
  · simp only [releasedMsgs_snoc, Event.released?, Option.toList_some,
      hreleased, hhand.1, Messages.release, List.range_succ, List.map_append,
      List.map_cons, List.map_nil]

theorem step {s s' : Parties} {e : Event} (h : RaceInv addr es s m)
    (hstep : InRangeStep s e s') : ∃ m', RaceInv addr (es ++ [e]) s' m' := by
  obtain ⟨hstep, hrange⟩ := hstep
  have htracks := h.tracks
  have hfree := h.free
  have hq := htracks.queueLen
  cases hstep with
  | refuse hzero =>
      refine ⟨m, h.claiming rfl rfl ?_ h.addresses ?_⟩
      · exact htracks.setNumFree _
      · simpa [ClaimPc.isGranted, ClaimPc.isRefused, List.countP_append]
          using hfree.refuse hzero
  | grant hpos =>
      refine ⟨m, h.claiming rfl rfl ?_ h.addresses ?_⟩
      · exact htracks.setNumFree _
      · simpa [ClaimPc.isGranted, ClaimPc.isRefused, List.countP_append]
          using hfree.grant htracks.le (hq ▸ hrange rfl) hpos
  | undo =>
      refine ⟨m, h.claiming rfl rfl ?_ h.addresses ?_⟩
      · exact htracks.setNumFree _
      · refine FreeCount.undo ?_
        simpa [ClaimPc.isGranted, ClaimPc.isRefused, List.countP_append,
          List.countP_cons, Nat.add_assoc] using hfree
  | loadSendp =>
      refine ⟨m, h.claiming rfl rfl htracks h.addresses ?_⟩
      simpa [ClaimPc.isGranted, ClaimPc.isRefused, List.countP_append,
        List.countP_cons] using hfree
  | casFail =>
      refine ⟨m, h.claiming rfl rfl htracks h.addresses ?_⟩
      simpa [ClaimPc.isGranted, ClaimPc.isRefused, List.countP_append,
        List.countP_cons] using hfree
  | claim => exact h.claim
  | send => exact h.send
  | receiveNone hflag =>
      have hunsent := htracks.and_flag_receivep.mp hflag
      exact ⟨m, h.claiming rfl rfl (htracks.receive_none hunsent) h.addresses
        hfree⟩
  | receive hflag => exact h.receive hflag
  | release => exact h.release

theorem of_run (basep : Nat) {baseLen msgLen : Nat}
    (hmsg : 0 < msgLen) (hmsg' : msgLen < 2 ^ 16)
    (hpos : 0 < baseLen / msgLen) (hle : baseLen / msgLen ≤ 32)
    {s : Parties}
    (hrun : Run InRangeStep (.initial basep baseLen msgLen) es s) :
    ∃ m, RaceInv (fun i => basep + i % (baseLen / msgLen) * msgLen) es s m :=
  hrun.traceInvariant (I := fun es s => ∃ m, RaceInv _ es s m)
    ⟨_, .initial basep hmsg hmsg' hpos hle⟩
    fun _ _ _ _ h hstep => h.elim fun _ hm => hm.step hstep

theorem fresh (h : RaceInv addr es
      ⟨mq, cs ++ .looping mq.sendp :: cs', us, hs⟩ m) :
    outstandingAt es (mq.slotAddr mq.sendp) = 0 := by
  have htracks := h.tracks
  have hfree : m.claimed < m.released + m.queueLen := by
    have := h.free.granted_le
    simp only [List.countP_append, List.countP_cons, ClaimPc.isGranted,
      if_true] at this
    omega
  have hmsg : mq.slotAddr mq.sendp = addr m.claimed := by
    rw [← h.addresses, messageAddr, htracks.sendp, htracks.queueLen]
  have hrl := m.released_le
  have hrc := m.received_le
  rw [outstandingAt, h.claimed, h.released, hmsg,
    show m.claimed = m.released + (m.claimed - m.released) by omega,
    List.range_add, List.map_append, List.count_append,
    Nat.add_sub_cancel_left]
  refine List.count_eq_zero.mpr ?_
  intro hmem
  simp only [List.map_map, List.mem_map, List.mem_range,
    Function.comp_apply] at hmem
  obtain ⟨k, hk, heq⟩ := hmem
  rw [← h.addresses, ← h.addresses] at heq
  have hslot := htracks.messageAddr_inj.mp heq
  exact mod_ne_of_window (by omega) (by omega) hslot

end RaceInv

/-- For every queue of 1 to 32 slots and every interleaving of any number of
producers with the receiver, slots have one owner at a time as long as no
claim starts while `num_free` is out of range. -/
theorem ownershipSafe_of_inRange (basep : Nat) {baseLen msgLen : Nat}
    (hmsg : 1 ≤ msgLen) (hmsg' : msgLen ≤ 65535)
    (hpos : 1 ≤ baseLen / msgLen) (hle : baseLen / msgLen ≤ 32)
    {es : List Event} {s : Parties}
    (hrun : Run InRangeStep (.initial basep baseLen msgLen) es s) :
    OwnershipSafe es s := by
  obtain ⟨m, h⟩ := RaceInv.of_run basep hmsg
    (by simp only [Nat.reducePow]; omega) hpos hle hrun
  constructor
  · intro msg s' hstep
    cases hstep
    exact h.fresh
  · have hcl := m.claimed_le
    rw [outstandingSlots, h.claimed, h.released, h.tracks.queueLen]
    simp only [List.length_map, List.length_range]
    omega

/-- Two producers race for the only slot and one of them is refused. -/
theorem ownershipSafe_of_inRange_one_slot : ∃ s,
    Run InRangeStep (.initial 64 4 4)
      [.fetchSub, .fetchSub, .loadSendp, .undo, .claim 64] s ∧
    OwnershipSafe [.fetchSub, .fetchSub, .loadSendp, .undo, .claim 64] s := by
  have hload : Step ⟨⟨64, 4, 1, 255, 0, 0, 0⟩, [.granted, .refused], [], []⟩
      .loadSendp ⟨⟨64, 4, 1, 255, 0, 0, 0⟩, [.looping 0, .refused], [], []⟩ :=
    @Step.loadSendp _ [] [.refused] _ _
  have hundo : Step ⟨⟨64, 4, 1, 255, 0, 0, 0⟩, [.looping 0, .refused], [], []⟩
      .undo ⟨⟨64, 4, 1, 0, 0, 0, 0⟩, [.looping 0], [], []⟩ :=
    @Step.undo _ [.looping 0] [] _ _
  have hclaim : Step ⟨⟨64, 4, 1, 0, 0, 0, 0⟩, [.looping 0], [], []⟩
      (.claim 64) ⟨⟨64, 4, 1, 0, 0, 0, 0⟩, [], [64], []⟩ :=
    @Step.claim _ [] [] _ _
  have hrun : Run InRangeStep (.initial 64 4 4)
      [.fetchSub, .fetchSub, .loadSendp, .undo, .claim 64] _ :=
    .cons ⟨.grant (by decide), by decide⟩
      (.cons ⟨.refuse (by decide), by decide⟩
        (.cons ⟨hload, nofun⟩ (.cons ⟨hundo, nofun⟩ (.single ⟨hclaim, nofun⟩))))
  exact ⟨_, hrun, ownershipSafe_of_inRange 64 (by decide) (by decide)
    (by decide) (by decide) hrun⟩

end Librfn.Messageq
