import Librfn.Logic.Cyclic
import Librfn.Messageq
import Librfn.Messageq.Messages

/-!
# The message queue keeps numbered messages

Message `i` lives in slot `i % queueLen`.  The two indices of the queue are
the numbers of the next message to claim and to receive, and the bit field
has a bit for every message sent and not yet received.
-/

namespace Librfn

open Librfn.Logic

namespace Messageq

def messageAddr (mq : Messageq) (i : Nat) : Nat :=
  mq.slotAddr (i % mq.queueLen)

/-- Everything but `num_free`, which claims in progress also change. -/
structure Tracks (mq : Messageq) (m : Messages) : Prop where
  queueLen : mq.queueLen = m.queueLen
  pos : 0 < m.queueLen
  le : m.queueLen ≤ 32
  msgLen_pos : 0 < mq.msgLen
  msgLen_lt : mq.msgLen < 2 ^ 16
  sendp : mq.sendp = m.claimed % m.queueLen
  receivep : mq.receivep = m.received % m.queueLen
  flags : ∀ slot, mq.fullFlags.getLsbD slot = true ↔
    ∃ i, m.received ≤ i ∧ m.sent i = true ∧ i % m.queueLen = slot

theorem Tracks.setNumFree {mq : Messageq} {m : Messages} (h : mq.Tracks m) (n : Nat) :
    ({ mq with numFree := n } : Messageq).Tracks m where
  queueLen := h.queueLen
  pos := h.pos
  le := h.le
  msgLen_pos := h.msgLen_pos
  msgLen_lt := h.msgLen_lt
  sendp := h.sendp
  receivep := h.receivep
  flags := h.flags

theorem messageq_init_tracks (basep : Nat) {baseLen msgLen : Nat}
    (hmsg : 0 < msgLen) (hmsg' : msgLen < 2 ^ 16)
    (hpos : 0 < baseLen / msgLen) (hle : baseLen / msgLen ≤ 32) :
    Tracks (messageqInit basep baseLen msgLen) (.init (baseLen / msgLen)) where
  queueLen := Nat.mod_eq_of_lt (by simp only [Nat.reducePow]; omega)
  pos := hpos
  le := hle
  msgLen_pos := by
    simp only [messageqInit]
    rwa [Nat.mod_eq_of_lt hmsg']
  msgLen_lt := Nat.mod_lt _ (by decide)
  sendp := (Nat.zero_mod _).symm
  receivep := (Nat.zero_mod _).symm
  flags := by
    intro slot
    simp [messageqInit, Messages.init]

section Steps

variable {mq : Messageq} {m : Messages}

theorem Tracks.newSendp (h : mq.Tracks m) :
    mq.newSendp mq.sendp = (m.claimed + 1) % m.queueLen := by
  have hlt := Nat.mod_lt m.claimed h.pos
  have hle := h.le
  rw [Messageq.newSendp, h.queueLen, h.sendp, mod_succ_eq_ite h.pos]
  split
  · rw [if_pos (by omega)]
  · rw [if_neg (by omega), Nat.mod_eq_of_lt (by simp only [Nat.reducePow]; omega)]

theorem Tracks.nextReceivep (h : mq.Tracks m) :
    mq.nextReceivep = (m.received + 1) % m.queueLen := by
  have hlt := Nat.mod_lt m.received h.pos
  have hle := h.le
  have hpos := h.pos
  have hunsigned : toUnsigned ((m.queueLen : Int) - 1) = m.queueLen - 1 := by
    unfold toUnsigned
    omega
  rw [Messageq.nextReceivep, h.queueLen, h.receivep, hunsigned,
    mod_succ_eq_ite h.pos]
  split
  · rw [if_pos (by omega)]
  · rw [if_neg (by omega), Nat.mod_eq_of_lt (by simp only [Nat.reducePow]; omega)]

theorem Tracks.claim (h : mq.Tracks m)
    (hfree : m.claimed < m.released + m.queueLen) :
    Tracks { mq with sendp := mq.newSendp mq.sendp } (m.claim hfree) :=
  ⟨h.queueLen, h.pos, h.le, h.msgLen_pos, h.msgLen_lt, h.newSendp, h.receivep,
    h.flags⟩

theorem slotAddr_offset (h : mq.Tracks m) {slot : Nat}
    (hslot : slot < m.queueLen) :
    toUnsigned ((mq.slotAddr slot : Int) - mq.basep) / mq.msgLen = slot := by
  have hbound : slot * mq.msgLen ≤ 32 * 2 ^ 16 :=
    Nat.mul_le_mul (by have := h.le; omega) (Nat.le_of_lt h.msgLen_lt)
  have hoffset : toUnsigned ((mq.slotAddr slot : Int) - mq.basep) =
      slot * mq.msgLen := by
    unfold toUnsigned Messageq.slotAddr
    generalize slot * mq.msgLen = offset at hbound
    simp only [Nat.reducePow] at hbound
    omega
  rw [hoffset, Nat.mul_div_cancel _ h.msgLen_pos]

theorem Tracks.send (h : mq.Tracks m) {i : Nat} (hi : i < m.claimed)
    (hunsent : m.sent i = false) :
    Tracks (mq.markFull (mq.messageAddr i)) (m.send i hi) := by
  have hlt := Nat.mod_lt i h.pos
  have hle := h.le
  refine ⟨h.queueLen, h.pos, h.le, h.msgLen_pos, h.msgLen_lt, h.sendp,
    h.receivep, ?_⟩
  intro slot
  unfold markFull messageAddr
  rw [h.queueLen]
  dsimp only
  rw [slotAddr_offset h hlt, getLsbD_or_flag _ (by omega), Bool.or_eq_true,
    h.flags slot, decide_eq_true_iff]
  constructor
  · rintro (⟨j, hj, hsent, hslot⟩ | hslot)
    · exact ⟨j, hj, by simp [Messages.send, hsent], hslot⟩
    · exact ⟨i, m.le_of_unsent hunsent, by simp [Messages.send], hslot⟩
  · rintro ⟨j, hj, hsent, hslot⟩
    simp only [Messages.send, Bool.or_eq_true, decide_eq_true_iff] at hsent
    rcases hsent with rfl | hsent
    · exact Or.inr hslot
    · exact Or.inl ⟨j, hj, hsent, hslot⟩

/-- The flag at `receivep` says whether the next message has been sent: no
other sent message can be in that slot. -/
theorem Tracks.flag_receivep (h : mq.Tracks m) :
    mq.fullFlags.getLsbD mq.receivep = m.sent m.received := by
  rw [Bool.eq_iff_iff, h.flags, h.receivep]
  constructor
  · rintro ⟨i, hi, hsent, hslot⟩
    have := mod_inj_of_window hi (m.lt_window hsent) hslot.symm
    exact this ▸ hsent
  · intro hsent
    exact ⟨m.received, Nat.le_refl _, hsent, rfl⟩

theorem Tracks.and_flag_receivep (h : mq.Tracks m) :
    mq.fullFlags &&& flag 32 mq.receivep = 0 ↔ m.sent m.received = false := by
  have hlt := Nat.mod_lt m.received h.pos
  have hle := h.le
  rw [and_flag_eq_zero_iff _ (by rw [h.receivep]; omega), h.flag_receivep]

theorem Tracks.empty (h : mq.Tracks m) :
    messageqEmpty mq = m.next?.isNone := by
  unfold messageqEmpty Messages.next?
  have hflag := h.and_flag_receivep
  cases hsent : m.sent m.received <;> simp [hsent] at hflag ⊢ <;> exact hflag

theorem Tracks.receive_none (h : mq.Tracks m)
    (hunsent : m.sent m.received = false) : Tracks mq.clearFull m := by
  have hsame : mq.clearFull.fullFlags = mq.fullFlags := by
    apply BitVec.eq_of_getLsbD_eq
    intro j _
    have hflag := h.flag_receivep
    rw [hunsent] at hflag
    change (mq.fullFlags &&& ~~~flag 32 mq.receivep).getLsbD j = _
    rw [getLsbD_clear_flag]
    by_cases hj : mq.receivep = j
    · subst hj
      simp [hflag]
    · simp [hj]
  exact ⟨h.queueLen, h.pos, h.le, h.msgLen_pos, h.msgLen_lt, h.sendp,
    h.receivep, hsame ▸ h.flags⟩

theorem Tracks.receive_some (h : mq.Tracks m)
    (hsent : m.sent m.received = true) :
    Tracks { mq.clearFull with receivep := mq.nextReceivep }
      (m.receive hsent) := by
  refine ⟨h.queueLen, h.pos, h.le, h.msgLen_pos, h.msgLen_lt, h.sendp,
    h.nextReceivep, ?_⟩
  intro slot
  change (mq.fullFlags &&& ~~~flag 32 mq.receivep).getLsbD slot = true ↔ _
  rw [getLsbD_clear_flag, Bool.and_eq_true, h.flags, decide_eq_true_iff,
    h.receivep]
  constructor
  · rintro ⟨⟨i, hi, hs, hslot⟩, hne⟩
    refine ⟨i, ?_, hs, hslot⟩
    rcases Nat.eq_or_lt_of_le hi with rfl | hlt
    · exact absurd hslot hne
    · exact hlt
  · rintro ⟨i, hi, hs, hslot⟩
    refine ⟨⟨i, Nat.le_of_succ_le hi, hs, hslot⟩, ?_⟩
    rw [← hslot]
    exact mod_ne_of_window hi (m.lt_window hs)

theorem Tracks.release (h : mq.Tracks m) (hlt : m.released < m.received) :
    Tracks mq.incFree (m.release hlt) :=
  ⟨h.queueLen, h.pos, h.le, h.msgLen_pos, h.msgLen_lt, h.sendp, h.receivep,
    h.flags⟩

theorem Tracks.messageAddr_eq (h : mq.Tracks m) {basep msgLen : Nat}
    (hbase : mq.basep = basep) (hlen : mq.msgLen = msgLen) (i : Nat) :
    mq.messageAddr i = basep + i % m.queueLen * msgLen := by
  unfold messageAddr Messageq.slotAddr
  rw [h.queueLen, hbase, hlen]

theorem Tracks.messageAddr_inj (h : mq.Tracks m) {i j : Nat} :
    mq.messageAddr i = mq.messageAddr j ↔ i % m.queueLen = j % m.queueLen := by
  unfold messageAddr Messageq.slotAddr
  rw [h.queueLen, Nat.add_left_cancel_iff,
    Nat.mul_right_cancel_iff h.msgLen_pos]

end Steps

/-! ## Whole calls -/

/-- Between calls `num_free` counts the slots that are not outstanding. -/
structure Represents (mq : Messageq) (m : Messages) : Prop extends
    Tracks mq m where
  numFree : mq.numFree = m.queueLen - m.outstanding

theorem messageqInit_represents (basep : Nat) {baseLen msgLen : Nat}
    (hmsg : 0 < msgLen) (hmsg' : msgLen < 2 ^ 16)
    (hpos : 0 < baseLen / msgLen) (hle : baseLen / msgLen ≤ 32) :
    Represents (messageqInit basep baseLen msgLen)
      (.init (baseLen / msgLen)) :=
  ⟨messageq_init_tracks basep hmsg hmsg' hpos hle,
    Nat.mod_eq_of_lt (by simp only [Nat.reducePow]; omega)⟩

def SameBuffer (mq mq' : Messageq) : Prop :=
  mq'.basep = mq.basep ∧ mq'.msgLen = mq.msgLen

section Calls

variable {mq : Messageq} {m : Messages}

theorem messageqClaim_none (h : mq.Represents m)
    (hfull : ¬ m.claimed < m.released + m.queueLen) :
    Prog.wp messageqClaim (fun r mq' => r = none ∧ mq' = mq) mq := by
  have hzero : mq.numFree = 0 := by
    have := h.numFree
    unfold Messages.outstanding at this
    omega
  simp only [messageqClaim, Prog.wp_bind, Prog.wp_get, Prog.wp_modify,
    Prog.wp_ite, hzero, Nat.le_refl, if_true, Prog.wp_pure, true_and]
  cases mq
  simp only [decFree, incFree, mk.injEq, true_and] at hzero ⊢
  subst hzero
  simp

theorem messageqClaim_some (h : mq.Represents m)
    (hfree : m.claimed < m.released + m.queueLen) :
    Prog.wp messageqClaim (fun r mq' => r = some (mq.messageAddr m.claimed) ∧
      mq'.Represents (m.claim hfree) ∧ SameBuffer mq mq') mq := by
  have hnum := h.numFree
  have hle := h.le
  have hrl := m.released_le
  have hrc := m.received_le
  unfold Messages.outstanding at hnum
  have hpos : ¬ mq.numFree ≤ 0 := by omega
  simp only [messageqClaim, Prog.wp_bind, Prog.wp_get, Prog.wp_modify,
    Prog.wp_ite, hpos, if_false, Prog.wp_pure]
  refine ⟨?_, ⟨?_, ?_⟩, rfl, rfl⟩
  · have hsendp : mq.decFree.sendp = m.claimed % mq.queueLen := by
      rw [h.queueLen]
      exact h.sendp
    rw [hsendp]
    rfl
  · exact (h.toTracks.claim hfree).setNumFree _
  · simp only [decFree, Messages.outstanding, Messages.claim, Nat.reducePow]
    omega

theorem messageqSend_spec (h : mq.Represents m) {i : Nat}
    (hi : i < m.claimed) (hunsent : m.sent i = false) :
    Prog.wp (messageqSend (mq.messageAddr i)) (fun _ mq' =>
      mq'.Represents (m.send i hi) ∧ SameBuffer mq mq') mq := by
  simp only [messageqSend, Prog.wp_modify]
  exact ⟨⟨h.toTracks.send hi hunsent, h.numFree⟩, rfl, rfl⟩

theorem messageqReceive_none (h : mq.Represents m)
    (hunsent : m.sent m.received = false) :
    Prog.wp messageqReceive (fun r mq' => r = none ∧
      mq'.Represents m ∧ SameBuffer mq mq') mq := by
  have hflag := h.and_flag_receivep.mpr hunsent
  simp only [messageqReceive, Prog.wp_bind, Prog.wp_get, Prog.wp_modify,
    Prog.wp_ite, hflag, if_true, Prog.wp_pure]
  exact ⟨trivial, ⟨h.toTracks.receive_none hunsent, h.numFree⟩, rfl, rfl⟩

theorem messageqReceive_some (h : mq.Represents m)
    (hsent : m.sent m.received = true) :
    Prog.wp messageqReceive (fun r mq' =>
      r = some (mq.messageAddr m.received) ∧
      mq'.Represents (m.receive hsent) ∧ SameBuffer mq mq') mq := by
  have hflag : mq.fullFlags &&& flag 32 mq.receivep ≠ 0 := by
    intro hzero
    rw [h.and_flag_receivep.mp hzero] at hsent
    cases hsent
  simp only [messageqReceive, Prog.wp_bind, Prog.wp_get, Prog.wp_modify,
    Prog.wp_ite, hflag, if_false, Prog.wp_pure]
  refine ⟨?_, ⟨h.toTracks.receive_some hsent, h.numFree⟩, rfl, rfl⟩
  rw [h.receivep, ← h.queueLen]
  rfl

theorem messageqRelease_spec (h : mq.Represents m) (msg : Nat)
    (hlt : m.released < m.received) :
    Prog.wp (messageqRelease msg) (fun _ mq' =>
      mq'.Represents (m.release hlt) ∧ SameBuffer mq mq') mq := by
  have hnum := h.numFree
  have hle := h.le
  have hrc := m.received_le
  have hcl := m.claimed_le
  unfold Messages.outstanding at hnum
  simp only [messageqRelease, Prog.wp_modify]
  refine ⟨⟨h.toTracks.release hlt, ?_⟩, rfl, rfl⟩
  simp only [incFree, Messages.outstanding, Messages.release, Nat.reducePow]
  omega

end Calls

theorem SameBuffer.messageAddr {mq mq' : Messageq} {m m' : Messages}
    (hb : SameBuffer mq mq') (h : mq.Tracks m) (h' : mq'.Tracks m')
    (hlen : m'.queueLen = m.queueLen) (i : Nat) :
    mq'.messageAddr i = mq.messageAddr i := by
  rw [h.messageAddr_eq rfl rfl, h'.messageAddr_eq hb.1 hb.2, hlen]

end Messageq

/-! ## Sequences of calls

A client remembers the addresses it was given: those of its claims, to send
them in any order, and those it has received and not yet released.
-/

structure MessageqClient where
  mq : Messageq
  claimed : List Nat
  received : List Nat

namespace MessageqClient

inductive Reply where
  | pointer (msg : Option Nat)
  | done
  | truth (value : Bool)
  deriving DecidableEq, Repr

def init (basep baseLen msgLen : Nat) : MessageqClient :=
  { mq := messageqInit basep baseLen msgLen, claimed := [], received := [] }

def call {α : Type} (m : Prog Messageq α) : Prog MessageqClient α :=
  Prog.zoom MessageqClient.mq (fun mq c => { c with mq }) m

def exec : Messages.Op → Prog MessageqClient Reply
  | .claim => do
      let msg ← call messageqClaim
      modify fun c => { c with claimed := c.claimed ++ msg.toList }
      return .pointer msg
  | .send i => do
      match (← get).claimed[i]? with
      | none => throw .badPointer
      | some msg =>
          call (messageqSend msg)
          return .done
  | .receive => do
      let msg ← call messageqReceive
      modify fun c => { c with received := c.received ++ msg.toList }
      return .pointer msg
  | .release => do
      match (← get).received with
      | [] => throw .badPointer
      | msg :: rest =>
          call (messageqRelease msg)
          modify fun c => { c with received := rest }
          return .done
  | .empty => do
      return .truth (messageqEmpty (← get).mq)

def execAll : List Messages.Op → Prog MessageqClient (List Reply)
  | [] => return []
  | op :: ops => do
      let reply ← exec op
      let replies ← execAll ops
      return reply :: replies

/-- The reply of the concrete queue that stands for an abstract result. -/
def replyOf (addr : Nat → Nat) : Messages.Result → Reply
  | .message number => .pointer (number.map addr)
  | .done => .done
  | .truth value => .truth value

/-- The client holds the addresses of the messages it may send or release. -/
structure Represents (addr : Nat → Nat) (c : MessageqClient) (m : Messages) :
    Prop where
  mq : c.mq.Represents m
  addresses : ∀ i, c.mq.messageAddr i = addr i
  claimed : c.claimed = (List.range m.claimed).map addr
  received : c.received =
    (List.range' m.released (m.received - m.released)).map addr

theorem Represents.addresses_of {addr : Nat → Nat} {c : MessageqClient}
    {m m' : Messages} {mq' : Messageq} (h : c.Represents addr m) (hmq : mq'.Represents m')
    (hbuf : c.mq.SameBuffer mq') (hlen : m'.queueLen = m.queueLen) (i : Nat) :
    mq'.messageAddr i = addr i :=
  (hbuf.messageAddr h.mq.toTracks hmq.toTracks hlen i).trans (h.addresses i)

theorem exec_claim {addr : Nat → Nat} {c : MessageqClient} {m m' : Messages}
    {r : Messages.Result} (h : c.Represents addr m)
    (hstep : m.step .claim = some (r, m')) :
    Prog.wp (exec .claim) (fun reply c' => reply = replyOf addr r ∧
      c'.Represents addr m') c := by
  simp only [exec, call, Prog.wp_bind, Prog.wp_zoom, Prog.wp_modify,
    Prog.wp_pure]
  unfold Messages.step at hstep
  dsimp only at hstep
  split at hstep
  · rename_i hfree
    cases hstep
    refine Prog.wp_mono (Messageq.messageqClaim_some h.mq hfree) ?_
    rintro _ mq' ⟨rfl, hmq, hbuf⟩
    refine ⟨by simp [replyOf, h.addresses], hmq, h.addresses_of hmq hbuf rfl, ?_, h.received⟩
    simp only [Option.toList_some, h.claimed, h.addresses, Messages.claim,
      List.range_succ, List.map_append, List.map_cons, List.map_nil]
  · rename_i hfull
    cases hstep
    refine Prog.wp_mono (Messageq.messageqClaim_none h.mq hfull) ?_
    rintro _ _ ⟨rfl, rfl⟩
    exact ⟨rfl, h.mq, h.addresses, by simpa using h.claimed, h.received⟩

theorem exec_send {addr : Nat → Nat} {c : MessageqClient} {m m' : Messages}
    {i : Nat} {r : Messages.Result} (h : c.Represents addr m)
    (hstep : m.step (.send i) = some (r, m')) :
    Prog.wp (exec (.send i)) (fun reply c' => reply = replyOf addr r ∧
      c'.Represents addr m') c := by
  unfold Messages.step at hstep
  dsimp only at hstep
  split at hstep
  · rename_i hsend
    cases hstep
    have hget : c.claimed[i]? = some (addr i) := by
      rw [h.claimed]
      simp [hsend.1]
    simp only [exec, call, Prog.wp_bind, Prog.wp_get, hget, Prog.wp_zoom,
      Prog.wp_pure, ← h.addresses i]
    refine Prog.wp_mono (Messageq.messageqSend_spec h.mq hsend.1 hsend.2) ?_
    rintro _ mq' ⟨hmq, hbuf⟩
    exact ⟨rfl, hmq, h.addresses_of hmq hbuf rfl, h.claimed, h.received⟩
  · cases hstep

theorem exec_receive {addr : Nat → Nat} {c : MessageqClient} {m m' : Messages}
    {r : Messages.Result} (h : c.Represents addr m)
    (hstep : m.step .receive = some (r, m')) :
    Prog.wp (exec .receive) (fun reply c' => reply = replyOf addr r ∧
      c'.Represents addr m') c := by
  simp only [exec, call, Prog.wp_bind, Prog.wp_zoom, Prog.wp_modify,
    Prog.wp_pure]
  unfold Messages.step at hstep
  dsimp only at hstep
  split at hstep
  · rename_i hsent
    cases hstep
    refine Prog.wp_mono (Messageq.messageqReceive_some h.mq hsent) ?_
    rintro _ mq' ⟨rfl, hmq, hbuf⟩
    have hle := m.released_le
    refine ⟨by simp [replyOf, Messages.next?, hsent, h.addresses], hmq,
      h.addresses_of hmq hbuf rfl, h.claimed, ?_⟩
    simp only [Option.toList_some, h.received, h.addresses, Messages.receive]
    rw [show m.received + 1 - m.released = m.received - m.released + 1 by omega,
      List.range'_concat, List.map_append]
    simp only [List.map_cons, List.map_nil, Nat.one_mul]
    rw [Nat.add_sub_cancel' hle]
  · rename_i hunsent
    cases hstep
    rw [Bool.not_eq_true] at hunsent
    refine Prog.wp_mono (Messageq.messageqReceive_none h.mq hunsent) ?_
    rintro _ mq' ⟨rfl, hmq, hbuf⟩
    exact ⟨by simp [replyOf, Messages.next?, hunsent], hmq,
      h.addresses_of hmq hbuf rfl, h.claimed, by simpa using h.received⟩

theorem exec_release {addr : Nat → Nat} {c : MessageqClient} {m m' : Messages}
    {r : Messages.Result} (h : c.Represents addr m)
    (hstep : m.step .release = some (r, m')) :
    Prog.wp (exec .release) (fun reply c' => reply = replyOf addr r ∧
      c'.Represents addr m') c := by
  unfold Messages.step at hstep
  dsimp only at hstep
  split at hstep
  · rename_i hlt
    cases hstep
    have hrange : m.received - m.released = m.received - (m.released + 1) + 1 := by
      omega
    have hget : c.received = addr m.released ::
        (List.range' (m.released + 1) (m.received - (m.released + 1))).map
          addr := by
      rw [h.received, hrange, List.range'_succ, List.map_cons]
    simp only [exec, call, Prog.wp_bind, Prog.wp_get, hget, Prog.wp_zoom,
      Prog.wp_modify, Prog.wp_pure]
    refine Prog.wp_mono (Messageq.messageqRelease_spec h.mq _ hlt) ?_
    rintro _ mq' ⟨hmq, hbuf⟩
    exact ⟨rfl, hmq, h.addresses_of hmq hbuf rfl, h.claimed, rfl⟩
  · cases hstep

theorem exec_empty {addr : Nat → Nat} {c : MessageqClient} {m m' : Messages}
    {r : Messages.Result} (h : c.Represents addr m)
    (hstep : m.step .empty = some (r, m')) :
    Prog.wp (exec .empty) (fun reply c' => reply = replyOf addr r ∧
      c'.Represents addr m') c := by
  cases hstep
  simp only [exec, Prog.wp_bind, Prog.wp_get, Prog.wp_pure]
  exact ⟨congrArg Reply.truth h.mq.toTracks.empty, h⟩

theorem exec_refines {addr : Nat → Nat} {c : MessageqClient} {m m' : Messages}
    {op : Messages.Op} {r : Messages.Result} (h : c.Represents addr m)
    (hstep : m.step op = some (r, m')) :
    Prog.wp (exec op) (fun reply c' => reply = replyOf addr r ∧
      c'.Represents addr m') c := by
  cases op with
  | claim => exact exec_claim h hstep
  | send i => exact exec_send h hstep
  | receive => exact exec_receive h hstep
  | release => exact exec_release h hstep
  | empty => exact exec_empty h hstep

theorem execAll_refines {addr : Nat → Nat} (ops : List Messages.Op)
    {c : MessageqClient} {m m' : Messages} {rs : List Messages.Result}
    (h : c.Represents addr m) (hrun : Messages.run ops m = some (rs, m')) :
    Prog.wp (execAll ops) (fun replies c' =>
      replies = rs.map (replyOf addr) ∧ c'.Represents addr m') c := by
  induction ops generalizing c m rs with
  | nil =>
      cases hrun
      exact ⟨rfl, h⟩
  | cons op ops ih =>
      simp only [Messages.run, Option.bind_eq_bind, Option.bind_eq_some_iff,
        Option.pure_def, Option.some.injEq, Prod.exists] at hrun
      obtain ⟨r, m₁, hstep, rs₁, m₂, htail, hrs⟩ := hrun
      cases hrs
      simp only [execAll, Prog.wp_bind, Prog.wp_pure]
      refine Prog.wp_mono (exec_refines h hstep) ?_
      rintro _ c₁ ⟨rfl, h₁⟩
      refine Prog.wp_mono (ih h₁ htail) ?_
      rintro _ c₂ ⟨rfl, h₂⟩
      exact ⟨rfl, h₂⟩

/-- Every sequence of calls that the callers may make gets from the queue the
replies of the numbered messages, message `i` being the slot
`i % (baseLen / msgLen)` of the buffer. -/
theorem messageq_refines (basep : Nat) {baseLen msgLen : Nat}
    (hmsg : 1 ≤ msgLen) (hmsg' : msgLen ≤ 65535)
    (hpos : 1 ≤ baseLen / msgLen) (hle : baseLen / msgLen ≤ 32)
    {ops : List Messages.Op} {rs : List Messages.Result} {m : Messages}
    (hrun : Messages.run ops (.init (baseLen / msgLen)) = some (rs, m)) :
    ∃ c, execAll ops (init basep baseLen msgLen) = .ok
        (rs.map (replyOf fun i => basep + i % (baseLen / msgLen) * msgLen), c) ∧
      c.mq.Represents m := by
  have hlt : msgLen < 2 ^ 16 := by
    simp only [Nat.reducePow]
    omega
  have hinit := Messageq.messageqInit_represents basep hmsg hlt hpos hle
  have hclient : (init basep baseLen msgLen).Represents
      (fun i => basep + i % (baseLen / msgLen) * msgLen)
      (.init (baseLen / msgLen)) := by
    refine ⟨hinit, ?_, rfl, rfl⟩
    intro i
    exact hinit.messageAddr_eq rfl (Nat.mod_eq_of_lt hlt) i
  obtain ⟨replies, c, heq, rfl, hc⟩ :=
    Prog.wp_iff_exists.mp (execAll_refines ops hclient hrun)
  exact ⟨c, heq, hc.mq⟩

/-- Two slots of four bytes in a nine-byte buffer, sent out of order. -/
theorem messageq_refines_two_slots : ∃ c m,
    execAll [.claim, .claim, .claim, .send 1, .receive, .send 0, .receive,
        .release, .claim, .empty] (init 100 9 4) = .ok
      ([.pointer (some 100), .pointer (some 104), .pointer none, .done,
        .pointer none, .done, .pointer (some 100), .done,
        .pointer (some 100), .truth false], c) ∧
      c.mq.Represents m := by
  have hrun : Messages.run [.claim, .claim, .claim, .send 1, .receive, .send 0,
      .receive, .release, .claim, .empty] (.init (9 / 4)) = some (_, _) := rfl
  obtain ⟨c, hc⟩ := messageq_refines 100 (by decide) (by decide) (by decide)
    (by decide) hrun
  exact ⟨c, _, hc⟩

end MessageqClient

end Librfn
