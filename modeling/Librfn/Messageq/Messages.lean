import Mathlib.Tactic.Common

/-!
# Numbered messages

What a message queue is for, without slots, flags or wrapping counters.  The
messages are numbered in the order in which they are claimed; a message is
claimed, sent, received and released, and each number goes through this once.
-/

namespace Librfn

/-- The messages below `claimed` have been claimed, those below `received`
have been received and those below `released` have been released. -/
structure Messages where
  queueLen : Nat
  claimed : Nat
  received : Nat
  released : Nat
  sent : Nat → Bool
  released_le : released ≤ received
  received_le : received ≤ claimed
  claimed_le : claimed ≤ released + queueLen
  sent_lt : ∀ i, sent i = true → i < claimed
  received_sent : ∀ i, i < received → sent i = true

namespace Messages

def init (queueLen : Nat) : Messages where
  queueLen := queueLen
  claimed := 0
  received := 0
  released := 0
  sent := fun _ => false
  released_le := Nat.le_refl 0
  received_le := Nat.le_refl 0
  claimed_le := Nat.zero_le _
  sent_lt := fun _ h => nomatch h
  received_sent := fun i h => absurd h (Nat.not_lt_zero i)

def outstanding (m : Messages) : Nat := m.claimed - m.released

/-- The number of the next message to receive, if it has been sent. -/
def next? (m : Messages) : Option Nat :=
  if m.sent m.received then some m.received else none

def claim (m : Messages) (h : m.claimed < m.released + m.queueLen) :
    Messages where
  queueLen := m.queueLen
  claimed := m.claimed + 1
  received := m.received
  released := m.released
  sent := m.sent
  released_le := m.released_le
  received_le := Nat.le_succ_of_le m.received_le
  claimed_le := h
  sent_lt := fun i hi => Nat.lt_succ_of_lt (m.sent_lt i hi)
  received_sent := m.received_sent

def send (m : Messages) (i : Nat) (h : i < m.claimed) : Messages where
  queueLen := m.queueLen
  claimed := m.claimed
  received := m.received
  released := m.released
  sent := fun j => decide (j = i) || m.sent j
  released_le := m.released_le
  received_le := m.received_le
  claimed_le := m.claimed_le
  sent_lt := by
    intro j hj
    rcases Bool.or_eq_true_iff.mp hj with hji | hj
    · exact of_decide_eq_true hji ▸ h
    · exact m.sent_lt j hj
  received_sent := fun j hj => by simp [m.received_sent j hj]

def receive (m : Messages) (h : m.sent m.received = true) : Messages where
  queueLen := m.queueLen
  claimed := m.claimed
  received := m.received + 1
  released := m.released
  sent := m.sent
  released_le := Nat.le_succ_of_le m.released_le
  received_le := m.sent_lt m.received h
  claimed_le := m.claimed_le
  sent_lt := m.sent_lt
  received_sent := by
    intro i hi
    rcases Nat.lt_succ_iff_lt_or_eq.mp hi with hlt | rfl
    · exact m.received_sent i hlt
    · exact h

def release (m : Messages) (h : m.released < m.received) : Messages where
  queueLen := m.queueLen
  claimed := m.claimed
  received := m.received
  released := m.released + 1
  sent := m.sent
  released_le := h
  received_le := m.received_le
  claimed_le := by
    have := m.claimed_le
    omega
  sent_lt := m.sent_lt
  received_sent := m.received_sent

section Fields

variable (m : Messages) {i : Nat} (hfree : m.claimed < m.released + m.queueLen)
  (hi : i < m.claimed) (hsent : m.sent m.received = true)
  (hlt : m.released < m.received)

@[simp] theorem claim_claimed : (m.claim hfree).claimed = m.claimed + 1 := rfl
@[simp] theorem claim_released : (m.claim hfree).released = m.released := rfl
@[simp] theorem send_claimed : (m.send i hi).claimed = m.claimed := rfl
@[simp] theorem send_received : (m.send i hi).received = m.received := rfl
@[simp] theorem send_released : (m.send i hi).released = m.released := rfl
@[simp] theorem receive_claimed :
    (m.receive hsent).claimed = m.claimed := rfl
@[simp] theorem receive_received :
    (m.receive hsent).received = m.received + 1 := rfl
@[simp] theorem receive_released :
    (m.receive hsent).released = m.released := rfl
@[simp] theorem release_claimed : (m.release hlt).claimed = m.claimed := rfl
@[simp] theorem release_released :
    (m.release hlt).released = m.released + 1 := rfl

end Fields

inductive Op where
  | claim
  | send (message : Nat)
  | receive
  | release
  | empty
  deriving DecidableEq, Repr

inductive Result where
  | message (number : Option Nat)
  | done
  | truth (value : Bool)
  deriving DecidableEq, Repr

/-- One call.  `none` means that the caller may not make it: a message is sent
at most once and after its claim, and released at most once and after it was
received. -/
def step (m : Messages) : Op → Option (Result × Messages)
  | .claim =>
      if h : m.claimed < m.released + m.queueLen then
        some (.message (some m.claimed), m.claim h)
      else some (.message none, m)
  | .send i =>
      if h : i < m.claimed ∧ m.sent i = false then some (.done, m.send i h.1)
      else none
  | .receive =>
      if h : m.sent m.received = true then
        some (.message m.next?, m.receive h)
      else some (.message m.next?, m)
  | .release =>
      if h : m.released < m.received then some (.done, m.release h) else none
  | .empty => some (.truth m.next?.isNone, m)

def run : List Op → Messages → Option (List Result × Messages)
  | [], m => some ([], m)
  | op :: ops, m => do
      let (result, m) ← m.step op
      let (results, m) ← run ops m
      return (result :: results, m)

theorem lt_window (m : Messages) {i : Nat} (h : m.sent i = true) :
    i < m.received + m.queueLen := by
  have hlt := m.sent_lt i h
  have hcl := m.claimed_le
  have hrl := m.released_le
  omega

theorem le_of_unsent (m : Messages) {i : Nat} (h : m.sent i = false) :
    m.received ≤ i := by
  rcases Nat.lt_or_ge i m.received with hlt | hge
  · rw [m.received_sent i hlt] at h
    cases h
  · exact hge

/-- `messageq_claim` returns `NULL` exactly when every slot is outstanding. -/
theorem claim_eq_none_iff (m : Messages) :
    (∃ m', m.step .claim = some (.message none, m')) ↔
      m.outstanding = m.queueLen := by
  have hrl := m.released_le
  have hcl := m.claimed_le
  have hrc := m.received_le
  unfold step outstanding
  dsimp only
  split
  · simp
    omega
  · simp
    omega

end Messages

end Librfn
