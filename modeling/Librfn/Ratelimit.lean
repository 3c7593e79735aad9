import Mathlib.Tactic.Common

/-!
# Rate limits

`ratelimit_check` of `util.c`.  The clock is read once to see whether the
window is over, and once more where a new one is opened; both readings are
arguments.
-/

namespace Librfn

/-- `ratelimit_state_t`, zeroed by default. -/
structure RatelimitState where
  time : BitVec 32 := 0
  count : BitVec 32 := 0
  deriving DecidableEq, Repr

/-- The condition under which a window is opened. -/
def windowOver (rs : RatelimitState) (window now : BitVec 32) : Bool :=
  let delta := (rs.time - now).toInt
  delta < 0 ∨ delta > (window * 1000000).toInt

def ratelimitCheck (rs : RatelimitState) (n window now now' : BitVec 32) :
    Bool × RatelimitState :=
  if windowOver rs window now then
    (true, { time := now' + window * 1000000, count := 1 })
  else (rs.count < n, { rs with count := rs.count + 1 })

/-- A call at a true time, with the true time of its second reading. -/
structure RatelimitCall where
  time : Nat
  again : Nat
  deriving DecidableEq, Repr

section Calls

variable (n window : BitVec 32) (calls : Nat → RatelimitCall)

def ratelimitState : Nat → RatelimitState
  | 0 => {}
  | i + 1 => (ratelimitCheck (ratelimitState i) n window (.ofNat 32 (calls i).time)
      (.ofNat 32 (calls i).again)).2

def ratelimitResult (i : Nat) : Bool :=
  (ratelimitCheck (ratelimitState n window calls i) n window (.ofNat 32 (calls i).time)
    (.ofNat 32 (calls i).again)).1

def opensWindow (i : Nat) : Bool :=
  windowOver (ratelimitState n window calls i) window (.ofNat 32 (calls i).time)

end Calls

end Librfn
