import Mathlib.Tactic.Common

/-!
# Colour fades

`rgb.c`.  The step of a fade may be negative, and is kept in an unsigned
field.
-/

namespace Librfn

structure RgbFader where
  goal : BitVec 32
  step : BitVec 32
  deriving DecidableEq, Repr

/-- Division of `int` values, undefined by zero and where the quotient is too
large. -/
def divideInt (m n : BitVec 32) : Option (BitVec 32) :=
  if n = 0 ∨ m = BitVec.intMin 32 ∧ n = -1 then none else some (m.sdiv n)

/-- Nothing where the behaviour is undefined. -/
def rgbFaderInit (from' to' nsteps : BitVec 32) : Option RgbFader := do
  let step ← divideInt (to' - from') nsteps
  let step := if step = 0 then 1 else step
  return { goal := to', step }

def rgbFade (f : RgbFader) (val : BitVec 32) : Bool × BitVec 32 :=
  let from' := val
  let to' := from' + f.step
  if (from' ^^^ to') &&& 0x80000000 ≠ 0 ∨ (f.step > 0 ∧ to' ≥ f.goal) ∨
      (f.step < 0 ∧ to' ≤ f.goal) then
    (true, f.goal)
  else (false, to')

def fadeVal (f : RgbFader) (val : BitVec 32) : Nat → BitVec 32
  | 0 => val
  | calls + 1 => (rgbFade f (fadeVal f val calls)).2

def fadeDone (f : RgbFader) (val : BitVec 32) (calls : Nat) : Bool :=
  (rgbFade f (fadeVal f val calls)).1

end Librfn
