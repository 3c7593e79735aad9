import Mathlib.Algebra.Group.Int.Defs
import Mathlib.Algebra.Group.Nat.Defs
import Mathlib.Data.List.Basic
import Mathlib.Tactic.Common

/-!
# The rotary encoder

`rotenc.c`.  The decoder turns on the last state and the new one.
-/

namespace Librfn

/-- `rotenc_t`, by default as `ROTENC_VAR_INIT` has it. -/
@[ext] structure Rotenc where
  lastState : UInt8 := 0
  count : UInt8 := 0
  internalCount : UInt16 := 0
  deriving DecidableEq, Repr

/-- `FROM(x, y)` -/
def fromState (x y : Bool) : UInt8 := (x.toUInt8 <<< 3) + (y.toUInt8 <<< 2)

/-- `TO(x, y)` -/
def toState (x y : Bool) : UInt8 := (x.toUInt8 <<< 1) + y.toUInt8

def clockwise : List UInt8 :=
  [fromState false false ||| toState false true,
    fromState false true ||| toState true true,
    fromState true true ||| toState true false,
    fromState true false ||| toState false false]

def anticlockwise : List UInt8 :=
  [fromState false false ||| toState true false,
    fromState true false ||| toState true true,
    fromState true true ||| toState false true,
    fromState false true ||| toState false false]

def rotencDecode (r : Rotenc) (state : UInt8) : Rotenc :=
  let fromto := (r.lastState <<< 2) + state
  let r :=
    if fromto ∈ clockwise then { r with internalCount := r.internalCount + 1 }
    else if fromto ∈ anticlockwise then { r with internalCount := r.internalCount - 1 }
    else r
  let r := { r with lastState := state }
  if state = 0 then { r with count := (r.internalCount >>> 2).toUInt8 } else r

def rotencCount14 (r : Rotenc) : UInt16 :=
  ((r.internalCount >>> 2) &&& 0x3f00) + r.count.toUInt16

def rotencCount (r : Rotenc) : UInt8 := r.count

end Librfn
