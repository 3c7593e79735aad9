import Mathlib.Algebra.Group.Nat.Defs
import Mathlib.Tactic.Common

/-!
# Random numbers

`rand.c`.  The multiplications and additions of the generator are a parameter
of its body, so that the same body also runs with operations that refuse to
wrap.
-/

namespace Librfn

def rand31VarInit : BitVec 32 := 1

/-- The body of `rand31_r`, from the old `*seedp` to the new one. -/
def rand31Body {m : Type → Type} [Monad m] (mul add : BitVec 32 → BitVec 32 → m (BitVec 32))
    (seed : BitVec 32) : m (BitVec 32) := do
  let lo ← mul 16807 (seed &&& 0xffff)
  let hi ← mul 16807 (seed >>> 16)
  let lo ← add lo ((hi &&& 0x7fff) <<< 16)
  let lo ← add lo (hi >>> 15)
  return if lo > 0x7fffffff then lo - 0x7fffffff else lo

def rand31R (seed : BitVec 32) : BitVec 32 :=
  Id.run (rand31Body (fun x y => pure (x * y)) (fun x y => pure (x + y)) seed)

def mulExact (x y : BitVec 32) : Option (BitVec 32) :=
  if x.toNat * y.toNat < 2 ^ 32 then some (x * y) else none

def addExact (x y : BitVec 32) : Option (BitVec 32) :=
  if x.toNat + y.toNat < 2 ^ 32 then some (x + y) else none

end Librfn
