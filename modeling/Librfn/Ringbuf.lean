import Librfn.Logic.Program
import Mathlib.Algebra.Group.Nat.Defs
import Mathlib.Logic.Function.Basic

/-!
# The ring buffer

`ringbuf.c` as it runs on its own.  Indices are `atomic_uint` values, the
buffer length is a `size_t`, and a cell of the buffer is one byte.
-/

namespace Librfn

open Librfn.Logic

structure Ringbuf where
  bufp : Nat → UInt8
  bufLen : Nat
  readi : Nat
  writei : Nat

def ringbufInit (bufp : Nat → UInt8) (bufLen : Nat) : Ringbuf :=
  { bufp, bufLen, readi := 0, writei := 0 }

/-- `if (++i >= rb->buf_len) i -= rb->buf_len;` on an `unsigned int`. -/
def advance (bufLen i : Nat) : Nat :=
  let next := (i + 1) % 2 ^ 32
  if bufLen ≤ next then next - bufLen else next

def ringbufGet : Prog Ringbuf Int := do
  let readi := (← get).readi
  Prog.assert (readi < (← get).bufLen)
  if readi = (← get).writei then
    return -1
  let d := (← get).bufp readi
  modify fun rb => { rb with readi := advance rb.bufLen readi }
  return d.toNat

def ringbufEmpty : Prog Ringbuf Bool := do
  return (← get).readi = (← get).writei

def ringbufPut (d : UInt8) : Prog Ringbuf Bool := do
  let oldWritei := (← get).writei
  let writei := advance (← get).bufLen oldWritei
  if writei = (← get).readi then
    return false
  modify fun rb => { rb with bufp := Function.update rb.bufp oldWritei d }
  modify fun rb => { rb with writei }
  return true

end Librfn
