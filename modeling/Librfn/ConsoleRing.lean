import Librfn.Ringbuf

/-!
# The console log

`logchar` of `console_ring.c`, on the ring buffer `logring` that it keeps the
latest output in.
-/

namespace Librfn

open Librfn.Logic Prog

def logring : Ringbuf := ringbufInit (fun _ => 0) 1024

def discardLine : Nat → Prog Ringbuf Unit
  | 0 => throw .outOfFuel
  | fuel + 1 => do
      let discard ← ringbufGet
      if discard ≠ -1 ∧ discard ≠ 10 then
        discardLine fuel

def logchar (fuel : Nat) (ch : UInt8) : Prog Ringbuf Unit := do
  if ← ringbufPut ch then
    return
  discardLine fuel
  let _ ← ringbufPut ch

def logchars (fuel : Nat) : List UInt8 → Prog Ringbuf Unit
  | [] => pure ()
  | ch :: stream => do
      logchar fuel ch
      logchars fuel stream

end Librfn
