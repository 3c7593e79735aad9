import Librfn.Logic.Flags
import Librfn.Logic.Program
import Mathlib.Algebra.Group.Int.Defs
import Mathlib.Algebra.Group.Nat.Defs

/-!
# The message queue

`messageq.c` as it runs on its own.  Pointers are addresses; `NULL` is `none`.
The small counters are `unsigned char`, so they wrap at 256.
-/

namespace Librfn

open Librfn.Logic

structure Messageq where
  basep : Nat
  msgLen : Nat
  queueLen : Nat
  numFree : Nat
  sendp : Nat
  fullFlags : BitVec 32
  receivep : Nat
  deriving DecidableEq, Repr

def messageqInit (basep baseLen msgLen : Nat) : Messageq :=
  { basep
    msgLen := msgLen % 2 ^ 16
    queueLen := baseLen / msgLen % 2 ^ 8
    numFree := baseLen / msgLen % 2 ^ 8
    sendp := 0
    fullFlags := 0
    receivep := 0 }

def toUnsigned (i : Int) : Nat := (i % 2 ^ 32).toNat

def Messageq.slotAddr (mq : Messageq) (slot : Nat) : Nat :=
  mq.basep + slot * mq.msgLen

def Messageq.newSendp (mq : Messageq) (sendp : Nat) : Nat :=
  if (sendp : Int) ≥ (mq.queueLen : Int) - 1 then 0 else (sendp + 1) % 2 ^ 8

def Messageq.decFree (mq : Messageq) : Messageq :=
  { mq with numFree := (mq.numFree + (2 ^ 8 - 1)) % 2 ^ 8 }

def Messageq.incFree (mq : Messageq) : Messageq :=
  { mq with numFree := (mq.numFree + 1) % 2 ^ 8 }

@[simp] theorem Messageq.decFree_numFree (mq : Messageq) :
    mq.decFree.numFree = (mq.numFree + 255) % 256 := rfl

@[simp] theorem Messageq.incFree_numFree (mq : Messageq) :
    mq.incFree.numFree = (mq.numFree + 1) % 256 := rfl

def messageqClaim : Prog Messageq (Option Nat) := do
  let numFree := (← get).numFree
  modify Messageq.decFree
  if numFree ≤ 0 then
    modify Messageq.incFree
    return none
  -- Undisturbed, the first compare-exchange succeeds.
  let sendp := (← get).sendp
  modify fun mq => { mq with sendp := mq.newSendp sendp }
  return some ((← get).slotAddr sendp)

def Messageq.markFull (mq : Messageq) (msg : Nat) : Messageq :=
  let offset := toUnsigned ((msg : Int) - mq.basep)
  { mq with fullFlags := mq.fullFlags ||| flag 32 (offset / mq.msgLen) }

def messageqSend (msg : Nat) : Prog Messageq Unit :=
  modify fun mq => mq.markFull msg

def Messageq.clearFull (mq : Messageq) : Messageq :=
  { mq with fullFlags := mq.fullFlags &&& ~~~flag 32 mq.receivep }

def Messageq.nextReceivep (mq : Messageq) : Nat :=
  if mq.receivep ≥ toUnsigned ((mq.queueLen : Int) - 1) then 0
  else (mq.receivep + 1) % 2 ^ 8

def messageqReceive : Prog Messageq (Option Nat) := do
  let receivep := (← get).receivep
  let fullFlags := (← get).fullFlags
  modify Messageq.clearFull
  if fullFlags &&& flag 32 receivep = 0 then
    return none
  modify fun mq => { mq with receivep := mq.nextReceivep }
  return some ((← get).slotAddr receivep)

def messageqRelease (_msg : Nat) : Prog Messageq Unit :=
  modify Messageq.incFree

def messageqEmpty (mq : Messageq) : Bool :=
  mq.fullFlags &&& flag 32 mq.receivep = 0

end Librfn
