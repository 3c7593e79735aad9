import Librfn.Bitops

/-!
# Register dump

`regdump.c`.  Texts are lists of characters, a null pointer for a name is
`none`, and a stream is what has been written to it.
-/

namespace Librfn

open Librfn.Logic Prog

def uintregBits (configRegdump64 : Bool) : Nat := if configRegdump64 then 64 else 32

structure RegdumpDesc (w : Nat) where
  name : Option (List Char)
  mask : BitVec w

/-- `*state` and what is in `f`. -/
structure RegdumpIo where
  state : BitVec 32
  out : List Char

def regdumpStateVarInit : BitVec 32 := 0

variable {w : Nat}

def formatS16 (name : List Char) : List Char := name.rightpad 16 ' '

def formatX (n : Nat) : List Char := Nat.toDigits 16 n

def nameLine (name : List Char) : List Char := "Register: ".toList ++ name ++ ['\n']

def fieldLine (name : List Char) (value : Nat) : List Char :=
  ['\t'] ++ formatS16 name ++ ": 0x".toList ++ formatX value ++ ['\n']

def fprint (text : List Char) : Prog RegdumpIo Unit :=
  modify fun io => { io with out := io.out ++ text }

def loadDesc (desc : List (RegdumpDesc w)) (i : BitVec 32) : Prog RegdumpIo (RegdumpDesc w) :=
  match if i.toInt < 0 then none else desc[i.toNat]? with
  | some d => pure d
  | none => throw .badPointer

def loadName (d : RegdumpDesc w) : Prog RegdumpIo (List Char) :=
  match d.name with
  | some name => pure name
  | none => throw .nullPointer

/-- `ctz` takes a `uint32_t`, whatever the width of the mask. -/
def shiftedField (reg mask : BitVec w) : BitVec w :=
  (reg &&& mask) >>> (ctz (mask.setWidth 32)).toNat

def fregdumpSingle (reg : BitVec w) (desc : List (RegdumpDesc w)) :
    Prog RegdumpIo (BitVec 32) := do
  let i := (← get).state
  modify fun io => { io with state := i + 1 }
  if i = 0 then
    let name ← loadName (← loadDesc desc 0)
    fprint (nameLine name)
  else
    let d ← loadDesc desc i
    let name ← loadName d
    fprint (fieldLine name (shiftedField reg d.mask).toNat)
  let next ← loadDesc desc (← get).state
  if next.name = none then
    modify fun io => { io with state := 0 }
  return (← get).state

def fregdumpLoop (reg : BitVec w) (desc : List (RegdumpDesc w)) : Nat → Prog RegdumpIo Unit
  | 0 => throw .outOfFuel
  | fuel + 1 => do
      if (← fregdumpSingle reg desc) ≠ 0 then
        fregdumpLoop reg desc fuel

def fregdump (fuel : Nat) (reg : BitVec w) (desc : List (RegdumpDesc w)) :
    Prog (List Char) Unit :=
  zoom (fun out => ⟨regdumpStateVarInit, out⟩) (fun io _ => io.out) (fregdumpLoop reg desc fuel)

end Librfn
