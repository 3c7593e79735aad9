import Librfn.Logic.Program

/-!
# Bit operations

`bitops.c`, and the macros of `constexpr.h` that do the same to constants.
-/

namespace Librfn

open Librfn.Logic

def bitcnt (x : BitVec 32) : Int :=
  let n := (x >>> 1) &&& 0x77777777
  let x := x - n
  let n := (n >>> 1) &&& 0x77777777
  let x := x - n
  let n := (n >>> 1) &&& 0x77777777
  let x := x - n
  let x := (x + (x >>> 4)) &&& 0x0F0F0F0F
  let x := x * 0x01010101
  (x >>> 24).toNat

def clz (x : BitVec 32) : Int :=
  let x := x ||| (x >>> 1)
  let x := x ||| (x >>> 2)
  let x := x ||| (x >>> 4)
  let x := x ||| (x >>> 8)
  let x := x ||| (x >>> 16)
  bitcnt (~~~x)

def ctz (x : BitVec 32) : Int := bitcnt (~~~x &&& (x - 1))

def ilog2 (x : BitVec 32) : Except Fault Int :=
  if x = 0 then throw .assertion else return 31 - clz x

/-! ## Constant expressions -/

def constPopHalves (pop : BitVec 64 → BitVec 64) (half : Nat) (c : BitVec 64) : BitVec 64 :=
  pop c + pop (c >>> half)

def constPop1 (c : BitVec 64) : BitVec 64 := c &&& 1
def constPop2 : BitVec 64 → BitVec 64 := constPopHalves constPop1 1
def constPop4 : BitVec 64 → BitVec 64 := constPopHalves constPop2 2
def constPop8 : BitVec 64 → BitVec 64 := constPopHalves constPop4 4
def constPop16 : BitVec 64 → BitVec 64 := constPopHalves constPop8 8
def constPop32 : BitVec 64 → BitVec 64 := constPopHalves constPop16 16
def constPop64 : BitVec 64 → BitVec 64 := constPopHalves constPop32 32

def constPop (c : BitVec 64) : BitVec 64 := constPop64 c

def constLssbHalves (lssb : BitVec 64 → Int) (half : Nat) (mask : BitVec 64) (c : BitVec 64) :
    Int :=
  if mask &&& c ≠ 0 then lssb c else lssb (c >>> half) + half

def constLssb1 (c : BitVec 64) : Int := if 0x1 &&& c ≠ 0 then 0 else -64
def constLssb2 : BitVec 64 → Int := constLssbHalves constLssb1 1 0x1
def constLssb4 : BitVec 64 → Int := constLssbHalves constLssb2 2 0x3
def constLssb8 : BitVec 64 → Int := constLssbHalves constLssb4 4 0xf
def constLssb16 : BitVec 64 → Int := constLssbHalves constLssb8 8 0xff
def constLssb32 : BitVec 64 → Int := constLssbHalves constLssb16 16 0xffff
def constLssb64 : BitVec 64 → Int := constLssbHalves constLssb32 32 0xffffffff

def constLssb (c : BitVec 64) : Int := constLssb64 c

end Librfn
