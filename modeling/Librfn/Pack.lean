import Librfn.Logic.Bytes
import Librfn.Logic.Program

/-!
# Bitstream pack and unpack

`pack.c`.  Pointers are addresses that do not wrap.  The packer is kept
together with the memory that it points into, and with the spans that were
asked of it.
-/

namespace Librfn

open Librfn.Logic

/-- `rf_pack_t` and the memory.  `asked` holds the address and the length of
each span that was packed or unpacked, latest first; no function reads it. -/
structure Bitstream where
  mem : Memory
  basep : Nat
  endp : Nat
  p : Nat
  asked : List (Nat × Nat)

def Bitstream.blank : Bitstream := ⟨fun _ => 0, 0, 0, 0, []⟩

def asInt (v : Int) : Int := v.bmod (2 ^ 32)

theorem asInt_of_lt {v : Int} (hlo : -2 ^ 31 ≤ v) (hhi : v < 2 ^ 31) : asInt v = v := by
  apply Int.bmod_eq_of_le <;> omega

theorem asInt_spec (v : Int) :
    ∃ k : Int, asInt v = v - 2 ^ 32 * k ∧ -2 ^ 31 ≤ asInt v ∧ asInt v < 2 ^ 31 := by
  have hlo := Int.le_bmod (x := v) (m := 2 ^ 32) (by decide)
  have hhi := Int.bmod_lt (x := v) (m := 2 ^ 32) (by decide)
  refine ⟨v.bdiv (2 ^ 32), ?_, ?_, ?_⟩
  · exact Int.bmod_eq_self_sub_mul_bdiv v (2 ^ 32)
  · exact hlo
  · exact hhi

def rfPackInit (p sz : Nat) : Prog Bitstream Unit :=
  modify fun s => { s with basep := p, p := p, endp := p + sz, asked := [] }

def rfPackConsumed : Prog Bitstream Int := do
  let s ← get
  return asInt ((s.p : Int) - s.basep)

def rfPackRemaining : Prog Bitstream Int := do
  let s ← get
  return asInt ((s.endp : Int) - s.p)

def Bitstream.advance (s : Bitstream) (sz : Nat) : Bitstream :=
  { s with p := s.p + sz, asked := (s.p, sz) :: s.asked }

def storeByte (a : Nat) (b : UInt8) : Prog Bitstream Unit :=
  modify fun s => { s with mem := overlay s.mem a [b] }

def storeBytes (a : Nat) (bytes : List UInt8) : Prog Bitstream Unit :=
  modify fun s => { s with mem := overlay s.mem a bytes }

def loadBytes (a sz : Nat) : Prog Bitstream (Vector UInt8 sz) := do
  let mem := (← get).mem
  return Vector.ofFn fun i => mem (a + i)

/-- `PACK(pack, p, sz) { … }`. -/
def packing (sz : Nat) (body : Nat → Prog Bitstream Unit) : Prog Bitstream Unit := do
  let p := (← get).p
  modify fun s => s.advance sz
  if (← get).p ≤ (← get).endp then
    body p

/-- `UNPACK(pack, p, sz) { … }`; `zero` is what is returned past the end. -/
def unpacking {α : Type} (sz : Nat) (zero : α) (body : Nat → Prog Bitstream α) :
    Prog Bitstream α := do
  let p := (← get).p
  modify fun s => s.advance sz
  if (← get).p > (← get).endp then
    return zero
  else body p

/-- The pointer to the bytes is `NULL` when there are none. -/
def rfPackBytes (sz : Nat) (p : Option (Vector UInt8 sz)) : Prog Bitstream Unit :=
  packing sz fun q =>
    match p with
    | some bytes => storeBytes q bytes.toList
    | none => storeBytes q (List.replicate sz 0)

def rfPackS16le (s16 : Int16) : Prog Bitstream Unit :=
  packing 2 fun p => do
    storeByte p (byteOf s16.toInt 0)
    storeByte (p + 1) (byteOf s16.toInt 8)

def rfPackU16le (u16 : UInt16) : Prog Bitstream Unit :=
  packing 2 fun p => do
    storeByte p (byteOf u16.toNat 0)
    storeByte (p + 1) (byteOf u16.toNat 8)

def rfPackS32le (s32 : Int32) : Prog Bitstream Unit :=
  packing 4 fun p => do
    storeByte p (byteOf s32.toInt 0)
    storeByte (p + 1) (byteOf s32.toInt 8)
    storeByte (p + 2) (byteOf s32.toInt 16)
    storeByte (p + 3) (byteOf s32.toInt 24)

def rfPackU32le (u32 : UInt32) : Prog Bitstream Unit :=
  packing 4 fun p => do
    storeByte p (byteOf u32.toNat 0)
    storeByte (p + 1) (byteOf u32.toNat 8)
    storeByte (p + 2) (byteOf u32.toNat 16)
    storeByte (p + 3) (byteOf u32.toNat 24)

def rfUnpackBytes (sz : Nat) : Prog Bitstream (Vector UInt8 sz) :=
  unpacking sz (Vector.replicate sz 0) fun q => loadBytes q sz

/-- With `NULL` in place of that pointer. -/
def rfUnpackNull (sz : Nat) : Prog Bitstream Unit :=
  unpacking sz () fun _ => pure ()

def rfUnpackU16le : Prog Bitstream UInt16 :=
  unpacking 2 0 fun p => do
    return u16Of (← loadBytes p 2)

def rfUnpackU32le : Prog Bitstream UInt32 :=
  unpacking 4 0 fun p => do
    return u32Of (← loadBytes p 4)

/-! ## What one call does -/

namespace Bitstream

variable (s : Bitstream) (n m : Nat)

@[simp] theorem advance_mem : (s.advance n).mem = s.mem := rfl
@[simp] theorem advance_basep : (s.advance n).basep = s.basep := rfl
@[simp] theorem advance_endp : (s.advance n).endp = s.endp := rfl
@[simp] theorem advance_p : (s.advance n).p = s.p + n := rfl
@[simp] theorem advance_asked : (s.advance n).asked = (s.p, n) :: s.asked := rfl

def write (bytes : List UInt8) : Bitstream :=
  { s.advance bytes.length with
    mem := if s.p + bytes.length ≤ s.endp then overlay s.mem s.p bytes else s.mem }

variable (bytes : List UInt8)

@[simp] theorem write_basep : (s.write bytes).basep = s.basep := rfl
@[simp] theorem write_endp : (s.write bytes).endp = s.endp := rfl
@[simp] theorem write_p : (s.write bytes).p = s.p + bytes.length := rfl

theorem write_mem_of_fits {bytes : List UInt8} (h : s.p + bytes.length ≤ s.endp) :
    (s.write bytes).mem = overlay s.mem s.p bytes := if_pos h

theorem write_mem_of_past {bytes : List UInt8} (h : s.endp < s.p + bytes.length) :
    (s.write bytes).mem = s.mem := if_neg (Nat.not_le.mpr h)

def next : Vector UInt8 n :=
  if s.p + n ≤ s.endp then Vector.ofFn fun i => s.mem (s.p + i)
  else Vector.replicate n 0

theorem next_of_past {n : Nat} (h : s.endp < s.p + n) : s.next n = Vector.replicate n 0 :=
  if_neg (Nat.not_le.mpr h)

theorem toList_next_of_fits {n : Nat} (h : s.p + n ≤ s.endp) :
    (s.next n).toList = span s.mem s.p n := by
  rw [next, if_pos h]
  apply List.ext_getElem (by simp)
  intro i hi hi'
  rw [getElem_span]
  simp

end Bitstream

variable {s : Bitstream}

theorem wp_packing {sz : Nat} (body : Nat → Prog Bitstream Unit) {bytes : List UInt8}
    (hsz : bytes.length = sz)
    (hbody : ∀ t Q, Prog.wp (body s.p) Q t ↔ Q () { t with mem := overlay t.mem s.p bytes })
    (Q : Unit → Bitstream → Prop) :
    Prog.wp (packing sz body) Q s ↔ Q () (s.write bytes) := by
  subst hsz
  simp only [packing, Prog.wp_bind, Prog.wp_get, Prog.wp_modify, Prog.wp_ite,
    Prog.wp_pure, hbody, Bitstream.advance_p, Bitstream.advance_endp, Bitstream.write]
  split <;> rfl

theorem wp_unpacking {α : Type} {sz : Nat} (zero : α) (body : Nat → Prog Bitstream α)
    (Q : α → Bitstream → Prop) :
    Prog.wp (unpacking sz zero body) Q s ↔
      if s.p + sz ≤ s.endp then Prog.wp (body s.p) Q (s.advance sz)
      else Q zero (s.advance sz) := by
  simp only [unpacking, Prog.wp_bind, Prog.wp_get, Prog.wp_modify, Prog.wp_ite,
    Prog.wp_pure]
  by_cases hroom : s.p + sz ≤ s.endp
  · have hfits : ¬(s.advance sz).p > (s.advance sz).endp := Nat.not_lt.mpr hroom
    rw [if_pos hroom, if_neg hfits]
  · have hpast : (s.advance sz).p > (s.advance sz).endp := Nat.not_le.mp hroom
    rw [if_neg hroom, if_pos hpast]

@[simp] theorem wp_storeByte (a : Nat) (b : UInt8) (Q : Unit → Bitstream → Prop) :
    Prog.wp (storeByte a b) Q s ↔ Q () { s with mem := overlay s.mem a [b] } := Iff.rfl

@[simp] theorem wp_storeBytes (a : Nat) (bytes : List UInt8)
    (Q : Unit → Bitstream → Prop) :
    Prog.wp (storeBytes a bytes) Q s ↔ Q () { s with mem := overlay s.mem a bytes } :=
  Iff.rfl

@[simp] theorem wp_loadBytes (a sz : Nat) (Q : Vector UInt8 sz → Bitstream → Prop) :
    Prog.wp (loadBytes a sz) Q s ↔ Q (Vector.ofFn fun i => s.mem (a + i)) s := Iff.rfl

theorem overlay_cons (mem : Memory) (a : Nat) (b : UInt8) (bytes : List UInt8) :
    overlay mem a (b :: bytes) = overlay (overlay mem a [b]) (a + 1) bytes := by
  rw [← List.singleton_append, overlay_append, List.length_singleton]

@[simp] theorem wp_rfPackBytes (sz : Nat) (p : Option (Vector UInt8 sz))
    (Q : Unit → Bitstream → Prop) :
    Prog.wp (rfPackBytes sz p) Q s ↔
      Q () (s.write (p.getD (Vector.replicate sz 0)).toList) := by
  apply wp_packing _ Vector.length_toList
  intro t Q
  cases p <;> simp

theorem wp_packing_le16 (v : Int) (Q : Unit → Bitstream → Prop) :
    Prog.wp (packing 2 fun p => do
        storeByte p (byteOf v 0)
        storeByte (p + 1) (byteOf v 8)) Q s ↔
      Q () (s.write (le16 v).toList) := by
  apply wp_packing _ Vector.length_toList
  intro t Q
  simp [le16, overlay_cons _ _ _ [_]]

theorem wp_packing_le32 (v : Int) (Q : Unit → Bitstream → Prop) :
    Prog.wp (packing 4 fun p => do
        storeByte p (byteOf v 0)
        storeByte (p + 1) (byteOf v 8)
        storeByte (p + 2) (byteOf v 16)
        storeByte (p + 3) (byteOf v 24)) Q s ↔
      Q () (s.write (le32 v).toList) := by
  apply wp_packing _ Vector.length_toList
  intro t Q
  simp [le32, overlay_cons _ _ _ (_ :: _)]

@[simp] theorem wp_rfPackU16le (u16 : UInt16) (Q : Unit → Bitstream → Prop) :
    Prog.wp (rfPackU16le u16) Q s ↔ Q () (s.write (le16 u16.toNat).toList) :=
  wp_packing_le16 _ Q

@[simp] theorem wp_rfPackU32le (u32 : UInt32) (Q : Unit → Bitstream → Prop) :
    Prog.wp (rfPackU32le u32) Q s ↔ Q () (s.write (le32 u32.toNat).toList) :=
  wp_packing_le32 _ Q

@[simp] theorem wp_rfPackS16le (s16 : Int16) (Q : Unit → Bitstream → Prop) :
    Prog.wp (rfPackS16le s16) Q s ↔
      Q () (s.write (le16 s16.toUInt16.toNat).toList) := by
  have hbytes : le16 s16.toUInt16.toNat = le16 s16.toInt := by
    apply le16_congr
    rw [← s16.toInt_toBitVec, BitVec.toInt_eq_toNat_bmod]
    exact Int.bmod_emod.symm
  rw [hbytes]
  exact wp_packing_le16 _ Q

@[simp] theorem wp_rfPackS32le (s32 : Int32) (Q : Unit → Bitstream → Prop) :
    Prog.wp (rfPackS32le s32) Q s ↔
      Q () (s.write (le32 s32.toUInt32.toNat).toList) := by
  have hbytes : le32 s32.toUInt32.toNat = le32 s32.toInt := by
    apply le32_congr
    rw [← s32.toInt_toBitVec, BitVec.toInt_eq_toNat_bmod]
    exact Int.bmod_emod.symm
  rw [hbytes]
  exact wp_packing_le32 _ Q

@[simp] theorem wp_rfUnpackBytes (sz : Nat) (Q : Vector UInt8 sz → Bitstream → Prop) :
    Prog.wp (rfUnpackBytes sz) Q s ↔ Q (s.next sz) (s.advance sz) := by
  simp only [rfUnpackBytes, wp_unpacking, wp_loadBytes, Bitstream.next,
    Bitstream.advance_mem]
  split <;> rfl

@[simp] theorem wp_rfUnpackNull (sz : Nat) (Q : Unit → Bitstream → Prop) :
    Prog.wp (rfUnpackNull sz) Q s ↔ Q () (s.advance sz) := by
  simp [rfUnpackNull, wp_unpacking]

@[simp] theorem wp_rfUnpackU16le (Q : UInt16 → Bitstream → Prop) :
    Prog.wp rfUnpackU16le Q s ↔ Q (u16Of (s.next 2)) (s.advance 2) := by
  simp only [rfUnpackU16le, wp_unpacking, Prog.wp_bind, wp_loadBytes, Prog.wp_pure,
    Bitstream.next, Bitstream.advance_mem]
  split <;> rfl

@[simp] theorem wp_rfUnpackU32le (Q : UInt32 → Bitstream → Prop) :
    Prog.wp rfUnpackU32le Q s ↔ Q (u32Of (s.next 4)) (s.advance 4) := by
  simp only [rfUnpackU32le, wp_unpacking, Prog.wp_bind, wp_loadBytes, Prog.wp_pure,
    Bitstream.next, Bitstream.advance_mem]
  split <;> rfl

/-! ## Unpacking a buffer -/

namespace Bitstream

def Asked (s : Bitstream) (a : Nat) : Prop :=
  ∃ span ∈ s.asked, span.1 ≤ a ∧ a < span.1 + span.2

/-- The first `o` bytes of the buffer of `sz` bytes at `p`, and no others, were
asked for; some of them may be past the end. -/
structure At (mem : Memory) (p sz o : Nat) (s : Bitstream) : Prop where
  mem_eq : s.mem = mem
  basep_eq : s.basep = p
  endp_eq : s.endp = p + sz
  p_eq : s.p = p + o
  asked_iff : ∀ a, s.Asked a ↔ p ≤ a ∧ a < p + o

variable {mem : Memory} {p sz o : Nat} {s : Bitstream}

theorem At.init (s : Bitstream) (p sz : Nat) :
    At s.mem p sz 0 { s with basep := p, p := p, endp := p + sz, asked := [] } := by
  refine ⟨rfl, rfl, rfl, rfl, ?_⟩
  intro a
  simp only [Asked, List.not_mem_nil, false_and, exists_false, false_iff]
  omega

theorem At.advance (h : At mem p sz o s) (n : Nat) : At mem p sz (o + n) (s.advance n) := by
  refine ⟨h.mem_eq, h.basep_eq, h.endp_eq, ?_, ?_⟩
  · rw [advance_p, h.p_eq, Nat.add_assoc]
  · intro a
    have hspan : (s.advance n).Asked a ↔ (s.p ≤ a ∧ a < s.p + n) ∨ s.Asked a := by
      simp [Asked]
    rw [hspan, h.asked_iff, h.p_eq]
    omega

theorem At.next (h : At mem p sz o s) (n : Nat) :
    s.next n = fieldAt (span mem p sz) o n := by
  by_cases hfits : o + n ≤ sz
  · ext i hi
    rw [getElem_fieldAt (by simpa using hfits) hi, getElem_span, Bitstream.next,
      if_pos (by rw [h.p_eq, h.endp_eq]; omega)]
    simp [h.mem_eq, h.p_eq, Nat.add_assoc]
  · rw [fieldAt_of_past (by simpa using hfits)]
    apply next_of_past
    rw [h.p_eq, h.endp_eq]
    omega

end Bitstream

end Librfn
