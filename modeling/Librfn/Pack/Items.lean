import Librfn.Pack
import Mathlib.Algebra.GroupWithZero.Nat

/-!
# Sequences of items

A sequence of values is packed by one call for each, and unpacked by the
matching calls.  What fits is a prefix of the sequence: from the first item
that runs past the end of the buffer on, nothing is written and zeros are
read.
-/

namespace Librfn

open Librfn.Logic

/-- What one unpacking call returns. -/
inductive Value where
  | bytes (sz : Nat) (v : Vector UInt8 sz)
  | u16 (v : UInt16)
  | u32 (v : UInt32)

inductive Shape where
  | bytes (sz : Nat)
  | u16
  | u32

inductive Item where
  | bytes (sz : Nat) (v : Vector UInt8 sz)
  | u16le (v : UInt16)
  | s16le (v : Int16)
  | s32le (v : Int32)
  | u32le (v : UInt32)

namespace Shape

def size : Shape → Nat
  | bytes sz => sz
  | u16 => 2
  | u32 => 4

def unpack : Shape → Prog Bitstream Value
  | bytes sz => return .bytes sz (← rfUnpackBytes sz)
  | u16 => return .u16 (← rfUnpackU16le)
  | u32 => return .u32 (← rfUnpackU32le)

def decode : (shape : Shape) → Vector UInt8 shape.size → Value
  | bytes sz, v => .bytes sz v
  | u16, v => .u16 (u16Of v)
  | u32, v => .u32 (u32Of v)

def zero : Shape → Value
  | bytes sz => .bytes sz (Vector.replicate sz 0)
  | u16 => .u16 0
  | u32 => .u32 0

@[simp] theorem decode_zero (shape : Shape) :
    shape.decode (Vector.replicate shape.size 0) = shape.zero := by
  cases shape <;> rfl

@[simp] theorem wp_unpack (shape : Shape) (Q : Value → Bitstream → Prop)
    (s : Bitstream) :
    Prog.wp shape.unpack Q s ↔
      Q (shape.decode (s.next shape.size)) (s.advance shape.size) := by
  cases shape <;> simp [unpack, decode, size]

end Shape

namespace Item

def shape : Item → Shape
  | bytes sz _ => .bytes sz
  | u16le _ | s16le _ => .u16
  | s32le _ | u32le _ => .u32

def pack : Item → Prog Bitstream Unit
  | bytes sz v => rfPackBytes sz (some v)
  | u16le v => rfPackU16le v
  | s16le v => rfPackS16le v
  | s32le v => rfPackS32le v
  | u32le v => rfPackU32le v

def value : Item → Value
  | bytes sz v => .bytes sz v
  | u16le v => .u16 v
  | s16le v => .u16 v.toUInt16
  | s32le v => .u32 v.toUInt32
  | u32le v => .u32 v

def data : (item : Item) → Vector UInt8 item.shape.size
  | bytes _ v => v
  | u16le v => le16 v.toNat
  | s16le v => le16 v.toUInt16.toNat
  | s32le v => le32 v.toUInt32.toNat
  | u32le v => le32 v.toNat

@[simp] theorem decode_data (item : Item) : item.shape.decode item.data = item.value := by
  cases item <;> simp [shape, data, value, Shape.decode]

@[simp] theorem wp_pack (item : Item) (Q : Unit → Bitstream → Prop) (s : Bitstream) :
    Prog.wp item.pack Q s ↔ Q () (s.write item.data.toList) := by
  cases item with
  | bytes sz v => exact wp_rfPackBytes sz (some v) Q
  | u16le v => exact wp_rfPackU16le v Q
  | s16le v => exact wp_rfPackS16le v Q
  | s32le v => exact wp_rfPackS32le v Q
  | u32le v => exact wp_rfPackU32le v Q

end Item

def packItems : List Item → Prog Bitstream Unit
  | [] => pure ()
  | item :: items => do
      item.pack
      packItems items

def unpackItems : List Shape → Prog Bitstream (List Value)
  | [] => return []
  | shape :: shapes => do
      let value ← shape.unpack
      return value :: (← unpackItems shapes)

def totalSize (items : List Item) : Nat := (items.map fun item => item.shape.size).sum

def allData (items : List Item) : List UInt8 := items.flatMap fun item => item.data.toList

/-- The items that are wholly within `room` bytes. -/
def fitting (room : Nat) : List Item → List Item
  | [] => []
  | item :: items =>
      if item.shape.size ≤ room then item :: fitting (room - item.shape.size) items
      else []

def readBack (room : Nat) (items : List Item) : List Value :=
  (fitting room items).map Item.value ++
    (items.drop (fitting room items).length).map fun item => item.shape.zero

@[simp] theorem length_allData (items : List Item) : (allData items).length = totalSize items := by
  simp [allData, totalSize, List.length_flatMap]

@[simp] theorem totalSize_cons (item : Item) (items : List Item) :
    totalSize (item :: items) = item.shape.size + totalSize items := by
  simp [totalSize]

@[simp] theorem allData_nil : allData [] = [] := rfl

theorem allData_cons (item : Item) (items : List Item) :
    allData (item :: items) = item.data.toList ++ allData items := by
  simp [allData]

section

variable (items : List Item)

@[simp] theorem allData_bytes (sz : Nat) (v : Vector UInt8 sz) :
    allData (.bytes sz v :: items) = v.toList ++ allData items := allData_cons _ _

@[simp] theorem allData_u16le (v : UInt16) :
    allData (.u16le v :: items) = (le16 v.toNat).toList ++ allData items := allData_cons _ _

@[simp] theorem allData_u32le (v : UInt32) :
    allData (.u32le v :: items) = (le32 v.toNat).toList ++ allData items := allData_cons _ _

end

@[simp] theorem totalSize_append (items items' : List Item) :
    totalSize (items ++ items') = totalSize items + totalSize items' := by
  simp [totalSize]

@[simp] theorem allData_append (items items' : List Item) :
    allData (items ++ items') = allData items ++ allData items' := by
  simp [allData]

theorem fitting_of_le {room : Nat} {items : List Item} (h : totalSize items ≤ room) :
    fitting room items = items := by
  induction items generalizing room with
  | nil => rfl
  | cons item items ih =>
      rw [totalSize_cons] at h
      rw [fitting, if_pos (by omega), ih (by omega)]

theorem totalSize_fitting_le (room : Nat) (items : List Item) :
    totalSize (fitting room items) ≤ room := by
  induction items generalizing room with
  | nil => simp [fitting, totalSize]
  | cons item items ih =>
      rw [fitting]
      split
      · have hrest := ih (room - item.shape.size)
        rw [totalSize_cons]
        omega
      · simp [totalSize]

/-! ## Packing -/

namespace Bitstream

def writeItems (s : Bitstream) (items : List Item) : Bitstream :=
  items.foldl (fun s item => s.write item.data.toList) s

variable (s : Bitstream) (items : List Item)

@[simp] theorem writeItems_basep : (s.writeItems items).basep = s.basep := by
  induction items generalizing s with
  | nil => rfl
  | cons item items ih => exact ih _

@[simp] theorem writeItems_endp : (s.writeItems items).endp = s.endp := by
  induction items generalizing s with
  | nil => rfl
  | cons item items ih => exact ih _

@[simp] theorem writeItems_p : (s.writeItems items).p = s.p + totalSize items := by
  induction items generalizing s with
  | nil => rfl
  | cons item items ih =>
      rw [writeItems, List.foldl_cons, ← writeItems, ih]
      simp [Nat.add_assoc]

variable {s}

theorem writeItems_mem_of_past (h : s.endp < s.p) : (s.writeItems items).mem = s.mem := by
  induction items generalizing s with
  | nil => rfl
  | cons item items ih =>
      have hpast : s.endp < s.p + item.data.toList.length := by omega
      rw [writeItems, List.foldl_cons, ← writeItems, ih hpast, write_mem_of_past s hpast]

theorem writeItems_mem (h : s.p ≤ s.endp) :
    (s.writeItems items).mem = overlay s.mem s.p (allData (fitting (s.endp - s.p) items)) := by
  induction items generalizing s with
  | nil => simp [writeItems, fitting, allData]
  | cons item items ih =>
      rw [writeItems, List.foldl_cons, ← writeItems, fitting]
      have hlength : item.data.toList.length = item.shape.size := Vector.length_toList
      by_cases hfits : item.shape.size ≤ s.endp - s.p
      · have hend : s.p + item.data.toList.length ≤ s.endp := by omega
        rw [ih hend, if_pos hfits, write_mem_of_fits s hend, allData_cons, overlay_append]
        simp [hlength, Nat.sub_sub]
      · have hpast : s.endp < s.p + item.data.toList.length := by omega
        rw [writeItems_mem_of_past items hpast, if_neg hfits, write_mem_of_past s hpast]
        simp [allData]

end Bitstream

@[simp] theorem wp_packItems (items : List Item) (Q : Unit → Bitstream → Prop)
    (s : Bitstream) :
    Prog.wp (packItems items) Q s ↔ Q () (s.writeItems items) := by
  induction items generalizing s with
  | nil => rfl
  | cons item items ih =>
      rw [packItems, Prog.wp_bind, Item.wp_pack, ih]
      rfl

/-! ## Unpacking -/

theorem unpackItems_of_past (items : List Item) {s : Bitstream} (h : s.endp < s.p) :
    Prog.wp (unpackItems (items.map Item.shape)) (fun values _ =>
      values = items.map fun item => item.shape.zero) s := by
  induction items generalizing s with
  | nil => rfl
  | cons item items ih =>
      have hpast : s.endp < s.p + item.shape.size := by omega
      simp only [List.map_cons, unpackItems, Prog.wp_bind, Shape.wp_unpack, Prog.wp_pure,
        s.next_of_past hpast, Shape.decode_zero]
      apply Prog.wp_mono (ih hpast)
      rintro values _ rfl
      rfl

theorem unpackItems_spec (items : List Item) {s : Bitstream} (h : s.p ≤ s.endp)
    (hmem : span s.mem s.p (totalSize (fitting (s.endp - s.p) items)) =
      allData (fitting (s.endp - s.p) items)) :
    Prog.wp (unpackItems (items.map Item.shape)) (fun values _ =>
      values = readBack (s.endp - s.p) items) s := by
  induction items generalizing s with
  | nil => rfl
  | cons item items ih =>
      simp only [List.map_cons, unpackItems, Prog.wp_bind, Shape.wp_unpack, Prog.wp_pure]
      rw [fitting] at hmem
      by_cases hfits : item.shape.size ≤ s.endp - s.p
      · have hend : s.p + item.shape.size ≤ s.endp := by omega
        rw [if_pos hfits, totalSize_cons, allData_cons, span_add] at hmem
        have hlength : (span s.mem s.p item.shape.size).length = item.data.toList.length := by
          simp
        obtain ⟨hitem, hrest⟩ := List.append_inj hmem hlength
        have hnext : s.next item.shape.size = item.data := by
          rw [← Vector.toList_inj, s.toList_next_of_fits hend, hitem]
        have hroom : (s.advance item.shape.size).endp - (s.advance item.shape.size).p =
            s.endp - s.p - item.shape.size := by
          simp [Nat.sub_sub]
        apply Prog.wp_mono (ih hend (by rw [hroom]; exact hrest))
        rintro values _ rfl
        rw [hnext, hroom, Item.decode_data]
        simp [readBack, fitting, hfits]
      · have hpast : s.endp < s.p + item.shape.size := by omega
        apply Prog.wp_mono (unpackItems_of_past items hpast)
        rintro values _ rfl
        rw [s.next_of_past hpast, Shape.decode_zero]
        simp [readBack, fitting, hfits]

/-! ## Both -/

theorem pack_unpack (items : List Item) (p sz : Nat) (hsz : sz < 2 ^ 31)
    (htotal : totalSize items < 2 ^ 31) (s : Bitstream) :
    Prog.wp (do
        rfPackInit p sz
        packItems items
        return (← rfPackConsumed, ← rfPackRemaining))
      (fun (consumed, remaining) s' =>
        consumed = totalSize items ∧ remaining = (sz : Int) - totalSize items ∧
        s'.mem = overlay s.mem p (allData (fitting sz items)) ∧
        (∀ a, a < p ∨ p + sz ≤ a → s'.mem a = s.mem a) ∧
        Prog.wp (do
            rfPackInit p sz
            unpackItems (items.map Item.shape))
          (fun values _ => values = readBack sz items) s') s := by
  have hfitting := totalSize_fitting_le sz items
  have hlength := length_allData (fitting sz items)
  simp only [rfPackInit, rfPackConsumed, rfPackRemaining, Prog.wp_bind, Prog.wp_modify,
    wp_packItems, Prog.wp_get, Prog.wp_pure, Bitstream.writeItems_p,
    Bitstream.writeItems_basep, Bitstream.writeItems_endp]
  have hmem := Bitstream.writeItems_mem items (s := { s with
    basep := p, p := p, endp := p + sz, asked := [] }) (Nat.le_add_right p sz)
  simp only [Nat.add_sub_cancel_left] at hmem
  refine ⟨?_, ?_, hmem, ?_, ?_⟩
  · rw [asInt_of_lt (by omega) (by omega)]
    omega
  · rw [asInt_of_lt (by omega) (by omega)]
    omega
  · intro a ha
    rw [hmem, overlay_apply_of_outside (by omega)]
  · have hroom : p + sz - p = sz := by omega
    apply Prog.wp_mono (unpackItems_spec items (Nat.le_add_right p sz) ?_)
    · rintro values _ rfl
      rw [hroom]
    · rw [hroom, hmem, ← length_allData, span_overlay]

def straddling : List Item := [.u16le 258, .bytes 0 #v[], .s32le (-2), .u16le 7]

theorem pack_unpack_straddling :
    Prog.wp (do
        rfPackInit 100 5
        packItems straddling
        return (← rfPackConsumed, ← rfPackRemaining))
      (fun (consumed, remaining) s =>
        consumed = 8 ∧ remaining = -3 ∧ s.mem = overlay Bitstream.blank.mem 100 [2, 1] ∧
        Prog.wp (do
            rfPackInit 100 5
            unpackItems (straddling.map Item.shape))
          (fun values _ => values = [.u16 258, .bytes 0 #v[], .u32 0, .u16 0]) s) .blank := by
  apply Prog.wp_mono (pack_unpack straddling 100 5 (by decide) (by decide) .blank)
  rintro ⟨consumed, remaining⟩ s ⟨hconsumed, hremaining, hmem, -, hunpack⟩
  refine ⟨hconsumed, hremaining, hmem, ?_⟩
  apply Prog.wp_mono hunpack
  rintro values _ rfl
  rfl

end Librfn
