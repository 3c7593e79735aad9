import Librfn.Logic.CString

/-!
# Allocated blocks

A heap as what was allocated on it, block after block.  A byte of a new block
is nothing until it is written, a block that was freed is nothing at all, and
whatever is nothing cannot be accessed.
-/

namespace Librfn.Logic

structure Blocks where
  blocks : List (Option (List (Option UInt8)))
  /-- The number of bytes in all the blocks that were ever allocated. -/
  allocated : Nat
  /-- The number of bytes written so far. -/
  written : Nat
  deriving DecidableEq, Repr

namespace Blocks

def block (h : Blocks) (b : Nat) : Option (List (Option UInt8)) := h.blocks[b]?.join

/-- A string at the start of block `b`. -/
structure CString (h : Blocks) (b : Nat) (text : List UInt8) : Prop where
  nul : 0 ∉ text
  block : ∃ rest, h.block b = some ((text ++ [0]).map some ++ rest)

def filled (h : Blocks) (size : Nat) (bytes : List UInt8) : Blocks where
  blocks := h.blocks ++ [some (bytes.map some ++ List.replicate (size - bytes.length) none)]
  allocated := h.allocated + size
  written := h.written + bytes.length

def without (h : Blocks) (b : Nat) : Blocks := { h with blocks := h.blocks.set b none }

end Blocks

/-! ## Access -/

def loadByte (p i : Nat) : Prog Blocks UInt8 := do
  match ((← get).block p).bind (·[i]?) with
  | some (some c) => return c
  | _ => throw .badPointer

def storeByte (p i : Nat) (c : UInt8) : Prog Blocks Unit := do
  match (← get).block p with
  | some bytes =>
      if bytes.length ≤ i then throw .badPointer
      modify fun h =>
        { h with
          blocks := h.blocks.set p (some (bytes.set i (some c)))
          written := h.written + 1 }
  | none => throw .badPointer

/-- The string at `p + i`, as `%s` reads it. -/
def loadString (p : Nat) : Nat → Nat → Prog Blocks (List UInt8)
  | 0, _ => throw .outOfFuel
  | fuel + 1, i => do
      let c ← loadByte p i
      if c = 0 then return []
      return c :: (← loadString p fuel (i + 1))

/-- Memory does not run out. -/
def malloc (size : Nat) : Prog Blocks Nat :=
  modifyGet fun h => (h.blocks.length, h.filled size [])

def free (p : Nat) : Prog Blocks Unit := do
  match (← get).block p with
  | some _ => modify fun h => h.without p
  | none => throw .badPointer

namespace Blocks

open Prog

variable {h : Blocks} {b : Nat} {text : List UInt8}

@[simp] theorem wp_malloc (size : Nat) (Q : Nat → Blocks → Prop) :
    wp (malloc size) Q h ↔ Q h.blocks.length (h.filled size []) := Iff.rfl

theorem block_of_ge (hb : h.blocks.length ≤ b) : h.block b = none := by
  rw [Blocks.block, List.getElem?_eq_none hb]
  rfl

theorem CString.lt (hs : h.CString b text) : b < h.blocks.length := by
  obtain ⟨rest, hblock⟩ := hs.block
  by_contra hge
  rw [block_of_ge (Nat.not_lt.mp hge)] at hblock
  cases hblock

theorem CString.ne_zero {before rest : List UInt8} {c : UInt8}
    (hs : h.CString b (before ++ c :: rest)) : c ≠ 0 := by
  rintro rfl
  exact hs.nul (by simp)

theorem CString.next {before rest : List UInt8} {c : UInt8}
    (hs : h.CString b (before ++ c :: rest)) : h.CString b ((before ++ [c]) ++ rest) := by
  rwa [List.append_cons] at hs

theorem CString.wp_loadByte {before rest : List UInt8} (hs : h.CString b (before ++ rest))
    (Q : UInt8 → Blocks → Prop) :
    wp (loadByte b before.length) Q h ↔ Q (charAt rest 0) h := by
  obtain ⟨more, hblock⟩ := hs.block
  have hread : (h.block b).bind (·[before.length]?) = some (some (charAt rest 0)) := by
    rw [hblock, Option.bind_some, List.append_assoc, List.map_append, List.append_assoc,
      List.getElem?_append_right (by simp), List.length_map, Nat.sub_self]
    cases rest <;> rfl
  simp only [loadByte, wp_bind, wp_get, hread, wp_pure]

theorem CString.wp_loadString {before rest : List UInt8} (hs : h.CString b (before ++ rest))
    {fuel : Nat} (hfuel : rest.length < fuel) (Q : List UInt8 → Blocks → Prop) :
    wp (loadString b fuel before.length) Q h ↔ Q rest h := by
  induction rest generalizing before fuel Q with
  | nil =>
      obtain ⟨fuel, rfl⟩ := Nat.exists_eq_add_of_lt hfuel
      rw [loadString, wp_bind, hs.wp_loadByte, charAt_nil, if_pos rfl, wp_pure]
  | cons c rest ih =>
      obtain ⟨fuel, rfl⟩ := Nat.exists_eq_add_of_lt hfuel
      have hrest (Q : List UInt8 → Blocks → Prop) :
          wp (loadString b ((c :: rest).length + fuel) (before.length + 1)) Q h ↔ Q rest h := by
        rw [← ih hs.next (Nat.lt_add_right fuel (Nat.lt_succ_self _)) Q, List.length_append,
          List.length_singleton, List.length_cons]
      rw [loadString, wp_bind, hs.wp_loadByte, charAt_cons_zero, if_neg hs.ne_zero, wp_bind,
        hrest, wp_pure]

theorem CString.wp_loadString_start (hs : h.CString b text) {fuel : Nat}
    (hfuel : text.length < fuel) (Q : List UInt8 → Blocks → Prop) :
    wp (loadString b fuel 0) Q h ↔ Q text h :=
  @CString.wp_loadString h b [] text hs fuel hfuel Q

theorem block_filled (hne : b ≠ h.blocks.length) (size : Nat) (bytes : List UInt8) :
    (h.filled size bytes).block b = h.block b := by
  rcases Nat.lt_or_gt_of_ne hne with hlt | hgt
  · rw [Blocks.block, filled, List.getElem?_append_left hlt]
    rfl
  · rw [block_of_ge (Nat.le_of_lt hgt)]
    refine block_of_ge ?_
    rw [filled, List.length_append, List.length_singleton]
    exact hgt

theorem CString.filled (hs : h.CString b text) (size : Nat) (bytes : List UInt8) :
    (h.filled size bytes).CString b text where
  nul := hs.nul
  block := by
    rw [block_filled (Nat.ne_of_lt hs.lt)]
    exact hs.block

theorem block_new (size : Nat) (bytes : List UInt8) :
    (h.filled size bytes).block h.blocks.length =
      some (bytes.map some ++ List.replicate (size - bytes.length) none) := by
  simp [Blocks.block, Blocks.filled]

theorem wp_storeByte_filled {size : Nat} {bytes : List UInt8} (hroom : bytes.length < size)
    (c : UInt8) (Q : Unit → Blocks → Prop) :
    wp (storeByte h.blocks.length bytes.length c) Q (h.filled size bytes) ↔
      Q () (h.filled size (bytes ++ [c])) := by
  have hset : (bytes.map some ++ List.replicate (size - bytes.length) none).set bytes.length
      (some c) =
        (bytes ++ [c]).map some ++ List.replicate (size - (bytes ++ [c]).length) none := by
    obtain ⟨k, rfl⟩ := Nat.exists_eq_add_of_lt hroom
    have hbefore : bytes.length + k + 1 - bytes.length = k + 1 := by omega
    have hafter : bytes.length + k + 1 - (bytes.length + 1) = k := by omega
    rw [List.set_append_right _ _ (by simp)]
    simp [hbefore, hafter, List.replicate_succ]
  have hlen : ¬ (bytes.map some ++ List.replicate (size - bytes.length) none).length ≤
      bytes.length := by
    simp only [List.length_append, List.length_map, List.length_replicate]
    omega
  have hnext : ({ h.filled size bytes with
      blocks := (h.filled size bytes).blocks.set h.blocks.length
        (some ((bytes ++ [c]).map some ++ List.replicate (size - (bytes ++ [c]).length) none))
      written := (h.filled size bytes).written + 1 } : Blocks) =
        h.filled size (bytes ++ [c]) := by
    simp [filled, Nat.add_assoc]
  simp only [storeByte, wp_bind, wp_get, block_new, if_neg hlen, wp_modify, hset]
  rw [hnext]

theorem CString.wp_free (hs : h.CString b text) (Q : Unit → Blocks → Prop) :
    wp (free b) Q h ↔ Q () (h.without b) := by
  obtain ⟨rest, hblock⟩ := hs.block
  simp only [free, wp_bind, wp_get, hblock, wp_modify]

theorem block_without_self : (h.without b).block b = none := by
  rw [Blocks.block, without, List.getElem?_set_self']
  cases h.blocks[b]? <;> rfl

theorem block_without {b' : Nat} (hne : b ≠ b') : (h.without b).block b' = h.block b' := by
  rw [Blocks.block, without, List.getElem?_set_ne hne]
  rfl

theorem CString.of_block (hnul : 0 ∉ text) (hblock : h.block b = some ((text ++ [0]).map some)) :
    h.CString b text :=
  ⟨hnul, [], by rw [hblock, List.append_nil]⟩

end Blocks

end Librfn.Logic
