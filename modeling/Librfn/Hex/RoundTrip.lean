import Librfn.Hex

/-!
# Reading a dump

A text of pairs of digits with line breaks between them, and what the parser
makes of it.
-/

namespace Librfn

open Librfn.Logic

def hexPair (b : UInt8) : List UInt8 := [hexchar (b >>> 4), hexchar (b &&& 15)]

/-- The text is a dump of the bytes. -/
inductive Dump : List UInt8 → List UInt8 → Prop
  | nil : Dump [] []
  | byte {text bytes : List UInt8} (b : UInt8) (rest : Dump text bytes) :
      Dump (hexPair b ++ text) (b :: bytes)
  | newline {text bytes : List UInt8} (rest : Dump text bytes) : Dump (10 :: text) bytes

/-! ## Digits -/

/-- What the parser makes of a digit of the dump. -/
structure Digit (h c : UInt8) : Prop where
  isxdigit : isxdigit c = true
  isspace : isspace c = false
  nibble : nibble c = h.toUInt32.toInt32
  not_colon : c ≠ 58
  not_prefix : c ≠ 120
  not_end : c ≠ 0

theorem digit_hexchar {h : UInt8} (hh : h < 16) : Digit h (hexchar h) := by
  have hdigit : ∀ n : Fin 16, isxdigit (hexchar (.ofNat n)) = true ∧
      isspace (hexchar (.ofNat n)) = false ∧
      nibble (hexchar (.ofNat n)) = (UInt8.ofNat n).toUInt32.toInt32 ∧
      hexchar (.ofNat n) ≠ 58 ∧ hexchar (.ofNat n) ≠ 120 ∧ hexchar (.ofNat n) ≠ 0 := by
    decide
  have hsame := hdigit ⟨h.toNat, hh⟩
  simp only [UInt8.ofNat_toNat] at hsame
  obtain ⟨hx, hs, hn, hcolon, hprefix, hend⟩ := hsame
  exact ⟨hx, hs, hn, hcolon, hprefix, hend⟩

theorem digit_high (b : UInt8) : Digit (b >>> 4) (hexchar (b >>> 4)) := by
  have hb := b.toNat_lt
  apply digit_hexchar
  rw [UInt8.lt_iff_toNat_lt, UInt8.toNat_shiftRight]
  simp only [UInt8.reduceToNat, Nat.reduceMod, Nat.shiftRight_eq_div_pow]
  omega

theorem digit_low (b : UInt8) : Digit (b &&& 15) (hexchar (b &&& 15)) := by
  apply digit_hexchar
  rw [UInt8.lt_iff_toNat_lt, UInt8.toNat_and]
  exact Nat.lt_succ_of_le Nat.and_le_right

theorem join_nibbles (b : UInt8) :
    (16 : Int32) * (b >>> 4).toUInt32.toInt32 ||| (b &&& 15).toUInt32.toInt32 =
      b.toUInt32.toInt32 := by
  have hbyte : ∀ n : Fin 256,
      (16 : Int32) * (UInt8.ofNat n >>> 4).toUInt32.toInt32 |||
        (UInt8.ofNat n &&& 15).toUInt32.toInt32 = (UInt8.ofNat n).toUInt32.toInt32 := by
    decide +kernel
  have hsame := hbyte ⟨b.toNat, b.toNat_lt⟩
  rwa [UInt8.ofNat_toNat] at hsame

/-! ## The parser on a dump -/

theorem Dump.mem {text bytes : List UInt8} (h : Dump text bytes) {c : UInt8} (hc : c ∈ text) :
    c = 10 ∨ ∃ d, Digit d c := by
  induction h with
  | nil => simp at hc
  | byte b _ ih =>
      simp only [hexPair, List.cons_append, List.nil_append, List.mem_cons] at hc
      rcases hc with rfl | rfl | hrest
      · exact .inr ⟨_, digit_high b⟩
      · exact .inr ⟨_, digit_low b⟩
      · exact ih hrest
  | newline _ ih =>
      rcases List.mem_cons.mp hc with rfl | hrest
      · exact .inl rfl
      · exact ih hrest

theorem Dump.no_colon {text bytes : List UInt8} (h : Dump text bytes) : 58 ∉ text := by
  intro hc
  rcases h.mem hc with hnewline | ⟨d, hdigit⟩
  · exact absurd hnewline (by decide)
  · exact hdigit.not_colon rfl

theorem Dump.no_end {text bytes : List UInt8} (h : Dump text bytes) : 0 ∉ text := by
  intro hc
  rcases h.mem hc with hnewline | ⟨d, hdigit⟩
  · exact absurd hnewline (by decide)
  · exact hdigit.not_end rfl

theorem Dump.afterColon {text bytes : List UInt8} (h : Dump text bytes) :
    afterColon text = text := by
  rw [Librfn.afterColon, strchr_eq_none h.no_colon]

theorem hexGetByteFrom_newline {text bytes : List UInt8} (h : Dump text bytes) :
    hexGetByteFrom (10 :: text) = hexGetByteFrom text := by
  rw [hexGetByteFrom]
  simp [skipSpace, isspace, h.afterColon]

theorem hexGetByteFrom_byte (b : UInt8) (text : List UInt8) :
    hexGetByteFrom (hexPair b ++ text) = (b.toUInt32.toInt32, some text) := by
  have hhigh := digit_high b
  have hlow := digit_low b
  have hskip : skipSpace (hexPair b ++ text) = (hexPair b ++ text, false) := by
    simp [hexPair, skipSpace, hhigh.isspace]
  have hprefix : skipPrefix (hexPair b ++ text) = hexPair b ++ text := by
    simp [hexPair, skipPrefix, hlow.not_prefix]
  rw [hexGetByteFrom, ← join_nibbles]
  simp only [hskip, hprefix]
  simp [hexPair, hhigh.isxdigit, hlow.isxdigit, hhigh.nibble, hlow.nibble]

theorem hexGetByteFrom_nil : hexGetByteFrom [] = (-1, none) := by
  rw [hexGetByteFrom]
  simp [skipSpace, skipPrefix, isxdigit, strchr]

theorem Dump.hexGetByteFrom_cons {text bytes : List UInt8} {b : UInt8}
    (h : Dump text (b :: bytes)) : ∃ rest,
      hexGetByteFrom text = (b.toUInt32.toInt32, some rest) ∧ Dump rest bytes := by
  generalize hall : b :: bytes = all at h
  induction h with
  | nil => cases hall
  | byte _ hrest =>
      cases hall
      exact ⟨_, hexGetByteFrom_byte _ _, hrest⟩
  | newline hrest ih =>
      obtain ⟨rest, hcall, hdump⟩ := ih hall
      exact ⟨rest, (hexGetByteFrom_newline hrest).trans hcall, hdump⟩

theorem Dump.hexGetByteFrom_end {text : List UInt8} (h : Dump text []) :
    hexGetByteFrom text = (-1, none) := by
  generalize hall : [] = all at h
  induction h with
  | nil => exact hexGetByteFrom_nil
  | byte => cases hall
  | newline hrest ih => exact (hexGetByteFrom_newline hrest).trans (ih hall)

/-! ## Whole texts -/

def hexGetBytes : Nat → Option (List UInt8) → Option (List UInt8) → List Int32
  | 0, _, _ => []
  | n + 1, s, p => (hexGetByte s p).1 :: hexGetBytes n none (hexGetByte s p).2

theorem hexGetBytes_end (n : Nat) : hexGetBytes n none none = List.replicate n (-1) := by
  induction n with
  | zero => rfl
  | succ n ih => simp [hexGetBytes, hexGetByte, ih, List.replicate_succ]

theorem Dump.hexGetBytes {text bytes : List UInt8} (h : Dump text bytes) (k : Nat) :
    hexGetBytes (bytes.length + k) none (some text) =
      bytes.map (fun b => b.toUInt32.toInt32) ++ List.replicate k (-1) := by
  induction bytes generalizing text with
  | nil =>
      cases k with
      | zero => rfl
      | succ k =>
          simp [Librfn.hexGetBytes, hexGetByte, h.hexGetByteFrom_end, hexGetBytes_end,
            List.replicate_succ]
  | cons b bytes ih =>
      obtain ⟨rest, hcall, hdump⟩ := h.hexGetByteFrom_cons
      rw [List.length_cons, Nat.add_right_comm]
      simp [Librfn.hexGetBytes, hexGetByte, hcall, ih hdump]

theorem Dump.hexGetBytes_text {text bytes : List UInt8} (h : Dump text bytes) (n : Nat)
    (p : Option (List UInt8)) :
    Librfn.hexGetBytes n (some text) p = Librfn.hexGetBytes n none (some text) := by
  cases n with
  | zero => rfl
  | succ n => simp [Librfn.hexGetBytes, hexGetByte, h.afterColon]

theorem dump_dumpLine {rest : List UInt8} (i : Nat) (p : List UInt8)
    (h : Dump rest (dumpLine i p).2) : Dump ((dumpLine i p).1 ++ rest) p := by
  induction p generalizing i with
  | nil => simpa [dumpLine] using h
  | cons b p ih =>
      rw [dumpLine] at h ⊢
      split
      · rename_i hi
        rw [if_pos hi] at h
        exact .byte b (ih (i + 1) h)
      · rename_i hi
        rw [if_neg hi] at h
        exact h

theorem dump_dumpLines (p : List UInt8) : Dump (dumpLines p) p := by
  induction p using dumpLines.induct with
  | case1 =>
      rw [dumpLines]
      exact .nil
  | case2 b p ih =>
      rw [dumpLines]
      exact dump_dumpLine 0 (b :: p) (.newline ih)

theorem hexGetBytes_hexDumpToFile (bytes : List UInt8) (p : Option (List UInt8)) (k : Nat) :
    0 ∉ (hexDumpToFile bytes).1 ∧
      hexGetBytes (bytes.length + k) (some (hexDumpToFile bytes).1) p =
        bytes.map (fun b => b.toUInt32.toInt32) ++ List.replicate k (-1) := by
  have hdump := dump_dumpLines bytes
  rw [hexDumpToFile, hdump.hexGetBytes_text, hdump.hexGetBytes]
  exact ⟨hdump.no_end, rfl⟩

end Librfn
