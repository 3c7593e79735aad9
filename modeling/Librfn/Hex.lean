import Librfn.Logic.CString

/-!
# Hex dumps

`hex.c`.  What is written to the file is a list of characters.  The parser
reads strings and keeps its place in a cursor of the caller.
-/

namespace Librfn

open Librfn.Logic

/-! ## Dumping -/

def hexchar (h : UInt8) : UInt8 := if h < 10 then 48 + h else 97 - 10 + h

/-- The inner loop of `hex_dump_to_file`, and the bytes that are left. -/
def dumpLine (i : Nat) : List UInt8 → List UInt8 × List UInt8
  | [] => ([], [])
  | b :: p =>
      if i < 16 then
        let (line, rest) := dumpLine (i + 1) p
        (hexchar (b >>> 4) :: hexchar (b &&& 15) :: line, rest)
      else ([], b :: p)

theorem length_dumpLine (i : Nat) (p : List UInt8) : (dumpLine i p).2.length ≤ p.length := by
  induction p generalizing i with
  | nil => simp [dumpLine]
  | cons b p ih =>
      have hrest := ih (i + 1)
      rw [dumpLine]
      split
      · simp only [List.length_cons]
        omega
      · simp

def dumpLines : List UInt8 → List UInt8
  | [] => []
  | b :: p => (dumpLine 0 (b :: p)).1 ++ 10 :: dumpLines (dumpLine 0 (b :: p)).2
termination_by p => p.length
decreasing_by
  have hrest := length_dumpLine (0 + 1) p
  simp only [dumpLine, Nat.zero_lt_succ, if_true, List.length_cons]
  omega

def hexDumpToFile (p : List UInt8) : List UInt8 × Int32 := (dumpLines p, .ofNat p.length)

/-! ## Parsing -/

def nibble (h : UInt8) : Int32 :=
  if h ≤ 57 then h.toUInt32.toInt32 - 48
  else (h.toUInt32.toInt32 &&& ~~~(97 - 65)) - 65 + 10

/-- The search for a colon at `next_line`. -/
def afterColon (s : List UInt8) : List UInt8 :=
  match strchr 58 s with
  | some q => q.drop 1
  | none => s

/-- The loop over white space, and whether it stops behind a line break. -/
def skipSpace : List UInt8 → List UInt8 × Bool
  | [] => ([], false)
  | b :: s =>
      if isspace b then
        if b = 10 then (s, true) else skipSpace s
      else (b :: s, false)

theorem length_afterColon (s : List UInt8) : (afterColon s).length ≤ s.length := by
  unfold afterColon
  split
  · rename_i q hq
    have hle := length_strchr hq
    simp only [List.length_drop]
    omega
  · exact Nat.le_refl _

theorem length_skipSpace (s : List UInt8) :
    (skipSpace s).1.length + (skipSpace s).2.toNat ≤ s.length := by
  induction s with
  | nil => simp [skipSpace]
  | cons b s ih =>
      rw [skipSpace]
      split
      · split
        · simp
        · simp only [List.length_cons]
          omega
      · simp

def skipPrefix (s : List UInt8) : List UInt8 :=
  if charAt s 0 = 48 ∧ charAt s 1 = 120 then s.drop 2 else s

theorem length_skipPrefix (s : List UInt8) : (skipPrefix s).length ≤ s.length := by
  unfold skipPrefix
  split
  · simp
  · exact Nat.le_refl _

/-- The parser behind the choice of `s`: the result and the new cursor.  The
cursor is set again behind every jump to `next_line`. -/
def hexGetByteFrom (s : List UInt8) : Int32 × Option (List UInt8) :=
  if (skipSpace s).2 then hexGetByteFrom (afterColon (skipSpace s).1)
  else
    let q := skipPrefix (skipSpace s).1
    if isxdigit (charAt q 0) ∧ isxdigit (charAt q 1) then
      (16 * nibble (charAt q 0) ||| nibble (charAt q 1), some (q.drop 2))
    else
      match h : strchr 10 q with
      | some line => hexGetByteFrom (afterColon (line.drop 1))
      | none => (-1, none)
termination_by s.length
decreasing_by
  · rename_i hnewline
    have hskip := length_skipSpace s
    have hcolon := length_afterColon (skipSpace s).1
    rw [hnewline, Bool.toNat_true] at hskip
    omega
  · have hskip := length_skipSpace s
    have hprefix := length_skipPrefix (skipSpace s).1
    have hline := length_strchr h
    have hcolon := length_afterColon (line.drop 1)
    rw [List.length_drop] at hcolon
    simp only [q] at hline
    omega

/-- `p` is what the cursor points to. -/
def hexGetByte (s p : Option (List UInt8)) : Int32 × Option (List UInt8) :=
  match s with
  | some s => hexGetByteFrom (afterColon s)
  | none =>
      match p with
      | none => (-1, p)
      | some s => hexGetByteFrom s

/-! ## What a call does -/

theorem nibble_eq_ofNat {c : UInt8} (h : isxdigit c = true) :
    ∃ k : Fin 16, nibble c = .ofNat k := by
  have hdigit : ∀ n : Fin 256, isxdigit (.ofNat n) = true →
      ∃ k : Fin 16, nibble (.ofNat n) = .ofNat k := by
    decide +kernel
  have hsame := hdigit ⟨c.toNat, c.toNat_lt⟩
  rw [UInt8.ofNat_toNat] at hsame
  exact hsame h

theorem join_digits {high low : UInt8} (hhigh : isxdigit high = true)
    (hlow : isxdigit low = true) :
    0 ≤ (16 * nibble high ||| nibble low) ∧ (16 * nibble high ||| nibble low) ≤ 255 := by
  have hjoin : ∀ i j : Fin 16, 0 ≤ ((16 : Int32) * .ofNat i ||| .ofNat j) ∧
      ((16 : Int32) * .ofNat i ||| .ofNat j) ≤ 255 := by
    decide +kernel
  obtain ⟨i, hi⟩ := nibble_eq_ofNat hhigh
  obtain ⟨j, hj⟩ := nibble_eq_ofNat hlow
  rw [hi, hj]
  exact hjoin i j

theorem two_le_length {s : List UInt8} (hhigh : isxdigit (charAt s 0) = true)
    (hlow : isxdigit (charAt s 1) = true) : 2 ≤ s.length := by
  match s with
  | [] => simp [isxdigit] at hhigh
  | [b] => simp [isxdigit] at hlow
  | _ :: _ :: _ => simp

def StartsWithByte (s : List UInt8) : Prop :=
  isxdigit (charAt (skipPrefix (skipSpace s).1) 0) ∧
    isxdigit (charAt (skipPrefix (skipSpace s).1) 1)

instance (s : List UInt8) : Decidable (StartsWithByte s) := inferInstanceAs (Decidable (_ ∧ _))

theorem hexGetByteFrom_of_newline {s : List UInt8} (h : (skipSpace s).2 = true) :
    hexGetByteFrom s = hexGetByteFrom (afterColon (skipSpace s).1) := by
  rw [hexGetByteFrom, if_pos h]

theorem hexGetByteFrom_of_byte {s : List UInt8} (hline : ¬(skipSpace s).2 = true)
    (h : StartsWithByte s) : hexGetByteFrom s =
      (16 * nibble (charAt (skipPrefix (skipSpace s).1) 0) |||
        nibble (charAt (skipPrefix (skipSpace s).1) 1),
        some ((skipPrefix (skipSpace s).1).drop 2)) := by
  rw [hexGetByteFrom, if_neg hline]
  exact if_pos h

theorem hexGetByteFrom_of_garbage {s : List UInt8} (hline : ¬(skipSpace s).2 = true)
    (h : ¬StartsWithByte s) : hexGetByteFrom s =
      match strchr 10 (skipPrefix (skipSpace s).1) with
      | some line => hexGetByteFrom (afterColon (line.drop 1))
      | none => (-1, none) := by
  rw [hexGetByteFrom, if_neg hline]
  refine (if_neg h).trans ?_
  split <;> rename_i hfound <;> simp [hfound]

/-- A call takes two digits or is the last one. -/
theorem hexGetByteFrom_spec (s : List UInt8) :
    (∃ b t, hexGetByteFrom s = (b, some t) ∧ (0 ≤ b ∧ b ≤ 255) ∧ t.length < s.length) ∨
      hexGetByteFrom s = (-1, none) := by
  induction hn : s.length using Nat.strongRecOn generalizing s with
  | ind n ih =>
      subst hn
      have hskip := length_skipSpace s
      have hprefix := length_skipPrefix (skipSpace s).1
      by_cases hline : (skipSpace s).2 = true
      · rw [hexGetByteFrom_of_newline hline]
        have hcolon := length_afterColon (skipSpace s).1
        rw [hline, Bool.toNat_true] at hskip
        rcases ih (afterColon (skipSpace s).1).length (by omega) _ rfl with
          ⟨b, t, hcall, hb, ht⟩ | hcall
        · exact .inl ⟨b, t, hcall, hb, by omega⟩
        · exact .inr hcall
      · by_cases hbyte : StartsWithByte s
        · have htwo := two_le_length hbyte.1 hbyte.2
          refine .inl ⟨_, _, hexGetByteFrom_of_byte hline hbyte, join_digits hbyte.1 hbyte.2, ?_⟩
          rw [List.length_drop]
          omega
        · rw [hexGetByteFrom_of_garbage hline hbyte]
          split
          · rename_i line hfound
            have hrest := length_strchr hfound
            have hcolon := length_afterColon (line.drop 1)
            rw [List.length_drop] at hcolon
            rcases ih (afterColon (line.drop 1)).length (by omega) _ rfl with
              ⟨b, t, hcall, hb, ht⟩ | hcall
            · exact .inl ⟨b, t, hcall, hb, by omega⟩
            · exact .inr hcall
          · exact .inr rfl

end Librfn
