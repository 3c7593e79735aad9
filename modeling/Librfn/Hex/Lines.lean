import Librfn.Hex.RoundTrip

/-!
# Lines

What one line of a text has to do with the next.  The parser looks for a colon
in everything that follows, so the address of a later line hides the bytes of
the lines before it.
-/

namespace Librfn

open Librfn.Logic

def hexBytes (text : List UInt8) : List Int32 :=
  (hexGetBytes (text.length + 1) (some text) none).takeWhile (· ≠ -1)

/-- The values that the parser gives from a cursor on. -/
inductive Parses : List UInt8 → List Int32 → Prop
  | last {s : List UInt8} (h : hexGetByteFrom s = (-1, none)) : Parses s []
  | byte {s t : List UInt8} {b : Int32} {bytes : List Int32}
      (h : hexGetByteFrom s = (b, some t)) (rest : Parses t bytes) : Parses s (b :: bytes)

theorem exists_parses (s : List UInt8) : ∃ bytes, Parses s bytes := by
  induction hn : s.length using Nat.strongRecOn generalizing s with
  | ind n ih =>
      subst hn
      rcases hexGetByteFrom_spec s with ⟨b, t, hcall, -, hless⟩ | hcall
      · obtain ⟨bytes, hrest⟩ := ih t.length hless t rfl
        exact ⟨b :: bytes, .byte hcall hrest⟩
      · exact ⟨[], .last hcall⟩

variable {s line rest : List UInt8} {bytes bytes' : List Int32}

theorem Parses.length_le (h : Parses s bytes) : bytes.length ≤ s.length := by
  induction h with
  | last h => simp
  | byte h rest ih =>
      rename_i s t b bytes
      rcases hexGetByteFrom_spec s with ⟨b', t', hcall, -, hless⟩ | hcall
      · cases h.symm.trans hcall
        rw [List.length_cons]
        omega
      · cases h.symm.trans hcall

theorem Parses.ne_error (h : Parses s bytes) : ∀ b ∈ bytes, b ≠ -1 := by
  induction h with
  | last h => simp
  | byte h rest ih =>
      rename_i s t b bytes
      rcases hexGetByteFrom_spec s with ⟨b', t', hcall, hrange, -⟩ | hcall
      · cases h.symm.trans hcall
        intro c hc
        rcases List.mem_cons.mp hc with rfl | hc
        · rintro rfl
          exact absurd hrange.1 (by decide)
        · exact ih c hc
      · cases h.symm.trans hcall

theorem Parses.calls (h : Parses s bytes) (k : Nat) :
    hexGetBytes (bytes.length + k) none (some s) = bytes ++ List.replicate k (-1) := by
  induction h with
  | last h =>
      cases k with
      | zero => rfl
      | succ k => simp [hexGetBytes, hexGetByte, h, hexGetBytes_end, List.replicate_succ]
  | byte h rest ih =>
      rw [List.length_cons, Nat.add_right_comm]
      simp [hexGetBytes, hexGetByte, h, ih]

theorem Parses.values {text : List UInt8} (h : Parses (afterColon text) bytes) :
    hexBytes text = bytes := by
  have hlength := h.length_le
  have hcolon := length_afterColon text
  obtain ⟨k, hk⟩ : ∃ k, text.length + 1 = bytes.length + (k + 1) :=
    ⟨text.length - bytes.length, by omega⟩
  have hcalls : hexGetBytes (text.length + 1) (some text) none =
      hexGetBytes (text.length + 1) none (some (afterColon text)) := rfl
  rw [hexBytes, hcalls, hk, h.calls,
    List.takeWhile_append_of_pos (by simpa using h.ne_error)]
  simp [List.replicate_succ]

/-- However many calls there are, they give the values and then `-1`. -/
theorem hexGetBytes_hexBytes (text : List UInt8) (p : Option (List UInt8)) (k : Nat) :
    hexGetBytes ((hexBytes text).length + (k + 1)) (some text) p =
      hexBytes text ++ List.replicate (k + 1) (-1) := by
  obtain ⟨bytes, h⟩ := exists_parses (afterColon text)
  rw [h.values, ← h.calls]
  rfl

/-! ## The parser at the end of a line -/

theorem skipSpace_append (rest : List UInt8) (h : 10 ∉ line) : skipSpace (line ++ rest) =
    if line.dropWhile isspace = [] then skipSpace rest
    else (line.dropWhile isspace ++ rest, false) := by
  induction line with
  | nil => rfl
  | cons b line ih =>
      simp only [List.mem_cons, not_or] at h
      cases hspace : isspace b with
      | true => simp [skipSpace, hspace, Ne.symm h.1, ih h.2]
      | false => simp [skipSpace, hspace]

theorem skipSpace_line (h : 10 ∉ line) : skipSpace line = (line.dropWhile isspace, false) := by
  have hall := skipSpace_append [] h
  rw [List.append_nil, List.append_nil] at hall
  rw [hall]
  split
  · next hnil => rw [hnil, skipSpace]
  · rfl

theorem skipPrefix_append (rest : List UInt8) (h : line ≠ []) :
    skipPrefix (line ++ 10 :: rest) = skipPrefix line ++ 10 :: rest := by
  rcases line with _ | ⟨b, _ | ⟨c, line⟩⟩
  · exact absurd rfl h
  · simp [skipPrefix]
  · by_cases hx : b = 48 ∧ c = 120
    · simp [skipPrefix, hx]
    · simp [skipPrefix, hx]

theorem strchr_append_of_mem {c : UInt8} (h : c ∉ line) :
    strchr c (line ++ c :: rest) = some (c :: rest) := by
  induction line with
  | nil => simp [strchr]
  | cons b line ih =>
      simp only [List.mem_cons, not_or] at h
      rw [List.cons_append, strchr, if_neg (Ne.symm h.1), ih h.2]

theorem mem_of_mem_skipPrefix {c : UInt8} (h : c ∈ skipPrefix s) : c ∈ s := by
  unfold skipPrefix at h
  split at h
  · exact List.mem_of_mem_drop h
  · exact h

theorem digits_append {q : List UInt8} :
    isxdigit (charAt (q ++ 10 :: rest) 0) ∧ isxdigit (charAt (q ++ 10 :: rest) 1) ↔
      isxdigit (charAt q 0) ∧ isxdigit (charAt q 1) := by
  rcases q with _ | ⟨b, _ | ⟨c, q⟩⟩
  · simp [isxdigit]
  · simp [isxdigit]
  · simp

theorem hexGetByteFrom_append (rest : List UInt8) (h : 10 ∉ line) :
    (∃ b t, hexGetByteFrom line = (b, some t) ∧ StartsWithByte line ∧ 10 ∉ t ∧
      hexGetByteFrom (line ++ 10 :: rest) = (b, some (t ++ 10 :: rest))) ∨
    hexGetByteFrom line = (-1, none) ∧ ¬StartsWithByte line ∧
      hexGetByteFrom (line ++ 10 :: rest) = hexGetByteFrom (afterColon rest) := by
  have hline := skipSpace_line h
  have hall := skipSpace_append (10 :: rest) h
  have hnone : 10 ∉ skipPrefix (line.dropWhile isspace) := fun hmem =>
    h ((List.dropWhile_sublist _).subset (mem_of_mem_skipPrefix hmem))
  have hlast : ¬StartsWithByte line → hexGetByteFrom line = (-1, none) := by
    intro hbyte
    rw [hexGetByteFrom_of_garbage (by simp [hline]) hbyte, hline, strchr_eq_none hnone]
  by_cases hq : line.dropWhile isspace = []
  · rw [if_pos hq] at hall
    have hbyte : ¬StartsWithByte line := by simp [StartsWithByte, hline, hq, skipPrefix, isxdigit]
    refine .inr ⟨hlast hbyte, hbyte, ?_⟩
    have hnext : skipSpace (10 :: rest) = (rest, true) := rfl
    rw [hnext] at hall
    rw [hexGetByteFrom_of_newline (by rw [hall]), hall]
  · rw [if_neg hq] at hall
    have hprefix := skipPrefix_append rest hq
    have hsame : StartsWithByte (line ++ 10 :: rest) ↔ StartsWithByte line := by
      rw [StartsWithByte, StartsWithByte, hall, hline, hprefix, digits_append]
    by_cases hbyte : StartsWithByte line
    · have hgo := hexGetByteFrom_of_byte (by simp [hline]) hbyte
      have hgoAll := hexGetByteFrom_of_byte (by simp [hall]) (hsame.mpr hbyte)
      have htwo := two_le_length hbyte.1 hbyte.2
      rw [hline] at hgo htwo
      rw [hall, hprefix] at hgoAll
      generalize skipPrefix (line.dropWhile isspace) = q at *
      rcases q with _ | ⟨b, _ | ⟨c, q⟩⟩
      · simp at htwo
      · simp at htwo
      · refine .inl ⟨_, _, hgo, hbyte, ?_, hgoAll⟩
        intro hmem
        exact hnone (List.mem_of_mem_drop hmem)
    · refine .inr ⟨hlast hbyte, hbyte, ?_⟩
      rw [hexGetByteFrom_of_garbage (by simp [hall]) (hsame.not.mpr hbyte), hall, hprefix,
        strchr_append_of_mem hnone]
      rfl

theorem Parses.congr {t : List UInt8} (h : Parses t bytes)
    (heq : hexGetByteFrom s = hexGetByteFrom t) : Parses s bytes := by
  cases h with
  | last h => exact .last (heq.trans h)
  | byte h hrest => exact .byte (heq.trans h) hrest

theorem Parses.append (h : Parses line bytes) (hline : 10 ∉ line)
    (hrest : Parses (afterColon rest) bytes') :
    Parses (line ++ 10 :: rest) (bytes ++ bytes') := by
  induction h with
  | last h =>
      rename_i line
      rcases hexGetByteFrom_append rest hline with
        ⟨b, t, hcall, -⟩ | ⟨-, -, hnext⟩
      · cases h.symm.trans hcall
      · exact hrest.congr hnext
  | byte h _ ih =>
      rename_i line t b bytes _
      rcases hexGetByteFrom_append rest hline with
        ⟨b, t, hcall, -, ht, hnext⟩ | ⟨hcall, -⟩
      · cases h.symm.trans hcall
        exact .byte hnext (ih ht)
      · cases h.symm.trans hcall

/-! ## Colons -/

theorem afterColon_of_not_mem (h : 58 ∉ s) : afterColon s = s := by
  rw [afterColon, strchr_eq_none h]

theorem afterColon_append (rest : List UInt8) (h : 58 ∉ s) :
    afterColon (s ++ 58 :: rest) = rest := by
  rw [afterColon, strchr_append_of_mem h]
  rfl

theorem hexBytes_append (h : 10 ∉ line) (hcolon : 58 ∈ line ∨ 58 ∉ rest) :
    hexBytes (line ++ 10 :: rest) = hexBytes line ++ hexBytes rest := by
  obtain ⟨bytes, hline⟩ := exists_parses (afterColon line)
  obtain ⟨bytes', hrest⟩ := exists_parses (afterColon rest)
  rw [hline.values, hrest.values]
  apply Parses.values
  by_cases hmem : 58 ∈ line
  · obtain ⟨pre, post, rfl, hpre⟩ := List.eq_append_cons_of_mem hmem
    simp only [List.mem_append, List.mem_cons, not_or] at h
    rw [List.append_assoc, List.cons_append, afterColon_append _ hpre]
    rw [afterColon_append _ hpre] at hline
    exact hline.append h.2.2 hrest
  · have hnone : 58 ∉ line ++ 10 :: rest := by simpa [hmem] using hcolon
    rw [afterColon_of_not_mem hnone]
    rw [afterColon_of_not_mem hmem] at hline
    exact hline.append h hrest

/-- A colon in what follows hides a line without one. -/
theorem hexBytes_hidden (hline : 58 ∉ line) (hrest : 58 ∈ rest) :
    hexBytes (line ++ 10 :: rest) = hexBytes rest := by
  obtain ⟨bytes, h⟩ := exists_parses (afterColon rest)
  rw [h.values]
  apply Parses.values
  obtain ⟨pre, post, rfl, hpre⟩ := List.eq_append_cons_of_mem hrest
  have hnone : 58 ∉ line ++ 10 :: pre := by simp [hline, hpre]
  have hall := afterColon_append post hnone
  rw [List.append_assoc, List.cons_append] at hall
  rw [hall]
  rwa [afterColon_append _ hpre] at h

theorem hexBytes_eq_nil_iff (h : 10 ∉ line) (hcolon : 58 ∉ line) :
    hexBytes line = [] ↔ ¬StartsWithByte line := by
  obtain ⟨bytes, hline⟩ := exists_parses line
  have hvalues := hline
  rw [← afterColon_of_not_mem hcolon] at hvalues
  rw [hvalues.values]
  rcases hexGetByteFrom_append [] h with ⟨b, t, hcall, hbyte, -⟩ | ⟨hcall, hbyte, -⟩
  · cases hline with
    | last h => cases h.symm.trans hcall
    | byte _ _ => simp [hbyte]
  · cases hline with
    | last _ => simp [hbyte]
    | byte h _ => cases h.symm.trans hcall

theorem hex_line_local_iff (line rest : List UInt8) (h : 10 ∉ line) :
    hexBytes (line ++ 10 :: rest) = hexBytes line ++ hexBytes rest ↔
      58 ∈ line ∨ 58 ∉ rest ∨ ¬StartsWithByte line := by
  by_cases hline : 58 ∈ line
  · simp [hline, hexBytes_append h (.inl hline)]
  by_cases hrest : 58 ∈ rest
  · simp [hline, hrest, hexBytes_hidden hline hrest, hexBytes_eq_nil_iff h hline]
  · simp [hrest, hexBytes_append h (.inr hrest)]

/-- `41` before a line with the address `0:`. -/
theorem hex_line_local_hidden :
    hexBytes ([52, 49] ++ 10 :: [48, 58, 32, 52, 50]) ≠
      hexBytes [52, 49] ++ hexBytes [48, 58, 32, 52, 50] := by
  have hsome : hexBytes [52, 49] ≠ [] := by
    rw [Ne, hexBytes_eq_nil_iff (by decide) (by decide)]
    decide
  rw [hexBytes_hidden (by decide) (by decide)]
  simpa using hsome.symm

theorem hex_line_local_pair :
    hexBytes ([52, 49] ++ 10 :: [52, 50]) = hexBytes [52, 49] ++ hexBytes [52, 50] :=
  (hex_line_local_iff [52, 49] [52, 50] (by decide)).mpr (by decide)

end Librfn
