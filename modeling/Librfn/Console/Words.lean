import Librfn.Console.Arguments

/-!
# Lines without quotes

The arguments of a line without quotes are its words, but the fourth is
everything from the start of the fourth word on.
-/

namespace Librfn

open Librfn.Logic

variable {W : Type}

def words (line : List UInt8) : List (List UInt8) :=
  (line.splitOnP isspace).filter (· ≠ [])

def fromWord : Nat → List UInt8 → List UInt8
  | 0, line => line.dropWhile isspace
  | n + 1, line => fromWord n ((line.dropWhile isspace).dropWhile (!isspace ·))

/-- The first words, and everything behind them as the last argument. -/
def wordArgs (more : Nat) (line : List UInt8) : List (List UInt8) :=
  if (words line).length ≤ more then words line
  else (words line).take more ++ [fromWord more line]

variable {b : UInt8} {rest : List UInt8}

theorem words_space (hb : isspace b = true) : words (b :: rest) = words rest := by
  simp [words, List.splitOnP_cons_eq_if_modifyHead, hb]

theorem words_word (hb : isspace b = false) :
    words (b :: rest) =
      (b :: rest.takeWhile (!isspace ·)) :: words (rest.dropWhile (!isspace ·)) := by
  have hword : ∀ x ∈ b :: rest.takeWhile (!isspace ·), isspace x = false := by
    intro x hx
    rcases List.mem_cons.mp hx with rfl | hx
    · exact hb
    · simpa using List.mem_takeWhile_imp hx
  have hne : b :: rest.takeWhile (!isspace ·) ≠ [] := List.cons_ne_nil _ _
  have hsplit : b :: rest = (b :: rest.takeWhile (!isspace ·)) ++
      rest.dropWhile (!isspace ·) := by simp
  rw [hsplit]
  generalize b :: rest.takeWhile (!isspace ·) = w at hword hne
  cases hrest : rest.dropWhile (!isspace ·) with
  | nil => simp [words, List.splitOnP_eq_singleton hword, hne]
  | cons sep rest' =>
      have hstop := List.head?_dropWhile_not (!isspace ·) rest
      rw [hrest] at hstop
      have hsep : isspace sep = true := by simpa using hstop
      rw [words_space hsep, words,
        List.splitOnP_append_cons_of_forall_mem hword sep hsep,
        List.filter_cons_of_pos (by simpa using hne), words]

theorem wordArgs_space (more : Nat) (hb : isspace b = true) :
    wordArgs more (b :: rest) = wordArgs more rest := by
  have hfrom : fromWord more (b :: rest) = fromWord more rest := by
    cases more <;> simp [fromWord, hb]
  rw [wordArgs, wordArgs, words_space hb, hfrom]

theorem wordArgs_last (hb : isspace b = false) :
    wordArgs 0 (b :: rest) = [b :: rest] := by
  simp [wordArgs, words_word hb, fromWord, hb]

theorem wordArgs_word (more : Nat) (hb : isspace b = false) :
    wordArgs (more + 1) (b :: rest) = (b :: rest.takeWhile (!isspace ·)) ::
      wordArgs more (rest.dropWhile (!isspace ·)) := by
  have hfrom : fromWord (more + 1) (b :: rest) =
      fromWord more (rest.dropWhile (!isspace ·)) := by
    simp [fromWord, hb]
  rw [wordArgs, wordArgs, words_word hb, hfrom, List.length_cons]
  simp only [Nat.add_le_add_iff_right, List.take_succ_cons, List.cons_append]
  split <;> rfl

theorem scan_takeWhile (more : Nat) (hne : 0 ∉ rest) :
    (scan more false 0 rest).1.takeWhile (· ≠ 0) = rest.takeWhile (!isspace ·) := by
  induction rest with
  | nil => rfl
  | cons b rest ih =>
      simp only [List.mem_cons, not_or] at hne
      have hb : b ≠ 0 := Ne.symm hne.1
      cases hspace : isspace b with
      | true => simp [scan, hspace]
      | false => simpa [scan, hspace, hb] using ih hne.2

theorem scan_words (more : Nat) (hne : 0 ∉ rest) (hsingle : 39 ∉ rest)
    (hdouble : 34 ∉ rest) :
    (scan more true 0 rest).2 = wordArgs more rest ∧
      (scan more false 0 rest).2 = wordArgs more (rest.dropWhile (!isspace ·)) := by
  induction rest generalizing more with
  | nil => simp [scan, wordArgs, words]
  | cons b rest ih =>
      simp only [List.mem_cons, not_or] at hne hsingle hdouble
      have hb : b ≠ 0 := Ne.symm hne.1
      have hquote : ¬ (b = 39 ∨ b = 34) := by
        rintro (rfl | rfl)
        · exact hsingle.1 rfl
        · exact hdouble.1 rfl
      have hih := fun more => ih more hne.2 hsingle.2 hdouble.2
      cases hspace : isspace b with
      | true => simp [scan, hspace, wordArgs_space, hih]
      | false =>
          constructor
          · cases more with
            | zero =>
                have hall : ∀ x ∈ rest, x ≠ 0 := fun x hx heq => hne.2 (heq ▸ hx)
                rw [wordArgs_last hspace]
                simpa [scan, hspace, hb, hquote] using hall
            | succ more =>
                rw [wordArgs_word more hspace, ← scan_takeWhile more hne.2,
                  ← (hih more).2]
                simp [scan, hspace, hb, hquote]
          · simp [scan, hspace, hb, hih]

theorem arguments_words (hspace : isspace b = false) (hne : 0 ∉ rest)
    (hsingle : 39 ∉ rest) (hdouble : 34 ∉ rest) (hb : b ≠ 0) :
    arguments (b :: rest) = wordArgs 3 (b :: rest) := by
  rw [wordArgs_word 2 hspace, ← scan_takeWhile 2 hne,
    ← (scan_words 2 hne hsingle hdouble).2]
  simp [arguments, hb]

/-- A line without quotes that starts with a word is split at white space. -/
theorem tokenize_words {c : Console W} (h : HoldsString c 0 (b :: rest))
    (hspace : isspace b = false) (hsingle : 39 ∉ b :: rest)
    (hdouble : 34 ∉ b :: rest) :
    ∃ c', doTokenize c = .ok (b :: rest, c') ∧
      c'.argc = min (words (b :: rest)).length 4 ∧
      (∀ k < 3, ∀ w, (words (b :: rest))[k]? = some w →
        HoldsString c' (c'.argv k) w) ∧
      (4 ≤ (words (b :: rest)).length →
        HoldsString c' (c'.argv 3) (fromWord 3 (b :: rest))) ∧
      ∀ k < 4, c'.argc ≤ k → HoldsString c' (c'.argv k) [] := by
  have hnul : 0 ∉ b :: rest := by
    intro hmem
    obtain ⟨k, hk, heq⟩ := List.mem_iff_getElem.mp hmem
    exact (h.2.2 k hk).2 heq
  simp only [List.mem_cons, not_or] at hnul hsingle hdouble
  obtain ⟨_, c', heq, rfl, hargc, hargv⟩ :=
    Prog.wp_iff_exists.mp (doTokenize_arguments h)
  rw [arguments_words hspace hnul.2 hsingle.2 hdouble.2 (Ne.symm hnul.1)] at hargc hargv
  have hlength : (wordArgs 3 (b :: rest)).length = min (words (b :: rest)).length 4 := by
    unfold wordArgs
    split
    · omega
    · rw [List.length_append, List.length_take, List.length_singleton]
      omega
  rw [hlength] at hargc
  refine ⟨c', heq, hargc, ?_, ?_, ?_⟩
  · intro k hk w hw
    have hfound := hargv k (by omega)
    obtain ⟨hlt, -⟩ := List.getElem?_eq_some_iff.mp hw
    unfold wordArgs at hfound
    split at hfound
    · simpa [hw] using hfound
    · rw [List.getElem?_append_left (by rw [List.length_take]; omega),
        List.getElem?_take_of_lt hk, hw] at hfound
      exact hfound
  · intro hmany
    have hfound := hargv 3 (by omega)
    have htake : ((words (b :: rest)).take 3).length = 3 := List.length_take_of_le (by omega)
    rw [wordArgs, if_neg (by omega), List.getElem?_append_right (Nat.le_of_eq htake), htake]
      at hfound
    exact hfound
  · intro k hk hbehind
    have hfound := hargv k hk
    rwa [List.getElem?_eq_none (by omega)] at hfound

/-- `ab  c d e ` has its fourth argument from `e` on. -/
theorem tokenize_words_four : ∃ c',
    doTokenize (typed [97, 98, 32, 32, 99, 32, 100, 32, 101, 32]) =
      .ok ([97, 98, 32, 32, 99, 32, 100, 32, 101, 32], c') ∧
    c'.argc = 4 ∧ HoldsString c' (c'.argv 3) [101, 32] := by
  obtain ⟨c', heq, hargc, -, hlast, -⟩ := tokenize_words
    (holdsString_typed [97, 98, 32, 32, 99, 32, 100, 32, 101, 32] (by decide) (by decide))
    (by decide) (by decide) (by decide)
  exact ⟨c', heq, hargc, hlast (by decide)⟩

end Librfn
