import Mathlib.Algebra.Group.Nat.Even
import Mathlib.Algebra.Ring.Parity
import Mathlib.Data.List.DropRight

/-!
# Escaping

A text is escaped by an escape character in front of every special one.  Read
from the left, an escape character that is not escaped itself makes the next
character an ordinary one.
-/

namespace Librfn.Logic

variable {α : Type}

def escapeAll (esc : α) (special : α → Bool) (xs : List α) : List α :=
  xs.flatMap fun x => if special x then [esc, x] else [x]

section

variable {esc : α} {special : α → Bool}

@[simp] theorem escapeAll_nil : escapeAll esc special [] = [] := rfl

theorem escapeAll_special {x : α} (hx : special x = true) (xs : List α) :
    escapeAll esc special (x :: xs) = esc :: x :: escapeAll esc special xs := by
  simp [escapeAll, hx]

theorem escapeAll_plain {x : α} (hx : special x = false) (xs : List α) :
    escapeAll esc special (x :: xs) = x :: escapeAll esc special xs := by
  simp [escapeAll, hx]

theorem length_escapeAll_cons (x : α) (xs : List α) :
    (escapeAll esc special (x :: xs)).length =
      (if special x then 2 else 1) + (escapeAll esc special xs).length := by
  cases hx : special x with
  | false =>
      rw [escapeAll_plain hx, List.length_cons, Nat.add_comm]
      rfl
  | true =>
      rw [escapeAll_special hx, List.length_cons, List.length_cons, Nat.add_assoc, Nat.add_comm]
      rfl

theorem length_escapeAll (xs : List α) :
    (escapeAll esc special xs).length = xs.length + xs.countP special := by
  induction xs with
  | nil => rfl
  | cons x xs ih =>
      rw [length_escapeAll_cons, ih, List.countP_cons, List.length_cons]
      split <;> omega

theorem escapeAll_eq_self {xs : List α} (h : ∀ x ∈ xs, special x = false) :
    escapeAll esc special xs = xs := by
  induction xs with
  | nil => rfl
  | cons x xs ih =>
      rw [List.forall_mem_cons] at h
      rw [escapeAll_plain h.1, ih h.2]

theorem mem_escapeAll {c : α} {xs : List α} (h : c ∈ escapeAll esc special xs) :
    c = esc ∨ c ∈ xs := by
  obtain ⟨x, hx, hc⟩ := List.mem_flatMap.mp h
  split at hc
  · rcases List.mem_pair.mp hc with rfl | rfl
    · exact .inl rfl
    · exact .inr hx
  · exact .inr (List.mem_singleton.mp hc ▸ hx)

theorem ne_of_special {x y : α} (hy : special y = true) (hx : special x = false) : x ≠ y := by
  rintro rfl
  rw [hy] at hx
  cases hx

end

variable [DecidableEq α] {esc : α} {special : α → Bool}

/-! ## Reading an escaped text -/

/-- Every escape character that escapes something is removed. -/
def unescape (esc : α) : List α → List α
  | x :: y :: xs => if x = esc then y :: unescape esc xs else x :: unescape esc (y :: xs)
  | xs => xs

theorem unescape_escape (x : α) (xs : List α) :
    unescape esc (esc :: x :: xs) = x :: unescape esc xs := by
  rw [unescape, if_pos rfl]

theorem unescape_plain {x : α} (hx : x ≠ esc) (xs : List α) :
    unescape esc (x :: xs) = x :: unescape esc xs := by
  cases xs with
  | nil => rfl
  | cons y xs => rw [unescape, if_neg hx]

theorem unescape_escapeAll (hesc : special esc = true) (xs : List α) :
    unescape esc (escapeAll esc special xs) = xs := by
  induction xs with
  | nil => rfl
  | cons x xs ih =>
      cases hx : special x with
      | false => rw [escapeAll_plain hx, unescape_plain (ne_of_special hesc hx), ih]
      | true => rw [escapeAll_special hx, unescape_escape, ih]

/-- The text in front of the first `delim` that is not escaped, and what is behind it. -/
def readQuoted (esc delim : α) : List α → Option (List α × List α)
  | [] => none
  | x :: xs =>
      if x = delim then some ([], xs)
      else if x = esc then
        match xs with
        | [] => none
        | y :: ys => (readQuoted esc delim ys).map fun (text, rest) => (x :: y :: text, rest)
      else (readQuoted esc delim xs).map fun (text, rest) => (x :: text, rest)

theorem readQuoted_escape {delim : α} (hne : esc ≠ delim) (x : α) (xs : List α) :
    readQuoted esc delim (esc :: x :: xs) =
      (readQuoted esc delim xs).map fun (text, rest) => (esc :: x :: text, rest) := by
  rw [readQuoted, if_neg hne, if_pos rfl]

theorem readQuoted_plain {delim x : α} (hdelim : x ≠ delim) (hx : x ≠ esc) (xs : List α) :
    readQuoted esc delim (x :: xs) =
      (readQuoted esc delim xs).map fun (text, rest) => (x :: text, rest) := by
  cases xs with
  | nil => simp [readQuoted, hdelim, hx]
  | cons y xs => rw [readQuoted, if_neg hdelim, if_neg hx]

/-- An escaped text is closed by the delimiter behind it, and not before. -/
theorem readQuoted_escapeAll (hesc : special esc = true) {delim : α}
    (hdelim : special delim = true) (hne : esc ≠ delim) (xs rest : List α) :
    readQuoted esc delim (escapeAll esc special xs ++ delim :: rest) =
      some (escapeAll esc special xs, rest) := by
  induction xs with
  | nil =>
      rw [escapeAll_nil, List.nil_append, readQuoted.eq_def]
      exact if_pos rfl
  | cons x xs ih =>
      cases hx : special x with
      | false =>
          rw [escapeAll_plain hx, List.cons_append,
            readQuoted_plain (ne_of_special hdelim hx) (ne_of_special hesc hx), ih]
          rfl
      | true =>
          rw [escapeAll_special hx, List.cons_append, List.cons_append, readQuoted_escape hne, ih]
          rfl

/-! ## Runs of escape characters -/

def escapesNext (esc : α) (xs : List α) : Bool :=
  xs.foldl (fun pending x => !pending && decide (x = esc)) false

def trailingEscapes (esc : α) (xs : List α) : Nat := (xs.rtakeWhile (· = esc)).length

theorem escapesNext_iff (xs : List α) :
    escapesNext esc xs = true ↔ Odd (trailingEscapes esc xs) := by
  induction xs using List.reverseRecOn with
  | nil => simp [escapesNext, trailingEscapes]
  | append_singleton xs x ih =>
      unfold escapesNext trailingEscapes at ih ⊢
      rw [List.foldl_append, List.foldl_cons, List.foldl_nil]
      by_cases hx : x = esc
      · rw [List.rtakeWhile_concat_pos _ _ _ (by simpa using hx), List.length_append,
          List.length_singleton, Nat.odd_add_one, ← ih]
        simp [hx]
      · rw [List.rtakeWhile_concat_neg _ _ _ (by simpa using hx)]
        simp [hx]

theorem escapesNext_plain {x : α} (hx : x ≠ esc) (xs : List α) :
    escapesNext esc (x :: xs) = escapesNext esc xs := by
  simp [escapesNext, hx]

theorem escapesNext_escape (x : α) (xs : List α) :
    escapesNext esc (esc :: x :: xs) = escapesNext esc xs := by
  simp [escapesNext]

theorem escapesNext_of_special (hesc : special esc = true) {c : α} (hc : special c = true)
    (hne : c ≠ esc) {xs before after : List α}
    (h : escapeAll esc special xs = before ++ c :: after) : escapesNext esc before = true := by
  induction xs generalizing before with
  | nil => simp at h
  | cons x xs ih =>
      cases hx : special x with
      | false =>
          rw [escapeAll_plain hx] at h
          match before with
          | [] =>
              obtain ⟨rfl, -⟩ := List.cons.inj h
              rw [hx] at hc
              cases hc
          | b :: before =>
              obtain ⟨rfl, hrest⟩ := List.cons.inj h
              rw [escapesNext_plain (ne_of_special hesc hx)]
              exact ih hrest
      | true =>
          rw [escapeAll_special hx] at h
          match before with
          | [] => exact absurd (List.cons.inj h).1.symm hne
          | [b] =>
              rw [← (List.cons.inj h).1]
              simp [escapesNext]
          | b :: b' :: before =>
              obtain ⟨hb, hrest⟩ := List.cons.inj h
              rw [← hb, escapesNext_escape]
              exact ih (List.cons.inj hrest).2

end Librfn.Logic
