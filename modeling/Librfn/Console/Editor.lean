import Mathlib.Data.List.Basic

/-!
# Two line editors

The editor that `console_run` is meant to be, and the one that it is.  A
character that is deleted stays in the buffer behind the line until it is typed
over, and `strlen` finds it there when the line is submitted.
-/

namespace Librfn

/-- The line being edited and the lines that were submitted. -/
structure Editor where
  line : List UInt8 := []
  lines : List (List UInt8) := []
  deriving DecidableEq, Repr

/-- The reference: what a byte does to a line. -/
def Editor.feed (e : Editor) (ch : UInt8) : Editor :=
  if ch = 10 then { line := [], lines := e.lines ++ [e.line] }
  else if ch = 8 then { e with line := e.line.dropLast }
  else if ch = 3 then { e with line := [] }
  else { e with line := e.line ++ [ch] }

def edit (bytes : List UInt8) : Editor := bytes.foldl Editor.feed {}

/-- The line up to `bufp`, and what was deleted and stands behind it. -/
structure BufferEditor where
  line : List UInt8 := []
  stale : List UInt8 := []
  lines : List (List UInt8) := []

def BufferEditor.buf (e : BufferEditor) : List UInt8 := e.line ++ e.stale

def BufferEditor.feed (e : BufferEditor) (ch : UInt8) : BufferEditor :=
  if ch = 10 then { lines := e.lines ++ [e.buf] }
  else if ch = 8 then
    { e with
      line := e.line.dropLast
      stale := e.line.getLast?.toList ++ e.stale }
  else if ch = 3 then { lines := e.lines }
  else { e with line := e.line ++ [ch], stale := e.stale.tail }

def bufferEdit (bytes : List UInt8) : BufferEditor :=
  bytes.foldl BufferEditor.feed {}

/-- Whenever a newline comes, the line is as long as the longest that it was
since it was last empty by a newline or by Ctrl-C. -/
def Refilled : Nat → Nat → List UInt8 → Prop
  | _, _, [] => True
  | length, longest, ch :: bytes =>
      if ch = 10 then length = longest ∧ Refilled 0 0 bytes
      else if ch = 8 then Refilled (length - 1) longest bytes
      else if ch = 3 then Refilled 0 0 bytes
      else Refilled (length + 1) (max longest (length + 1)) bytes

instance decidableRefilled : ∀ length longest bytes, Decidable (Refilled length longest bytes)
  | _, _, [] => inferInstanceAs (Decidable True)
  | length, longest, ch :: bytes =>
      have := decidableRefilled 0 0 bytes
      have := decidableRefilled (length - 1) longest bytes
      have := decidableRefilled (length + 1) (max longest (length + 1)) bytes
      inferInstanceAs (Decidable (if ch = 10 then _ else if ch = 8 then _
        else if ch = 3 then _ else _))

/-! ## The two agree on the line -/

theorem bufferFeed_line {e : Editor} {b : BufferEditor} (h : b.line = e.line)
    (ch : UInt8) : (b.feed ch).line = (e.feed ch).line := by
  unfold BufferEditor.feed Editor.feed
  split
  · rfl
  split
  · exact congrArg List.dropLast h
  split
  · rfl
  · exact congrArg (· ++ [ch]) h

theorem foldl_feed_line {e : Editor} {b : BufferEditor} (h : b.line = e.line)
    (bytes : List UInt8) :
    (bytes.foldl BufferEditor.feed b).line = (bytes.foldl Editor.feed e).line := by
  induction bytes generalizing e b with
  | nil => exact h
  | cons ch bytes ih => exact ih (bufferFeed_line h ch)

theorem bufferEdit_line (bytes : List UInt8) :
    (bufferEdit bytes).line = (edit bytes).line := foldl_feed_line rfl bytes

theorem dropLast_append_stale (line stale : List UInt8) :
    line.dropLast ++ (line.getLast?.toList ++ stale) = line ++ stale := by
  rcases List.eq_nil_or_concat line with rfl | ⟨init, last, rfl⟩
  · rfl
  · simp

/-! ## When they agree on the lines -/

theorem lines_eq_iff_refilled (bytes : List UInt8) {e : Editor}
    {b : BufferEditor} (hline : b.line = e.line) :
    (bytes.foldl BufferEditor.feed b).lines = (bytes.foldl Editor.feed e).lines ↔
      b.lines = e.lines ∧
        Refilled b.line.length b.buf.length bytes := by
  induction bytes generalizing e b with
  | nil => simp [Refilled]
  | cons ch bytes ih =>
      rw [List.foldl_cons, List.foldl_cons, ih (bufferFeed_line hline ch), Refilled]
      unfold BufferEditor.feed Editor.feed
      split
      · have hbuf : b.buf = e.line ↔ b.line.length = b.buf.length := by
          rw [← hline, BufferEditor.buf]
          simp [eq_comm]
        simp only [List.append_singleton_inj, hbuf]
        simp [BufferEditor.buf, and_assoc]
      split
      · simp [BufferEditor.buf, dropLast_append_stale]
      split
      · simp [BufferEditor.buf]
      · have hlength : (b.line ++ [ch] ++ b.stale.tail).length =
            max b.buf.length (b.line.length + 1) := by
          simp only [BufferEditor.buf, List.length_append, List.length_tail,
            List.length_singleton]
          omega
        simp only [BufferEditor.buf] at hlength ⊢
        rw [hlength, List.length_append, List.length_singleton]

theorem bufferEdit_lines_iff (bytes : List UInt8) :
    (bufferEdit bytes).lines = (edit bytes).lines ↔ Refilled 0 0 bytes := by
  have h := lines_eq_iff_refilled bytes (e := {}) (b := {}) rfl
  simpa [bufferEdit, edit, BufferEditor.buf] using h

/-! ## What is in the buffer -/

theorem BufferEditor.eq_of_buf_eq_nil {b : BufferEditor} (h : b.buf = []) :
    b = { lines := b.lines } := by
  obtain ⟨hline, hstale⟩ := List.append_eq_nil_iff.mp h
  cases b
  cases hline
  cases hstale
  rfl

theorem typed_getElem? (line stale : List UInt8) (ch : UInt8) (i : Nat) :
    (line ++ [ch] ++ stale.tail)[i]? =
      if i = line.length then some ch else (line ++ stale)[i]? := by
  rcases Nat.lt_trichotomy i line.length with hlt | rfl | hgt
  · rw [if_neg (by omega), List.append_assoc, List.getElem?_append_left hlt,
      List.getElem?_append_left hlt]
  · simp
  · obtain ⟨k, rfl⟩ : ∃ k, i = line.length + 1 + k := ⟨i - (line.length + 1), by omega⟩
    rw [if_neg (by omega), List.getElem?_append_right (by simp),
      List.getElem?_append_right (by omega), List.getElem?_tail]
    congr 1
    simp only [List.length_append, List.length_singleton]
    omega

theorem bufferFeed_ne_zero {b : BufferEditor} {ch : UInt8} (hch : ch ≠ 0)
    (h : ∀ x ∈ b.buf, x ≠ 0) : ∀ x ∈ (b.feed ch).buf, x ≠ 0 := by
  unfold BufferEditor.feed
  split
  · exact nofun
  split
  · rw [BufferEditor.buf, dropLast_append_stale]
    exact h
  split
  · exact nofun
  · intro x hx
    simp only [BufferEditor.buf, List.mem_append, List.mem_singleton] at h hx
    rcases hx with (hx | rfl) | hx
    · exact h x (.inl hx)
    · exact hch
    · exact h x (.inr (List.mem_of_mem_tail hx))

theorem bufferFeed_length {b : BufferEditor} {ch : UInt8} {size : Nat}
    (hbuf : b.buf.length < size) (hline : (b.feed ch).line.length < size) :
    (b.feed ch).buf.length < size := by
  unfold BufferEditor.feed at hline ⊢
  split
  · exact Nat.zero_lt_of_lt hbuf
  split
  · rw [BufferEditor.buf, dropLast_append_stale]
    exact hbuf
  split
  · exact Nat.zero_lt_of_lt hbuf
  · next h10 h8 h3 =>
      rw [if_neg h10, if_neg h8, if_neg h3] at hline
      simp only [BufferEditor.buf, List.length_append, List.length_tail,
        List.length_singleton] at hbuf hline ⊢
      omega

end Librfn
