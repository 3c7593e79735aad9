import Librfn.ConsoleRing
import Librfn.Ringbuf.Contents

/-!
# The recent lines

What the ring buffer holds is the end of what was logged.  Only whole lines
leave it as long as it has a newline in it when it is full.
-/

namespace Librfn

open Librfn.Logic Prog

def nextLines (bytes : List UInt8) : List UInt8 := (bytes.dropWhile (· ≠ 10)).tail

@[simp] theorem nextLines_newline (bytes : List UInt8) : nextLines (10 :: bytes) = bytes := by
  simp [nextLines]

@[simp] theorem nextLines_cons {b : UInt8} (hb : b ≠ 10) (bytes : List UInt8) :
    nextLines (b :: bytes) = nextLines bytes := by
  simp [nextLines, hb]

theorem nextLines_suffix (bytes : List UInt8) : nextLines bytes <:+ bytes :=
  (List.tail_suffix _).trans (List.dropWhile_suffix _)

theorem length_nextLines {bytes : List UInt8} (h : bytes ≠ []) :
    (nextLines bytes).length < bytes.length := by
  have hle := (List.dropWhile_suffix (p := (· ≠ (10 : UInt8))) (l := bytes)).length_le
  have hpos := List.length_pos_iff.mpr h
  rw [nextLines, List.length_tail]
  omega

theorem exists_discarded {bytes : List UInt8} (h : 10 ∈ bytes) :
    ∃ line, bytes = line ++ [10] ++ nextLines bytes := by
  induction bytes with
  | nil => cases h
  | cons b bytes ih =>
      by_cases hb : b = 10
      · subst hb
        exact ⟨[], by simp⟩
      · obtain ⟨line, hline⟩ := ih (List.mem_of_ne_of_mem (Ne.symm hb) h)
        refine ⟨b :: line, ?_⟩
        rw [nextLines_cons hb]
        exact congrArg (b :: ·) hline

theorem discardLine_succ {rb rest : Ringbuf} {discard : Int}
    (h : ringbufGet rb = .ok (discard, rest)) (fuel : Nat) :
    discardLine (fuel + 1) rb =
      (if discard ≠ -1 ∧ discard ≠ 10 then discardLine fuel else pure ()) rest := by
  rw [discardLine]
  change (ringbufGet rb >>= fun p => _) = _
  rw [h]
  rfl

theorem discardLine_spec {rb : Ringbuf} {bytes : List UInt8} (h : rb.Contains bytes) :
    ∃ rb', (∀ fuel, bytes.length < fuel → discardLine fuel rb = .ok ((), rb')) ∧
      rb'.Contains (nextLines bytes) ∧ rb'.bufLen = rb.bufLen := by
  induction bytes generalizing rb with
  | nil =>
      refine ⟨rb, fun fuel hfuel => ?_, h, rfl⟩
      obtain ⟨fuel, rfl⟩ : ∃ k, fuel = k + 1 := ⟨fuel - 1, by omega⟩
      rw [discardLine_succ (Ringbuf.ringbufGet_nil h), if_neg (by simp)]
      rfl
  | cons b bytes ih =>
      obtain ⟨rest, hget, hrest, hlen⟩ := Ringbuf.ringbufGet_cons h
      by_cases hb : b = 10
      · subst hb
        refine ⟨rest, fun fuel hfuel => ?_, by rwa [nextLines_newline], hlen⟩
        obtain ⟨fuel, rfl⟩ : ∃ k, fuel = k + 1 := ⟨fuel - 1, by omega⟩
        rw [discardLine_succ hget, if_neg (by decide)]
        rfl
      · obtain ⟨rb', hloop, hcontains, hlen'⟩ := ih hrest
        refine ⟨rb', fun fuel hfuel => ?_, by rwa [nextLines_cons hb], hlen'.trans hlen⟩
        obtain ⟨fuel, rfl⟩ : ∃ k, fuel = k + 1 := ⟨fuel - 1, by omega⟩
        have hgo : (b.toNat : Int) ≠ -1 ∧ (b.toNat : Int) ≠ 10 := by
          refine ⟨by omega, fun heq => hb (UInt8.toNat_inj.mp ?_)⟩
          exact Int.ofNat.inj heq
        rw [List.length_cons] at hfuel
        rw [discardLine_succ hget, if_pos hgo]
        exact hloop fuel (by omega)

/-- The log after `stream`. -/
structure Logged (stream content : List UInt8) (rb : Ringbuf) : Prop where
  contains : rb.Contains content
  bufLen : rb.bufLen = 1024
  recent : content <:+ stream
  latest : content.getLast? = stream.getLast?

/-- Every run of characters without a newline is short. -/
def ShortLines (stream : List UInt8) : Prop :=
  ∀ run, run <:+: stream → 10 ∉ run → run.length < 1023

def AtLineStart (before : List UInt8) : Prop := before = [] ∨ before.getLast? = some 10

def StartsLine (stream content : List UInt8) : Prop :=
  ∃ before, stream = before ++ content ∧ AtLineStart before

theorem logged_nil : Logged [] [] logring where
  contains := Ringbuf.contains_init _ (by decide) (by decide)
  bufLen := rfl
  recent := List.suffix_refl _
  latest := rfl

/-- `logchar` gets the character into the ring buffer, at the second try if not at the first. -/
inductive Stores (ch : UInt8) (rb rb' : Ringbuf) : Prop
  | first (h : ringbufPut ch rb = .ok (true, rb'))
  | second (full : ringbufPut ch rb = .ok (false, rb)) {room : Ringbuf}
      (discards : Returns discardLine rb ((), room))
      (h : ringbufPut ch room = .ok (true, rb'))

theorem logchar_of_stores {ch : UInt8} {rb rb' : Ringbuf} (h : Stores ch rb rb') :
    Returns (fun fuel => logchar fuel ch) rb ((), rb') := by
  cases h with
  | first h =>
      refine Returns.of_forall_wp ⟨0, fun fuel _ => ?_⟩
      rw [logchar, wp_bind, wp_iff_of_eq h]
      exact ⟨rfl, rfl⟩
  | second full discards h =>
      obtain ⟨enough, hdiscards⟩ := discards
      refine Returns.of_forall_wp ⟨enough, fun fuel hfuel => ?_⟩
      rw [logchar, wp_bind, wp_iff_of_eq full, if_neg (by simp), wp_bind,
        wp_iff_of_eq (hdiscards fuel hfuel), wp_bind, wp_iff_of_eq h]
      exact ⟨rfl, rfl⟩

section

variable {stream content : List UInt8} {rb : Ringbuf}

theorem Logged.append (h : Logged stream content rb) {rb' : Ringbuf} {kept : List UInt8}
    {ch : UInt8} (hkept : kept <:+ content) (hrb : rb'.Contains (kept ++ [ch]))
    (hlen : rb'.bufLen = 1024) : Logged (stream ++ [ch]) (kept ++ [ch]) rb' where
  contains := hrb
  bufLen := hlen
  recent := by
    obtain ⟨before, hbefore⟩ := hkept.trans h.recent
    exact ⟨before, by rw [← hbefore, List.append_assoc]⟩
  latest := by simp

theorem Logged.next (h : Logged stream content rb) (ch : UInt8) :
    ∃ rb' kept, Stores ch rb rb' ∧ Logged (stream ++ [ch]) (kept ++ [ch]) rb' ∧
      (kept = content ∨ content.length = 1023 ∧ kept = nextLines content) := by
  have hlt := h.contains.length_lt
  rw [h.bufLen] at hlt
  by_cases hroom : content.length + 1 < 1024
  · obtain ⟨rb', hput, hcontains, hlen⟩ :=
      Ringbuf.ringbufPut_room h.contains (by rw [h.bufLen]; exact hroom) ch
    exact ⟨rb', content, .first hput,
      h.append (List.suffix_refl _) hcontains (hlen.trans h.bufLen), .inl rfl⟩
  · have hfull : content.length + 1 = 1024 := by omega
    have hput := Ringbuf.ringbufPut_full h.contains (by rw [h.bufLen]; exact hfull) ch
    obtain ⟨room, hdiscards, hrest, hlen⟩ := discardLine_spec h.contains
    have hshorter : (nextLines content).length < content.length :=
      length_nextLines (by rintro rfl; simp at hfull)
    obtain ⟨rb', hput', hcontains, hlen'⟩ :=
      Ringbuf.ringbufPut_room hrest (by rw [hlen, h.bufLen]; omega) ch
    refine ⟨rb', nextLines content, .second hput ⟨content.length + 1, hdiscards⟩ hput',
      h.append (nextLines_suffix _) hcontains ?_, .inr ⟨by omega, rfl⟩⟩
    rw [hlen', hlen, h.bufLen]

theorem StartsLine.next (h : StartsLine stream content) {kept : List UInt8}
    (hlines : ShortLines stream)
    (hkept : kept = content ∨ content.length = 1023 ∧ kept = nextLines content) (ch : UInt8) :
    StartsLine (stream ++ [ch]) (kept ++ [ch]) := by
  obtain ⟨before, rfl, hstart⟩ := h
  rcases hkept with rfl | ⟨hfull, rfl⟩
  · exact ⟨before, by rw [List.append_assoc], hstart⟩
  · have hnewline : 10 ∈ content := by
      by_contra hnone
      have := hlines content (List.suffix_append before content).isInfix hnone
      omega
    obtain ⟨line, hline⟩ := exists_discarded hnewline
    have hwhole : before ++ content = before ++ (line ++ [10]) ++ nextLines content := by
      rw [List.append_assoc before, ← hline]
    refine ⟨before ++ (line ++ [10]), ?_, .inr ?_⟩
    · rw [← List.append_assoc, ← hwhole]
    · rw [← List.append_assoc, List.getLast?_concat]

theorem ShortLines.of_append {more : List UInt8} (h : ShortLines (stream ++ more)) :
    ShortLines stream := fun run hrun =>
  h run (hrun.trans (List.prefix_append stream more).isInfix)

theorem Logged.goesOn (h : Logged stream content rb)
    (hstart : ShortLines stream → StartsLine stream content) (more : List UInt8) :
    ∃ rb' content', Returns (fun fuel => logchars fuel more) rb ((), rb') ∧
      Logged (stream ++ more) content' rb' ∧
      (ShortLines (stream ++ more) → StartsLine (stream ++ more) content') := by
  induction more generalizing stream content rb with
  | nil =>
      rw [List.append_nil]
      exact ⟨rb, content, Returns.pure () rb, h, hstart⟩
  | cons ch more ih =>
      obtain ⟨next, kept, hstores, hlogged, hkept⟩ := h.next ch
      have hstart' : ShortLines (stream ++ [ch]) → StartsLine (stream ++ [ch]) (kept ++ [ch]) :=
        fun hlines => (hstart hlines.of_append).next hlines.of_append hkept ch
      obtain ⟨rb', content', hreturns, hrest⟩ := ih hlogged hstart'
      rw [List.append_assoc] at hrest
      exact ⟨rb', content', (logchar_of_stores hstores).bind hreturns, hrest⟩

end

/-- After every stream the log holds its end, stores whatever comes next, and starts with a line
unless lines are too long. -/
theorem logchars_recent (stream : List UInt8) :
    ∃ rb content, Returns (fun fuel => logchars fuel stream) logring ((), rb) ∧
      Logged stream content rb ∧ (∀ ch, ∃ rb', Stores ch rb rb') ∧
      (ShortLines stream → StartsLine stream content) := by
  have hstart : ShortLines [] → StartsLine [] [] := fun _ => ⟨[], rfl, .inl rfl⟩
  obtain ⟨rb, content, hreturns, hlogged, hlines⟩ := logged_nil.goesOn hstart stream
  refine ⟨rb, content, hreturns, hlogged, fun ch => ?_, hlines⟩
  obtain ⟨rb', _, hstores, _⟩ := hlogged.next ch
  exact ⟨rb', hstores⟩

end Librfn
