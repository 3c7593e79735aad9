import Librfn.Ringbuf.Contents

/-!
# The output ring of a console driver

The drivers put what is printed into `outring`, and something else takes it out
of there.  What was put is written down besides.
-/

namespace Librfn

open Librfn.Logic

/-- `outring`, every byte that was to be put into it, those it took, and whether
it ever refused one. -/
structure OutStream where
  outring : Ringbuf
  offered : List UInt8
  taken : List UInt8
  overflowed : Bool

def OutStream.init : OutStream :=
  { outring := ringbufInit (fun _ => 0) 1024
    offered := []
    taken := []
    overflowed := false }

def onOutring {α : Type} (m : Prog Ringbuf α) : Prog OutStream α :=
  Prog.zoom OutStream.outring (fun outring s => { s with outring }) m

def outringPut (d : UInt8) : Prog OutStream Unit := do
  let taken ← onOutring (ringbufPut d)
  modify fun s => { s with
    offered := s.offered ++ [d]
    taken := if taken then s.taken ++ [d] else s.taken
    overflowed := s.overflowed || !taken }

/-- What was taken has left the ring or is in it. -/
structure OutStream.Carries (s : OutStream) (gone content : List UInt8) : Prop where
  contains : s.outring.Contains content
  size : s.outring.bufLen = 1024
  taken : s.taken = gone ++ content
  offered : s.taken.Sublist s.offered
  all : s.overflowed = false → s.taken = s.offered

theorem ofInt_toNat (b : UInt8) : UInt8.ofInt (b.toNat : Int) = b := by
  have hsmall := b.toNat_lt
  have hmod : ((b.toNat : Int) % 256).toNat = b.toNat := by omega
  simp [UInt8.ofInt, hmod]

theorem OutStream.init_carries : OutStream.init.Carries [] [] where
  contains := Ringbuf.contains_init _ (by decide) (by decide)
  size := rfl
  taken := rfl
  offered := .refl _
  all := fun _ => rfl

section Carries

variable {s : OutStream} {gone content : List UInt8}

theorem wp_outringPut (h : s.Carries gone content) (d : UInt8) :
    Prog.wp (outringPut d) (fun _ s' => s'.offered = s.offered ++ [d] ∧
      s'.Carries gone (if content.length = 1023 then content else content ++ [d]) ∧
      (s'.overflowed = true ↔ s.overflowed = true ∨ content.length = 1023)) s := by
  have hlen := h.contains.length_lt
  rw [h.size] at hlen
  by_cases hfull : content.length = 1023
  · have hput := Ringbuf.ringbufPut_full h.contains (by rw [hfull, h.size]) d
    rw [outringPut, Prog.wp_bind, onOutring, Prog.wp_zoom, Prog.wp_iff_of_eq hput]
    simp only [Prog.wp_modify, hfull, if_true]
    refine ⟨trivial, ⟨h.contains, h.size, h.taken, ?_, by simp⟩, by simp⟩
    exact h.offered.trans (List.sublist_append_left _ _)
  · obtain ⟨rb, hput, hrb, hbufLen⟩ :=
      Ringbuf.ringbufPut_room h.contains (by rw [h.size]; omega) d
    rw [outringPut, Prog.wp_bind, onOutring, Prog.wp_zoom, Prog.wp_iff_of_eq hput]
    simp only [Prog.wp_modify, hfull, if_false, if_true]
    refine ⟨trivial, ⟨hrb, hbufLen.trans h.size, ?_, h.offered.append_right [d], ?_⟩, by simp⟩
    · simp [h.taken]
    · intro hall
      have hbefore : s.overflowed = false := by simpa using hall
      simp [h.all hbefore]

theorem OutStream.Carries.get_nil (h : s.Carries gone []) : onOutring ringbufGet s = .ok (-1, s) := by
  unfold onOutring Prog.zoom
  rw [Ringbuf.ringbufGet_nil h.contains]

theorem OutStream.Carries.get_cons {b : UInt8} {bytes : List UInt8} (h : s.Carries gone (b :: bytes)) :
    ∃ s', onOutring ringbufGet s = .ok (b.toNat, s') ∧ s'.Carries (gone ++ [b]) bytes ∧
      s'.offered = s.offered ∧ s'.taken = s.taken ∧ s'.overflowed = s.overflowed := by
  obtain ⟨rb, hget, hrb, hbufLen⟩ := Ringbuf.ringbufGet_cons h.contains
  refine ⟨{ s with outring := rb }, ?_, ⟨hrb, hbufLen.trans h.size, ?_, h.offered, h.all⟩,
    rfl, rfl, rfl⟩
  · unfold onOutring Prog.zoom
    rw [hget]
  · simp [h.taken]

end Carries

end Librfn
