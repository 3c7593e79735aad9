import Librfn.Logic.Cyclic
import Librfn.Ringbuf

/-!
# The contents of a ring buffer

Calls that do not overlap: a ring buffer is a queue of bytes that refuses a
byte when one cell is left.
-/

namespace Librfn.Ringbuf

open Librfn.Logic

/-- The bytes that were put and not yet got, the oldest first. -/
structure Contains (rb : Ringbuf) (bytes : List UInt8) : Prop where
  readi_lt : rb.readi < rb.bufLen
  bufLen_lt : rb.bufLen < 2 ^ 32
  length_lt : bytes.length < rb.bufLen
  writei : rb.writei = (rb.readi + bytes.length) % rb.bufLen
  bytes : ∀ k (h : k < bytes.length),
    rb.bufp ((rb.readi + k) % rb.bufLen) = bytes[k]

theorem contains_init (bufp : Nat → UInt8) {bufLen : Nat} (hpos : 0 < bufLen)
    (hlen : bufLen < 2 ^ 32) : (ringbufInit bufp bufLen).Contains [] where
  readi_lt := hpos
  bufLen_lt := hlen
  length_lt := hpos
  writei := (Nat.zero_mod bufLen).symm
  bytes := nofun

theorem advance_eq {bufLen i : Nat} (hi : i < bufLen) (hlen : bufLen < 2 ^ 32) :
    advance bufLen i = (i + 1) % bufLen := by
  have hmod : (i + 1) % 2 ^ 32 = i + 1 := Nat.mod_eq_of_lt (by omega)
  rw [advance, hmod]
  rcases Nat.lt_or_ge (i + 1) bufLen with hlt | hge
  · rw [if_neg (by omega), Nat.mod_eq_of_lt hlt]
  · have heq : i + 1 = bufLen := by omega
    rw [if_pos hge, heq, Nat.sub_self, Nat.mod_self]

section Calls

variable {rb : Ringbuf} {bytes : List UInt8} {b : UInt8}

theorem Contains.writei_eq_iff (h : rb.Contains bytes) :
    rb.readi = rb.writei ↔ bytes = [] := by
  rw [h.writei]
  constructor
  · intro heq
    by_contra hne
    have hpos := List.length_pos_iff.mpr hne
    have hlen := h.length_lt
    refine mod_ne_of_window (n := rb.bufLen) (a := rb.readi)
      (b := rb.readi + bytes.length) (by omega) (by omega) ?_
    rwa [Nat.mod_eq_of_lt h.readi_lt]
  · rintro rfl
    exact (Nat.mod_eq_of_lt h.readi_lt).symm

theorem ringbufGet_nil (h : rb.Contains []) : ringbufGet rb = .ok (-1, rb) := by
  have hwp : Prog.wp ringbufGet (fun r rb' => r = -1 ∧ rb' = rb) rb := by
    have heq := h.writei_eq_iff.mpr rfl
    have hlt : rb.writei < rb.bufLen := heq ▸ h.readi_lt
    simp [ringbufGet, heq, hlt]
  obtain ⟨r, rb', heq, rfl, rfl⟩ := Prog.wp_iff_exists.mp hwp
  exact heq

theorem ringbufGet_cons (h : rb.Contains (b :: bytes)) :
    ∃ rb', ringbufGet rb = .ok (b.toNat, rb') ∧ rb'.Contains bytes ∧
      rb'.bufLen = rb.bufLen := by
  have hne : rb.readi ≠ rb.writei := fun heq =>
    List.cons_ne_nil b bytes (h.writei_eq_iff.mp heq)
  have hfirst : rb.bufp rb.readi = b := by
    have h0 := h.bytes 0 (Nat.succ_pos _)
    rwa [Nat.add_zero, Nat.mod_eq_of_lt h.readi_lt] at h0
  have hwp : Prog.wp ringbufGet (fun r rb' => r = b.toNat ∧
      rb' = { rb with readi := advance rb.bufLen rb.readi }) rb := by
    simp [ringbufGet, h.readi_lt, hne, hfirst]
  obtain ⟨r, rb', heq, rfl, rfl⟩ := Prog.wp_iff_exists.mp hwp
  have hadv := advance_eq h.readi_lt h.bufLen_lt
  have hlen := h.length_lt
  rw [List.length_cons] at hlen
  have hpos : 0 < rb.bufLen := by omega
  have hrest : bytes.length < rb.bufLen := by omega
  refine ⟨_, heq, ⟨hadv ▸ Nat.mod_lt _ hpos, h.bufLen_lt, hrest, ?_, ?_⟩, rfl⟩
  · simp only [hadv, h.writei, List.length_cons, Nat.mod_add_mod]
    congr 1
    omega
  · intro k hk
    have hnext := h.bytes (k + 1) (by rw [List.length_cons]; omega)
    simp only [hadv, Nat.mod_add_mod]
    rw [List.getElem_cons_succ] at hnext
    rw [← hnext]
    congr 2
    omega

theorem ringbufPut_full (h : rb.Contains bytes)
    (hfull : bytes.length + 1 = rb.bufLen) (d : UInt8) :
    ringbufPut d rb = .ok (false, rb) := by
  have hadv : advance rb.bufLen rb.writei = rb.readi := by
    have hpos : 0 < rb.bufLen := by omega
    have hlt : rb.writei < rb.bufLen := h.writei ▸ Nat.mod_lt _ hpos
    rw [advance_eq hlt h.bufLen_lt, h.writei, Nat.mod_add_mod, Nat.add_assoc,
      hfull, Nat.add_mod_right, Nat.mod_eq_of_lt h.readi_lt]
  have hwp : Prog.wp (ringbufPut d) (fun r rb' => r = false ∧ rb' = rb) rb := by
    simp [ringbufPut, hadv]
  obtain ⟨r, rb', heq, rfl, rfl⟩ := Prog.wp_iff_exists.mp hwp
  exact heq

theorem ringbufPut_room (h : rb.Contains bytes)
    (hroom : bytes.length + 1 < rb.bufLen) (d : UInt8) :
    ∃ rb', ringbufPut d rb = .ok (true, rb') ∧ rb'.Contains (bytes ++ [d]) ∧
      rb'.bufLen = rb.bufLen := by
  have hpos : 0 < rb.bufLen := by omega
  have hlt : rb.writei < rb.bufLen := h.writei ▸ Nat.mod_lt _ hpos
  have hadv : advance rb.bufLen rb.writei =
      (rb.readi + (bytes.length + 1)) % rb.bufLen := by
    rw [advance_eq hlt h.bufLen_lt, h.writei, Nat.mod_add_mod, Nat.add_assoc]
  have hne : advance rb.bufLen rb.writei ≠ rb.readi := by
    rw [hadv]
    refine fun heq => mod_ne_of_window (n := rb.bufLen) (a := rb.readi)
      (b := rb.readi + (bytes.length + 1)) (by omega) (by omega) ?_
    rw [Nat.mod_eq_of_lt h.readi_lt, heq]
  have hwp : Prog.wp (ringbufPut d) (fun r rb' => r = true ∧
      rb' = { rb with
        bufp := Function.update rb.bufp rb.writei d
        writei := advance rb.bufLen rb.writei }) rb := by
    simp [ringbufPut, hne]
  obtain ⟨r, rb', heq, rfl, rfl⟩ := Prog.wp_iff_exists.mp hwp
  refine ⟨_, heq, ⟨h.readi_lt, h.bufLen_lt, ?_, ?_, ?_⟩, rfl⟩
  · simpa using hroom
  · simpa using hadv
  · intro k hk
    rw [List.length_append, List.length_singleton] at hk
    by_cases hlast : k = bytes.length
    · subst hlast
      simp [h.writei]
    · have hk' : k < bytes.length := by omega
      have hother : (rb.readi + k) % rb.bufLen ≠ rb.writei := by
        rw [h.writei]
        exact mod_ne_of_window (by omega) (by omega)
      rw [List.getElem_append_left hk', ← h.bytes k hk']
      exact Function.update_of_ne hother _ _

end Calls

end Librfn.Ringbuf
