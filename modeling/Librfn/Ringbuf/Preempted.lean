import Librfn.Ringbuf.Contents
import Librfn.Ringbuf.Interleaving

/-!
# A `ringbuf_put` that is interrupted by `ringbuf_get`

On a single processor an interrupt handler that takes bytes out of a ring
buffer may run between any two steps of a `ringbuf_put`.  What the latter has
loaded stays true.
-/

namespace Librfn.Ringbuf

open Librfn.Logic

/-- What a `ringbuf_put` of `d` has found out. -/
def Knows (rb : Ringbuf) (bytes : List UInt8) (d : UInt8) : ProducerPc → Prop
  | .idle => True
  | .loaded b old new => b = d ∧ old = rb.writei ∧ new = advance rb.bufLen rb.writei
  | .writing b old new =>
      b = d ∧ old = rb.writei ∧ new = advance rb.bufLen rb.writei ∧ bytes.length + 1 < rb.bufLen
  | .storing b new =>
      b = d ∧ new = advance rb.bufLen rb.writei ∧ bytes.length + 1 < rb.bufLen ∧
        rb.bufp rb.writei = d

section Knows

variable {rb rb' : Ringbuf} {bytes rest : List UInt8} {d : UInt8} {pc pc' : ProducerPc}

theorem ringbufGet_frame (h : rb.Contains bytes) :
    Prog.wp ringbufGet (fun _ rb' => rb'.writei = rb.writei ∧ rb'.bufp = rb.bufp ∧
      rb'.bufLen = rb.bufLen) rb := by
  by_cases hempty : rb.readi = rb.writei <;> simp [ringbufGet, hempty, h.readi_lt]
  exact hempty ▸ h.readi_lt

theorem Knows.get (hk : rb.Knows bytes d pc) (hwritei : rb'.writei = rb.writei)
    (hbufp : rb'.bufp = rb.bufp) (hbufLen : rb'.bufLen = rb.bufLen)
    (hlen : rest.length ≤ bytes.length) : rb'.Knows rest d pc := by
  cases pc with
  | idle => trivial
  | loaded b old new =>
      rw [Knows, hwritei, hbufLen]
      exact hk
  | writing b old new =>
      obtain ⟨hb, hold, hnew, hroom⟩ := hk
      rw [Knows, hwritei, hbufLen]
      exact ⟨hb, hold, hnew, by omega⟩
  | storing b new =>
      obtain ⟨hb, hnew, hroom, hcell⟩ := hk
      rw [Knows, hwritei, hbufLen, hbufp]
      exact ⟨hb, hnew, by omega, hcell⟩

theorem Contains.room_iff (h : rb.Contains bytes) :
    advance rb.bufLen rb.writei ≠ rb.readi ↔ bytes.length + 1 < rb.bufLen := by
  have hlen := h.length_lt
  constructor
  · intro hne
    by_contra hfull
    have hput := ringbufPut_full h (by omega) 0
    have hwp : Prog.wp (ringbufPut 0) (fun r _ => r = true) rb := by
      simp [ringbufPut, hne]
    rw [Prog.wp_iff_of_eq hput] at hwp
    exact absurd hwp (by decide)
  · intro hroom heq
    obtain ⟨_, hput, -, -⟩ := ringbufPut_room h hroom 0
    have hwp : Prog.wp (ringbufPut 0) (fun r _ => r = false) rb := by
      simp [ringbufPut, heq]
    rw [Prog.wp_iff_of_eq hput] at hwp
    exact absurd hwp (by decide)

theorem Contains.put_done (h : rb.Contains bytes) (hroom : bytes.length + 1 < rb.bufLen)
    (hcell : rb.bufp rb.writei = d) :
    ({ rb with writei := advance rb.bufLen rb.writei } : Ringbuf).Contains (bytes ++ [d]) := by
  obtain ⟨rb', hput, hcontains, -⟩ := ringbufPut_room h hroom d
  have hne := h.room_iff.mpr hroom
  have hwp : Prog.wp (ringbufPut d) (fun _ rb' => rb' =
      { rb with writei := advance rb.bufLen rb.writei }) rb := by
    simp [ringbufPut, hne, ← hcell]
  rw [Prog.wp_iff_of_eq hput] at hwp
  exact hwp ▸ hcontains

def Puts (rb : Ringbuf) (bytes : List UInt8) (d : UInt8) (e : Event) (rb' : Ringbuf)
    (pc' : ProducerPc) : Prop :=
  match e with
  | .putDone b => pc' = .idle ∧ b = d ∧ rb'.Contains (bytes ++ [d])
  | .putFull => pc' = .idle ∧ rb'.Contains bytes ∧ bytes.length + 1 = rb.bufLen
  | _ => rb'.Contains bytes ∧ rb'.Knows bytes d pc'

theorem Knows.step {e : Event} (hk : rb.Knows bytes d pc) (h : rb.Contains bytes)
    (hstep : Step ⟨rb, pc, .idle⟩ e ⟨rb', pc', .idle⟩) (hd : ∀ b, e = .putLoad b → b = d) :
    rb'.bufLen = rb.bufLen ∧ rb.Puts bytes d e rb' pc' := by
  have hlen := h.length_lt
  cases hstep with
  | putLoad b => exact ⟨rfl, h, hd b rfl, rfl, rfl⟩
  | putFull =>
      obtain ⟨-, -, hnew⟩ := hk
      have hfull := mt h.room_iff.mpr (not_not_intro hnew.symm)
      exact ⟨rfl, rfl, h, by omega⟩
  | putRoom hne =>
      obtain ⟨hb, hold, hnew⟩ := hk
      exact ⟨rfl, h, hb, hold, hnew, h.room_iff.mp (hnew ▸ hne)⟩
  | putWrite =>
      obtain ⟨rfl, rfl, hnew, hroom⟩ := hk
      refine ⟨rfl, ⟨h.readi_lt, h.bufLen_lt, h.length_lt, h.writei, ?_⟩, rfl, hnew, hroom,
        Function.update_self _ _ _⟩
      intro k hk
      have hother : (rb.readi + k) % rb.bufLen ≠ rb.writei := by
        rw [h.writei]
        exact mod_ne_of_window (by omega) (by omega)
      exact (Function.update_of_ne hother _ _).trans (h.bytes k hk)
  | putDone =>
      obtain ⟨rfl, rfl, hroom, hcell⟩ := hk
      exact ⟨rfl, rfl, rfl, h.put_done hroom hcell⟩

end Knows

end Librfn.Ringbuf
