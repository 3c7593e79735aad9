import Mathlib.Tactic.Common

/-!
# Words of flags

Setting, clearing and testing one bit of a machine word by shifting a one
into place, in terms of the bits of the word.
-/

namespace Librfn.Logic

variable {w : Nat}

def flag (w i : Nat) : BitVec w := 1#w <<< i

theorem getLsbD_flag (i j : Nat) :
    (flag w i).getLsbD j = (decide (j < w) && decide (i = j)) := by
  rw [flag, ← BitVec.twoPow_eq, BitVec.getLsbD_twoPow]
  by_cases hij : i = j
  · subst hij
    simp
  · simp [hij]

theorem getLsbD_or_flag (x : BitVec w) {i : Nat} (hi : i < w) (j : Nat) :
    (x ||| flag w i).getLsbD j = (x.getLsbD j || decide (i = j)) := by
  rw [BitVec.getLsbD_or, getLsbD_flag]
  by_cases hij : i = j
  · subst hij
    simp [hi]
  · simp [hij]

theorem getLsbD_clear_flag (x : BitVec w) (i j : Nat) :
    (x &&& ~~~flag w i).getLsbD j = (x.getLsbD j && decide (i ≠ j)) := by
  rw [BitVec.getLsbD_and, BitVec.getLsbD_not, getLsbD_flag]
  by_cases hj : j < w
  · simp [hj]
  · simp [BitVec.getLsbD_of_ge x j (by omega)]

theorem and_flag_eq_zero_iff (x : BitVec w) {i : Nat} (hi : i < w) :
    x &&& flag w i = 0 ↔ x.getLsbD i = false := by
  constructor
  · intro h
    have hbit : (x &&& flag w i).getLsbD i = (0 : BitVec w).getLsbD i :=
      congrArg (fun y => y.getLsbD i) h
    rw [BitVec.getLsbD_and, getLsbD_flag, BitVec.ofNat_eq_ofNat,
      BitVec.getLsbD_zero] at hbit
    simpa only [hi, decide_true, Bool.and_true] using hbit
  · intro h
    apply BitVec.eq_of_getLsbD_eq
    intro j hj
    rw [BitVec.getLsbD_and, getLsbD_flag]
    by_cases hij : i = j
    · subst hij
      simp [h]
    · simp [hij]

end Librfn.Logic
