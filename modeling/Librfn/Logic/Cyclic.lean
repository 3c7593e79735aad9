import Mathlib.Data.Nat.ModEq
import Mathlib.Tactic.Common

/-!
# Cyclic indices

Numbers counted without bound and stored modulo a size.  Within a window no
longer than the size the stored values still tell the numbers apart.
-/

namespace Librfn.Logic

theorem mod_inj_of_window {n a b : Nat} (hab : a ≤ b) (hb : b < a + n)
    (h : a % n = b % n) : a = b := by
  obtain ⟨d, rfl⟩ := Nat.exists_eq_add_of_le hab
  have hd : d < n := by omega
  have hmod : (n : Nat) ∣ d := by
    have := (Nat.modEq_iff_dvd' hab).mp h
    simpa using this
  have := Nat.eq_zero_of_dvd_of_lt hmod hd
  omega

theorem mod_ne_of_window {n a b : Nat} (hab : a < b) (hb : b < a + n) :
    a % n ≠ b % n := fun h =>
  absurd (mod_inj_of_window (Nat.le_of_lt hab) hb h) (Nat.ne_of_lt hab)

/-- Stepping a stored index forward with one comparison. -/
theorem mod_succ_eq_ite {n : Nat} (hn : 0 < n) (k : Nat) :
    (k + 1) % n = if n ≤ k % n + 1 then 0 else k % n + 1 := by
  have hlt := Nat.mod_lt k hn
  rw [Nat.add_mod]
  split
  · rename_i hge
    rcases Nat.lt_or_ge 1 n with h1 | h1
    · rw [Nat.mod_eq_of_lt h1, show k % n + 1 = n by omega, Nat.mod_self]
    · rw [show n = 1 by omega, Nat.mod_one]
  · rename_i hlt'
    have h1 : 1 < n := by omega
    rw [Nat.mod_eq_of_lt h1, Nat.mod_eq_of_lt (by omega)]

/-- The signed difference of two stored numbers is the true difference while
this fits. -/
theorem toInt_ofNat_sub {w a b : Nat} (hlo : -(2 ^ w : Int) ≤ (a : Int) - b)
    (hhi : (a : Int) - b < 2 ^ w) :
    (BitVec.ofNat (w + 1) a - BitVec.ofNat (w + 1) b).toInt = (a : Int) - b := by
  rw [BitVec.toInt_sub, BitVec.toInt_ofNat', BitVec.toInt_ofNat']
  rw [Int.bmod_sub_bmod, Int.sub_bmod_bmod]
  have hpow : ((2 ^ (w + 1) : Nat) : Int) = 2 * 2 ^ w := by
    rw [Nat.pow_succ, Nat.mul_comm]
    norm_cast
  refine Int.bmod_eq_of_le_mul_two ?_ ?_ <;> omega

end Librfn.Logic
