import Mathlib.Data.Nat.Count

/-!
# Counting

How many numbers below a bound have a property that holds up to a threshold,
or from a threshold on.
-/

namespace Librfn.Logic

variable {p q : Nat → Prop} [DecidablePred p] [DecidablePred q]

theorem count_congr {n : Nat} (h : ∀ i < n, p i ↔ q i) : Nat.count p n = Nat.count q n :=
  Nat.le_antisymm (Nat.count_mono_left fun i hi => (h i hi).mp)
    (Nat.count_mono_left fun i hi => (h i hi).mpr)

theorem count_of_lt {t n : Nat} (h : ∀ i < n, p i ↔ i < t) : Nat.count p n = min t n := by
  induction n with
  | zero => simp
  | succ n ih =>
      rw [Nat.count_succ, ih fun i hi => h i (Nat.lt_succ_of_lt hi)]
      have hn := h n (Nat.lt_succ_self n)
      by_cases hlt : n < t
      · rw [if_pos (hn.mpr hlt)]
        omega
      · rw [if_neg (mt hn.mp hlt)]
        omega

theorem count_of_ge {t n : Nat} (h : ∀ i < n, p i ↔ t ≤ i) : Nat.count p n = n - t := by
  induction n with
  | zero => simp
  | succ n ih =>
      rw [Nat.count_succ, ih fun i hi => h i (Nat.lt_succ_of_lt hi)]
      have hn := h n (Nat.lt_succ_self n)
      by_cases hle : t ≤ n
      · rw [if_pos (hn.mpr hle)]
        omega
      · rw [if_neg (mt hn.mp hle)]
        omega

end Librfn.Logic
