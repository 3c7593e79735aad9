import Librfn.Rand
import Mathlib.Data.Int.ModEq
import Mathlib.Data.Nat.ModEq
import Mathlib.Logic.Function.Iterate
import Mathlib.Tactic.NormNum.GCD

/-!
# The Park-Miller generator

Modulo 2 ^ 31 - 1 the number 2 ^ 31 is one, so the upper half of the product
is shifted and added to the lower half.  Zero has two representations among
the sums, and only one of them is a fixed point that can be reached.
-/

namespace Librfn

/-- `seed` is `16807 * seed` modulo `2 ^ 31 - 1`, before the last reduction. -/
def folded (seed : Nat) : Nat :=
  16807 * (seed % 65536) + 65536 * (16807 * (seed / 65536) % 32768) +
    16807 * (seed / 65536) / 32768

theorem folded_add (seed : Nat) :
    folded seed + (2 ^ 31 - 1) * (16807 * (seed / 65536) / 32768) = 16807 * seed := by
  unfold folded
  omega

theorem folded_lt {seed : Nat} (h : seed < 2 ^ 32) : folded seed < 2 * (2 ^ 31 - 1) := by
  unfold folded
  omega

theorem folded_eq_zero {seed : Nat} (h : folded seed = 0) : seed = 0 := by
  obtain ⟨⟨hlow, hmiddle⟩, htop⟩ : (16807 * (seed % 65536) = 0 ∧
      65536 * (16807 * (seed / 65536) % 32768) = 0) ∧ 16807 * (seed / 65536) / 32768 = 0 := by
    simpa only [folded, Nat.add_eq_zero_iff] using h
  have hhigh : 16807 * (seed / 65536) = 0 := by
    generalize 16807 * (seed / 65536) = product at hmiddle htop ⊢
    omega
  omega

theorem toNat_low (seed : BitVec 32) : (seed &&& 0xffff).toNat = seed.toNat % 65536 := by
  rw [BitVec.toNat_and]
  exact Nat.and_two_pow_sub_one_eq_mod seed.toNat 16

theorem toNat_high (seed : BitVec 32) : (seed >>> 16).toNat = seed.toNat / 65536 := by
  rw [BitVec.toNat_ushiftRight, Nat.shiftRight_eq_div_pow]

theorem toNat_middle (hi : BitVec 32) :
    ((hi &&& 0x7fff) <<< 16).toNat = 65536 * (hi.toNat % 32768) := by
  have hmask : (hi &&& 0x7fff).toNat = hi.toNat % 32768 := by
    rw [BitVec.toNat_and]
    exact Nat.and_two_pow_sub_one_eq_mod hi.toNat 15
  rw [BitVec.toNat_shiftLeft, hmask, Nat.shiftLeft_eq, Nat.mod_eq_of_lt (by omega), Nat.mul_comm]

theorem mulExact_eq {x : BitVec 32} (h : 16807 * x.toNat < 2 ^ 32) :
    mulExact 16807 x = some (16807 * x) ∧ (16807 * x).toNat = 16807 * x.toNat := by
  have hfactor : (16807 : BitVec 32).toNat = 16807 := rfl
  exact ⟨if_pos (by rwa [hfactor]), by rw [BitVec.toNat_mul, hfactor, Nat.mod_eq_of_lt h]⟩

theorem addExact_eq {x y : BitVec 32} (h : x.toNat + y.toNat < 2 ^ 32) :
    addExact x y = some (x + y) ∧ (x + y).toNat = x.toNat + y.toNat :=
  ⟨if_pos h, by rw [BitVec.toNat_add, Nat.mod_eq_of_lt h]⟩

/-- No operation wraps, and what is computed is the folded product. -/
theorem rand31R_spec (seed : BitVec 32) :
    rand31Body mulExact addExact seed = some (rand31R seed) ∧
      (rand31R seed).toNat =
        if 2 ^ 31 - 1 < folded seed.toNat then folded seed.toNat - (2 ^ 31 - 1)
        else folded seed.toNat := by
  have hlow := toNat_low seed
  have hhigh := toNat_high seed
  have hseed := seed.isLt
  obtain ⟨hlo, hlo'⟩ := mulExact_eq (x := seed &&& 0xffff) (by omega)
  obtain ⟨hhi, hhi'⟩ := mulExact_eq (x := seed >>> 16) (by omega)
  generalize hlo₀ : 16807 * (seed &&& 0xffff) = lo at hlo hlo'
  generalize hhi₀ : 16807 * (seed >>> 16) = hi at hhi hhi'
  have hmiddle := toNat_middle hi
  have htop : (hi >>> 15).toNat = hi.toNat / 32768 := by
    rw [BitVec.toNat_ushiftRight, Nat.shiftRight_eq_div_pow]
  obtain ⟨hsum, hsum'⟩ := addExact_eq (x := lo) (y := (hi &&& 0x7fff) <<< 16) (by omega)
  obtain ⟨hall, hall'⟩ :=
    addExact_eq (x := lo + (hi &&& 0x7fff) <<< 16) (y := hi >>> 15) (by omega)
  have hfolded : (lo + (hi &&& 0x7fff) <<< 16 + hi >>> 15).toNat = folded seed.toNat := by
    unfold folded
    omega
  have hcode : rand31R seed =
      if lo + (hi &&& 0x7fff) <<< 16 + hi >>> 15 > 0x7fffffff then
        lo + (hi &&& 0x7fff) <<< 16 + hi >>> 15 - 0x7fffffff
      else lo + (hi &&& 0x7fff) <<< 16 + hi >>> 15 := by
    subst hlo₀ hhi₀
    rfl
  constructor
  · rw [hcode, rand31Body, hlo, hhi]
    simp only [Option.bind_eq_bind, Option.bind_some, hsum, hall]
    rfl
  · rw [hcode]
    split <;> split <;> bv_omega

theorem rand31R_modEq (seed : BitVec 32) :
    (rand31R seed).toNat ≡ 16807 * seed.toNat [MOD 2 ^ 31 - 1] := by
  have hadd := folded_add seed.toNat
  rw [(rand31R_spec seed).2]
  generalize folded seed.toNat = sum at hadd ⊢
  unfold Nat.ModEq
  split <;> omega

theorem rand31R_le (seed : BitVec 32) : (rand31R seed).toNat ≤ 2 ^ 31 - 1 := by
  have hlt := folded_lt seed.isLt
  rw [(rand31R_spec seed).2]
  split <;> omega

theorem eq_zero_of_rand31R {seed : BitVec 32} (h : rand31R seed = 0) : seed = 0 := by
  have hvalue := (rand31R_spec seed).2
  have hzero : (0 : BitVec 32).toNat = 0 := rfl
  rw [h, hzero] at hvalue
  refine BitVec.eq_of_toNat_eq (folded_eq_zero ?_)
  split at hvalue <;> omega

theorem rand31_park_miller (seed : BitVec 32) :
    rand31Body mulExact addExact seed = some (rand31R seed) ∧
      (rand31R seed).toNat ≤ 2 ^ 31 - 1 ∧
      (rand31R seed).toNat ≡ 16807 * seed.toNat [MOD 2 ^ 31 - 1] ∧
      (rand31R seed = 0 → seed = 0) :=
  ⟨(rand31R_spec seed).1, rand31R_le seed, rand31R_modEq seed, eq_zero_of_rand31R⟩

/-! ## Orbits -/

/-- A seed that is no multiple of `2 ^ 31 - 1`. -/
def Live (seed : BitVec 32) : Prop := ¬ 2 ^ 31 - 1 ∣ seed.toNat

/-- The step lemma: neither 16807 nor 16806 has a factor in common with
`2 ^ 31 - 1`. -/
theorem Live.next {seed : BitVec 32} (h : Live seed) :
    Live (rand31R seed) ∧ (rand31R seed).toNat ≠ 0 ∧ (rand31R seed).toNat ≤ 2 ^ 31 - 2 ∧
      rand31R seed ≠ seed := by
  have hle := rand31R_le seed
  have hmod := rand31R_modEq seed
  have hlive : Live (rand31R seed) := by
    intro hdvd
    refine h ((Nat.Coprime.dvd_of_dvd_mul_left (m := 16807) (by norm_num) ?_))
    exact (hmod.dvd_iff (dvd_refl _)).mp hdvd
  refine ⟨hlive, fun hzero => hlive (hzero ▸ dvd_zero _), ?_, ?_⟩
  · have hne : (rand31R seed).toNat ≠ 2 ^ 31 - 1 := fun heq => hlive (heq ▸ dvd_refl _)
    omega
  · intro hfixed
    rw [hfixed] at hmod
    have hdvd : 2 ^ 31 - 1 ∣ 16807 * seed.toNat - seed.toNat :=
      (Nat.modEq_iff_dvd' (by omega)).mp hmod
    rw [show 16807 * seed.toNat - seed.toNat = 16806 * seed.toNat by omega] at hdvd
    exact h (Nat.Coprime.dvd_of_dvd_mul_left (m := 16806) (by norm_num) hdvd)

theorem Live.iterate {seed : BitVec 32} (h : Live seed) (calls : Nat) :
    Live (rand31R^[calls] seed) := by
  induction calls with
  | zero => exact h
  | succ calls ih =>
      rw [Function.iterate_succ_apply']
      exact ih.next.1

/-- The generator is never stuck unless the seed is one of the two multiples of
`2 ^ 31 - 1`. -/
theorem rand31_never_stuck_iff {seed : BitVec 32} (hpos : 0 < seed.toNat) :
    (∀ calls ≥ 1, 1 ≤ (rand31R^[calls] seed).toNat ∧
        (rand31R^[calls] seed).toNat ≤ 2 ^ 31 - 2 ∧
        rand31R^[calls] seed ≠ rand31R^[calls + 1] seed) ↔
      seed.toNat ≠ 2 ^ 31 - 1 ∧ seed.toNat ≠ 2 ^ 32 - 2 := by
  constructor
  · intro h
    obtain ⟨hone, hle, -⟩ := h 1 (Nat.le_refl 1)
    rw [Function.iterate_one] at hone hle
    have hlive : Live seed := by
      intro hdvd
      have hnext := ((rand31R_modEq seed).dvd_iff (dvd_refl _)).mpr (hdvd.mul_left 16807)
      have := Nat.le_of_dvd hone hnext
      omega
    constructor
    · exact fun heq => hlive (heq ▸ dvd_refl _)
    · exact fun heq => hlive (heq ▸ ⟨2, rfl⟩)
  · rintro ⟨hone, htwo⟩ calls hcalls
    have hlive : Live seed := by
      rintro ⟨k, hk⟩
      have hlt := seed.isLt
      obtain rfl | rfl | rfl : k = 0 ∨ k = 1 ∨ k = 2 := by omega
      · omega
      · omega
      · omega
    obtain ⟨calls, rfl⟩ := Nat.exists_eq_add_of_le' hcalls
    obtain ⟨hlive', hzero, hle, -⟩ := (hlive.iterate calls).next
    rw [← Function.iterate_succ_apply' rand31R] at hlive' hzero hle
    refine ⟨Nat.one_le_iff_ne_zero.mpr hzero, hle, ?_⟩
    rw [Function.iterate_succ_apply' rand31R (calls + 1)]
    exact hlive'.next.2.2.2.symm

/-- The seed that `RAND31_VAR_INIT` gives. -/
theorem rand31_never_stuck_init :
    (∀ calls ≥ 1, 1 ≤ (rand31R^[calls] rand31VarInit).toNat ∧
        (rand31R^[calls] rand31VarInit).toNat ≤ 2 ^ 31 - 2 ∧
        rand31R^[calls] rand31VarInit ≠ rand31R^[calls + 1] rand31VarInit) ↔
      rand31VarInit.toNat ≠ 2 ^ 31 - 1 ∧ rand31VarInit.toNat ≠ 2 ^ 32 - 2 :=
  rand31_never_stuck_iff (by decide)

/-- The seed `2 ^ 31 - 1` is strictly positive and stays what it is. -/
theorem rand31_stuck : 0 < (2147483647 : BitVec 32).toNat ∧
    ¬ ∀ calls ≥ 1, 1 ≤ (rand31R^[calls] 2147483647).toNat ∧
      (rand31R^[calls] 2147483647).toNat ≤ 2 ^ 31 - 2 ∧
      rand31R^[calls] 2147483647 ≠ rand31R^[calls + 1] 2147483647 := by
  refine ⟨by decide, fun h => ?_⟩
  obtain ⟨-, -, hmoves⟩ := h 1 (Nat.le_refl 1)
  exact hmoves (by decide)

end Librfn
