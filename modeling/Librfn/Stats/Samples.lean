import Mathlib.Algebra.Order.Round
import Mathlib.Data.Rat.Floor
import Mathlib.Algebra.Order.BigOperators.Group.List
import Librfn.Logic.Extrema
import Librfn.Stats

/-!
# The statistics of samples

The extrema are those of the samples together with where they start, so it
depends on the start whether they are those of the samples.  The mean is exact
until the count wraps.
-/

namespace Librfn

open Librfn.Logic

/-! ## Extrema -/

section

variable {α : Type} [LT α] [DecidableLT α] [Add α] [One α]
variable {L : Type} [LinearOrder L] {num : L → α} {s : Stats α} {start : L}

theorem min_statsAddAll (hnum : ∀ x y, num x < num y ↔ x < y) (hs : s.min = num start)
    (xs : List L) : (statsAddAll s (xs.map num)).min = num (xs.foldl min start) := by
  induction xs generalizing s start with
  | nil => exact hs
  | cons x xs ih =>
      refine ih ?_
      rw [min_statsAdd, hs, min_comm, min_def_lt, apply_ite num]
      exact if_congr (hnum x start) rfl rfl

theorem max_statsAddAll (hnum : ∀ x y, num x < num y ↔ x < y) (hs : s.max = num start)
    (xs : List L) : (statsAddAll s (xs.map num)).max = num (xs.foldl max start) := by
  induction xs generalizing s start with
  | nil => exact hs
  | cons x xs ih =>
      refine ih ?_
      rw [max_statsAdd, hs, max_def_lt, apply_ite num]
      exact if_congr (hnum start x) rfl rfl

end

/-! ## The mean -/

theorem round_div_eq (sum : Nat) {n : Nat} (hn : 0 < n) :
    round ((sum : ℚ) / n) = ((sum + n / 2) / n : Nat) := by
  obtain ⟨m, hm⟩ : ∃ m, m = (sum + n / 2) / n := ⟨_, rfl⟩
  have hlo : m * n ≤ sum + n / 2 := hm ▸ Nat.div_mul_le_self _ _
  have hhi : sum + n / 2 < m * n + n := by
    have := Nat.lt_mul_div_succ (sum + n / 2) hn
    rw [← hm, Nat.mul_comm, Nat.succ_mul] at this
    exact this
  have hlo' : (2 * (m * n) : ℚ) ≤ 2 * sum + n := by
    exact_mod_cast (by omega : 2 * (m * n) ≤ 2 * sum + n)
  have hhi' : (2 * sum + n : ℚ) < 2 * (m * n) + 2 * n := by
    exact_mod_cast (by omega : 2 * sum + n < 2 * (m * n) + 2 * n)
  have hn' : (0 : ℚ) < n := by exact_mod_cast hn
  rw [← hm, round_eq_iff, Int.cast_natCast]
  constructor
  · rw [le_div_iff₀ hn']
    linarith
  · rw [div_lt_iff₀ hn']
    linarith

section

variable {w : Nat} {s : Stats (BitVec w)} {xs : List (BitVec w)}

def exactSum (xs : List (BitVec w)) : Nat := (xs.map BitVec.toNat).sum

theorem accumulator_statsAddAll :
    (statsAddAll s xs).accumulator.toNat = (s.accumulator.toNat + exactSum xs) % 2 ^ w := by
  induction xs generalizing s with
  | nil => exact (Nat.mod_eq_of_lt s.accumulator.isLt).symm
  | cons x xs ih =>
      have hsum : exactSum (x :: xs) = x.toNat + exactSum xs := rfl
      rw [statsAddAll_cons, ih, accumulator_statsAdd, BitVec.toNat_add, hsum, Nat.mod_add_mod,
        Nat.add_assoc]

theorem count_statsAddAll (hw : 0 < w) :
    (statsAddAll s xs).count.toNat = (s.count.toNat + xs.length) % 2 ^ w := by
  induction xs generalizing s with
  | nil => exact (Nat.mod_eq_of_lt s.count.isLt).symm
  | cons x xs ih =>
      have hone : (1 : BitVec w).toNat = 1 := Nat.mod_eq_of_lt (Nat.one_lt_two_pow hw.ne')
      rw [statsAddAll_cons, ih, count_statsAdd, BitVec.toNat_add, hone, List.length_cons,
        Nat.mod_add_mod]
      congr 1
      omega

theorem statsMean_eq (hw : 2 ≤ w) (hfits : exactSum xs + xs.length / 2 < 2 ^ w) {count : Nat}
    (hcount : xs.length % 2 ^ w = count) :
    statsMean (statsAddAll statsInitUint xs) =
      if count = 0 then none else some (BitVec.ofNat w ((exactSum xs + count / 2) / count)) := by
  have hacc : (statsAddAll statsInitUint xs).accumulator.toNat = exactSum xs := by
    rw [accumulator_statsAddAll, show (statsInitUint : Stats (BitVec w)).accumulator.toNat = 0
      from BitVec.toNat_zero, Nat.zero_add]
    exact Nat.mod_eq_of_lt (by omega)
  have hcnt : (statsAddAll statsInitUint xs).count.toNat = count := by
    rw [count_statsAddAll (by omega), show (statsInitUint : Stats (BitVec w)).count.toNat = 0
      from BitVec.toNat_zero, Nat.zero_add, hcount]
  have htwo : (2 : BitVec w).toNat = 2 :=
    Nat.mod_eq_of_lt (Nat.lt_of_lt_of_le (by decide) (Nat.pow_le_pow_right (by decide) hw))
  have hle : count ≤ xs.length := hcount ▸ Nat.mod_le _ _
  have hroom : exactSum xs + count / 2 < 2 ^ w := by omega
  rw [statsMean]
  refine if_congr ?_ rfl (congrArg some (BitVec.eq_of_toNat_eq ?_))
  · rw [← hcnt, ← BitVec.toNat_inj]
    exact Iff.of_eq (congrArg _ BitVec.toNat_zero)
  · rw [BitVec.toNat_udiv, BitVec.toNat_add, BitVec.toNat_udiv, hacc, hcnt, htwo,
      Nat.mod_eq_of_lt hroom, BitVec.toNat_ofNat]
    exact (Nat.mod_eq_of_lt (Nat.lt_of_le_of_lt (Nat.div_le_self _ _) hroom)).symm

theorem length_mul_le_exactSum {lo : BitVec w} (h : ∀ x ∈ xs, lo ≤ x) :
    xs.length * lo.toNat ≤ exactSum xs := by
  have := List.card_nsmul_le_sum (xs.map BitVec.toNat) lo.toNat
    (by simpa [BitVec.le_def] using h)
  simpa [exactSum] using this

theorem exactSum_le_length_mul {hi : BitVec w} (h : ∀ x ∈ xs, x ≤ hi) :
    exactSum xs ≤ xs.length * hi.toNat := by
  have := List.sum_le_card_nsmul (xs.map BitVec.toNat) hi.toNat
    (by simpa [BitVec.le_def] using h)
  simpa [exactSum] using this

theorem mean_between {lo hi : BitVec w} (hne : xs ≠ []) (hlo : ∀ x ∈ xs, lo ≤ x)
    (hhi : ∀ x ∈ xs, x ≤ hi) :
    lo.toNat ≤ (exactSum xs + xs.length / 2) / xs.length ∧
      (exactSum xs + xs.length / 2) / xs.length ≤ hi.toNat := by
  have hn := List.length_pos_iff.mpr hne
  have hbelow := length_mul_le_exactSum hlo
  have habove := exactSum_le_length_mul hhi
  constructor
  · rw [Nat.le_div_iff_mul_le hn, Nat.mul_comm]
    omega
  · rw [← Nat.lt_succ_iff, Nat.div_lt_iff_lt_mul hn, Nat.succ_mul, Nat.mul_comm]
    omega

/-- What an integer type is to give: the extrema, and the mean when there is room for it. -/
structure UintStatsRight (xs : List (BitVec w)) : Prop where
  min : IsLeast { x | x ∈ xs } (statsAddAll statsInitUint xs).min
  max : IsGreatest { x | x ∈ xs } (statsAddAll statsInitUint xs).max
  mean : exactSum xs + xs.length / 2 < 2 ^ w →
    ∃ mean : BitVec w, (mean.toNat : Int) = round ((exactSum xs : ℚ) / xs.length) ∧
      ∀ ys, ys.Perm xs → statsMean (statsAddAll statsInitUint ys) = some mean ∧
        (statsAddAll statsInitUint ys).min ≤ mean ∧ mean ≤ (statsAddAll statsInitUint ys).max

/-- The count has not wrapped, or the sum is out of range, or the mean is zero even so. -/
def CountFits (xs : List (BitVec w)) : Prop :=
  xs.length < 2 ^ w ∨ 2 ^ w ≤ exactSum xs + xs.length / 2 ∨ 2 * exactSum xs + 2 ^ w < xs.length

/-- The order of `uint32_t` and `uint64_t`. -/
local instance uintLinearOrder : LinearOrder (BitVec w) where
  le_refl := BitVec.le_refl
  le_trans _ _ _ := BitVec.le_trans
  le_antisymm _ _ := BitVec.le_antisymm
  le_total := BitVec.le_total
  lt_iff_le_not_ge _ _ := by
    simp only [BitVec.lt_def, BitVec.le_def]
    omega
  toDecidableLE := inferInstance

/-- Where the integer types start is neutral. -/
theorem isLeast_min (hne : xs ≠ []) :
    IsLeast { x | x ∈ xs } (statsAddAll statsInitUint xs).min := by
  have hfold : (statsAddAll statsInitUint (xs.map id)).min =
      id (xs.foldl min (BitVec.allOnes w)) := min_statsAddAll (fun _ _ => Iff.rfl) rfl xs
  rw [List.map_id] at hfold
  obtain ⟨x, hx⟩ := List.exists_mem_of_ne_nil xs hne
  rw [hfold]
  refine isLeast_foldl_min_iff.mpr ⟨x, hx, ?_⟩
  rw [BitVec.le_def, BitVec.toNat_allOnes]
  exact Nat.le_sub_one_of_lt x.isLt

theorem isGreatest_max (hne : xs ≠ []) :
    IsGreatest { x | x ∈ xs } (statsAddAll statsInitUint xs).max := by
  have hfold : (statsAddAll statsInitUint (xs.map id)).max =
      id (xs.foldl max (0 : BitVec w)) := max_statsAddAll (fun _ _ => Iff.rfl) rfl xs
  rw [List.map_id] at hfold
  obtain ⟨x, hx⟩ := List.exists_mem_of_ne_nil xs hne
  rw [hfold]
  refine isGreatest_foldl_max_iff.mpr ⟨x, hx, ?_⟩
  rw [BitVec.le_def]
  exact Nat.zero_le _

theorem exactSum_perm {ys : List (BitVec w)} (h : ys.Perm xs) : exactSum ys = exactSum xs :=
  (h.map BitVec.toNat).sum_eq

/-- With room for half of it, a count wraps once at most. -/
theorem length_mod (hlong : 2 ^ w ≤ xs.length) (hroom : exactSum xs + xs.length / 2 < 2 ^ w) :
    xs.length % 2 ^ w = xs.length - 2 ^ w := by
  rw [Nat.mod_eq_sub_mod hlong, Nat.mod_eq_of_lt (by omega)]

theorem mean_of_countFits (hw : 2 ≤ w) (hne : xs ≠ []) (hfits : CountFits xs)
    (hroom : exactSum xs + xs.length / 2 < 2 ^ w) :
    statsMean (statsAddAll statsInitUint xs) =
      some (BitVec.ofNat w ((exactSum xs + xs.length / 2) / xs.length)) := by
  have hn := List.length_pos_iff.mpr hne
  rw [statsMean_eq hw hroom rfl]
  rcases hfits with hlt | hover | hsmall
  · rw [Nat.mod_eq_of_lt hlt, if_neg (by omega)]
  · omega
  · have hmod := length_mod (by omega) hroom
    rw [hmod, if_neg (by omega), Nat.div_eq_of_lt (by omega), Nat.div_eq_of_lt (by omega)]

theorem countFits_of_mean (hw : 2 ≤ w) {mean : BitVec w}
    (hmean : (mean.toNat : Int) = round ((exactSum xs : ℚ) / xs.length))
    (hroom : exactSum xs + xs.length / 2 < 2 ^ w)
    (h : statsMean (statsAddAll statsInitUint xs) = some mean) : CountFits xs := by
  by_contra hwrap
  obtain ⟨hlong, _, hsmall⟩ : ¬ xs.length < 2 ^ w ∧ ¬ 2 ^ w ≤ exactSum xs + xs.length / 2 ∧
      ¬ 2 * exactSum xs + 2 ^ w < xs.length := by
    simpa [CountFits] using hwrap
  rw [statsMean_eq hw hroom (length_mod (Nat.not_lt.mp hlong) hroom)] at h
  by_cases hzero : xs.length - 2 ^ w = 0
  · rw [if_pos hzero] at h
    cases h
  · rw [if_neg hzero] at h
    have hexact : mean.toNat = 0 := by
      rw [round_div_eq _ (by omega), Nat.div_eq_of_lt (by omega)] at hmean
      exact Int.ofNat.inj hmean
    have hcode := congrArg BitVec.toNat (Option.some.inj h)
    have hle := Nat.div_le_self (exactSum xs + (xs.length - 2 ^ w) / 2) (xs.length - 2 ^ w)
    rw [hexact, BitVec.toNat_ofNat, Nat.mod_eq_of_lt (by omega),
      Nat.div_eq_zero_iff_lt (by omega)] at hcode
    omega

/-- An integer type goes wrong exactly when its count wraps and that shows. -/
theorem uintStatsRight_iff (hw : 2 ≤ w) (hne : xs ≠ []) : UintStatsRight xs ↔ CountFits xs := by
  constructor
  · intro h
    by_cases hroom : exactSum xs + xs.length / 2 < 2 ^ w
    · obtain ⟨mean, hmean, hperm⟩ := h.mean hroom
      exact countFits_of_mean hw hmean hroom (hperm xs (List.Perm.refl xs)).1
    · exact .inr (.inl (by omega))
  · intro h
    refine ⟨isLeast_min hne, isGreatest_max hne, fun hroom => ?_⟩
    have hle := Nat.div_le_self (exactSum xs + xs.length / 2) xs.length
    have hmean : (BitVec.ofNat w ((exactSum xs + xs.length / 2) / xs.length)).toNat =
        (exactSum xs + xs.length / 2) / xs.length := by
      rw [BitVec.toNat_ofNat]
      exact Nat.mod_eq_of_lt (by omega)
    refine ⟨BitVec.ofNat w ((exactSum xs + xs.length / 2) / xs.length), ?_, fun ys hperm => ?_⟩
    · rw [round_div_eq _ (List.length_pos_iff.mpr hne), hmean]
    · have hne' : ys ≠ [] := by
        rintro rfl
        exact hne hperm.nil_eq.symm
      rw [← exactSum_perm hperm, ← hperm.length_eq] at hroom hmean ⊢
      rw [CountFits, ← exactSum_perm hperm, ← hperm.length_eq] at h
      obtain ⟨hlo, hhi⟩ := mean_between hne' (isLeast_min hne').2 (isGreatest_max hne').2
      refine ⟨mean_of_countFits hw hne' h hroom, ?_, ?_⟩
      · rw [BitVec.le_def, hmean]
        exact hlo
      · rw [BitVec.le_def, hmean]
        exact hhi

end

/-! ## Floating point -/

/-- A sample is as small as the least and one as large as the greatest positive number. -/
def Spans {t : FloatType} (xs : List (FloatNumber t)) : Prop :=
  (∃ x ∈ xs, x ≤ floatMin t) ∧ ∃ x ∈ xs, floatMax t ≤ x

section

variable {t : FloatType} [Add (FloatValue t)]

/-- What a floating-point type is to give. -/
structure FloatStatsRight (xs : List (FloatNumber t)) : Prop where
  min : ∃ lo, (statsAddAll (statsInitFloat t) (xs.map .number)).min = .number lo ∧
    IsLeast { x | x ∈ xs } lo
  max : ∃ hi, (statsAddAll (statsInitFloat t) (xs.map .number)).max = .number hi ∧
    IsGreatest { x | x ∈ xs } hi

theorem floatStatsRight_iff (xs : List (FloatNumber t)) : FloatStatsRight xs ↔ Spans xs := by
  have hlt : ∀ x y : FloatNumber t, FloatValue.number x < .number y ↔ x < y :=
    fun _ _ => Iff.rfl
  have hmin : (statsAddAll (statsInitFloat t) (xs.map .number)).min =
      .number (xs.foldl min (floatMin t)) := min_statsAddAll hlt rfl xs
  have hmax : (statsAddAll (statsInitFloat t) (xs.map .number)).max =
      .number (xs.foldl max (floatMax t)) := max_statsAddAll hlt rfl xs
  constructor
  · rintro ⟨⟨lo, hlo, hleast⟩, hi, hhi, hgreatest⟩
    rw [hmin, FloatValue.number.injEq] at hlo
    rw [hmax, FloatValue.number.injEq] at hhi
    subst hlo hhi
    exact ⟨isLeast_foldl_min_iff.mp hleast, isGreatest_foldl_max_iff.mp hgreatest⟩
  · rintro ⟨hlow, hhigh⟩
    exact ⟨⟨_, hmin, isLeast_foldl_min_iff.mpr hlow⟩, _, hmax, isGreatest_foldl_max_iff.mpr hhigh⟩

end

/-! ## Every configuration -/

/-- The samples of a build configuration. -/
inductive Samples where
  | uint32 (xs : List (BitVec 32))
  | uint64 (xs : List (BitVec 64))
  | float (xs : List (FloatNumber .float))
  | double (xs : List (FloatNumber .double))

namespace Samples

def Nonempty : Samples → Prop
  | uint32 xs => xs ≠ []
  | uint64 xs => xs ≠ []
  | float xs => xs ≠ []
  | double xs => xs ≠ []

def StatsRight [∀ t, Add (FloatValue t)] : Samples → Prop
  | uint32 xs => UintStatsRight xs
  | uint64 xs => UintStatsRight xs
  | float xs => FloatStatsRight xs
  | double xs => FloatStatsRight xs

def Suits : Samples → Prop
  | uint32 xs => CountFits xs
  | uint64 xs => CountFits xs
  | float xs => Spans xs
  | double xs => Spans xs

end Samples

/-- The integer types are right until the count wraps, the others only if the samples reach as
far as the start. -/
theorem stats_right_iff [∀ t, Add (FloatValue t)] (samples : Samples) (h : samples.Nonempty) :
    samples.StatsRight ↔ samples.Suits := by
  cases samples with
  | uint32 xs => exact uintStatsRight_iff (by decide) h
  | uint64 xs => exact uintStatsRight_iff (by decide) h
  | float xs => exact floatStatsRight_iff xs
  | double xs => exact floatStatsRight_iff xs

/-- Addition to zero, which is all there is to do for a single sample. -/
abbrev addToZero (t : FloatType) : Add (FloatValue t) := ⟨fun _ d => d⟩

theorem stats_right_seven_eight : @Samples.StatsRight addToZero (.uint32 [7, 8]) :=
  (@stats_right_iff addToZero (.uint32 [7, 8]) (List.cons_ne_nil _ _)).mpr (.inl (by decide))

/-- The largest of the single sample 1 is `FLT_MAX`. -/
theorem stats_float_one :
    ¬ @Samples.StatsRight addToZero
      (.float [FloatType.float.finite 1 (FloatType.holds_one _)]) := by
  intro h
  obtain ⟨_, x, hx, hmax⟩ := (@floatStatsRight_iff _ (addToZero .float) _).mp h
  rw [List.mem_singleton] at hx
  subst hx
  have hle := Subtype.coe_le_coe.mpr (WithTop.coe_le_coe.mp (WithBot.coe_le_coe.mp hmax))
  norm_num [FloatType.mantDig, FloatType.maxExp] at hle

end Librfn
