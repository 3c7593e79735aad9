import Librfn.Bitops
import Librfn.Logic.Digits

/-!
# What the bit operations compute

`bitcnt` counts the bits of all fields of four at once.  The other functions
mark as many bits as they have to count.
-/

namespace Librfn

open Librfn.Logic

theorem toNat_cpop_eq_count {w : Nat} (x : BitVec w) :
    x.cpop.toNat = Nat.count (fun i => x.getLsbD i = true) w := by
  have hrec (n : Nat) : x.cpopNatRec n 0 = Nat.count (fun i => x.getLsbD i = true) n := by
    induction n with
    | zero => rfl
    | succ n ih =>
        rw [BitVec.cpopNatRec_succ, BitVec.cpopNatRec_eq, ih, Nat.count_succ, Nat.zero_add]
        cases x.getLsbD n <;> rfl
  rw [BitVec.toNat_cpop, hrec]

/-! ## Counting in fields of four -/

/-- The bits of a field: itself less its quotients by two, four and eight. -/
theorem count_field {d : Nat} (h : d < 16) :
    d - d / 2 - d / 2 / 2 - d / 2 / 2 / 2 = Nat.count (fun i => d.testBit i = true) 4 := by
  have hall : ∀ d : Fin 16, d.val - d.val / 2 - d.val / 2 / 2 - d.val / 2 / 2 / 2 =
      Nat.count (fun i => d.val.testBit i = true) 4 := by decide
  exact hall ⟨d, h⟩

section Fields

variable {ds : List Nat} (hlen : ds.length = 8)

include hlen

theorem toNat_half {n : BitVec 32} {f : Nat → Nat} (hf : ∀ d ∈ ds, f d < 16)
    (hn : n.toNat = Nat.ofDigits 16 (ds.map f)) :
    ((n >>> 1) &&& 0x77777777).toNat = Nat.ofDigits 16 (ds.map fun d => f d / 2) := by
  have hmask : (0x77777777 : BitVec 32).toNat = Nat.ofDigits 16 ((ds.map f).map fun _ => 7) := by
    rw [List.map_const', List.length_map, hlen]
    decide
  have hhalf := @ofDigits_half 3 (ds.map f) (by simpa using hf)
  rw [BitVec.toNat_and, BitVec.toNat_ushiftRight, Nat.shiftRight_eq_div_pow, hn, hmask]
  rw [List.map_map (f := f) (g := fun d => d / 2)] at hhalf
  exact hhalf

omit hlen in
theorem toNat_sub_fields {x n : BitVec 32} {f g : Nat → Nat} (h : ∀ d, g d ≤ f d)
    (hx : x.toNat = Nat.ofDigits 16 (ds.map f)) (hn : n.toNat = Nat.ofDigits 16 (ds.map g)) :
    (x - n).toNat = Nat.ofDigits 16 (ds.map fun d => f d - g d) := by
  obtain ⟨hle, hsub⟩ := ofDigits_map_sub (b := 16) h ds
  rw [BitVec.toNat_sub_of_le (by rw [BitVec.le_def, hx, hn]; exact hle), hx, hn, hsub]

theorem toNat_addPairs {x : BitVec 32} (hds : ∀ d ∈ ds, d ≤ 4)
    (hx : x.toNat = Nat.ofDigits 16 ds) :
    ((x + (x >>> 4)) &&& 0x0F0F0F0F).toNat = Nat.ofDigits 256 (addPairs ds) := by
  have hlt : Nat.ofDigits 16 ds ≤ 0x44444444 := by
    clear hx
    match ds, hlen, hds with
    | [a, b, c, d, e, f, g, h], _, hds =>
        simp only [List.forall_mem_cons] at hds
        simp only [Nat.ofDigits_cons, Nat.ofDigits_nil]
        omega
  have hmask : (0x0F0F0F0F : BitVec 32).toNat = Nat.ofDigits 256 (List.replicate 4 15) := by
    decide
  rw [BitVec.toNat_and, BitVec.toNat_add, BitVec.toNat_ushiftRight, Nat.shiftRight_eq_div_pow,
    hx, hmask, Nat.mod_eq_of_lt (by omega)]
  exact ofDigits_addPairs hlen fun d hd => Nat.lt_of_le_of_lt (hds d hd) (by decide)

end Fields

/-- The sum of four bytes moves to the top one. -/
theorem toNat_mul_ones {x : BitVec 32} {cs : List Nat} (hlen : cs.length = 4)
    (hcs : cs.sum ≤ 32) (hx : x.toNat = Nat.ofDigits 256 cs) :
    ((x * 0x01010101) >>> 24).toNat = cs.sum := by
  have hones : (0x01010101 : BitVec 32).toNat = 0x01010101 := rfl
  rw [BitVec.toNat_ushiftRight, BitVec.toNat_mul, hones, hx, Nat.shiftRight_eq_div_pow]
  match cs, hlen with
  | [a, b, c, d], _ =>
      simp only [List.sum_cons, List.sum_nil] at hcs
      have hproduct : Nat.ofDigits 256 [a, b, c, d] * 0x01010101 =
          (a + 256 * (a + b) + 65536 * (a + b + c) + 16777216 * (a + b + c + d)) +
            2 ^ 32 * ((b + c + d) + 256 * (c + d) + 65536 * d) := by
        simp only [Nat.ofDigits_cons, Nat.ofDigits_nil]
        omega
      rw [hproduct, Nat.add_mul_mod_self_left, Nat.mod_eq_of_lt (by omega)]
      simp only [List.sum_cons, List.sum_nil]
      omega

/-- The first half of `bitcnt` leaves in every field how many of its bits were set. -/
theorem exists_fieldCounts {x : BitVec 32} {ds : List Nat} (hlen : ds.length = 8)
    (hds : ∀ d ∈ ds, d < 16) (hx : Nat.ofDigits 16 ds = x.toNat) :
    ∃ counts : BitVec 32,
      counts.toNat =
        Nat.ofDigits 16 (ds.map fun d => Nat.count (fun i => d.testBit i = true) 4) ∧
      bitcnt x = ((((counts + (counts >>> 4)) &&& 0x0F0F0F0F) * 0x01010101) >>> 24).toNat := by
  have hx₀ : x.toNat = Nat.ofDigits 16 (ds.map fun d => d) := by rw [List.map_id', hx]
  have hn₁ := toNat_half hlen hds hx₀
  have hx₁ := toNat_sub_fields (fun d => Nat.div_le_self d 2) hx₀ hn₁
  have hn₂ := toNat_half hlen (fun d hd => by have := hds d hd; omega) hn₁
  have hx₂ := toNat_sub_fields (fun d => by omega) hx₁ hn₂
  have hn₃ := toNat_half hlen (fun d hd => by have := hds d hd; omega) hn₂
  have hx₃ := toNat_sub_fields (fun d => by omega) hx₂ hn₃
  have hcounts : (ds.map fun d => d - d / 2 - d / 2 / 2 - d / 2 / 2 / 2) =
      ds.map fun d => Nat.count (fun i => d.testBit i = true) 4 :=
    List.map_congr_left fun d hd => count_field (hds d hd)
  exact ⟨_, hx₃.trans (by rw [hcounts]), rfl⟩

theorem bitcnt_eq (x : BitVec 32) : bitcnt x = x.cpop.toNat := by
  obtain ⟨ds, hlen, hds, hx⟩ := exists_ofDigits (b := 16) (by decide) 8 x.isLt
  obtain ⟨counts, hcounts, hcode⟩ := exists_fieldCounts hlen hds hx
  generalize hps : (ds.map fun d => Nat.count (fun i => d.testBit i = true) 4) = ps at hcounts
  have hlen' : ps.length = 2 * 4 := by rw [← hps, List.length_map, hlen]
  have hle : ∀ p ∈ ps, p ≤ 4 := by
    intro p hp
    rw [← hps] at hp
    obtain ⟨d, -, rfl⟩ := List.mem_map.mp hp
    exact Nat.count_le _
  obtain ⟨hsum, hbytes⟩ := addPairs_sum hlen'
  have hcount : x.cpop.toNat = ps.sum := by
    rw [toNat_cpop_eq_count, ← hps, ← count_ofDigits (k := 4) hds, hlen]
    refine count_congr fun i _ => ?_
    rw [show (2 ^ 4 : Nat) = 16 from rfl, hx]
    rfl
  have htotal : (addPairs ps).sum ≤ 32 := by
    rw [hsum, ← hcount]
    exact BitVec.toNat_cpop_le x
  rw [hcode, toNat_mul_ones hbytes htotal (toNat_addPairs hlen' hle hcounts), hsum, hcount]

/-! ## Leading and trailing zeros -/

/-- The bits of `y` say which windows of `k` bits of `x` are not empty. -/
def Smeared (k : Nat) (x y : BitVec 32) : Prop :=
  ∀ i, y.getLsbD i = true ↔ ∃ j, i ≤ j ∧ j < i + k ∧ x.getLsbD j = true

theorem smeared_one (x : BitVec 32) : Smeared 1 x x := by
  intro i
  constructor
  · exact fun h => ⟨i, Nat.le_refl i, Nat.lt_succ_self i, h⟩
  · rintro ⟨j, hle, hlt, h⟩
    obtain rfl : j = i := by omega
    exact h

theorem Smeared.double {k : Nat} {x y : BitVec 32} (h : Smeared k x y) :
    Smeared (2 * k) x (y ||| (y >>> k)) := by
  intro i
  rw [BitVec.getLsbD_or, BitVec.getLsbD_ushiftRight, Bool.or_eq_true, h i, h (k + i)]
  constructor
  · rintro (⟨j, hle, hlt, hj⟩ | ⟨j, hle, hlt, hj⟩)
    · exact ⟨j, hle, by omega, hj⟩
    · exact ⟨j, by omega, by omega, hj⟩
  · rintro ⟨j, hle, hlt, hj⟩
    rcases Nat.lt_or_ge j (i + k) with hnear | hfar
    · exact .inl ⟨j, hle, hnear, hj⟩
    · exact .inr ⟨j, by omega, by omega, hj⟩

theorem not_exists_getLsbD_iff (x : BitVec 32) (i : Nat) :
    (¬ ∃ j, i ≤ j ∧ j < i + 32 ∧ x.getLsbD j = true) ↔ 32 - x.clz.toNat ≤ i := by
  constructor
  · intro h
    by_contra hlt
    have hne : x ≠ 0 := by
      rintro rfl
      have hzero : (0 : BitVec 32).clz.toNat = 32 := by decide
      omega
    refine h ⟨32 - 1 - x.clz.toNat, by omega, by omega, ?_⟩
    exact BitVec.getLsbD_true_clz_of_ne_zero (by decide) hne
  · rintro hle ⟨j, hij, -, hj⟩
    have hlt := BitVec.toNat_lt_two_pow_sub_clz (x := x)
    have hbit := Nat.testBit_eq_false_of_lt
      (hlt.trans_le (Nat.pow_le_pow_right (by decide) (hle.trans hij)))
    rw [BitVec.getLsbD, hbit] at hj
    cases hj

theorem clz_le (x : BitVec 32) : x.clz.toNat ≤ 32 := by
  have hle := BitVec.le_def.mp (BitVec.clz_le (x := x))
  rwa [show ((32 : Nat) : BitVec 32).toNat = 32 from rfl] at hle

theorem clz_eq (x : BitVec 32) : clz x = x.clz.toNat := by
  obtain ⟨y, hsmeared, hclz⟩ : ∃ y, Smeared 32 x y ∧ clz x = bitcnt (~~~y) :=
    ⟨_, (smeared_one x).double.double.double.double.double, rfl⟩
  rw [hclz, bitcnt_eq, toNat_cpop_eq_count, count_of_ge (t := 32 - x.clz.toNat)]
  · have hle := clz_le x
    omega
  · intro i hi
    rw [← not_exists_getLsbD_iff, ← hsmeared i, BitVec.getLsbD_not]
    simp [hi]

theorem ctz_eq_of_bits {w t : Nat} {x : BitVec w} (hlow : ∀ j < t, x.getLsbD j = false)
    (hbit : x.getLsbD t = true) : x.ctz.toNat = t := by
  have hne : x ≠ 0 := by
    rintro rfl
    simp at hbit
  have hctz := BitVec.getLsbD_true_ctz_of_ne_zero hne
  rcases Nat.lt_trichotomy x.ctz.toNat t with hlt | heq | hgt
  · rw [hlow _ hlt] at hctz
    cases hctz
  · exact heq
  · rw [BitVec.getLsbD_false_of_lt_ctz hgt] at hbit
    cases hbit

theorem toNat_eq_of_ctz {w : Nat} {x : BitVec w} (hx : x ≠ 0) :
    ∃ q, x.toNat = 2 ^ (x.ctz.toNat + 1) * q + 2 ^ x.ctz.toNat := by
  have hlow := fun j => BitVec.getLsbD_false_of_lt_ctz (x := x) (i := j)
  have hbit := BitVec.getLsbD_true_ctz_of_ne_zero hx
  generalize x.ctz.toNat = t at hlow hbit
  have hmod : x.toNat % 2 ^ t = 0 := by
    refine Nat.eq_of_testBit_eq fun j => ?_
    rw [Nat.testBit_mod_two_pow, Nat.zero_testBit]
    by_cases hj : j < t
    · rw [show x.toNat.testBit j = false from hlow j hj, Bool.and_false]
    · rw [decide_eq_false hj, Bool.false_and]
  rw [BitVec.getLsbD, Nat.testBit_eq_decide_div_mod_eq, decide_eq_true_iff] at hbit
  refine ⟨x.toNat / 2 ^ (t + 1), ?_⟩
  have hdiv := Nat.div_add_mod x.toNat (2 ^ (t + 1))
  rw [Nat.mod_pow_succ, hmod, hbit, Nat.zero_add, Nat.mul_one] at hdiv
  exact hdiv.symm

theorem getLsbD_trailing (x : BitVec 32) {i : Nat} (hi : i < 32) :
    (~~~x &&& (x - 1)).getLsbD i = true ↔ i < x.ctz.toNat := by
  by_cases hzero : x = 0
  · subst hzero
    have hctz : (0 : BitVec 32).ctz.toNat = 32 := by decide +kernel
    have hones : ~~~(0 : BitVec 32) &&& (0 - 1) = BitVec.allOnes 32 := by decide
    rw [hctz, hones, BitVec.getLsbD_allOnes, decide_eq_true_iff]
  · obtain ⟨q, hq⟩ := toNat_eq_of_ctz hzero
    generalize x.ctz.toNat = t at hq ⊢
    have hpos := Nat.two_pow_pos t
    have hlt : 2 ^ t < 2 ^ (t + 1) := Nat.pow_lt_pow_right (by decide) (Nat.lt_succ_self t)
    have hpred : (x - 1).toNat = 2 ^ (t + 1) * q + (2 ^ t - 1) := by
      have hone : (1 : BitVec 32).toNat = 1 := rfl
      rw [BitVec.toNat_sub_of_le (by rw [BitVec.le_def, hone]; omega), hone, hq]
      omega
    rw [BitVec.getLsbD_and, BitVec.getLsbD_not, BitVec.getLsbD, BitVec.getLsbD, hpred, hq,
      Nat.testBit_two_pow_mul_add _ hlt, Nat.testBit_two_pow_mul_add _ (by omega)]
    rcases Nat.lt_trichotomy i t with hbelow | rfl | habove
    · simp [hi, hbelow, show i < t + 1 by omega, show t ≠ i by omega]
    · simp
    · simp [show ¬ i < t + 1 by omega, show ¬ i < t by omega]

theorem ctz_eq (x : BitVec 32) : ctz x = x.ctz.toNat := by
  have hle : x.ctz.toNat ≤ 32 := by
    rw [BitVec.ctz_eq_reverse_clz]
    exact clz_le x.reverse
  rw [ctz, bitcnt_eq, toNat_cpop_eq_count, count_of_lt fun i hi => getLsbD_trailing x hi,
    Nat.min_eq_left hle]

theorem ilog2_eq {x : BitVec 32} (h : x ≠ 0) : ilog2 x = .ok (Nat.log2 x.toNat : Int) := by
  have hne : x.toNat ≠ 0 := fun hzero => h (BitVec.eq_of_toNat_eq hzero)
  have hlow := BitVec.two_pow_sub_clz_le_toNat_of_ne_zero (by decide) h
  have hhigh := BitVec.toNat_lt_two_pow_sub_clz (x := x)
  have hclz : x.clz.toNat ≤ 31 := by
    by_contra hlt
    rw [show 32 - x.clz.toNat = 0 by omega] at hhigh
    omega
  have hlog : Nat.log2 x.toNat = 31 - x.clz.toNat := by
    rw [Nat.log2_eq_iff hne]
    exact ⟨hlow, hhigh.trans_eq (by congr 1; omega)⟩
  rw [ilog2, if_neg h, clz_eq, hlog]
  exact congrArg Except.ok (by omega)

/-! ## Constant expressions -/

/-- How many of the lowest `n` bits are set. -/
def PopCounts (n : Nat) (pop : BitVec 64 → BitVec 64) : Prop :=
  ∀ c, (pop c).toNat = Nat.count (fun i => c.getLsbD i = true) n

theorem popCounts_one : PopCounts 1 constPop1 := by
  intro c
  rw [constPop1, BitVec.toNat_and, Nat.count_one]
  have hmod := Nat.and_two_pow_sub_one_eq_mod c.toNat 1
  rw [show (1 : BitVec 64).toNat = 2 ^ 1 - 1 from rfl, hmod, BitVec.getLsbD,
    Nat.testBit_zero]
  rcases Nat.mod_two_eq_zero_or_one c.toNat with h | h <;> simp [h]

theorem PopCounts.halves {n : Nat} {pop : BitVec 64 → BitVec 64} (h : PopCounts n pop)
    (hn : n ≤ 32) : PopCounts (2 * n) (constPopHalves pop n) := by
  intro c
  have hlow := Nat.count_le (fun i => c.getLsbD i = true) (n := n)
  have hhigh := Nat.count_le (fun i => c.getLsbD (n + i) = true) (n := n)
  rw [constPopHalves, BitVec.toNat_add, h c, h (c >>> n), Nat.two_mul, Nat.count_add]
  simp only [BitVec.getLsbD_ushiftRight]
  exact Nat.mod_eq_of_lt (by omega)

theorem constPop_eq (c : BitVec 64) : (constPop c).toNat = c.cpop.toNat := by
  have hpop : PopCounts 64 constPop64 :=
    (((((popCounts_one.halves (by decide)).halves (by decide)).halves (by decide)).halves
      (by decide)).halves (by decide)).halves (by decide)
  rw [toNat_cpop_eq_count]
  exact hpop c

theorem mask_eq_zero_iff {k : Nat} {mask c : BitVec 64} (hk : k ≤ 64)
    (hmask : mask = .ofNat 64 (2 ^ k - 1)) :
    mask &&& c = 0 ↔ ∀ i < k, c.getLsbD i = false := by
  have hbit (i : Nat) : (mask &&& c).getLsbD i = (decide (i < k) && c.getLsbD i) := by
    rw [hmask, BitVec.getLsbD_and, BitVec.getLsbD_ofNat, Nat.testBit_two_pow_sub_one]
    by_cases hi : i < k
    · simp [hi, show i < 64 by omega]
    · simp [hi]
  constructor
  · intro h i hi
    have hzero := hbit i
    rw [h, decide_eq_true hi, Bool.true_and] at hzero
    rw [← hzero]
    exact BitVec.getLsbD_zero
  · intro h
    refine BitVec.eq_of_getLsbD_eq fun i _ => ?_
    rw [hbit]
    by_cases hi : i < k
    · simp [h i hi]
    · simp [hi]

/-- The lowest of the lowest `n` bits, or `n - 65` if there is none. -/
structure LssbFinds (n : Nat) (lssb : BitVec 64 → Int) : Prop where
  none : ∀ c, (∀ i < n, c.getLsbD i = false) → lssb c = (n : Int) - 65
  some : ∀ c, ∀ t < n, c.getLsbD t = true → (∀ i < t, c.getLsbD i = false) → lssb c = t

theorem lssbFinds_one : LssbFinds 1 constLssb1 := by
  have hmask (c : BitVec 64) := @mask_eq_zero_iff 1 0x1 c (by decide) rfl
  constructor
  case none =>
    intro c h
    rw [constLssb1, if_neg (not_not.mpr ((hmask c).mpr h))]
    rfl
  case some =>
    intro c t ht hbit _
    obtain rfl : t = 0 := by omega
    rw [constLssb1, if_pos]
    · rfl
    · intro hzero
      rw [(hmask c).mp hzero 0 (by decide)] at hbit
      cases hbit

section Halves

variable {n : Nat} {mask : BitVec 64} (hn : n ≤ 64) (hmask : mask = .ofNat 64 (2 ^ n - 1))

include hn hmask

theorem constLssbHalves_lower (lssb : BitVec 64 → Int) {c : BitVec 64} {t : Nat} (ht : t < n)
    (hbit : c.getLsbD t = true) : constLssbHalves lssb n mask c = lssb c := by
  refine if_pos fun hzero => ?_
  rw [(mask_eq_zero_iff hn hmask).mp hzero t ht] at hbit
  cases hbit

theorem constLssbHalves_upper (lssb : BitVec 64 → Int) {c : BitVec 64}
    (hlow : ∀ i < n, c.getLsbD i = false) :
    constLssbHalves lssb n mask c = lssb (c >>> n) + n :=
  if_neg (not_not.mpr ((mask_eq_zero_iff hn hmask).mpr hlow))

end Halves

theorem LssbFinds.halves {n : Nat} {lssb : BitVec 64 → Int} (h : LssbFinds n lssb) (hn : n ≤ 64)
    {mask : BitVec 64} (hmask : mask = .ofNat 64 (2 ^ n - 1)) :
    LssbFinds (2 * n) (constLssbHalves lssb n mask) := by
  constructor
  case none =>
    intro c hc
    rw [constLssbHalves_upper hn hmask lssb fun i hi => hc i (by omega), h.none (c >>> n)]
    · omega
    · intro i hi
      rw [BitVec.getLsbD_ushiftRight]
      exact hc (n + i) (by omega)
  case some =>
    intro c t ht hbit hlow
    by_cases hlower : t < n
    · rw [constLssbHalves_lower hn hmask lssb hlower hbit, h.some c t hlower hbit hlow]
    · rw [constLssbHalves_upper hn hmask lssb fun i hi => hlow i (by omega),
        h.some (c >>> n) (t - n) (by omega)]
      · omega
      · rwa [BitVec.getLsbD_ushiftRight, Nat.add_sub_cancel' (Nat.not_lt.mp hlower)]
      · intro i hi
        rw [BitVec.getLsbD_ushiftRight]
        exact hlow (n + i) (by omega)

theorem constLssb_eq (c : BitVec 64) : constLssb c = if c = 0 then -1 else (c.ctz.toNat : Int) := by
  have hlssb : LssbFinds 64 constLssb64 :=
    (((((lssbFinds_one.halves (by decide) rfl).halves (by decide) rfl).halves (by decide)
      rfl).halves (by decide) rfl).halves (by decide) rfl).halves (by decide) rfl
  rw [constLssb]
  split
  · rename_i hzero
    rw [hlssb.none c fun i _ => by rw [hzero]; exact BitVec.getLsbD_zero]
    rfl
  · rename_i hne
    have hbit := BitVec.getLsbD_true_ctz_of_ne_zero hne
    exact hlssb.some c _ (BitVec.lt_of_getLsbD hbit) hbit
      fun i hi => BitVec.getLsbD_false_of_lt_ctz hi

/-! ## Both together -/

theorem cpop_setWidth (x : BitVec 32) : (x.setWidth 64).cpop.toNat = x.cpop.toNat := by
  rw [toNat_cpop_eq_count, toNat_cpop_eq_count, show (64 : Nat) = 32 + 32 from rfl,
    Nat.count_add]
  have hhigh : Nat.count (fun i => (x.setWidth (32 + 32)).getLsbD (32 + i) = true) 32 = 0 := by
    rw [Nat.count_iff_forall_not]
    intro i _
    simp
  rw [hhigh, Nat.add_zero]
  refine count_congr fun i hi => ?_
  rw [BitVec.getLsbD_setWidth, decide_eq_true (by omega), Bool.true_and]

theorem ctz_setWidth {x : BitVec 32} (hx : x ≠ 0) :
    (x.setWidth 64).ctz.toNat = x.ctz.toNat := by
  have hbit := BitVec.getLsbD_true_ctz_of_ne_zero hx
  have hlt := BitVec.lt_of_getLsbD hbit
  refine ctz_eq_of_bits (fun j hj => ?_) ?_
  · rw [BitVec.getLsbD_setWidth, BitVec.getLsbD_false_of_lt_ctz hj, Bool.and_false]
  · rw [BitVec.getLsbD_setWidth, hbit, decide_eq_true (by omega), Bool.and_true]

/-- The functions and the macros agree with the reference functions, and so with
each other. -/
theorem bitops_reference :
    (∀ x : BitVec 32, bitcnt x = x.cpop.toNat ∧ clz x = x.clz.toNat ∧ ctz x = x.ctz.toNat ∧
      (x ≠ 0 → ilog2 x = .ok (Nat.log2 x.toNat : Int))) ∧
    (∀ c : BitVec 64, (constPop c).toNat = c.cpop.toNat ∧
      constLssb c = if c = 0 then -1 else (c.ctz.toNat : Int)) ∧
    ∀ x : BitVec 32, ((constPop (x.setWidth 64)).toNat : Int) = bitcnt x ∧
      (x ≠ 0 → constLssb (x.setWidth 64) = ctz x) := by
  refine ⟨fun x => ⟨bitcnt_eq x, clz_eq x, ctz_eq x, ilog2_eq⟩,
    fun c => ⟨constPop_eq c, constLssb_eq c⟩, fun x => ⟨?_, fun hx => ?_⟩⟩
  · rw [constPop_eq, cpop_setWidth, bitcnt_eq]
  · have hne : x.setWidth 64 ≠ 0 := by
      intro hzero
      apply hx
      have hnat := congrArg BitVec.toNat hzero
      rw [BitVec.toNat_setWidth_of_le (by decide)] at hnat
      exact BitVec.eq_of_toNat_eq hnat
    rw [constLssb_eq, if_neg hne, ctz_setWidth hx, ctz_eq]

end Librfn
