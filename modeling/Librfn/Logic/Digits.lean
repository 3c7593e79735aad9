import Librfn.Logic.Counting
import Mathlib.Data.Nat.Bitwise
import Mathlib.Data.Nat.Digits.Defs

/-!
# Words as digits

A word cut into fields of equal width is a number in base `2 ^ k`.  A masked
shift works on all the fields at once if no field needs bits of the next one.
-/

namespace Librfn.Logic

theorem exists_ofDigits {b : Nat} (hb : 0 < b) (n : Nat) {x : Nat} (h : x < b ^ n) :
    ∃ ds : List Nat, ds.length = n ∧ (∀ d ∈ ds, d < b) ∧ Nat.ofDigits b ds = x := by
  induction n generalizing x with
  | zero => exact ⟨[], rfl, nofun, (Nat.lt_one_iff.mp h).symm⟩
  | succ n ih =>
      rw [Nat.pow_succ] at h
      obtain ⟨ds, hlen, hds, hx⟩ := ih (Nat.div_lt_of_lt_mul (Nat.mul_comm _ _ ▸ h))
      refine ⟨x % b :: ds, by rw [List.length_cons, hlen], ?_, ?_⟩
      · rintro d hd
        rcases List.mem_cons.mp hd with rfl | hd
        · exact Nat.mod_lt x hb
        · exact hds d hd
      · rw [Nat.ofDigits_cons, hx]
        exact Nat.mod_add_div x b

theorem land_add_mul {k a b c d : Nat} (ha : a < 2 ^ k) (hc : c < 2 ^ k) :
    (a + 2 ^ k * b) &&& (c + 2 ^ k * d) = (a &&& c) + 2 ^ k * (b &&& d) := by
  have hpos := Nat.two_pow_pos k
  have hmod := Nat.and_mod_two_pow (a := a + 2 ^ k * b) (b := c + 2 ^ k * d) (n := k)
  have hdiv := Nat.and_div_two_pow (a := a + 2 ^ k * b) (b := c + 2 ^ k * d) (n := k)
  simp only [Nat.add_mul_mod_self_left, Nat.mod_eq_of_lt ha, Nat.mod_eq_of_lt hc] at hmod
  simp only [Nat.add_mul_div_left _ _ hpos, Nat.div_eq_of_lt ha, Nat.div_eq_of_lt hc,
    Nat.zero_add] at hdiv
  rw [← hmod, ← hdiv, Nat.mod_add_div]

theorem count_ofDigits {k : Nat} {ds : List Nat} (h : ∀ d ∈ ds, d < 2 ^ k) :
    Nat.count (fun i => (Nat.ofDigits (2 ^ k) ds).testBit i = true) (k * ds.length) =
      (ds.map fun d => Nat.count (fun i => d.testBit i = true) k).sum := by
  induction ds with
  | nil => simp
  | cons d ds ih =>
      rw [List.forall_mem_cons] at h
      have hbit (i : Nat) : (Nat.ofDigits (2 ^ k) (d :: ds)).testBit i =
          if i < k then d.testBit i else (Nat.ofDigits (2 ^ k) ds).testBit (i - k) := by
        rw [Nat.ofDigits_cons, Nat.add_comm, Nat.testBit_two_pow_mul_add _ h.1]
      have hlow : Nat.count (fun i => (Nat.ofDigits (2 ^ k) (d :: ds)).testBit i = true) k =
          Nat.count (fun i => d.testBit i = true) k := by
        refine count_congr fun i hi => ?_
        rw [hbit, if_pos hi]
      rw [List.length_cons, Nat.mul_succ, Nat.add_comm, Nat.count_add, hlow]
      simp only [hbit, Nat.not_lt.mpr (Nat.le_add_right k _), if_false, Nat.add_sub_cancel_left]
      rw [ih h.2, List.map_cons, List.sum_cons]

theorem ofDigits_map_sub {b : Nat} {f g : Nat → Nat} (h : ∀ d, g d ≤ f d) (ds : List Nat) :
    Nat.ofDigits b (ds.map g) ≤ Nat.ofDigits b (ds.map f) ∧
      Nat.ofDigits b (ds.map f) - Nat.ofDigits b (ds.map g) =
        Nat.ofDigits b (ds.map fun d => f d - g d) := by
  have hadd : Nat.ofDigits b (ds.map f) =
      Nat.ofDigits b (ds.map fun d => f d - g d) + Nat.ofDigits b (ds.map g) := by
    induction ds with
    | nil => rfl
    | cons d ds ih =>
        simp only [List.map_cons, Nat.ofDigits_cons, ih, Nat.mul_add]
        have := h d
        omega
  rw [hadd]
  exact ⟨Nat.le_add_left _ _, Nat.add_sub_cancel _ _⟩

/-- Every field is halved: the bit that comes down from the next field is masked
off. -/
theorem ofDigits_half {k : Nat} {ds : List Nat} (h : ∀ d ∈ ds, d < 2 ^ (k + 1)) :
    Nat.ofDigits (2 ^ (k + 1)) ds / 2 &&&
        Nat.ofDigits (2 ^ (k + 1)) (ds.map fun _ => 2 ^ k - 1) =
      Nat.ofDigits (2 ^ (k + 1)) (ds.map (· / 2)) := by
  induction ds with
  | nil => simp
  | cons d ds ih =>
      rw [List.forall_mem_cons] at h
      simp only [List.map_cons, Nat.ofDigits_cons, ← ih h.2]
      generalize Nat.ofDigits (2 ^ (k + 1)) ds = rest
      generalize Nat.ofDigits (2 ^ (k + 1)) (ds.map fun _ => 2 ^ k - 1) = masks
      have hpos := Nat.two_pow_pos k
      have hd := h.1
      rw [Nat.pow_succ'] at hd
      have hhalf : (d + 2 ^ (k + 1) * rest) / 2 =
          (d / 2 + 2 ^ k * (rest % 2)) + 2 ^ (k + 1) * (rest / 2) := by
        rw [Nat.pow_succ', Nat.mul_assoc 2, Nat.add_mul_div_left _ _ (by decide), Nat.add_assoc,
          Nat.mul_comm 2, Nat.mul_assoc, ← Nat.mul_add, Nat.mod_add_div]
      have hlow : d / 2 + 2 ^ k * (rest % 2) < 2 ^ (k + 1) := by
        have hbit : 2 ^ k * (rest % 2) ≤ 2 ^ k * 1 :=
          Nat.mul_le_mul_left _ (Nat.lt_succ_iff.mp (Nat.mod_lt _ (by decide)))
        rw [Nat.pow_succ']
        omega
      rw [hhalf, land_add_mul hlow (by rw [Nat.pow_succ']; omega),
        Nat.and_two_pow_sub_one_eq_mod, Nat.add_mul_mod_self_left, Nat.mod_eq_of_lt (by omega)]

/-- The sums of neighbouring fields. -/
def addPairs : List Nat → List Nat
  | d :: e :: ds => (d + e) :: addPairs ds
  | _ => []

theorem addPairs_sum {n : Nat} {ds : List Nat} (h : ds.length = 2 * n) :
    (addPairs ds).sum = ds.sum ∧ (addPairs ds).length = n := by
  induction n generalizing ds with
  | zero => simp [List.length_eq_zero_iff.mp h, addPairs]
  | succ n ih =>
      match ds, h with
      | d :: e :: ds, h =>
          simp only [List.length_cons] at h
          obtain ⟨hsum, hlen⟩ := @ih ds (by omega)
          simp [addPairs, hsum, hlen, Nat.add_assoc]

/-- The fields are added to the next ones, and every other sum is masked off. -/
theorem ofDigits_addPairs {n : Nat} {ds : List Nat} (h : ds.length = 2 * n)
    (hsmall : ∀ d ∈ ds, d < 8) :
    (Nat.ofDigits 16 ds + Nat.ofDigits 16 ds / 16) &&& Nat.ofDigits 256 (List.replicate n 15) =
      Nat.ofDigits 256 (addPairs ds) := by
  induction n generalizing ds with
  | zero => simp [List.length_eq_zero_iff.mp h, addPairs]
  | succ n ih =>
      match ds, h with
      | d :: e :: ds, h =>
          simp only [List.length_cons] at h
          simp only [List.forall_mem_cons] at hsmall
          obtain ⟨hd, he, hds⟩ := hsmall
          have hrest := @ih ds (by omega) hds
          have hlow : Nat.ofDigits 16 ds % 16 < 8 := by
            match ds, hds with
            | [], _ => simp
            | c :: ds, hds =>
                have := hds c List.mem_cons_self
                rw [Nat.ofDigits_cons]
                omega
          rw [addPairs, List.replicate_succ, Nat.ofDigits_cons, Nat.ofDigits_cons,
            Nat.ofDigits_cons, Nat.ofDigits_cons, ← hrest]
          generalize Nat.ofDigits 16 ds = rest at hlow
          generalize Nat.ofDigits 256 (List.replicate n 15) = masks
          have hsum : d + 16 * (e + 16 * rest) + (d + 16 * (e + 16 * rest)) / 16 =
              (d + e + 16 * ((e + rest) % 16)) + 256 * (rest + rest / 16) := by
            omega
          have hlt : d + e + 16 * ((e + rest) % 16) < 2 ^ 8 := by omega
          have hmask : (d + e + 16 * ((e + rest) % 16)) &&& 15 = d + e := by
            have hmod := Nat.and_two_pow_sub_one_eq_mod (d + e + 16 * ((e + rest) % 16)) 4
            rw [show (15 : Nat) = 2 ^ 4 - 1 from rfl, hmod]
            omega
          have hland := land_add_mul (b := rest + rest / 16) (d := masks) hlt
            (show 15 < 2 ^ 8 by decide)
          rw [hmask] at hland
          rw [hsum]
          exact hland

end Librfn.Logic
