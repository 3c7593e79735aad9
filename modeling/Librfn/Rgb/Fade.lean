import Librfn.Logic.Cyclic
import Librfn.Logic.Flags
import Librfn.Rgb
import Mathlib.Algebra.Order.Floor.Div
import Mathlib.Data.Nat.Find

/-!
# How a fade goes on and ends

The test for a negative step never succeeds, so a step is taken only while the
value stays below the goal and in its half of the range.
-/

namespace Librfn

open Librfn.Logic

def Fading (f : RgbFader) (val : BitVec 32) (calls : Nat) : Prop :=
  ∀ j < calls, fadeDone f val j = false

theorem signBit_eq_zero_iff (x y : BitVec 32) :
    (x ^^^ y) &&& 0x80000000 = 0 ↔ (x.toNat < 2 ^ 31 ↔ y.toNat < 2 ^ 31) := by
  have hmsb (z : BitVec 32) : z.getLsbD 31 = decide (2 ^ 31 ≤ z.toNat) := by
    have hz := BitVec.msb_eq_decide z
    rwa [BitVec.msb_eq_getLsbD_last] at hz
  rw [show (0x80000000 : BitVec 32) = flag 32 31 from rfl, and_flag_eq_zero_iff _ (by decide),
    BitVec.getLsbD_xor, hmsb, hmsb]
  simp
  omega

theorem rgbFade_eq {f : RgbFader} (hstep : f.step ≠ 0) (val : BitVec 32) :
    rgbFade f val =
      if (val.toNat < 2 ^ 31 ↔ (val + f.step).toNat < 2 ^ 31) ∧ val + f.step < f.goal then
        (false, val + f.step)
      else (true, f.goal) := by
  have hpos : f.step > 0 := by bv_omega
  have hneg : ¬ f.step < 0 := by bv_omega
  simp only [rgbFade, Ne, signBit_eq_zero_iff, hpos, hneg, true_and, false_and, or_false]
  by_cases hhalf : val.toNat < 2 ^ 31 ↔ (val + f.step).toNat < 2 ^ 31
  · by_cases hgoal : val + f.step < f.goal
    · simp only [hhalf, not_true_eq_false, false_or, hgoal, and_self, if_true]
      rw [if_neg (by bv_omega)]
    · simp only [hhalf, not_true_eq_false, false_or, hgoal, and_false, if_false]
      rw [if_pos (by bv_omega)]
  · simp only [hhalf, not_false_eq_true, true_or, if_true, false_and, if_false]

/-- How far the value can still go in its half of the range. -/
def room (f : RgbFader) (val : BitVec 32) : Nat :=
  if f.step.toNat < 2 ^ 31 then 2 ^ 31 - 1 - val.toNat % 2 ^ 31 else val.toNat % 2 ^ 31

theorem room_lt (f : RgbFader) (val : BitVec 32) : room f val < 2 ^ 31 := by
  unfold room
  split <;> omega

theorem room_decreases {f : RgbFader} (hstep : f.step ≠ 0) {val : BitVec 32}
    (h : (rgbFade f val).1 = false) : room f (rgbFade f val).2 < room f val := by
  rw [rgbFade_eq hstep] at h ⊢
  split at h
  · rename_i hgoes
    rw [if_pos hgoes]
    obtain ⟨hhalf, -⟩ := hgoes
    unfold room
    split <;> bv_omega
  · cases h

/-- A fade that has not ended has used up room with every call. -/
theorem Fading.room_le {f : RgbFader} (hstep : f.step ≠ 0) {val : BitVec 32} {calls : Nat}
    (h : Fading f val calls) : room f (fadeVal f val calls) + calls ≤ room f val := by
  induction calls with
  | zero => exact Nat.le_refl _
  | succ calls ih =>
      have hle := ih fun j hj => h j (Nat.lt_succ_of_lt hj)
      have hlt := room_decreases hstep (h calls (Nat.lt_succ_self calls))
      simp only [fadeVal]
      omega

theorem exists_done {f : RgbFader} (hstep : f.step ≠ 0) (val : BitVec 32) :
    ∃ calls < 2 ^ 31, Fading f val calls ∧ fadeDone f val calls = true := by
  have hends : ∃ calls, fadeDone f val calls = true := by
    by_contra hnever
    have hfading : Fading f val (2 ^ 31) := fun j _ =>
      Bool.eq_false_iff.mpr fun hj => hnever ⟨j, hj⟩
    have hroom := hfading.room_le hstep
    have hlt := room_lt f val
    omega
  have hfirst : Fading f val (Nat.find hends) := fun j hj =>
    Bool.eq_false_iff.mpr (Nat.find_min hends hj)
  refine ⟨Nat.find hends, ?_, hfirst, Nat.find_spec hends⟩
  have hroom := hfirst.room_le hstep
  have hlt := room_lt f val
  omega

theorem rgbFade_goal {f : RgbFader} (hstep : f.step ≠ 0) {val : BitVec 32}
    (h : (rgbFade f val).1 = true) : (rgbFade f val).2 = f.goal := by
  rw [rgbFade_eq hstep] at h ⊢
  split at h
  · cases h
  · rename_i hends
    rw [if_neg hends]

/-! ## The step -/

theorem rgbFaderInit_spec (from' to' : BitVec 32) {nsteps : BitVec 32}
    (hn : 1 ≤ nsteps.toInt) :
    ∃ f, rgbFaderInit from' to' nsteps = some f ∧ f.goal = to' ∧ f.step ≠ 0 ∧
      f.step.toInt = if (to' - from').toInt.tdiv nsteps.toInt = 0 then 1
        else (to' - from').toInt.tdiv nsteps.toInt := by
  have hzero : nsteps ≠ 0 := by
    rintro rfl
    exact absurd hn (by decide)
  have hminus : nsteps ≠ -1 := by
    rintro rfl
    exact absurd hn (by decide)
  have hdiv : ((to' - from').sdiv nsteps).toInt = (to' - from').toInt.tdiv nsteps.toInt :=
    BitVec.toInt_sdiv_of_ne_or_ne _ _ (.inr hminus)
  have hiff : (to' - from').sdiv nsteps = 0 ↔ (to' - from').toInt.tdiv nsteps.toInt = 0 := by
    rw [← hdiv, ← BitVec.toInt_inj]
    rfl
  refine ⟨_, by simp only [rgbFaderInit, divideInt, hzero, hminus, and_false, or_false,
    if_false, Option.bind_eq_bind, Option.bind_some]; rfl, rfl, ?_, ?_⟩
  · dsimp only
    split
    · decide
    · assumption
  · dsimp only
    by_cases hquotient : (to' - from').sdiv nsteps = 0
    · rw [if_pos hquotient, if_pos (hiff.mp hquotient)]
      rfl
    · rw [if_neg hquotient, if_neg (mt hiff.mpr hquotient), hdiv]

/-- Whatever the value is, one of the first 2 ^ 31 calls returns true and leaves
the goal. -/
theorem fade_ends (from' to' val nsteps : BitVec 32) (hn : 1 ≤ nsteps.toInt) :
    ∃ f, rgbFaderInit from' to' nsteps = some f ∧ ∃ calls < 2 ^ 31,
      Fading f val calls ∧ fadeDone f val calls = true ∧ fadeVal f val (calls + 1) = to' := by
  obtain ⟨f, hinit, rfl, hstep, -⟩ := rgbFaderInit_spec from' to' hn
  obtain ⟨calls, hlt, hfading, hdone⟩ := exists_done hstep val
  exact ⟨f, hinit, calls, hlt, hfading, hdone, rgbFade_goal hstep hdone⟩

/-- Downwards and across the sign bit. -/
theorem fade_ends_crossing : ∃ f, rgbFaderInit 0x80000001 5 3 = some f ∧ ∃ calls < 2 ^ 31,
    Fading f 7 calls ∧ fadeDone f 7 calls = true ∧ fadeVal f 7 (calls + 1) = 5 :=
  fade_ends 0x80000001 5 7 3 (by decide)

/-! ## Steady fades -/

def fadeDistance (from' to' : BitVec 32) : Nat := ((to'.toNat : Int) - from'.toNat).natAbs

def fadeStep (from' to' nsteps : BitVec 32) : Nat :=
  max 1 (fadeDistance from' to' / nsteps.toNat)

/-- The calls up to the first one that returns true, from the value `from'`. -/
structure FadesSteadily (f : RgbFader) (from' to' nsteps : BitVec 32) : Prop where
  up : from' ≤ to' → ∀ calls, Fading f from' calls →
    fadeVal f from' calls ≤ fadeVal f from' (calls + 1) ∧ fadeVal f from' (calls + 1) ≤ to'
  down : to' ≤ from' → ∀ calls, Fading f from' calls →
    to' ≤ fadeVal f from' (calls + 1) ∧ fadeVal f from' (calls + 1) ≤ fadeVal f from' calls
  step : ∀ calls, Fading f from' (calls + 1) →
    ((fadeVal f from' (calls + 1)).toNat : Int) =
      (fadeVal f from' calls).toNat +
        ((to'.toNat : Int) - from'.toNat).sign * fadeStep from' to' nsteps
  done : ∀ calls, Fading f from' calls →
    (fadeDone f from' calls = true ↔ fadeVal f from' (calls + 1) = to')
  calls : from' ≠ to' → ∃ calls, Fading f from' calls ∧ fadeDone f from' calls = true ∧
    calls + 1 = fadeDistance from' to' ⌈/⌉ fadeStep from' to' nsteps

section Step

variable {from' to' nsteps : BitVec 32}

theorem toInt_difference (hfrom : from'.toNat < 2 ^ 31) (hto : to'.toNat < 2 ^ 31) :
    (to' - from').toInt = (to'.toNat : Int) - from'.toNat := by
  have hsub := toInt_ofNat_sub (w := 31) (a := to'.toNat) (b := from'.toNat) (by omega) (by omega)
  rwa [BitVec.ofNat_toNat, BitVec.ofNat_toNat, BitVec.setWidth_eq, BitVec.setWidth_eq] at hsub

theorem toNat_nsteps (hn : 1 ≤ nsteps.toInt) : nsteps.toInt = (nsteps.toNat : Int) := by
  have hcond := BitVec.toInt_eq_toNat_cond nsteps
  have hlt := nsteps.isLt
  split at hcond <;> omega

theorem fadeDistance_of_le (hle : from' ≤ to') :
    fadeDistance from' to' = to'.toNat - from'.toNat := by
  unfold fadeDistance
  bv_omega

theorem fadeDistance_of_ge (hge : to' ≤ from') :
    fadeDistance from' to' = from'.toNat - to'.toNat := by
  unfold fadeDistance
  bv_omega

theorem fadeDistance_pos (hne : from' ≠ to') : 0 < fadeDistance from' to' := by
  unfold fadeDistance
  bv_omega

theorem fadeStep_le (nsteps : BitVec 32) (hne : from' ≠ to') :
    fadeStep from' to' nsteps ≤ fadeDistance from' to' :=
  Nat.max_le.mpr ⟨fadeDistance_pos hne, Nat.div_le_self _ _⟩

theorem one_le_fadeStep (from' to' nsteps : BitVec 32) : 1 ≤ fadeStep from' to' nsteps :=
  Nat.le_max_left _ _

variable (hfrom : from'.toNat < 2 ^ 31) (hto : to'.toNat < 2 ^ 31) (hn : 1 ≤ nsteps.toInt)

include hfrom hto hn

theorem toInt_step_up (hle : from' ≤ to') :
    (if (to' - from').toInt.tdiv nsteps.toInt = 0 then 1
      else (to' - from').toInt.tdiv nsteps.toInt) = (fadeStep from' to' nsteps : Int) := by
  have hdistance : (to'.toNat : Int) - from'.toNat = fadeDistance from' to' := by
    rw [fadeDistance_of_le hle]
    bv_omega
  rw [toInt_difference hfrom hto, hdistance, toNat_nsteps hn, ← Int.ofNat_tdiv, fadeStep]
  generalize fadeDistance from' to' / nsteps.toNat = quotient
  split <;> omega

/-- Where the quotient is zero, the step goes up even if the fade goes down. -/
theorem toInt_step_down (hlt : to' < from') :
    (if (to' - from').toInt.tdiv nsteps.toInt = 0 then 1
      else (to' - from').toInt.tdiv nsteps.toInt) =
        if fadeDistance from' to' < nsteps.toNat then 1
        else -(fadeStep from' to' nsteps : Int) := by
  have hdistance : (to'.toNat : Int) - from'.toNat = -fadeDistance from' to' := by
    rw [fadeDistance_of_ge (BitVec.le_of_lt hlt)]
    bv_omega
  have hpos : 0 < nsteps.toNat := by
    have := toNat_nsteps hn
    omega
  rw [toInt_difference hfrom hto, hdistance, toNat_nsteps hn, Int.neg_tdiv, ← Int.ofNat_tdiv,
    fadeStep]
  by_cases hshort : fadeDistance from' to' < nsteps.toNat
  · rw [if_pos hshort, Nat.div_eq_of_lt hshort]
    rfl
  · have hquotient := Nat.div_pos (Nat.not_lt.mp hshort) hpos
    rw [if_neg hshort, if_neg (by omega)]
    omega

end Step

theorem toNat_step {f : RgbFader} {s : Nat} (hstep : f.step.toInt = s) :
    f.step.toNat = s ∧ s < 2 ^ 31 := by
  have hcond := BitVec.toInt_eq_toNat_cond f.step
  have hlt := f.step.isLt
  split at hcond <;> omega

/-! Below 2 ^ 31 an upward step is taken unless it would reach the goal. -/

theorem rgbFade_up {f : RgbFader} {s : Nat} (hstep : f.step.toInt = s) (hs : 1 ≤ s)
    (hgoal : f.goal.toNat < 2 ^ 31) {val : BitVec 32} (hval : val.toNat < 2 ^ 31) :
    rgbFade f val =
      if val.toNat + s < f.goal.toNat then (false, val + f.step) else (true, f.goal) := by
  have hnat := toNat_step hstep
  rw [rgbFade_eq (by bv_omega)]
  by_cases hgoes : val.toNat + s < f.goal.toNat
  · rw [if_pos hgoes, if_pos (by bv_omega)]
  · rw [if_neg hgoes, if_neg (by bv_omega)]

theorem rgbFade_down {f : RgbFader} {val : BitVec 32} {s : Nat}
    (hstep : f.step.toInt = 1 ∨ f.step.toInt = -(s : Int)) (hs : 1 ≤ s)
    (hval : val.toNat < 2 ^ 31) (hgoal : f.goal.toNat + s ≤ val.toNat) :
    rgbFade f val = (true, f.goal) := by
  have hcond := BitVec.toInt_eq_toNat_cond f.step
  have hstepLt := f.step.isLt
  have hnat : f.step.toNat = 1 ∨ f.step.toNat = 2 ^ 32 - s := by
    split at hcond <;> omega
  rw [rgbFade_eq (by bv_omega), if_neg (by bv_omega)]

section Up

variable {f : RgbFader} {from' to' nsteps : BitVec 32} (hto : to'.toNat < 2 ^ 31)
  (hle : from' ≤ to') (hgoal : f.goal = to') (hstep : f.step.toInt = fadeStep from' to' nsteps)

include hto hle hgoal hstep

theorem rgbFade_upward {val : BitVec 32} (hval : val ≤ to') :
    (val.toNat + fadeStep from' to' nsteps < to'.toNat ∧
      ∃ val', rgbFade f val = (false, val') ∧
        val'.toNat = val.toNat + fadeStep from' to' nsteps) ∨
    (to'.toNat ≤ val.toNat + fadeStep from' to' nsteps ∧ rgbFade f val = (true, to')) := by
  subst hgoal
  have hval' : val.toNat < 2 ^ 31 := by bv_omega
  have hfade := rgbFade_up hstep (one_le_fadeStep from' f.goal nsteps) hto hval'
  split at hfade
  · refine .inl ⟨by assumption, _, hfade, ?_⟩
    have hnat := toNat_step hstep
    bv_omega
  · exact .inr ⟨by omega, hfade⟩

theorem Fading.val_up {calls : Nat} (h : Fading f from' calls) :
    fadeVal f from' calls ≤ to' ∧
      (fadeVal f from' calls).toNat = from'.toNat + calls * fadeStep from' to' nsteps ∧
      (0 < calls → fadeVal f from' calls ≠ to') := by
  induction calls with
  | zero => exact ⟨hle, by simp [fadeVal], fun hpos => absurd hpos (Nat.lt_irrefl 0)⟩
  | succ calls ih =>
      obtain ⟨hval, hsum, -⟩ := ih fun j hj => h j (Nat.lt_succ_of_lt hj)
      have hfalse := h calls (Nat.lt_succ_self calls)
      rcases rgbFade_upward hto hle hgoal hstep hval with ⟨hlt, val', hfade, hval'⟩ | ⟨-, hfade⟩
      · rw [fadeVal, hfade, Nat.succ_mul]
        dsimp only
        bv_omega
      · rw [fadeDone, hfade] at hfalse
        cases hfalse

theorem fadesSteadily_up : FadesSteadily f from' to' nsteps := by
  have hdistance : from'.toNat + fadeDistance from' to' = to'.toNat := by
    rw [fadeDistance_of_le hle]
    bv_omega
  have hnext {calls : Nat} (h : Fading f from' calls) :=
    rgbFade_upward hto hle hgoal hstep (h.val_up hto hle hgoal hstep).1
  constructor
  case up =>
    intro _ calls h
    obtain ⟨hval, -, -⟩ := h.val_up hto hle hgoal hstep
    rw [fadeVal]
    rcases hnext h with ⟨hlt, val', hfade, hval'⟩ | ⟨-, hfade⟩
    · rw [hfade]
      dsimp only
      bv_omega
    · rw [hfade]
      exact ⟨hval, BitVec.le_refl to'⟩
  case down =>
    intro hge calls h
    obtain ⟨hval, hsum, -⟩ := h.val_up hto hle hgoal hstep
    rcases hnext h with ⟨hlt, -⟩ | ⟨-, hfade⟩
    · bv_omega
    · rw [fadeVal, hfade]
      dsimp only
      bv_omega
  case step =>
    intro calls h
    obtain ⟨hval, hsum, hne⟩ := h.val_up hto hle hgoal hstep
    obtain ⟨-, hsum', -⟩ :=
      Fading.val_up hto hle hgoal hstep fun j hj => h j (Nat.lt_succ_of_lt hj)
    have hsign : ((to'.toNat : Int) - from'.toNat).sign = 1 := by
      refine Int.sign_eq_one_of_pos ?_
      have := hne (Nat.succ_pos calls)
      bv_omega
    rw [hsum, hsum', hsign, Nat.succ_mul]
    omega
  case done =>
    intro calls h
    rw [fadeDone, fadeVal]
    rcases hnext h with ⟨hlt, val', hfade, hval'⟩ | ⟨-, hfade⟩
    · simp only [hfade, Bool.false_eq_true, false_iff]
      bv_omega
    · simp [hfade]
  case calls =>
    intro hne
    have hpos := one_le_fadeStep from' to' nsteps
    have hzero : f.step ≠ 0 := by
      intro hzero
      rw [hzero, BitVec.ofNat_eq_ofNat, BitVec.toInt_zero] at hstep
      omega
    obtain ⟨calls, -, hfading, hdone⟩ := exists_done hzero from'
    obtain ⟨hval, hsum, hne'⟩ := hfading.val_up hto hle hgoal hstep
    refine ⟨calls, hfading, hdone, ?_⟩
    rcases hnext hfading with ⟨-, val', hfade, -⟩ | ⟨hge, hfade⟩
    · rw [fadeDone, hfade] at hdone
      cases hdone
    · apply Nat.le_antisymm
      · rw [Nat.succ_le_iff, ← Nat.not_le, ceilDiv_le_iff_le_mul hpos, Nat.mul_comm]
        rcases Nat.eq_zero_or_pos calls with rfl | hcalls
        · bv_omega
        · have := hne' hcalls
          bv_omega
      · rw [ceilDiv_le_iff_le_mul hpos, Nat.mul_comm, Nat.succ_mul]
        omega

end Up

theorem fadesSteadily_down_iff {f : RgbFader} {from' to' nsteps : BitVec 32} (hlt : to' < from')
    (hfade : rgbFade f from' = (true, to')) :
    FadesSteadily f from' to' nsteps ↔ fadeDistance from' to' ≤ fadeStep from' to' nsteps := by
  have hpos := one_le_fadeStep from' to' nsteps
  have hne : from' ≠ to' := by bv_omega
  have hdone : fadeDone f from' 0 = true := by rw [fadeDone, fadeVal, hfade]
  have hval : fadeVal f from' 1 = to' := by rw [fadeVal, fadeVal, hfade]
  have hfirst {calls : Nat} (h : Fading f from' calls) : calls = 0 := by
    by_contra hcalls
    rw [h 0 (Nat.pos_of_ne_zero hcalls)] at hdone
    cases hdone
  constructor
  · intro hsteady
    obtain ⟨calls, hfading, -, hceil⟩ := hsteady.calls hne
    rw [hfirst hfading] at hceil
    have hle := (ceilDiv_le_iff_le_mul (c := 1) hpos).mp hceil.ge
    rwa [Nat.mul_one] at hle
  · intro hle
    constructor
    case up => exact fun hle' => absurd hlt (by bv_omega)
    case down =>
      intro _ calls h
      rw [hfirst h, Nat.zero_add, hval, fadeVal]
      bv_omega
    case step => exact fun calls h => nomatch hfirst h
    case done =>
      intro calls h
      rw [hfirst h, Nat.zero_add, hval, hdone]
      exact ⟨fun _ => rfl, fun _ => rfl⟩
    case calls =>
      refine fun _ => ⟨0, fun j hj => absurd hj (Nat.not_lt_zero j), hdone, ?_⟩
      have hdistance := fadeDistance_pos hne
      apply Nat.le_antisymm
      · rw [Nat.succ_le_iff, ← Nat.not_le, ceilDiv_le_iff_le_mul hpos]
        omega
      · rwa [ceilDiv_le_iff_le_mul hpos, Nat.zero_add, Nat.mul_one]

theorem fadeDistance_le_fadeStep_iff {from' to' nsteps : BitVec 32} (hlt : to' < from')
    (hn : 1 ≤ nsteps.toInt) :
    fadeDistance from' to' ≤ fadeStep from' to' nsteps ↔ nsteps = 1 ∨ from' = to' + 1 := by
  have hnat := toNat_nsteps hn
  have hone : nsteps = 1 ↔ nsteps.toNat = 1 := by bv_omega
  have hpos := fadeDistance_pos (BitVec.ne_of_lt hlt).symm
  have hdistance : from' = to' + 1 ↔ fadeDistance from' to' = 1 := by
    rw [fadeDistance_of_ge (BitVec.le_of_lt hlt)]
    bv_omega
  rw [hone, hdistance, fadeStep, le_max_iff]
  constructor
  · rintro (hle | hle)
    · exact .inr (by omega)
    · left
      by_contra hmany
      exact absurd hle (Nat.not_le.mpr (Nat.div_lt_self (by omega) (by omega)))
  · rintro (hone | hone)
    · exact .inr (by rw [hone, Nat.div_one])
    · exact .inl (Nat.le_of_eq hone)

/-- Downwards the first call jumps to the goal, which is one step only if the
fade has no more. -/
theorem fade_steady_iff {from' to' nsteps : BitVec 32} (hfrom : from'.toNat < 2 ^ 31)
    (hto : to'.toNat < 2 ^ 31) (hn : 1 ≤ nsteps.toInt) :
    ∃ f, rgbFaderInit from' to' nsteps = some f ∧
      (FadesSteadily f from' to' nsteps ↔ from' ≤ to' ∨ nsteps = 1 ∨ from' = to' + 1) := by
  obtain ⟨f, hinit, hgoal, -, hstep⟩ := rgbFaderInit_spec from' to' hn
  refine ⟨f, hinit, ?_⟩
  by_cases hle : from' ≤ to'
  · rw [toInt_step_up hfrom hto hn hle] at hstep
    simp only [hle, true_or, iff_true]
    exact fadesSteadily_up hto hle hgoal hstep
  · have hlt : to' < from' := by bv_omega
    have hdistance := fadeDistance_of_ge (BitVec.le_of_lt hlt)
    have hfade : rgbFade f from' = (true, to') := by
      rw [toInt_step_down hfrom hto hn hlt] at hstep
      rw [← hgoal]
      refine rgbFade_down (s := fadeStep from' to' nsteps) ?_ (one_le_fadeStep from' to' nsteps)
        hfrom ?_
      · split at hstep
        · exact .inl hstep
        · exact .inr hstep
      · rw [hgoal]
        have := fadeStep_le nsteps (show from' ≠ to' by bv_omega)
        bv_omega
    rw [fadesSteadily_down_iff hlt hfade, fadeDistance_le_fadeStep_iff hlt hn]
    simp only [hle, false_or]

theorem fade_steady_iff_upward : ∃ f, rgbFaderInit 1 10 4 = some f ∧
    (FadesSteadily f 1 10 4 ↔ (1 : BitVec 32) ≤ 10 ∨ (4 : BitVec 32) = 1 ∨
      (1 : BitVec 32) = 10 + 1) :=
  fade_steady_iff (by decide) (by decide) (by decide)

/-- From ten down to one in three steps: the first call leaves one. -/
theorem fade_down_jumps : ∃ f, rgbFaderInit 10 1 3 = some f ∧ fadeVal f 10 1 = 1 ∧
    fadeDistance 10 1 = 9 ∧ fadeStep 10 1 3 = 3 ∧ ¬ FadesSteadily f 10 1 3 := by
  refine ⟨⟨1, -3⟩, by decide, by decide, by decide, by decide, fun hsteady => ?_⟩
  have hdone : fadeDone ⟨1, -3⟩ 10 0 = true := by decide
  obtain ⟨calls, hfading, -, hcalls⟩ := hsteady.calls (by decide)
  rcases Nat.eq_zero_or_pos calls with rfl | hpos
  · exact absurd hcalls (by decide)
  · rw [hfading 0 hpos] at hdone
    cases hdone

end Librfn
