import Librfn.Rotenc

/-!
# Quadrature

A run of samples moves through the four states a quarter of a turn at a time.
The internal count follows the net number of quarter turns.
-/

namespace Librfn

def phase (state : UInt8) : Nat :=
  if state = 0 then 0 else if state = 1 then 1 else if state = 3 then 2 else 3

/-- The samples are equal or differ in one bit. -/
def Adjacent (a b : UInt8) : Prop := b < 4 ∧ (a ^^^ b = 0 ∨ a ^^^ b = 1 ∨ a ^^^ b = 2)

instance (a b : UInt8) : Decidable (Adjacent a b) := inferInstanceAs (Decidable (_ ∧ _))

/-- The samples may follow `a`. -/
def Legal (a : UInt8) : List UInt8 → Prop
  | [] => True
  | b :: samples => Adjacent a b ∧ Legal b samples

instance decidableLegal (a : UInt8) : (samples : List UInt8) → Decidable (Legal a samples)
  | [] => .isTrue trivial
  | b :: samples =>
      have := decidableLegal b samples
      inferInstanceAs (Decidable (Adjacent a b ∧ Legal b samples))

def quarterStep (a b : UInt8) : Int :=
  if phase b = (phase a + 1) % 4 then 1 else if phase a = (phase b + 1) % 4 then -1 else 0

def net (a : UInt8) : List UInt8 → Int
  | [] => 0
  | b :: samples => quarterStep a b + net b samples

/-! ## One sample -/

section

variable {a b : UInt8}

theorem forall_states {P : UInt8 → UInt8 → Prop}
    (h : ∀ m n : Fin 4, P (.ofNat m) (.ofNat n)) (ha : a < 4) (hb : b < 4) : P a b := by
  have hsame := h ⟨a.toNat, ha⟩ ⟨b.toNat, hb⟩
  rwa [UInt8.ofNat_toNat, UInt8.ofNat_toNat] at hsame

theorem clockwise_iff (ha : a < 4) (hb : b < 4) :
    (a <<< 2) + b ∈ clockwise ↔ phase b = (phase a + 1) % 4 := by
  apply forall_states (P := fun a b => (a <<< 2) + b ∈ clockwise ↔ phase b = (phase a + 1) % 4)
    _ ha hb
  decide

theorem anticlockwise_iff (ha : a < 4) (hb : b < 4) :
    (a <<< 2) + b ∈ anticlockwise ↔ phase a = (phase b + 1) % 4 := by
  apply forall_states
    (P := fun a b => (a <<< 2) + b ∈ anticlockwise ↔ phase a = (phase b + 1) % 4) _ ha hb
  decide

theorem phase_lt (a : UInt8) : phase a < 4 := by
  unfold phase
  split
  · decide
  split
  · decide
  split <;> decide

theorem phase_eq_zero_iff (ha : a < 4) : phase a = 0 ↔ a = 0 := by
  apply forall_states (P := fun a _ => phase a = 0 ↔ a = 0) _ ha ha
  decide

theorem quarterStep_bounds (a b : UInt8) : -1 ≤ quarterStep a b ∧ quarterStep a b ≤ 1 := by
  unfold quarterStep
  split
  · decide
  split <;> decide

theorem quarterStep_swap (a b : UInt8) : quarterStep b a = -quarterStep a b := by
  have ha := phase_lt a
  have hb := phase_lt b
  unfold quarterStep
  split_ifs <;> omega

theorem quarterStep_self (a : UInt8) : quarterStep a a = 0 := by
  have hswap := quarterStep_swap a a
  omega

theorem quarterStep_phase (ha : a < 4) (h : Adjacent a b) :
    (phase a + quarterStep a b) % 4 = phase b := by
  have hall := forall_states
    (P := fun a b => Adjacent a b → (phase a + quarterStep a b) % 4 = phase b) (by decide) ha h.1
  exact hall h

variable {r : Rotenc} {s : UInt8}

theorem rotencDecode_lastState (r : Rotenc) (s : UInt8) : (rotencDecode r s).lastState = s := by
  simp only [rotencDecode]
  split <;> rfl

theorem rotencDecode_count (r : Rotenc) (s : UInt8) : (rotencDecode r s).count =
    if s = 0 then ((rotencDecode r s).internalCount >>> 2).toUInt8 else r.count := by
  simp only [rotencDecode]
  split_ifs <;> rfl

theorem rotencDecode_internalCount (hr : r.lastState < 4) (hs : s < 4) :
    ((rotencDecode r s).internalCount.toNat : Int) =
      (r.internalCount.toNat + quarterStep r.lastState s) % 2 ^ 16 := by
  have hlt := r.internalCount.toNat_lt
  have heq : (rotencDecode r s).internalCount =
      if phase s = (phase r.lastState + 1) % 4 then r.internalCount + 1
      else if phase r.lastState = (phase s + 1) % 4 then r.internalCount - 1
      else r.internalCount := by
    simp only [rotencDecode, clockwise_iff hr hs, anticlockwise_iff hr hs]
    split_ifs <;> rfl
  rw [heq, quarterStep]
  split_ifs
  · rw [UInt16.toNat_add, UInt16.toNat_one]
    omega
  · rw [UInt16.toNat_sub, UInt16.toNat_one]
    omega
  · omega

end

/-! ## Runs -/

section

variable {a : UInt8}

theorem getLastD_append (a : UInt8) (xs ys : List UInt8) :
    (xs ++ ys).getLastD a = ys.getLastD (xs.getLastD a) := by
  induction xs generalizing a with
  | nil => rfl
  | cons b xs ih => rw [List.cons_append, List.getLastD_cons, List.getLastD_cons, ih]

theorem legal_append (xs ys : List UInt8) :
    Legal a (xs ++ ys) ↔ Legal a xs ∧ Legal (xs.getLastD a) ys := by
  induction xs generalizing a with
  | nil => simp [Legal]
  | cons b xs ih => rw [List.cons_append, Legal, Legal, ih, List.getLastD_cons, and_assoc]

theorem net_append (xs ys : List UInt8) :
    net a (xs ++ ys) = net a xs + net (xs.getLastD a) ys := by
  induction xs generalizing a with
  | nil => simp [net]
  | cons b xs ih => rw [List.cons_append, net, net, ih, List.getLastD_cons, Int.add_assoc]

theorem Legal.getLastD_lt {samples : List UInt8} (ha : a < 4) (h : Legal a samples) :
    samples.getLastD a < 4 := by
  induction samples generalizing a with
  | nil => exact ha
  | cons b samples ih =>
      rw [List.getLastD_cons]
      exact ih h.1.1 h.2

theorem Legal.net_phase {samples : List UInt8} (ha : a < 4) (h : Legal a samples) :
    (phase a + net a samples) % 4 = phase (samples.getLastD a) := by
  induction samples generalizing a with
  | nil =>
      have hlt := phase_lt a
      simp only [net, List.getLastD_nil]
      omega
  | cons b samples ih =>
      have hstep := quarterStep_phase ha h.1
      have hrest := ih h.1.1 h.2
      rw [net, List.getLastD_cons]
      omega

end

def rotencRun (r : Rotenc) (samples : List UInt8) : Rotenc := samples.foldl rotencDecode r

theorem rotencRun_append (r : Rotenc) (xs ys : List UInt8) :
    rotencRun r (xs ++ ys) = rotencRun (rotencRun r xs) ys := List.foldl_append

theorem rotencRun_cons (r : Rotenc) (s : UInt8) (samples : List UInt8) :
    rotencRun r (s :: samples) = rotencRun (rotencDecode r s) samples := rfl

theorem rotencRun_lastState (r : Rotenc) (samples : List UInt8) :
    (rotencRun r samples).lastState = samples.getLastD r.lastState := by
  induction samples generalizing r with
  | nil => rfl
  | cons s samples ih =>
      rw [rotencRun_cons, ih, rotencDecode_lastState, List.getLastD_cons]

theorem rotencRun_internalCount {r : Rotenc} {samples : List UInt8} (hr : r.lastState < 4)
    (h : Legal r.lastState samples) :
    ((rotencRun r samples).internalCount.toNat : Int) =
      (r.internalCount.toNat + net r.lastState samples) % 2 ^ 16 := by
  induction samples generalizing r with
  | nil =>
      have hlt := r.internalCount.toNat_lt
      simp only [rotencRun, List.foldl_nil, net]
      omega
  | cons s samples ih =>
      have hstep := rotencDecode_internalCount hr h.1.1
      have hlast := rotencDecode_lastState r s
      have hrest := ih (r := rotencDecode r s) (by rw [hlast]; exact h.1.1)
        (by rw [hlast]; exact h.2)
      rw [hlast] at hrest
      rw [rotencRun_cons, hrest, net]
      omega

/-! ## Counts at rest -/

def Rotenc.Latched (r : Rotenc) : Prop :=
  r.lastState = 0 → r.count = (r.internalCount >>> 2).toUInt8

theorem rotencDecode_latched (r : Rotenc) (s : UInt8) : (rotencDecode r s).Latched := by
  intro hrest
  rw [rotencDecode_lastState] at hrest
  rw [rotencDecode_count, if_pos hrest]

theorem rotencRun_latched {r : Rotenc} (h : r.Latched) (samples : List UInt8) :
    (rotencRun r samples).Latched := by
  induction samples generalizing r with
  | nil => exact h
  | cons s samples ih => exact ih (rotencDecode_latched r s)

theorem rotencRun_count_of_not_mem {r : Rotenc} {samples : List UInt8} (h : 0 ∉ samples) :
    (rotencRun r samples).count = r.count := by
  induction samples generalizing r with
  | nil => rfl
  | cons s samples ih =>
      rw [List.mem_cons, not_or] at h
      rw [rotencRun_cons, ih h.2, rotencDecode_count, if_neg (Ne.symm h.1)]

theorem toNat_shiftRight_two (n : UInt16) : (n >>> 2).toNat = n.toNat / 4 := by
  rw [UInt16.toNat_shiftRight]
  exact Nat.shiftRight_eq_div_pow _ _

/-- The high bits of the internal count, with the low ones of the count. -/
theorem toNat_rotencCount14 (r : Rotenc) :
    (rotencCount14 r).toNat = r.internalCount.toNat / 1024 * 256 + r.count.toNat := by
  have hlt := r.internalCount.toNat_lt
  have hcount := r.count.toNat_lt
  have hmask : r.internalCount.toNat / 4 &&& 0x3f00 = r.internalCount.toNat / 1024 * 256 := by
    have hhigh := @Nat.and_div_two_pow (r.internalCount.toNat / 4) 0x3f00 8
    have hlow := @Nat.and_mod_two_pow (r.internalCount.toNat / 4) 0x3f00 8
    have hsix := Nat.and_two_pow_sub_one_eq_mod (r.internalCount.toNat / 4 / 2 ^ 8) 6
    simp only [Nat.reducePow, Nat.reduceDiv, Nat.reduceMod, Nat.and_zero, Nat.reduceSub] at *
    omega
  rw [rotencCount14, UInt16.toNat_add, UInt16.toNat_and, toNat_shiftRight_two,
    UInt8.toNat_toUInt16, show (0x3f00 : UInt16).toNat = 0x3f00 from rfl, hmask]
  omega

end Librfn
