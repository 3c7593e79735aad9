import Mathlib.Data.BitVec
import Mathlib.Data.Rat.Cast.Order
import Mathlib.Order.WithBot

/-!
# Statistics

`stats.c` for every choice of `statval_t`.  A floating-point value is a NaN, an
infinity or an exact number, and how two of them are added is left to the
machine.
-/

namespace Librfn

inductive FloatType where
  | float
  | double

namespace FloatType

def mantDig : FloatType → Nat
  | float => 24
  | double => 53

def minExp : FloatType → Int
  | float => -125
  | double => -1021

def maxExp : FloatType → Int
  | float => 128
  | double => 1024

/-- The finite numbers of the type. -/
def Holds (t : FloatType) (q : ℚ) : Prop :=
  ∃ m e : Int, |m| < 2 ^ t.mantDig ∧ t.minExp - t.mantDig ≤ e ∧ e ≤ t.maxExp - t.mantDig ∧
    q = m * 2 ^ e

variable (t : FloatType)

theorem holds_zero : t.Holds 0 :=
  ⟨0, t.minExp - t.mantDig, by simp, by omega, by cases t <;> decide, by simp⟩

theorem holds_one : t.Holds 1 :=
  ⟨1, 0, by cases t <;> decide, by cases t <;> decide, by cases t <;> decide, by simp⟩

theorem holds_min : t.Holds (2 ^ (t.minExp - 1)) :=
  ⟨1, t.minExp - 1, by cases t <;> decide, by cases t <;> decide, by cases t <;> decide, by simp⟩

theorem holds_max : t.Holds ((2 ^ t.mantDig - 1) * 2 ^ (t.maxExp - t.mantDig)) :=
  ⟨2 ^ t.mantDig - 1, t.maxExp - t.mantDig, by cases t <;> decide, by cases t <;> decide,
    by omega, by simp⟩

end FloatType

/-- A value other than a NaN: `⊥` and `⊤` are the infinities. -/
abbrev FloatNumber (t : FloatType) := WithBot (WithTop { q : ℚ // t.Holds q })

def FloatType.finite (t : FloatType) (q : ℚ) (h : t.Holds q) : FloatNumber t :=
  ((⟨q, h⟩ : { q : ℚ // t.Holds q }) : WithTop _)

inductive FloatValue (t : FloatType) where
  | nan
  | number (x : FloatNumber t)

namespace FloatValue

variable {t : FloatType}

instance : Zero (FloatValue t) := ⟨number (t.finite 0 t.holds_zero)⟩

instance : One (FloatValue t) := ⟨number (t.finite 1 t.holds_one)⟩

/-- Nothing is less than a NaN, nor a NaN than anything. -/
def Less : FloatValue t → FloatValue t → Prop
  | number x, number y => x < y
  | _, _ => False

instance : LT (FloatValue t) := ⟨Less⟩

instance : DecidableLT (FloatValue t)
  | number x, number y => inferInstanceAs (Decidable (x < y))
  | nan, _ => .isFalse id
  | number _, nan => .isFalse id

end FloatValue

/-- `FLT_MIN`, `DBL_MIN`: the least normal number above zero. -/
def floatMin (t : FloatType) : FloatNumber t := t.finite (2 ^ (t.minExp - 1)) t.holds_min

def floatMax (t : FloatType) : FloatNumber t :=
  t.finite ((2 ^ t.mantDig - 1) * 2 ^ (t.maxExp - t.mantDig)) t.holds_max

/-! ## The statistics -/

structure Stats (α : Type) where
  min : α
  max : α
  accumulator : α
  count : α

section

variable {α : Type} [LT α] [DecidableLT α] [Add α] [Zero α] [One α]

def statsInit (min max : α) : Stats α := { min, max, accumulator := 0, count := 0 }

def statsAdd (s : Stats α) (d : α) : Stats α :=
  let s := if d < s.min then { s with min := d } else s
  let s := if s.max < d then { s with max := d } else s
  { s with accumulator := s.accumulator + d, count := s.count + 1 }

def statsAddAll (s : Stats α) (samples : List α) : Stats α := samples.foldl statsAdd s

omit [Zero α]

@[simp] theorem min_statsAdd (s : Stats α) (d : α) :
    (statsAdd s d).min = if d < s.min then d else s.min := by
  rw [statsAdd]
  split <;> split <;> rfl

@[simp] theorem max_statsAdd (s : Stats α) (d : α) :
    (statsAdd s d).max = if s.max < d then d else s.max := by
  rw [statsAdd]
  split <;> split <;> rfl

@[simp] theorem accumulator_statsAdd (s : Stats α) (d : α) :
    (statsAdd s d).accumulator = s.accumulator + d := by
  rw [statsAdd]
  split <;> split <;> rfl

@[simp] theorem count_statsAdd (s : Stats α) (d : α) : (statsAdd s d).count = s.count + 1 := by
  rw [statsAdd]
  split <;> split <;> rfl

theorem statsAddAll_cons (s : Stats α) (d : α) (samples : List α) :
    statsAddAll s (d :: samples) = statsAddAll (statsAdd s d) samples := rfl

end

variable {w : Nat}

def statsInitUint : Stats (BitVec w) := statsInit (BitVec.allOnes w) 0

def statsInitFloat (t : FloatType) : Stats (FloatValue t) :=
  statsInit (.number (floatMin t)) (.number (floatMax t))

/-- `stats_mean` of the integer types.  Division by zero is undefined. -/
def statsMean (s : Stats (BitVec w)) : Option (BitVec w) :=
  if s.count = 0 then none else some ((s.accumulator + s.count / 2) / s.count)

end Librfn
