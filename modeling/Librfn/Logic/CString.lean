import Librfn.Logic.Program
import Mathlib.Data.List.Basic
import Mathlib.Tactic.Common

/-!
# C strings

A pointer into a string is the list of the characters from there on, without
the terminator.  The classes of characters are those of the C locale.

Where it matters which characters are read, the pointer is an offset into the
string instead.
-/

namespace Librfn.Logic

def isspace (b : UInt8) : Bool := b = 32 ∨ 9 ≤ b ∧ b ≤ 13

def isxdigit (b : UInt8) : Bool :=
  48 ≤ b ∧ b ≤ 57 ∨ 65 ≤ b ∧ b ≤ 70 ∨ 97 ≤ b ∧ b ≤ 102

def charAt (s : List UInt8) (i : Nat) : UInt8 := s.getD i 0

/-- The first `c` of the string, which is not the terminator. -/
def strchr (c : UInt8) : List UInt8 → Option (List UInt8)
  | [] => none
  | b :: s => if b = c then some (b :: s) else strchr c s

variable {c : UInt8} {s t : List UInt8}

@[simp] theorem charAt_cons_zero (b : UInt8) : charAt (b :: s) 0 = b := rfl

@[simp] theorem charAt_cons_succ (b : UInt8) (i : Nat) :
    charAt (b :: s) (i + 1) = charAt s i := rfl

@[simp] theorem charAt_nil (i : Nat) : charAt [] i = 0 := rfl

theorem strchr_eq_none (h : c ∉ s) : strchr c s = none := by
  induction s with
  | nil => rfl
  | cons b s ih =>
      simp only [List.mem_cons, not_or] at h
      rw [strchr, if_neg (Ne.symm h.1), ih h.2]

theorem length_strchr (h : strchr c s = some t) : 0 < t.length ∧ t.length ≤ s.length := by
  induction s with
  | nil => simp [strchr] at h
  | cons b s ih =>
      rw [strchr] at h
      split at h
      · cases h
        simp
      · have hle := ih h
        simp only [List.length_cons]
        omega

/-! ## Offsets -/

section

variable {σ : Type}

/-- The characters and the terminator can be read, and nothing behind it. -/
def loadChar (text : List UInt8) (i : Nat) : Prog σ UInt8 :=
  match (text ++ [0])[i]? with
  | some b => pure b
  | none => throw .badPointer

def strchrFrom (c : UInt8) (text : List UInt8) : Nat → Nat → Prog σ (Option Nat)
  | 0, _ => throw .outOfFuel
  | fuel + 1, i => do
      let b ← loadChar text i
      if b = c then return some i
      else if b = 0 then return none
      else strchrFrom c text fuel (i + 1)

end

/-- The offset `i` is the pointer `s` into `text`. -/
structure PointsTo (text : List UInt8) (i : Nat) (s : List UInt8) : Prop where
  le : i ≤ text.length
  drop : text.drop i = s

variable {σ : Type} {text : List UInt8} {i : Nat}

theorem PointsTo.length (h : PointsTo text i s) : i + s.length = text.length := by
  have hle := h.le
  rw [← h.drop, List.length_drop]
  omega

theorem PointsTo.advance (h : PointsTo text i s) {n : Nat} (hn : n ≤ s.length) :
    PointsTo text (i + n) (s.drop n) where
  le := by
    have hlength := h.length
    omega
  drop := by rw [← h.drop, List.drop_drop]

theorem PointsTo.next {b : UInt8} (h : PointsTo text i (b :: s)) : PointsTo text (i + 1) s :=
  h.advance (by simp)

theorem PointsTo.not_mem (h : PointsTo text i s) (hc : c ∉ text) : c ∉ s := by
  rw [← h.drop]
  intro hmem
  exact hc (List.mem_of_mem_drop hmem)

theorem PointsTo.wp_loadChar (h : PointsTo text i s) (Q : UInt8 → σ → Prop) (p : σ) :
    Prog.wp (loadChar text i) Q p ↔ Q (charAt s 0) p := by
  have hread : (text ++ [0])[i]? = some (charAt s 0) := by
    rw [← h.drop]
    rcases Nat.lt_or_ge i text.length with hlt | hge
    · simp [charAt, hlt, List.getElem?_append_left]
    · have hend : i = text.length := Nat.le_antisymm h.le hge
      simp [charAt, hend]
  simp [loadChar, hread]

theorem PointsTo.strchrFrom_spec (h : PointsTo text i s) (hc : c ≠ 0) (hend : 0 ∉ s)
    {fuel : Nat} (hfuel : s.length < fuel) (p : σ) :
    Prog.wp (strchrFrom c text fuel i)
      (fun q p' => p' = p ∧ Option.Rel (PointsTo text) q (strchr c s)) p := by
  induction s generalizing i fuel with
  | nil =>
      obtain ⟨fuel, rfl⟩ := Nat.exists_eq_add_of_lt hfuel
      simp [strchrFrom, h.wp_loadChar, hc.symm, strchr]
  | cons b s ih =>
      obtain ⟨fuel, rfl⟩ := Nat.exists_eq_add_of_lt hfuel
      simp only [List.mem_cons, not_or] at hend
      simp only [strchrFrom, Prog.wp_bind, h.wp_loadChar, charAt_cons_zero, Prog.wp_ite,
        Prog.wp_pure]
      rw [strchr]
      split
      · exact ⟨trivial, .some h⟩
      · rw [if_neg (Ne.symm hend.1)]
        apply ih h.next hend.2
        rw [List.length_cons]
        omega

end Librfn.Logic
