import Mathlib.Data.List.Basic
import Mathlib.Tactic.Common

/-!
# The memory log

`mlog.c`.  A format is a pointer and an argument is a word.  How they are
printed is given from outside.
-/

namespace Librfn

structure MlogLine where
  fmt : Nat
  arg : Vector Nat 3
  deriving DecidableEq, Repr

/-- `struct mlog`, zeroed by default. -/
structure Mlog where
  line : Vector MlogLine 256 := Vector.replicate 256 ⟨0, Vector.replicate 3 0⟩
  head : UInt32 := 0

def lineIndex (n : UInt32) : Fin 256 :=
  ⟨(n % 256).toNat, by
    rw [UInt32.toNat_mod]
    exact Nat.mod_lt _ (by decide)⟩

theorem val_lineIndex (n : UInt32) : (lineIndex n).val = n.toNat % 256 := UInt32.toNat_mod _ _

theorem toNat_lengthof : (256 : UInt32).toNat = 256 := rfl

/-- `ap` holds what `va_arg` gets. -/
def vmlog (fmt : Nat) (ap : Vector Nat 3) (log : Mlog) : Mlog :=
  let head := lineIndex log.head
  let log := { log with line := log.line.set head ⟨fmt, ap⟩ head.isLt }
  let log := { log with head := log.head + 1 }
  if log.head ≥ 0x7fffffff then { log with head := log.head - 256 } else log

def mlog (fmt : Nat) (ap : Vector Nat 3) (log : Mlog) : Mlog := vmlog fmt ap log

def vmlogNice (fmt : Nat) (ap : Vector Nat 3) (log : Mlog) : Mlog :=
  if log.head < 256 then vmlog fmt ap log else log

def mlogNice (fmt : Nat) (ap : Vector Nat 3) (log : Mlog) : Mlog := vmlogNice fmt ap log

def mlogClear (log : Mlog) : Mlog := { log with head := 0 }

def getLine (n : UInt32) (log : Mlog) : Option MlogLine :=
  if n ≥ log.head ∨ n ≥ 256 then none
  else
    let n := if log.head ≥ 256 then n + log.head else n
    some log.line[lineIndex n]

theorem getLine_of_ge {n : UInt32} (log : Mlog) (h : n ≥ 256) : getLine n log = none :=
  if_pos (.inr h)

section

variable {α : Type} (printf : Nat → Vector Nat 3 → α)

def mlogDumpFrom (i : Int32) (log : Mlog) : List α :=
  match h : getLine i.toUInt32 log with
  | some line => printf line.fmt line.arg :: mlogDumpFrom (i + 1) log
  | none => []
termination_by 256 - i.toUInt32.toNat
decreasing_by
  have hlt : i.toUInt32 < 256 := by
    rw [← UInt32.not_le]
    intro hge
    rw [getLine_of_ge log hge] at h
    cases h
  rw [UInt32.lt_iff_toNat_lt, toNat_lengthof] at hlt
  rw [Int32.toUInt32_add, UInt32.toNat_add, show (1 : Int32).toUInt32.toNat = 1 from rfl]
  omega

def mlogDump (log : Mlog) : List α := mlogDumpFrom printf 0 log

def mlogGetLine (n : Int32) (log : Mlog) : Option α :=
  (getLine n.toUInt32 log).map fun line => printf line.fmt line.arg

end

end Librfn
