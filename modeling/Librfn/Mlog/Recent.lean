import Librfn.Mlog

/-!
# The most recent messages

The log against the list of all messages that were recorded since it was last
cleared.  The head counts them until it is folded back, and afterwards up to a
multiple of the number of lines.
-/

namespace Librfn

inductive MlogCall where
  | vmlog (fmt : Nat) (ap : Vector Nat 3)
  | mlog (fmt : Nat) (ap : Vector Nat 3)
  | vmlogNice (fmt : Nat) (ap : Vector Nat 3)
  | mlogNice (fmt : Nat) (ap : Vector Nat 3)
  | mlogClear

namespace MlogCall

def run (log : Mlog) : MlogCall → Mlog
  | vmlog fmt ap => Librfn.vmlog fmt ap log
  | mlog fmt ap => Librfn.mlog fmt ap log
  | vmlogNice fmt ap => Librfn.vmlogNice fmt ap log
  | mlogNice fmt ap => Librfn.mlogNice fmt ap log
  | mlogClear => Librfn.mlogClear log

def record (messages : List MlogLine) : MlogCall → List MlogLine
  | vmlog fmt ap | mlog fmt ap => messages ++ [⟨fmt, ap⟩]
  | vmlogNice fmt ap | mlogNice fmt ap =>
      if messages.length < 256 then messages ++ [⟨fmt, ap⟩] else messages
  | mlogClear => []

end MlogCall

def recent (messages : List MlogLine) : List MlogLine := messages.drop (messages.length - 256)

/-- The log after the messages were recorded. -/
structure Mlog.Holds (log : Mlog) (messages : List MlogLine) : Prop where
  head_lt : log.head.toNat < 0x7fffffff
  head_mod : log.head.toNat % 256 = messages.length % 256
  head_of_room : messages.length < 256 → log.head.toNat = messages.length
  head_of_full : 256 ≤ messages.length → 256 ≤ log.head.toNat
  line : ∀ k (h : k < messages.length), messages.length ≤ k + 256 →
    log.line[k % 256] = messages[k]

section

variable {log : Mlog} {messages : List MlogLine}

theorem Mlog.holds_clear (log : Mlog) : (mlogClear log).Holds [] where
  head_lt := Nat.zero_lt_succ _
  head_mod := rfl
  head_of_room _ := rfl
  head_of_full := by simp
  line := by simp

theorem Mlog.holds_init : ({} : Mlog).Holds [] where
  head_lt := by decide
  head_mod := rfl
  head_of_room _ := rfl
  head_of_full := by simp
  line := by simp

theorem vmlog_line (fmt : Nat) (ap : Vector Nat 3) (log : Mlog) : (vmlog fmt ap log).line =
    log.line.set (lineIndex log.head) ⟨fmt, ap⟩ := by
  simp only [vmlog]
  split <;> rfl

theorem vmlog_head (fmt : Nat) (ap : Vector Nat 3) (h : log.head.toNat < 0x7fffffff) :
    (vmlog fmt ap log).head.toNat =
      if log.head.toNat + 1 = 0x7fffffff then log.head.toNat + 1 - 256
      else log.head.toNat + 1 := by
  have hsucc : (log.head + 1).toNat = log.head.toNat + 1 := by
    rw [UInt32.toNat_add, UInt32.toNat_one]
    omega
  have hfold : log.head + 1 ≥ 0x7fffffff ↔ log.head.toNat + 1 = 0x7fffffff := by
    have hmax : (0x7fffffff : UInt32).toNat = 0x7fffffff := rfl
    rw [ge_iff_le, UInt32.le_iff_toNat_le, hsucc, hmax]
    omega
  simp only [vmlog, hfold]
  split
  · have hle : (256 : UInt32) ≤ log.head + 1 := by
      rw [UInt32.le_iff_toNat_le, hsucc, toNat_lengthof]
      omega
    rw [← hsucc]
    exact UInt32.toNat_sub_of_le _ _ hle
  · exact hsucc

theorem Mlog.Holds.vmlog (h : log.Holds messages) (fmt : Nat) (ap : Vector Nat 3) :
    (vmlog fmt ap log).Holds (messages ++ [⟨fmt, ap⟩]) := by
  have hhead := vmlog_head fmt ap h.head_lt
  have hmod := h.head_mod
  have hroom := h.head_of_room
  have hfull := h.head_of_full
  have hlt := h.head_lt
  constructor
  · split at hhead <;> omega
  · rw [List.length_append, List.length_singleton]
    split at hhead <;> omega
  · rw [List.length_append, List.length_singleton]
    intro hlength
    split at hhead <;> omega
  · rw [List.length_append, List.length_singleton]
    intro hlength
    split at hhead <;> omega
  · intro k hk hnear
    rw [List.length_append, List.length_singleton] at hk hnear
    simp only [vmlog_line, val_lineIndex, hmod]
    by_cases hlast : k = messages.length
    · simp [hlast]
    · have hline := h.line k (by omega) (by omega)
      rw [Vector.getElem_set_ne _ _ (by omega), List.getElem_append_left]
      exact hline

theorem Mlog.Holds.vmlogNice (h : log.Holds messages) (fmt : Nat) (ap : Vector Nat 3) :
    Librfn.vmlogNice fmt ap log =
      if messages.length < 256 then Librfn.vmlog fmt ap log else log := by
  have hroom : log.head < 256 ↔ messages.length < 256 := by
    have hhead := h.head_of_room
    have hfull := h.head_of_full
    rw [UInt32.lt_iff_toNat_lt, toNat_lengthof]
    omega
  simp only [Librfn.vmlogNice, hroom]

theorem Mlog.Holds.run (h : log.Holds messages) (call : MlogCall) :
    (call.run log).Holds (call.record messages) := by
  cases call with
  | vmlog fmt ap => exact h.vmlog fmt ap
  | mlog fmt ap => exact h.vmlog fmt ap
  | vmlogNice fmt ap =>
      simp only [MlogCall.run, MlogCall.record, h.vmlogNice]
      split
      · exact h.vmlog fmt ap
      · exact h
  | mlogNice fmt ap =>
      simp only [MlogCall.run, MlogCall.record, Librfn.mlogNice, h.vmlogNice]
      split
      · exact h.vmlog fmt ap
      · exact h
  | mlogClear => exact Mlog.holds_clear log

theorem Mlog.Holds.foldl (h : log.Holds messages) (calls : List MlogCall) :
    (calls.foldl MlogCall.run log).Holds (calls.foldl MlogCall.record messages) := by
  induction calls generalizing log messages with
  | nil => exact h
  | cons call calls ih => exact ih (h.run call)

/-! ## Reading the log -/

theorem length_recent (messages : List MlogLine) :
    (recent messages).length = min 256 messages.length := by
  rw [recent, List.length_drop]
  omega

theorem recent_of_le {messages : List MlogLine} (h : messages.length ≤ 256) :
    recent messages = messages := by
  rw [recent, Nat.sub_eq_zero_of_le h, List.drop_zero]

theorem Mlog.Holds.getLine (h : log.Holds messages) (n : UInt32) :
    getLine n log = (recent messages)[n.toNat]? := by
  have hmod := h.head_mod
  have hroom := h.head_of_room
  have hfull := h.head_of_full
  have hlt := h.head_lt
  have hlength := length_recent messages
  rw [Librfn.getLine]
  simp only [ge_iff_le, UInt32.le_iff_toNat_le, toNat_lengthof]
  split
  · rw [List.getElem?_eq_none (by omega)]
  · have hn : n.toNat < (recent messages).length := by omega
    have hline := h.line (messages.length - 256 + n.toNat) (by omega) (by omega)
    have hindex : (lineIndex (if 256 ≤ log.head.toNat then n + log.head else n)).val =
        (messages.length - 256 + n.toNat) % 256 := by
      rw [val_lineIndex]
      split
      · rw [UInt32.toNat_add]
        omega
      · omega
    rw [List.getElem?_eq_getElem hn]
    simp only [recent, List.getElem_drop, Fin.getElem_fin, hindex]
    exact congrArg some hline

section

variable {α : Type} (printf : Nat → Vector Nat 3 → α)

theorem Mlog.Holds.mlogDumpFrom (h : log.Holds messages) (i : Int32) :
    mlogDumpFrom printf i log =
      ((recent messages).drop i.toUInt32.toNat).map fun line => printf line.fmt line.arg := by
  fun_induction Librfn.mlogDumpFrom printf i log with
  | case1 i line hline ih =>
      rw [h.getLine] at hline
      obtain ⟨hlt, hget⟩ := List.getElem?_eq_some_iff.mp hline
      have hlength := length_recent messages
      have hnext : (i + 1).toUInt32.toNat = i.toUInt32.toNat + 1 := by
        rw [Int32.toUInt32_add, UInt32.toNat_add, show (1 : Int32).toUInt32.toNat = 1 from rfl]
        omega
      rw [List.drop_eq_getElem_cons hlt, hget, List.map_cons, ih, hnext]
  | case2 i hnone =>
      rw [h.getLine] at hnone
      rw [List.drop_eq_nil_of_le (List.getElem?_eq_none_iff.mp hnone), List.map_nil]

end

end

/-! ## Runs -/

def mlogRun (calls : List MlogCall) : Mlog := calls.foldl MlogCall.run {}

/-- The messages that they recorded since the last one that clears. -/
def mlogRecorded (calls : List MlogCall) : List MlogLine := calls.foldl MlogCall.record []

theorem mlogRun_holds (calls : List MlogCall) : (mlogRun calls).Holds (mlogRecorded calls) :=
  Mlog.holds_init.foldl calls

theorem getLine_vmlogNice (calls : List MlogCall) (fmt : Nat) (ap : Vector Nat 3) {n : UInt32}
    {line : MlogLine} (h : getLine n (mlogRun calls) = some line) :
    getLine n (vmlogNice fmt ap (mlogRun calls)) = some line := by
  have hholds := mlogRun_holds calls
  have hnice := hholds.run (.vmlogNice fmt ap)
  simp only [MlogCall.run, MlogCall.record] at hnice
  rw [hholds.getLine] at h
  rw [hnice.getLine]
  split
  · rename_i hroom
    rw [recent_of_le (Nat.le_of_lt hroom)] at h
    rw [recent_of_le (by simpa using Nat.succ_le_of_lt hroom)]
    obtain ⟨hlt, -⟩ := List.getElem?_eq_some_iff.mp h
    rw [List.getElem?_append_left hlt, h]
  · exact h

section

variable {α : Type} (printf : Nat → Vector Nat 3 → α)

theorem mlog_recent (calls : List MlogCall) :
    (∀ n, getLine n (mlogRun calls) = (recent (mlogRecorded calls))[n.toNat]?) ∧
      (∀ n : Int32, mlogGetLine printf n (mlogRun calls) =
        (recent (mlogRecorded calls))[n.toUInt32.toNat]?.map
          fun line => printf line.fmt line.arg) ∧
      mlogDump printf (mlogRun calls) =
        (recent (mlogRecorded calls)).map (fun line => printf line.fmt line.arg) ∧
      (∀ fmt ap, vmlogNice fmt ap (mlogRun calls) =
        if (mlogRecorded calls).length < 256 then vmlog fmt ap (mlogRun calls)
        else mlogRun calls) ∧
      ∀ fmt ap n line, getLine n (mlogRun calls) = some line →
        getLine n (vmlogNice fmt ap (mlogRun calls)) = some line := by
  have hholds := mlogRun_holds calls
  have hdump := hholds.mlogDumpFrom printf 0
  rw [show (0 : Int32).toUInt32.toNat = 0 from rfl, List.drop_zero] at hdump
  refine ⟨hholds.getLine, ?_, hdump, hholds.vmlogNice, ?_⟩
  · intro n
    rw [mlogGetLine, hholds.getLine]
  · intro fmt ap n line
    exact getLine_vmlogNice calls fmt ap

end

end Librfn
