import Librfn.Protothreads
import Librfn.Console.Register

/-!
# The help command

`console_help` is a protothread.  Its cursor is `static`, so the consoles share
it and a flag keeps them out of each other's way.
-/

namespace Librfn

open Librfn.Logic Protothread

variable {W : Type}

/-- What a call of `console_help` reads and writes: the command table, its two
`static` variables, and what it prints on the stream of its console.  The cursor
is an index of the table. -/
structure Help (W : Type) where
  cmds : Commands W
  locked : Bool
  cmd : Nat
  out : List (List UInt8)

def helpHeader : List UInt8 := "Available commands:\n".toUTF8.toList

def helpLine (name : List UInt8) : List UInt8 := [32, 32] ++ name ++ [10]

def helpName : Prog (Help W) (Option (List UInt8)) := do
  let s ← get
  if ¬ s.cmd < 32 then throw .badPointer
  match s.cmds.cmdTable s.cmd with
  | none => throw .nullPointer
  | some cmd => return s.cmds.name cmd

def helpPrint : Prog (Help W) Unit := do
  match ← helpName with
  | none => throw .nullPointer
  | some name => modify fun s => { s with out := s.out ++ [helpLine name] }

def helpListing : Thread (Help W) :=
  .seq
    (.loop (onVars do return (← helpName).isSome)
      (.seq (.act (onVars helpPrint))
        (.seq (.yield 68)
          (.act (onVars (modify fun s => { s with cmd := s.cmd + 1 }))))))
    (.act (onVars (modify fun s => { s with locked := false })))

def helpBody : Thread (Help W) :=
  .seq (.act (onVars (modify fun s => { s with out := s.out ++ [helpHeader] })))
    (.seq (.yield 58)
      (.seq (.waitUntil 61 (onVars do return !(← get).locked))
        (.seq (.act (onVars (modify fun s => { s with locked := true })))
          (.seq (.act (onVars (modify fun s => { s with cmd := 0 })))
            helpListing))))

def consoleHelp : Code (Instance (Help W)) PtState := ptFunction helpBody.expand

/-! ## One call -/

section Call

variable {s : Help W} {f : CallFrame (Help W)} {name : Option (List UInt8)} {n : Nat}

/-- The cursor is at a name, or at the descriptor behind the last one. -/
def Help.At (s : Help W) (name : Option (List UInt8)) : Prop :=
  s.cmd < 32 ∧ ∃ cmd, s.cmds.cmdTable s.cmd = some cmd ∧ s.cmds.name cmd = name

theorem wp_helpName (h : s.At name) (Q : Option (List UInt8) → Help W → Prop) :
    Prog.wp helpName Q s ↔ Q name s := by
  obtain ⟨hlt, cmd, hcmd, rfl⟩ := h
  simp [helpName, hlt, hcmd]

/-- What a call does once it is at the head of the loop. -/
def Help.next (s : Help W) (pt : BitVec 16) : Option (List UInt8) → PtState × Instance (Help W)
  | some name => (.yielded, ⟨68, { s with out := s.out ++ [helpLine name] }⟩)
  | none => (.exited, ⟨pt, { s with locked := false }⟩)

theorem wp_helpListing (h : f.locals.vars.At name)
    (Q : Option PtState → CallFrame (Help W) → Prop)
    (hQ : Q (if name.isSome then some .yielded else none)
      ⟨(f.locals.vars.next f.pt name).2.pt,
        ⟨f.locals.spawnRes, (f.locals.vars.next f.pt name).2.vars⟩⟩) :
    Prog.wp ((Stmt.exec (Thread.expand helpListing)).run (n + 1)) Q f := by
  cases name with
  | none =>
      simpa [helpListing, Thread.expand, Stmt.exec, wp_onVars, wp_helpName h,
        Help.next] using hQ
  | some name =>
      simpa [helpListing, Thread.expand, Stmt.exec, wp_onVars, wp_helpName h, helpPrint,
        ptYield, saveLine, returning, Help.next] using hQ

theorem consoleHelp_start :
    Prog.wp (consoleHelp.run n) (fun res a => res = .yielded ∧
      a = ⟨58, { s with out := s.out ++ [helpHeader] }⟩) ⟨0, s⟩ := by
  rw [consoleHelp, wp_ptFunction rfl]
  simp [Stmt.exec, helpBody, Thread.expand, wp_onVars, ptYield, saveLine, returning]

theorem consoleHelp_waiting {pt : BitVec 16} (hpt : pt = 58 ∨ pt = 61)
    (hlocked : s.locked = true) :
    Prog.wp (consoleHelp.run n) (fun res a => res = .waiting ∧ a = ⟨61, s⟩) ⟨pt, s⟩ := by
  rcases hpt with rfl | rfl
  · rw [consoleHelp, wp_ptFunction rfl]
    simp [Stmt.exec, Thread.expand, wp_onVars, ptWaitUntil, saveLine, returning, hlocked]
  · rw [consoleHelp, wp_ptFunction rfl]
    simp [Stmt.exec, wp_onVars, returning, hlocked]

theorem consoleHelp_begin {pt : BitVec 16} (hpt : pt = 58 ∨ pt = 61)
    (hlocked : s.locked = false) (h : Help.At { s with locked := true, cmd := 0 } name) :
    Prog.wp (consoleHelp.run (n + 1)) (fun res a =>
      (res, a) = Help.next { s with locked := true, cmd := 0 } 61 name) ⟨pt, s⟩ := by
  have hlisting : Prog.wp ((Stmt.exec (Thread.expand helpListing)).run (n + 1)) (fun res f =>
      (res.getD .exited, (⟨f.pt, f.locals.vars⟩ : Instance (Help W))) =
        Help.next { s with locked := true, cmd := 0 } 61 name)
      ⟨61, ⟨.yielded, { s with locked := true, cmd := 0 }⟩⟩ := by
    apply wp_helpListing h
    cases name <;> rfl
  rcases hpt with rfl | rfl
  · rw [consoleHelp, wp_ptFunction rfl]
    simpa [Stmt.exec, Thread.expand, wp_onVars, ptWaitUntil, saveLine, hlocked] using hlisting
  · rw [consoleHelp, wp_ptFunction rfl]
    simpa [Stmt.exec, Thread.expand, wp_onVars, hlocked] using hlisting

theorem consoleHelp_line (h : Help.At { s with cmd := s.cmd + 1 } name) :
    Prog.wp (consoleHelp.run (n + 1)) (fun res a =>
      (res, a) = Help.next { s with cmd := s.cmd + 1 } 68 name) ⟨68, s⟩ := by
  rw [consoleHelp, wp_ptFunction rfl]
  cases name with
  | none => simp [Stmt.exec, Thread.expand, wp_onVars, wp_helpName h, Help.next]
  | some name =>
      simp [Stmt.exec, Thread.expand, wp_onVars, wp_helpName h, helpPrint, ptYield, saveLine,
        returning, Help.next]

end Call

/-! ## The names in the table -/

def Commands.listed (cmds : Commands W) : List Nat :=
  ((List.range 32).filterMap cmds.cmdTable).takeWhile fun cmd => (cmds.name cmd).isSome

theorem filterMap_range_getElem? {α : Type} (l : List α) {f : Nat → Option α} {n : Nat}
    (hf : ∀ i < n, f i = l[i]?) (hn : l.length ≤ n) : (List.range n).filterMap f = l := by
  induction l generalizing f n with
  | nil =>
      apply List.filterMap_eq_nil_iff.mpr
      intro i hi
      rw [hf i (List.mem_range.mp hi)]
      rfl
  | cons x l ih =>
      obtain ⟨n, rfl⟩ : ∃ k, n = k + 1 := ⟨n - 1, by simp at hn; omega⟩
      have hrest := ih (f := fun i => f (i + 1)) (n := n)
        (fun i hi => by simpa using hf (i + 1) (by omega)) (by simpa using hn)
      rw [List.range_succ_eq_map, List.filterMap_cons, hf 0 (by omega), List.filterMap_map]
      exact congrArg (x :: ·) hrest

section Table

variable {cmds : Commands W} {entries : List Nat} {last : Nat} {s : Help W}

theorem Commands.Table.listed (h : cmds.Table entries last) : cmds.listed = entries := by
  have hroom := h.room
  unfold Commands.listed
  rw [filterMap_range_getElem? (entries ++ [last]) h.slots (by simp; omega),
    List.takeWhile_append_of_pos]
  · simp [h.unnamed]
  · intro cmd hcmd
    exact Option.isSome_iff_ne_none.mpr (h.named cmd hcmd)

def Commands.nameAt (cmds : Commands W) (i : Nat) : Option (List UInt8) :=
  cmds.listed[i]?.bind cmds.name

theorem Help.at_nameAt (h : s.cmds.Table entries last) (hcmd : s.cmd ≤ entries.length) :
    s.At (s.cmds.nameAt s.cmd) := by
  have hroom := h.room
  refine ⟨by omega, ?_⟩
  unfold Commands.nameAt
  rw [h.listed, h.slots _ (by omega)]
  rcases Nat.lt_or_eq_of_le hcmd with hlt | heq
  · exact ⟨entries[s.cmd], by simp [hlt, List.getElem?_append_left], by simp [hlt]⟩
  · exact ⟨last, by simp [heq], by simp [heq, h.unnamed]⟩

/-- Where a running `console_help` may be: at its start, before the listing, or
behind a line of it. -/
inductive HelpPoint (s : Help W) : BitVec 16 → Prop
  | start : HelpPoint s 0
  | header : HelpPoint s 58
  | waiting : HelpPoint s 61
  | line : s.cmd < s.cmds.listed.length → HelpPoint s 68

/-- What a call does. -/
inductive HelpCall (s : Help W) : BitVec 16 → PtState × Instance (Help W) → Prop
  | start : HelpCall s 0 (.yielded, ⟨58, { s with out := s.out ++ [helpHeader] }⟩)
  | waiting {pt : BitVec 16} : pt = 58 ∨ pt = 61 → s.locked = true →
      HelpCall s pt (.waiting, ⟨61, s⟩)
  | begin {pt : BitVec 16} : pt = 58 ∨ pt = 61 → s.locked = false →
      HelpCall s pt (Help.next { s with locked := true, cmd := 0 } 61 (s.cmds.nameAt 0))
  | line : HelpCall s 68
      (Help.next { s with cmd := s.cmd + 1 } 68 (s.cmds.nameAt (s.cmd + 1)))

theorem wp_consoleHelp (h : s.cmds.Table entries last) {pt : BitVec 16}
    (hpt : HelpPoint s pt) :
    Prog.wp (consoleHelp.run 1) (fun res a => HelpCall s pt (res, a)) ⟨pt, s⟩ := by
  have hwaiting : ∀ pt : BitVec 16, pt = 58 ∨ pt = 61 →
      Prog.wp (consoleHelp.run 1) (fun res a => HelpCall s pt (res, a)) ⟨pt, s⟩ := by
    intro pt hpt
    cases hlocked : s.locked with
    | true =>
        refine Prog.wp_mono (consoleHelp_waiting hpt hlocked) ?_
        rintro _ _ ⟨rfl, rfl⟩
        exact .waiting hpt hlocked
    | false =>
        have hat : Help.At { s with locked := true, cmd := 0 } (s.cmds.nameAt 0) :=
          Help.at_nameAt (s := { s with locked := true, cmd := 0 }) h (Nat.zero_le _)
        refine Prog.wp_mono (consoleHelp_begin hpt hlocked hat) ?_
        intro res a hnext
        rw [hnext]
        exact .begin hpt hlocked
  cases hpt with
  | start =>
      refine Prog.wp_mono consoleHelp_start ?_
      rintro _ _ ⟨rfl, rfl⟩
      exact .start
  | header => exact hwaiting 58 (.inl rfl)
  | waiting => exact hwaiting 61 (.inr rfl)
  | line hcmd =>
      rw [h.listed] at hcmd
      have hat : Help.At { s with cmd := s.cmd + 1 } (s.cmds.nameAt (s.cmd + 1)) :=
        Help.at_nameAt (s := { s with cmd := s.cmd + 1 }) h hcmd
      refine Prog.wp_mono (consoleHelp_line hat) ?_
      intro res a hnext
      rw [hnext]
      exact .line

theorem consoleHelp_returns (h : s.cmds.Table entries last) {pt : BitVec 16}
    (hpt : HelpPoint s pt) : ∃ r, consoleHelp.Returns ⟨pt, s⟩ r := by
  obtain ⟨res, a, hr, -⟩ := Prog.exists_returns consoleHelp.mono (wp_consoleHelp h hpt)
  exact ⟨(res, a), hr⟩

theorem HelpCall.of_returns (h : s.cmds.Table entries last) {pt : BitVec 16}
    (hpt : HelpPoint s pt) {res : PtState} {a : Instance (Help W)}
    (hr : consoleHelp.Returns ⟨pt, s⟩ (res, a)) : HelpCall s pt (res, a) :=
  Prog.Returns.of_wp consoleHelp.mono (wp_consoleHelp h hpt) hr

end Table

end Librfn
