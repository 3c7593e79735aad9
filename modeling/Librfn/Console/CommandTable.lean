import Librfn.Console.Tokenizer

/-!
# Registering and finding commands

The table is a stable sort of the commands in the order of their registration,
so the search finds the command of a name that was registered first.
-/

namespace Librfn

open Librfn.Logic

variable {W : Type}

def consoleRegisterAll : List Nat → Prog (Commands W) (List Int)
  | [] => return []
  | cmd :: calls => do
      let r ← consoleRegister cmd
      return r :: (← consoleRegisterAll calls)

section Table

variable {cmds : Commands W} {registered entries calls : List Nat} {last cmd : Nat}

theorem consoleRegister_stable (h : cmds.Table entries last)
    (hsort : IsStableSort (NameLe cmds.name) registered entries)
    (hname : cmds.name cmd ≠ none) :
    Prog.wp (consoleRegister cmd) (fun r cmds' =>
      if registered.length = 31 then r = -1 ∧ cmds' = cmds
      else r = 0 ∧ cmds'.name = cmds.name ∧ ∃ entries', cmds'.Table entries' last ∧
        IsStableSort (NameLe cmds.name) (registered ++ [cmd]) entries') cmds := by
  refine Prog.wp_mono (consoleRegister_spec h hname) ?_
  intro r cmds' hspec
  rw [hsort.perm.length_eq] at hspec
  split
  · next hfull => rwa [if_pos hfull] at hspec
  · next hroom =>
      rw [if_neg hroom] at hspec
      obtain ⟨hr, hsame, before, after, rfl, hbefore, hafter, htable⟩ := hspec
      exact ⟨hr, hsame.1, _, htable, hsort.insert NameLe.trans hbefore hafter⟩

/-- The table takes 31 commands. -/
theorem consoleRegisterAll_spec (h : cmds.Table entries last)
    (hsort : IsStableSort (NameLe cmds.name) registered entries)
    (hnames : ∀ cmd ∈ calls, cmds.name cmd ≠ none) {n : Nat}
    (hn : registered.length + n = 31) :
    Prog.wp (consoleRegisterAll calls) (fun rs cmds' =>
      rs = (calls.take n).map (fun _ => 0) ++ (calls.drop n).map (fun _ => -1) ∧
      cmds'.name = cmds.name ∧ ∃ entries', cmds'.Table entries' last ∧
        IsStableSort (NameLe cmds.name) (registered ++ calls.take n) entries')
      cmds := by
  induction calls generalizing cmds registered entries n with
  | nil => exact ⟨by simp, rfl, entries, h, by simpa using hsort⟩
  | cons cmd calls ih =>
      have hrest : ∀ x ∈ calls, cmds.name x ≠ none := fun x hx =>
        hnames x (List.mem_cons_of_mem cmd hx)
      simp only [consoleRegisterAll, Prog.wp_bind, Prog.wp_pure]
      refine Prog.wp_mono (consoleRegister_stable h hsort
        (hnames cmd List.mem_cons_self)) ?_
      intro r cmds₁ hspec
      cases n with
      | zero =>
          rw [if_pos (by omega)] at hspec
          obtain ⟨rfl, rfl⟩ := hspec
          refine Prog.wp_mono (ih h hsort hrest hn) ?_
          rintro rs cmds₂ ⟨rfl, hname, entries', htable, hsort'⟩
          exact ⟨by simp, hname, entries', htable, by simpa using hsort'⟩
      | succ n =>
          rw [if_neg (by omega)] at hspec
          obtain ⟨rfl, hname, entries₁, htable, hsort₁⟩ := hspec
          rw [← hname] at hsort₁ hrest
          refine Prog.wp_mono (ih htable hsort₁ hrest (n := n) ?_) ?_
          · simp only [List.length_append, List.length_singleton]
            omega
          · rintro rs cmds₂ ⟨rfl, hname₂, entries₂, htable₂, hsort₂⟩
            rw [hname] at hname₂ hsort₂
            exact ⟨by simp, hname₂, entries₂, htable₂, by simpa using hsort₂⟩

theorem findCommandLoop_table {before after : List Nat} {fuel : Nat}
    (h : cmds.Table (before ++ after) last) (argv0 : List UInt8) (c : Console W)
    (hfuel : after.length < fuel) :
    Prog.wp (findCommandLoop cmds argv0 fuel before.length) (fun _ c' =>
      c' = { c with
        cmd := (after.find? (cmds.name · = some argv0)).getD last }) c := by
  induction fuel generalizing before after with
  | zero => exact absurd hfuel (Nat.not_lt_zero _)
  | succ fuel ih =>
      cases after with
      | nil =>
          rw [List.append_nil] at h
          simp [findCommandLoop, h.room, h.end_slot, h.unnamed]
      | cons cmd after =>
          obtain ⟨hslot, hcmd, name, hname⟩ := h.next_slot
          rw [findCommandLoop]
          simp only [hslot, not_true_eq_false, if_false, hcmd, hname, Prog.wp_ite]
          split
          · next heq => simp [hname, heq]
          · next hne =>
              have hrest : cmds.Table (before ++ [cmd] ++ after) last := by
                rwa [List.append_assoc]
              have hnext := ih hrest (by simpa using hfuel)
              rw [List.length_append] at hnext
              simpa [hname, Ne.symm hne] using hnext

theorem findCommand_table (h : cmds.Table entries last)
    (hsort : IsStableSort (NameLe cmds.name) registered entries) {c : Console W}
    {argv0 : List UInt8} (hargv : HoldsString c (c.argv 0) argv0) :
    Prog.wp (findCommand cmds) (fun _ c' => c' = { c with
      cmd := (registered.find? (cmds.name · = some argv0)).getD last }) c := by
  have hlen := hargv.1
  have hroom := h.room
  have hnamed : ∀ x ∈ registered, cmds.name x ≠ none := fun x hx =>
    h.named x (hsort.perm.mem_iff.mpr hx)
  have hfind := hsort.find? (p := (cmds.name · = some argv0)) (by
    intro x hx y hy hxname
    obtain ⟨name, hname⟩ := Option.ne_none_iff_exists'.mp (hnamed y hy)
    have hxname : cmds.name x = some argv0 := of_decide_eq_true hxname
    simp only [NameLe, hxname, hname, Option.getD_some, decide_eq_true_eq,
      Option.some.injEq]
    constructor
    · rintro rfl
      exact ⟨List.le_refl _, List.le_refl _⟩
    · rintro ⟨hle, hge⟩
      exact List.le_antisymm hge hle)
  have hall : cmds.Table ([] ++ entries) last := h
  simp only [findCommand, Prog.wp_bind, Prog.wp_get]
  rw [wp_loadString hargv (by omega), ← hfind]
  exact findCommandLoop_table hall argv0 c (by omega)

end Table

/-- Over any calls of `console_register`, a call fails exactly if the command
without a name is in the last slot, and `find_command` finds the command that
was registered first under the name. -/
theorem command_table {cmds : Commands W} (h : cmds.Initial) (calls : List Nat)
    (hnames : ∀ cmd ∈ calls, cmds.name cmd ≠ none) :
    ∃ rs cmds' entries,
      consoleRegisterAll calls cmds = .ok (rs, cmds') ∧
      rs = (calls.take 29).map (fun _ => 0) ++ (calls.drop 29).map (fun _ => -1) ∧
      cmds'.name = cmds.name ∧ cmds'.Table entries 2 ∧
      IsStableSort (NameLe cmds.name) ([0, 1] ++ calls.take 29) entries ∧
      (∀ cmd, cmds.name cmd ≠ none →
        ∃ r cmds'', consoleRegister cmd cmds' = .ok (r, cmds'') ∧
          (r = -1 ↔ cmds'.cmdTable 31 = some 2) ∧ (r = -1 → cmds'' = cmds') ∧
          (r ≠ -1 → r = 0 ∧ ∃ before after, entries = before ++ after ∧
            cmds''.Table (before ++ cmd :: after) 2)) ∧
      ∀ (c : Console W) argv0, HoldsString c (c.argv 0) argv0 →
        findCommand cmds' c = .ok ((), { c with
          cmd := (([0, 1] ++ calls.take 29).find?
            (cmds.name · = some argv0)).getD 2 }) := by
  obtain ⟨rs, cmds', heq, hrs, hname, entries, htable, hsort⟩ :=
    Prog.wp_iff_exists.mp (consoleRegisterAll_spec h.table
      (.of_sorted h.table.sorted) hnames (n := 29) rfl)
  rw [← hname] at hsort
  refine ⟨rs, cmds', entries, heq, hrs, hname, htable, hname ▸ hsort, ?_, ?_⟩
  · intro cmd hcmd
    rw [← hname] at hcmd
    obtain ⟨r, cmds'', hcall, hspec⟩ := Prog.wp_iff_exists.mp
      (consoleRegister_spec htable hcmd)
    refine ⟨r, cmds'', hcall, ?_⟩
    rw [htable.last_slot]
    split at hspec
    · next hfull => simp [hfull, hspec]
    · next hroom =>
        obtain ⟨rfl, -, before, after, hsplit, -, -, htable'⟩ := hspec
        have hzero : (0 : Int) ≠ -1 := by decide
        rw [if_neg hroom]
        exact ⟨⟨fun hr => absurd hr hzero, fun hlast => absurd hlast (by simp)⟩,
          fun hr => absurd hr hzero,
          fun _ => ⟨rfl, before, after, hsplit, htable'⟩⟩
  · intro c argv0 hargv
    obtain ⟨_, c', heq, rfl⟩ := Prog.wp_iff_exists.mp
      (findCommand_table htable hsort hargv)
    rw [heq, hname]

/-- `help` is registered once more, and then `echo` until the table is full. -/
theorem command_table_full : ∃ rs cmds' entries,
    consoleRegisterAll (1 :: List.replicate 29 0) exitCommands = .ok (rs, cmds') ∧
    rs = List.replicate 29 0 ++ [-1] ∧ cmds'.Table entries 2 ∧
    ∀ (c : Console Unit) argv0, HoldsString c (c.argv 0) argv0 →
      findCommand cmds' c = .ok ((), { c with
        cmd := (([0, 1] ++ (1 :: List.replicate 28 0)).find?
          (exitCommands.name · = some argv0)).getD 2 }) := by
  obtain ⟨rs, cmds', entries, heq, hrs, -, htable, -, -, hfind⟩ :=
    command_table exitCommands_initial (1 :: List.replicate 29 0)
      (by simp [exitCommands])
  exact ⟨rs, cmds', entries, heq, hrs, htable, hfind⟩

end Librfn
