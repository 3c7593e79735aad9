import Librfn.Console
import Librfn.Logic.Sorted

/-!
# The command table

`console_register` keeps the commands in the order of their names, behind them
the descriptor without a name and then `NULL`, so every search through the
table ends at that descriptor.
-/

namespace Librfn

open Librfn.Logic

variable {W : Type}

/-- Slot `n` has the descriptor without a name, and every slot before it has a
descriptor. -/
def Commands.EndsAt (cmds : Commands W) (n : Nat) : Prop :=
  (∀ i < n, ∃ cmd, cmds.cmdTable i = some cmd) ∧
    ∃ cmd, cmds.cmdTable n = some cmd ∧ cmds.name cmd = none

/-- The tables that the calls of `console_register` build. -/
inductive Commands.Registered : Commands W → Prop
  | init {cmds} : cmds.Initial → Registered cmds
  | register {cmds cmds' cmd r} : Registered cmds → cmds.name cmd ≠ none →
      consoleRegister cmd cmds = .ok (r, cmds') → Registered cmds'

theorem Commands.Initial.endsAt {cmds : Commands W} (h : cmds.Initial) :
    cmds.EndsAt 2 := by
  refine ⟨fun i hi => ⟨i, ?_⟩, 2, ?_, h.unknown⟩
  · simp [h.cmdTable, Nat.lt_succ_of_lt hi]
  · simp [h.cmdTable]

theorem wp_storeCmdTable (cmds : Commands W) {i : Nat} (hi : i < 32)
    (cmd : Option Nat) (Q : Unit → Commands W → Prop) :
    Prog.wp (storeCmdTable i cmd) Q cmds ↔
      Q () { cmds with cmdTable := Function.update cmds.cmdTable i cmd } := by
  simp [storeCmdTable, hi]

/-! ## Commands in the order of their names -/

/-- `strcmp` does not find the name of `x` greater than that of `y`. -/
def NameLe (name : Nat → Option (List UInt8)) (x y : Nat) : Prop :=
  (name x).getD [] ≤ (name y).getD []

instance (name : Nat → Option (List UInt8)) : DecidableRel (NameLe name) :=
  fun x y => inferInstanceAs (Decidable ((name x).getD [] ≤ (name y).getD []))

theorem NameLe.trans {name : Nat → Option (List UInt8)} (x y z : Nat)
    (hxy : NameLe name x y) (hyz : NameLe name y z) : NameLe name x z :=
  List.le_trans hxy hyz

/-- The slots of the table: commands with names, in their order, then the
descriptor `last` without a name, then `NULL`. -/
structure Commands.Table (cmds : Commands W) (entries : List Nat) (last : Nat) :
    Prop where
  slots : ∀ i < 32, cmds.cmdTable i = (entries ++ [last])[i]?
  room : entries.length < 32
  named : ∀ cmd ∈ entries, cmds.name cmd ≠ none
  unnamed : cmds.name last = none
  sorted : entries.Pairwise (NameLe cmds.name)

theorem Commands.Initial.table {cmds : Commands W} (h : cmds.Initial) :
    cmds.Table [0, 1] 2 where
  slots := by
    intro i hi
    rw [h.cmdTable]
    match i with
    | 0 => rfl
    | 1 => rfl
    | 2 => rfl
    | i + 3 => simp
  room := by decide
  named := by simp [h.echo, h.help]
  unnamed := h.unknown
  sorted := by
    have hle : "echo".toUTF8.toList ≤ "help".toUTF8.toList := by
      decide +kernel
    simpa [NameLe, h.echo, h.help] using hle

section Table

variable {cmds : Commands W} {entries before after : List Nat} {last cmd : Nat}

theorem Commands.Table.end_slot (h : cmds.Table before last) :
    cmds.cmdTable before.length = some last := by
  simp [h.slots before.length h.room]

theorem Commands.Table.endsAt (h : cmds.Table entries last) :
    cmds.EndsAt entries.length := by
  refine ⟨fun i hi => ⟨entries[i], ?_⟩, last, h.end_slot, h.unnamed⟩
  have hroom := h.room
  rw [h.slots i (by omega), List.getElem?_append_left hi, List.getElem?_eq_getElem hi]

theorem Commands.Table.next_slot {slot : Nat}
    (h : cmds.Table (before ++ slot :: after) last) : before.length < 32 ∧
      cmds.cmdTable before.length = some slot ∧ ∃ name, cmds.name slot = some name := by
  have hroom := h.room
  rw [List.length_append] at hroom
  have hslot : before.length < 32 := by omega
  refine ⟨hslot, ?_, Option.ne_none_iff_exists'.mp (h.named slot (by simp))⟩
  rw [h.slots before.length hslot, List.append_assoc,
    List.getElem?_append_right (Nat.le_refl _)]
  simp

theorem Commands.Table.last_slot (h : cmds.Table entries last) :
    cmds.cmdTable 31 = if entries.length = 31 then some last else none := by
  have hroom := h.room
  rw [h.slots 31 (by omega)]
  split
  · next hfull => simp [← hfull]
  · apply List.getElem?_eq_none
    simp only [List.length_append, List.length_singleton]
    omega

theorem registerSlot_spec {fuel : Nat} (h : cmds.Table (before ++ after) last)
    (hname : cmds.name cmd ≠ none) (hfuel : after.length < fuel) :
    Prog.wp (registerSlot cmd fuel before.length) (fun i cmds' =>
      i = (before ++ after.takeWhile (NameLe cmds.name · cmd)).length ∧ cmds' = cmds)
      cmds := by
  induction fuel generalizing before after with
  | zero => exact absurd hfuel (Nat.not_lt_zero _)
  | succ fuel ih =>
      obtain ⟨newName, hnew⟩ := Option.ne_none_iff_exists'.mp hname
      cases after with
      | nil =>
          rw [List.append_nil] at h
          simp [registerSlot, h.room, h.end_slot, h.unnamed]
      | cons slot after =>
          obtain ⟨hslot, hcmd, name, hslotName⟩ := h.next_slot
          have hle : NameLe cmds.name slot cmd ↔ ¬ newName < name := by
            simp [NameLe, hslotName, hnew]
          rw [registerSlot]
          simp only [hslot, not_true_eq_false, if_false, Prog.wp_bind, Prog.wp_get, hcmd,
            hslotName, hnew, Prog.wp_ite]
          split
          · next hless => simp [hle, hless]
          · next hless =>
              have hrest : cmds.Table (before ++ [slot] ++ after) last := by
                rwa [List.append_assoc]
              have hnext := ih hrest (by simpa using hfuel)
              rw [List.length_append] at hnext
              refine Prog.wp_mono hnext ?_
              rintro i _ ⟨rfl, rfl⟩
              simp [hle, hless]

theorem registerShift_spec {cmds : Commands W} {i j : Nat} (hj : j < 32) :
    Prog.wp (registerShift i j) (fun _ cmds' =>
      (cmds'.name = cmds.name ∧ cmds'.fn = cmds.fn) ∧
      ∀ k, cmds'.cmdTable k =
        if i < k ∧ k ≤ j then cmds.cmdTable (k - 1) else cmds.cmdTable k)
      cmds := by
  induction j generalizing cmds with
  | zero =>
      refine ⟨⟨rfl, rfl⟩, fun k => ?_⟩
      rw [if_neg (by omega)]
  | succ j ih =>
      rw [registerShift]
      simp only [Prog.wp_ite, Prog.wp_bind, Prog.wp_get,
        wp_storeCmdTable _ hj, Prog.wp_pure]
      split
      · next hmore =>
          refine Prog.wp_mono (ih (by omega)) ?_
          rintro _ cmds' ⟨hname, htable⟩
          refine ⟨hname, fun k => ?_⟩
          rw [htable]
          by_cases hk : k = j + 1
          · subst hk
            rw [if_neg (by omega), if_pos (by omega)]
            exact Function.update_self _ _ _
          · by_cases hin : i < k ∧ k ≤ j
            · rw [if_pos hin, if_pos (by omega)]
              exact Function.update_of_ne (by omega) _ _
            · rw [if_neg hin, if_neg (by omega)]
              exact Function.update_of_ne hk _ _
      · refine ⟨⟨trivial, trivial⟩, fun k => ?_⟩
        rw [if_neg (by omega)]

theorem Commands.Table.insert {cmds' : Commands W}
    (h : cmds.Table (before ++ after) last) (hname : cmds.name cmd ≠ none)
    (hbefore : ∀ x ∈ before, NameLe cmds.name x cmd)
    (hafter : ∀ x ∈ after, NameLe cmds.name cmd x)
    (hroom : (before ++ after).length < 31) (hnames : cmds'.name = cmds.name)
    (hslots : ∀ i < 32, cmds'.cmdTable i = if i < before.length then cmds.cmdTable i
      else if i = before.length then some cmd else cmds.cmdTable (i - 1)) :
    cmds'.Table (before ++ cmd :: after) last where
  slots := by
    intro i hi
    rw [hslots i hi, List.append_assoc, List.cons_append, getElem?_insert,
      ← List.append_assoc]
    split
    · exact h.slots i hi
    split
    · rfl
    · exact h.slots (i - 1) (by omega)
  room := by
    simp only [List.length_append, List.length_cons] at hroom ⊢
    omega
  named := by
    intro x hx
    rw [hnames]
    rcases List.mem_cons.mp (List.perm_middle.mem_iff.mp hx) with rfl | hx
    · exact hname
    · exact h.named x hx
  unnamed := by rw [hnames, h.unnamed]
  sorted := by
    rw [hnames]
    exact pairwise_insert h.sorted hbefore hafter

theorem Commands.Table.cut (h : cmds.Table entries last) (cmd : Nat) :
    ∃ before after, entries = before ++ after ∧
      entries.takeWhile (NameLe cmds.name · cmd) = before ∧
      (∀ x ∈ before, NameLe cmds.name x cmd) ∧
      ∀ x ∈ after, NameLe cmds.name cmd x ∧ ¬ NameLe cmds.name x cmd := by
  have hcut : ∀ x ∈ entries, ∀ y ∈ entries, NameLe cmds.name x y →
      decide (NameLe cmds.name y cmd) = true → decide (NameLe cmds.name x cmd) = true := by
    intro x _ y _ hxy hy
    exact decide_eq_true (.trans x y cmd hxy (of_decide_eq_true hy))
  refine ⟨_, _, List.takeWhile_append_dropWhile.symm, rfl, ?_, ?_⟩
  · intro x hx
    have hle := List.mem_takeWhile_imp hx
    exact of_decide_eq_true hle
  · intro x hx
    have hnot : ¬ NameLe cmds.name x cmd := by
      simpa using not_of_mem_dropWhile h.sorted hcut hx
    exact ⟨List.le_of_lt (List.not_le.mp hnot), hnot⟩

/-- A call fails and does nothing if the table is full.  Else the command goes
behind those whose names are not greater. -/
theorem consoleRegister_spec (h : cmds.Table entries last)
    (hname : cmds.name cmd ≠ none) :
    Prog.wp (consoleRegister cmd) (fun r cmds' =>
      if entries.length = 31 then r = -1 ∧ cmds' = cmds
      else r = 0 ∧ (cmds'.name = cmds.name ∧ cmds'.fn = cmds.fn) ∧
        ∃ before after, entries = before ++ after ∧
          (∀ x ∈ before, NameLe cmds.name x cmd) ∧
          (∀ x ∈ after, NameLe cmds.name cmd x ∧ ¬ NameLe cmds.name x cmd) ∧
          cmds'.Table (before ++ cmd :: after) last) cmds := by
  simp only [consoleRegister, Prog.wp_bind, Prog.wp_get, Prog.wp_ite, Prog.wp_pure,
    h.last_slot]
  split
  · simp
  next hroom =>
  have hlt : entries.length ≠ 31 := by simpa using hroom
  have hlen := h.room
  obtain ⟨before, after, hsplit, hbeforeEq, hbefore, hafter⟩ := h.cut cmd
  have hall : cmds.Table ([] ++ entries) last := h
  refine Prog.wp_mono (registerSlot_spec hall hname (by omega)) ?_
  rintro i _ ⟨rfl, rfl⟩
  rw [List.nil_append, hbeforeEq]
  have hle : before.length ≤ entries.length := by simp [hsplit]
  refine Prog.wp_mono (registerShift_spec (by omega)) ?_
  rintro _ cmds₁ ⟨hsame, htable⟩
  rw [wp_storeCmdTable _ (by omega)]
  refine ⟨trivial, hsame, before, after, hsplit, hbefore, hafter, ?_⟩
  rw [hsplit] at h
  refine h.insert hname hbefore (fun x hx => (hafter x hx).1) ?_ hsame.1 ?_
  · rw [← hsplit]
    omega
  · intro k hk
    simp only [Function.update_apply, htable]
    rcases Nat.lt_trichotomy k before.length with hk' | rfl | hk'
    · rw [if_neg (by omega), if_neg (by omega), if_pos hk']
    · simp
    · rw [if_neg (by omega), if_pos (by omega), if_neg (by omega), if_neg (by omega)]

end Table

theorem Commands.Registered.table {cmds : Commands W} (h : cmds.Registered) :
    ∃ entries last, cmds.Table entries last := by
  induction h with
  | init h => exact ⟨_, _, h.table⟩
  | register _ hname hreg ih =>
      obtain ⟨entries, last, htable⟩ := ih
      have hspec := (Prog.wp_iff_of_eq hreg).mp (consoleRegister_spec htable hname)
      split at hspec
      · obtain ⟨-, rfl⟩ := hspec
        exact ⟨entries, last, htable⟩
      · obtain ⟨-, -, before, after, -, -, -, htable'⟩ := hspec
        exact ⟨_, last, htable'⟩

theorem Commands.Registered.endsAt {cmds : Commands W} (h : cmds.Registered) :
    ∃ n < 32, cmds.EndsAt n := by
  obtain ⟨entries, last, htable⟩ := h.table
  exact ⟨entries.length, htable.room, htable.endsAt⟩

def exitCommands : Commands Unit :=
  { cmdTable := fun i => if i < 3 then some i else none
    name := fun
      | 0 => some "echo".toUTF8.toList
      | 1 => some "help".toUTF8.toList
      | _ => none
    fn := fun _ c => (.exited, c) }

theorem exitCommands_initial : exitCommands.Initial := ⟨rfl, rfl, rfl, rfl⟩

theorem exitCommands_registered : exitCommands.Registered :=
  .init exitCommands_initial

end Librfn
