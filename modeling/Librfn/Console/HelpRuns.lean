import Librfn.Console.Help
import Librfn.Logic.Transition

/-!
# Several consoles listing the commands

Any number of consoles run `console_help` in any order, while commands are
registered between their calls.
-/

namespace Librfn

open Librfn.Logic Protothread

variable {W C : Type}

/-- `console_help` on one console: the console's `pt`, whether the last call has
not ended it, and what it has printed since it was started. -/
structure Helper where
  pt : BitVec 16
  running : Bool
  out : List (List UInt8)

structure HelpSystem (W C : Type) where
  cmds : Commands W
  locked : Bool
  cmd : Nat
  helpers : C → Helper

inductive HelpEvent (C : Type) where
  | start (c : C)
  | call (c : C) (res : PtState)
  | register (cmd : Nat)

namespace HelpSystem

/-- What a call on console `c` sees. -/
def view (s : HelpSystem W C) (c : C) : Help W :=
  ⟨s.cmds, s.locked, s.cmd, (s.helpers c).out⟩

def after [DecidableEq C] (s : HelpSystem W C) (c : C) (r : PtState × Instance (Help W)) : HelpSystem W C where
  cmds := r.2.vars.cmds
  locked := r.2.vars.locked
  cmd := r.2.vars.cmd
  helpers := Function.update s.helpers c ⟨r.2.pt, active r.1, r.2.vars.out⟩

inductive Step [DecidableEq C] : HelpSystem W C → HelpEvent C → HelpSystem W C → Prop
  | start {s : HelpSystem W C} {c : C} : (s.helpers c).running = false →
      Step s (.start c) { s with helpers := Function.update s.helpers c ⟨0, true, []⟩ }
  | call {s : HelpSystem W C} {c : C} {r : PtState × Instance (Help W)} :
      (s.helpers c).running = true →
      consoleHelp.Returns ⟨(s.helpers c).pt, s.view c⟩ r → Step s (.call c r.1) (s.after c r)
  | register {s : HelpSystem W C} {cmd : Nat} {r : Int} {cmds' : Commands W} :
      s.cmds.name cmd ≠ none → consoleRegister cmd s.cmds = .ok (r, cmds') →
      Step s (.register cmd) { s with cmds := cmds' }

structure Initial (s : HelpSystem W C) : Prop where
  cmds : s.cmds.Initial
  unlocked : s.locked = false
  idle : ∀ c, (s.helpers c).running = false

def Lists (s : HelpSystem W C) (c : C) : Prop :=
  (s.helpers c).running = true ∧ (s.helpers c).pt = 68

def IsHelpPoint (pt : BitVec 16) : Prop := pt = 0 ∨ pt = 58 ∨ pt = 61 ∨ pt = 68

/-- The flag is set exactly while a console lists the commands, and no two
consoles do. -/
structure Valid (s : HelpSystem W C) : Prop where
  table : ∃ entries last, s.cmds.Table entries last
  point : ∀ c, (s.helpers c).running = true → IsHelpPoint (s.helpers c).pt
  locked : s.locked = true ↔ ∃ c, s.Lists c
  cursor : s.locked = true → s.cmd < s.cmds.listed.length
  unique : ∀ c d, s.Lists c → s.Lists d → c = d

theorem Initial.valid {s : HelpSystem W C} (h : s.Initial) : s.Valid where
  table := ⟨_, _, h.cmds.table⟩
  point := fun c hrun => by simp [h.idle c] at hrun
  locked := by simp [h.unlocked, Lists, h.idle]
  cursor := fun hlocked => by simp [h.unlocked] at hlocked
  unique := fun c d hc => by simp [Lists, h.idle c] at hc

theorem Valid.helpPoint {s : HelpSystem W C} (h : s.Valid) {c : C}
    (hrun : (s.helpers c).running = true) : HelpPoint (s.view c) (s.helpers c).pt := by
  rcases h.point c hrun with hpt | hpt | hpt | hpt
  · rw [hpt]
    exact .start
  · rw [hpt]
    exact .header
  · rw [hpt]
    exact .waiting
  · rw [hpt]
    exact .line (h.cursor (h.locked.mpr ⟨c, hrun, hpt⟩))

theorem listed_register {cmds cmds' : Commands W} {cmd : Nat} {r : Int}
    (htable : ∃ entries last, cmds.Table entries last) (hname : cmds.name cmd ≠ none)
    (hreg : consoleRegister cmd cmds = .ok (r, cmds')) :
    (∃ entries last, cmds'.Table entries last) ∧ cmds'.name = cmds.name ∧
      (cmds' = cmds ∨ ∃ before after, cmds.listed = before ++ after ∧
        cmds'.listed = before ++ cmd :: after) := by
  obtain ⟨entries, last, htable⟩ := htable
  have hspec := (Prog.wp_iff_of_eq hreg).mp (consoleRegister_spec htable hname)
  split at hspec
  · obtain ⟨-, rfl⟩ := hspec
    exact ⟨⟨entries, last, htable⟩, rfl, .inl rfl⟩
  · obtain ⟨-, hsame, before, after, hsplit, -, -, htable'⟩ := hspec
    refine ⟨⟨_, last, htable'⟩, hsame.1, .inr ⟨before, after, ?_, htable'.listed⟩⟩
    rw [htable.listed, hsplit]

theorem Valid.register {s : HelpSystem W C} (h : s.Valid) {cmd : Nat} {cmds' : Commands W} {n : Int}
    (hname : s.cmds.name cmd ≠ none) (hreg : consoleRegister cmd s.cmds = .ok (n, cmds')) :
    Valid { s with cmds := cmds' } := by
  obtain ⟨htable, -, hlisted⟩ := listed_register h.table hname hreg
  refine ⟨htable, h.point, h.locked, fun hlocked => ?_, h.unique⟩
  have hcursor := h.cursor hlocked
  rcases hlisted with rfl | ⟨before, after, hold, hnew⟩
  · exact hcursor
  · simp only [hold, hnew, List.length_append, List.length_cons] at hcursor ⊢
    omega

section Steps

variable [DecidableEq C] {s t : HelpSystem W C} {c d : C} {r : PtState × Instance (Help W)}

theorem after_lists_self :
    (s.after c r).Lists c ↔ active r.1 = true ∧ r.2.pt = 68 := by
  simp [Lists, after]

theorem after_lists_of_ne (hne : d ≠ c) : (s.after c r).Lists d ↔ s.Lists d := by
  simp [Lists, after, hne]

theorem lt_of_nameAt {cmds : Commands W} {i : Nat} {name : List UInt8}
    (h : cmds.nameAt i = some name) : i < cmds.listed.length := by
  obtain ⟨cmd, hcmd, -⟩ := Option.bind_eq_some_iff.mp h
  exact (List.getElem?_eq_some_iff.mp hcmd).1

/-- A call keeps what is valid if it leaves the flag set for a listing that goes
on, its own or that of another console. -/
theorem Valid.after (h : s.Valid) (hcmds : r.2.vars.cmds = s.cmds)
    (hpt : active r.1 = true → IsHelpPoint r.2.pt)
    (hlocked : r.2.vars.locked = true ↔
      (s.after c r).Lists c ∨ ∃ d, d ≠ c ∧ s.Lists d)
    (hcursor : r.2.vars.locked = true → r.2.vars.cmd < s.cmds.listed.length)
    (hunique : (s.after c r).Lists c → ∀ d, d ≠ c → ¬ s.Lists d) : (s.after c r).Valid where
  table := by simpa [HelpSystem.after, hcmds] using h.table
  point := by
    intro d hrun
    by_cases hd : d = c
    · subst hd
      simp only [HelpSystem.after, Function.update_self] at hrun ⊢
      exact hpt hrun
    · simp only [HelpSystem.after, Function.update_of_ne hd] at hrun ⊢
      exact h.point d hrun
  locked := by
    refine hlocked.trans ⟨?_, ?_⟩
    · rintro (hc | ⟨d, hd, hlists⟩)
      · exact ⟨c, hc⟩
      · exact ⟨d, (after_lists_of_ne hd).mpr hlists⟩
    · rintro ⟨d, hlists⟩
      by_cases hd : d = c
      · exact .inl (hd ▸ hlists)
      · exact .inr ⟨d, hd, (after_lists_of_ne hd).mp hlists⟩
  cursor := by
    change r.2.vars.locked = true → r.2.vars.cmd < r.2.vars.cmds.listed.length
    rwa [hcmds]
  unique := by
    intro d e hdl hel
    by_cases hd : d = c
    · subst hd
      by_cases he : e = d
      · exact he.symm
      · exact absurd ((after_lists_of_ne he).mp hel) (hunique hdl e he)
    · have hdl' := (after_lists_of_ne hd).mp hdl
      by_cases he : e = c
      · subst he
        exact absurd hdl' (hunique hel d hd)
      · exact h.unique d e hdl' ((after_lists_of_ne he).mp hel)

theorem Valid.quiet (h : s.Valid) {pt' : BitVec 16} {out : List (List UInt8)} {res : PtState}
    (hc : ¬ s.Lists c) (hpt : IsHelpPoint pt') (hne : pt' ≠ 68) :
    (s.after c (res, ⟨pt', { s.view c with out }⟩)).Valid := by
  have hlists : ¬ (s.after c (res, ⟨pt', { s.view c with out }⟩)).Lists c := by
    rw [after_lists_self]
    exact fun h => hne h.2
  apply h.after rfl
  · exact fun _ => hpt
  · refine h.locked.trans ⟨?_, ?_⟩
    · rintro ⟨d, hd⟩
      exact .inr ⟨d, fun heq => hc (heq ▸ hd), hd⟩
    · rintro (hlists' | ⟨d, -, hd⟩)
      · exact absurd hlists' hlists
      · exact ⟨d, hd⟩
  · exact h.cursor
  · exact fun hlists' => absurd hlists' hlists

theorem Valid.next (h : s.Valid) (hothers : ∀ d, d ≠ c → ¬ s.Lists d) {v : Help W}
    (hcmds : v.cmds = s.cmds) (hlocked : v.locked = true) {pt : BitVec 16}
    (hname : ∀ name, s.cmds.nameAt v.cmd = some name → v.cmd < s.cmds.listed.length) :
    (s.after c (v.next pt (s.cmds.nameAt v.cmd))).Valid := by
  cases hat : s.cmds.nameAt v.cmd with
  | some name =>
      have hlists : (s.after c (v.next pt (some name))).Lists c :=
        after_lists_self.mpr ⟨rfl, rfl⟩
      apply h.after hcmds
      · exact fun _ => .inr (.inr (.inr rfl))
      · exact ⟨fun _ => .inl hlists, fun _ => hlocked⟩
      · exact fun _ => hname name hat
      · exact fun _ => hothers
  | none =>
      have hlists : ¬ (s.after c (v.next pt none)).Lists c := by
        rw [after_lists_self]
        exact fun hactive => by cases hactive.1
      apply h.after hcmds
      · exact fun hactive => by cases hactive
      · constructor
        · exact fun hfalse => by cases hfalse
        · rintro (hlists' | ⟨d, hd, hlists'⟩)
          · exact absurd hlists' hlists
          · exact absurd hlists' (hothers d hd)
      · exact fun hfalse => by cases hfalse
      · exact fun hlists' => absurd hlists' hlists

theorem Valid.call (h : s.Valid) (hrun : (s.helpers c).running = true)
    (hcall : HelpCall (s.view c) (s.helpers c).pt r) : (s.after c r).Valid := by
  generalize hpt : (s.helpers c).pt = pt at hcall
  have hidle : pt ≠ 68 → ¬ s.Lists c := fun hne hlists => hne (hpt.symm.trans hlists.2)
  cases hcall with
  | start => exact h.quiet (hidle (by decide)) (.inr (.inl rfl)) (by decide)
  | waiting hpt' _ =>
      have hne : pt ≠ 68 := by rcases hpt' with rfl | rfl <;> decide
      exact h.quiet (hidle hne) (.inr (.inr (.inl rfl))) (by decide)
  | begin hpt' hlocked =>
      have hothers : ∀ d, d ≠ c → ¬ s.Lists d := by
        intro d _ hd
        have hset := h.locked.mpr ⟨d, hd⟩
        rw [show s.locked = false from hlocked] at hset
        cases hset
      exact h.next (v := { s.view c with locked := true, cmd := 0 }) hothers rfl rfl
        fun name => lt_of_nameAt
  | line =>
      have hlists : s.Lists c := ⟨hrun, hpt⟩
      have hothers : ∀ d, d ≠ c → ¬ s.Lists d := fun d hd hd' => hd (h.unique d c hd' hlists)
      exact h.next (v := { s.view c with cmd := s.cmd + 1 }) hothers rfl
        (h.locked.mpr ⟨c, hlists⟩) fun name => lt_of_nameAt

theorem Valid.start (h : s.Valid) (hidle : (s.helpers c).running = false) :
    Valid { s with helpers := Function.update s.helpers c ⟨0, true, []⟩ } := by
  have hlists : ∀ d, Lists { s with helpers := Function.update s.helpers c ⟨0, true, []⟩ } d ↔
      s.Lists d := by
    intro d
    by_cases hd : d = c
    · subst hd
      simp [Lists, hidle]
    · simp [Lists, hd]
  refine ⟨h.table, ?_, ?_, h.cursor, ?_⟩
  · intro d hrun
    by_cases hd : d = c
    · subst hd
      simp [IsHelpPoint]
    · simp only [Function.update_of_ne hd] at hrun ⊢
      exact h.point d hrun
  · simp only [hlists]
    exact h.locked
  · intro d e hd he
    exact h.unique d e ((hlists d).mp hd) ((hlists e).mp he)

theorem Valid.step (h : s.Valid) {event : HelpEvent C} (hstep : Step s event t) : t.Valid := by
  cases hstep with
  | start hidle => exact h.start hidle
  | call hrun hcall =>
      obtain ⟨entries, last, htable⟩ := h.table
      exact h.call hrun (.of_returns (s := s.view _) htable (h.helpPoint hrun) hcall)
  | register hname hreg => exact h.register hname hreg

theorem run_valid {events : List (HelpEvent C)} (hinit : s.Initial)
    (hrun : Run Step s events t) : t.Valid :=
  hrun.invariant hinit.valid fun _ _ _ h hstep => h.step hstep

/-- Whatever the order of the calls, no two consoles list the commands at a time,
and no call of a running `console_help` faults or hangs. -/
theorem help_exclusive {s t : HelpSystem W C} {events : List (HelpEvent C)} (hinit : s.Initial)
    (hrun : Run Step s events t) :
    (∀ c d, t.Lists c → t.Lists d → c = d) ∧ (t.locked = true ↔ ∃ c, t.Lists c) ∧
      ∀ c, (t.helpers c).running = true →
        ∃ r, consoleHelp.Returns ⟨(t.helpers c).pt, t.view c⟩ r := by
  have h := run_valid hinit hrun
  obtain ⟨entries, last, htable⟩ := h.table
  refine ⟨h.unique, h.locked, fun c hc => ?_⟩
  exact consoleHelp_returns (s := t.view c) htable (h.helpPoint hc)

end Steps

/-! ## What a listing prints -/

def commandLine (name : Nat → Option (List UInt8)) (cmd : Nat) : List UInt8 :=
  helpLine ((name cmd).getD [])

structure Listed (cmds : Commands W) (cmd : Nat) (start : List Nat) (quiet : Prop)
    (printed : List Nat) : Prop where
  length : printed.length = cmd + 1
  sound : ∀ x ∈ printed, x ∈ cmds.listed
  complete : ∀ x ∈ start, x ∈ printed ∨ x ∈ cmds.listed.drop (cmd + 1)
  exact : quiet → printed = cmds.listed.take (cmd + 1)

theorem mem_drop_insert {l m : List Nat} {x a k : Nat} (h : x ∈ (l ++ m).drop k) :
    x ∈ (l ++ a :: m).drop k := by
  rw [List.drop_append] at h ⊢
  rcases List.mem_append.mp h with h | h
  · exact List.mem_append_left _ h
  · apply List.mem_append_right
    cases hk : k - l.length with
    | zero =>
        rw [hk] at h
        exact List.mem_cons_of_mem a h
    | succ n =>
        rw [hk] at h
        exact List.mem_of_mem_drop (i := 1) (by simpa [List.drop_drop, Nat.add_comm] using h)

section Listed

variable {cmds cmds' : Commands W} {cmd : Nat} {start printed : List Nat} {quiet : Prop}

theorem Listed.register (h : Listed cmds cmd start quiet printed) (hloud : ¬ quiet)
    {before after : List Nat} {new : Nat} (hold : cmds.listed = before ++ after)
    (hnew : cmds'.listed = before ++ new :: after) :
    Listed cmds' cmd start quiet printed where
  length := h.length
  sound := by
    intro x hx
    have hmem := h.sound x hx
    rw [hold] at hmem
    rw [hnew]
    simp only [List.mem_append, List.mem_cons] at hmem ⊢
    tauto
  complete := by
    intro x hx
    rcases h.complete x hx with hmem | hmem
    · exact .inl hmem
    · rw [hold] at hmem
      rw [hnew]
      exact .inr (mem_drop_insert hmem)
  exact := fun hquiet => absurd hquiet hloud

theorem Listed.mono {quiet' : Prop} (h : Listed cmds cmd start quiet printed)
    (himp : quiet' → quiet) : Listed cmds cmd start quiet' printed :=
  ⟨h.length, h.sound, h.complete, fun hquiet => h.exact (himp hquiet)⟩

theorem Listed.first {x : Nat} (hx : cmds.listed[0]? = some x)
    (hstart : ∀ y ∈ start, y ∈ cmds.listed) : Listed cmds 0 start quiet [x] := by
  obtain ⟨rest, hlisted⟩ : ∃ rest, cmds.listed = x :: rest := by
    cases hl : cmds.listed with
    | nil => simp [hl] at hx
    | cons y rest =>
        obtain rfl : y = x := by simpa [hl] using hx
        exact ⟨rest, rfl⟩
  refine ⟨rfl, by simp [hlisted], fun y hy => ?_, fun _ => by simp [hlisted]⟩
  simpa [hlisted] using hstart y hy

theorem Listed.next (h : Listed cmds cmd start quiet printed) {x : Nat}
    (hx : cmds.listed[cmd + 1]? = some x) :
    Listed cmds (cmd + 1) start quiet (printed ++ [x]) := by
  have hdrop : cmds.listed.drop (cmd + 1) = x :: cmds.listed.drop (cmd + 1 + 1) := by
    obtain ⟨hlt, rfl⟩ := List.getElem?_eq_some_iff.mp hx
    exact List.drop_eq_getElem_cons hlt
  refine ⟨by simp [h.length], ?_, ?_, ?_⟩
  · intro y hy
    rcases List.mem_append.mp hy with hy | hy
    · exact h.sound y hy
    · rw [List.mem_singleton.mp hy]
      exact List.mem_of_getElem? hx
  · intro y hy
    have hmem := h.complete y hy
    rw [hdrop] at hmem
    simp only [List.mem_append, List.mem_cons] at hmem ⊢
    tauto
  · intro hquiet
    rw [h.exact hquiet, List.take_add_one (i := cmd + 1), hx]
    rfl

end Listed

/-- How far console `c` has come since it was started. -/
inductive Phase (s : HelpSystem W C) (c : C) (start : List Nat) (quiet : Prop) : Prop
  | fresh : (s.helpers c).pt = 0 → (s.helpers c).out = [] → Phase s c start quiet
  | header : (s.helpers c).pt = 58 ∨ (s.helpers c).pt = 61 →
      (s.helpers c).out = [helpHeader] → Phase s c start quiet
  | listing (printed : List Nat) : (s.helpers c).pt = 68 →
      (s.helpers c).out = helpHeader :: printed.map (commandLine s.cmds.name) →
      Listed s.cmds s.cmd start quiet printed → Phase s c start quiet

def Quiet (events : List (HelpEvent C)) : Prop := ∀ cmd, .register cmd ∉ events

/-- What is known of console `c` after `events` that do not start it again. -/
structure Tells (c : C) (start : List Nat) (events : List (HelpEvent C))
    (s : HelpSystem W C) : Prop where
  valid : s.Valid
  kept : ∀ x ∈ start, x ∈ s.cmds.listed
  same : Quiet events → s.cmds.listed = start
  phase : (s.helpers c).running = true → Phase s c start (Quiet events)

theorem call_cmds {v : Help W} {pt : BitVec 16} {r : PtState × Instance (Help W)}
    (h : HelpCall v pt r) : r.2.vars.cmds = v.cmds := by
  have hnext : ∀ (v : Help W) pt name, (v.next pt name).2.vars.cmds = v.cmds := by
    intro v pt name
    cases name <;> rfl
  cases h with
  | start => rfl
  | waiting => rfl
  | begin => exact hnext _ _ _
  | line => exact hnext _ _ _

theorem call_cmd {v : Help W} {pt : BitVec 16} {r : PtState × Instance (Help W)}
    (h : HelpCall v pt r) (hlocked : v.locked = true) (hpt : pt ≠ 68) :
    r.2.vars.cmd = v.cmd := by
  cases h with
  | start => rfl
  | waiting => rfl
  | begin _ hfree => simp [hlocked] at hfree
  | line => exact absurd rfl hpt

theorem nameAt_eq_some {cmds : Commands W} {i : Nat} {name : List UInt8}
    (h : cmds.nameAt i = some name) :
    ∃ x, cmds.listed[i]? = some x ∧ commandLine cmds.name x = helpLine name := by
  obtain ⟨x, hx, hname⟩ := Option.bind_eq_some_iff.mp h
  exact ⟨x, hx, by simp [commandLine, hname]⟩

theorem nameAt_eq_none {cmds : Commands W} {i : Nat}
    (htable : ∃ entries last, cmds.Table entries last) (h : cmds.nameAt i = none) :
    cmds.listed.length ≤ i := by
  obtain ⟨entries, last, htable⟩ := htable
  by_contra hlt
  rw [Commands.nameAt, List.getElem?_eq_getElem (Nat.lt_of_not_le hlt), Option.bind_some] at h
  have hmem := List.getElem_mem (Nat.lt_of_not_le hlt)
  exact htable.named _ (htable.listed ▸ hmem) h

theorem Quiet.left {events : List (HelpEvent C)} {event : HelpEvent C}
    (h : Quiet (events ++ [event])) : Quiet events :=
  fun cmd hmem => h cmd (List.mem_append_left _ hmem)

section Phase

variable {s : HelpSystem W C} {c : C} {start : List Nat} {quiet : Prop}

theorem Phase.of_start (h : Phase s c start quiet) (hpt : (s.helpers c).pt = 0) :
    (s.helpers c).out = [] := by
  cases h with
  | fresh _ hout => exact hout
  | header hpt' _ => simp [hpt] at hpt'
  | listing _ hpt' _ _ => simp [hpt] at hpt'

theorem Phase.of_header (h : Phase s c start quiet)
    (hpt : (s.helpers c).pt = 58 ∨ (s.helpers c).pt = 61) :
    (s.helpers c).out = [helpHeader] := by
  cases h with
  | fresh hpt' _ => simp [hpt'] at hpt
  | header _ hout => exact hout
  | listing _ hpt' _ _ => simp [hpt'] at hpt

theorem Phase.of_line (h : Phase s c start quiet) (hpt : (s.helpers c).pt = 68) :
    ∃ printed, (s.helpers c).out = helpHeader :: printed.map (commandLine s.cmds.name) ∧
      Listed s.cmds s.cmd start quiet printed := by
  cases h with
  | fresh hpt' _ => simp [hpt] at hpt'
  | header hpt' _ => simp [hpt] at hpt'
  | listing printed _ hout hlisted => exact ⟨printed, hout, hlisted⟩

theorem Phase.keep {t : HelpSystem W C} {quiet' : Prop} (h : Phase s c start quiet)
    (hhelper : t.helpers c = s.helpers c) (hname : t.cmds.name = s.cmds.name)
    (hlisted : (s.helpers c).pt = 68 → ∀ printed, Listed s.cmds s.cmd start quiet printed →
      Listed t.cmds t.cmd start quiet' printed) : Phase t c start quiet' := by
  cases h with
  | fresh hpt hout =>
      rw [← hhelper] at hpt hout
      exact .fresh hpt hout
  | header hpt hout =>
      rw [← hhelper] at hpt hout
      exact .header hpt hout
  | listing printed hpt hout h =>
      have hkeep := hlisted hpt printed h
      rw [← hhelper] at hpt hout
      rw [← hname] at hout
      exact .listing printed hpt hout hkeep

theorem Tells.register {events : List (HelpEvent C)} (h : Tells c start events s) {cmd : Nat} {cmds' : Commands W} {n : Int}
    (hname : s.cmds.name cmd ≠ none) (hreg : consoleRegister cmd s.cmds = .ok (n, cmds')) :
    Tells c start (events ++ [.register cmd]) { s with cmds := cmds' } := by
  have hloud : ¬ Quiet (events ++ [.register (C := C) cmd]) := fun hquiet => hquiet cmd (by simp)
  obtain ⟨-, hsame, hlisted⟩ := listed_register h.valid.table hname hreg
  refine ⟨h.valid.register hname hreg, ?_, fun hquiet => absurd hquiet hloud, fun hrun => ?_⟩
  · intro x hx
    have hmem := h.kept x hx
    rcases hlisted with rfl | ⟨before, after, hold, hnew⟩
    · exact hmem
    · rw [hold] at hmem
      rw [hnew]
      exact List.mem_of_mem_drop (mem_drop_insert (k := 0) hmem)
  · apply (h.phase hrun).keep (t := { s with cmds := cmds' }) rfl hsame
    intro _ printed h
    have hcut : Listed s.cmds s.cmd start False printed := h.mono False.elim
    rcases hlisted with rfl | ⟨before, after, hold, hnew⟩
    · exact h.mono fun hquiet => absurd hquiet hloud
    · exact (hcut.register id hold hnew).mono hloud

theorem Tells.ended {events : List (HelpEvent C)} {r : PtState × Instance (Help W)}
    (h : Tells c start events s) (hrun : (s.helpers c).running = true)
    (hcall : HelpCall (s.view c) (s.helpers c).pt r) (hexit : active r.1 = false) :
    ∃ printed : List Nat, r.2.vars.out =
        helpHeader :: printed.map (commandLine s.cmds.name) ∧
      printed.length = s.cmds.listed.length ∧ (∀ x ∈ start, x ∈ printed) ∧
      (∀ x ∈ printed, x ∈ s.cmds.listed) ∧ (Quiet events → printed = start) := by
  have hphase := h.phase hrun
  generalize hpt : (s.helpers c).pt = pt at hcall
  cases hcall with
  | start => cases hexit
  | waiting => cases hexit
  | begin hpt' _ =>
      rw [← hpt] at hpt'
      have hout := hphase.of_header hpt'
      change active (Help.next _ 61 (s.cmds.nameAt 0)).1 = false at hexit
      change ∃ printed : List Nat, (Help.next _ 61 (s.cmds.nameAt 0)).2.vars.out = _ ∧ _
      cases hname : s.cmds.nameAt 0 with
      | some name =>
          rw [hname] at hexit
          cases hexit
      | none =>
          have hlen := nameAt_eq_none h.valid.table hname
          have hnil : s.cmds.listed = [] := List.eq_nil_of_length_eq_zero (by omega)
          have hkept := h.kept
          rw [hnil] at hkept
          refine ⟨[], hout, by simp [hnil], hkept, by simp, fun hquiet => ?_⟩
          rw [← h.same hquiet, hnil]
  | line =>
      obtain ⟨printed, hout, hlisted⟩ := hphase.of_line hpt
      change active (Help.next _ 68 (s.cmds.nameAt (s.cmd + 1))).1 = false at hexit
      change ∃ printed : List Nat, (Help.next _ 68 (s.cmds.nameAt (s.cmd + 1))).2.vars.out = _ ∧ _
      cases hname : s.cmds.nameAt (s.cmd + 1) with
      | some name =>
          rw [hname] at hexit
          cases hexit
      | none =>
          have hlen := nameAt_eq_none h.valid.table hname
          have hcursor := h.valid.cursor (h.valid.locked.mpr ⟨c, hrun, hpt⟩)
          have hlength := hlisted.length
          refine ⟨printed, hout, by omega, ?_, hlisted.sound, fun hquiet => ?_⟩
          · intro x hx
            have hmem := hlisted.complete x hx
            rw [List.drop_eq_nil_of_le hlen] at hmem
            simpa using hmem
          · rw [hlisted.exact hquiet, List.take_of_length_le hlen, h.same hquiet]

end Phase

section Tells

variable [DecidableEq C] {s t : HelpSystem W C} {c d : C} {start : List Nat}
  {events : List (HelpEvent C)} {r : PtState × Instance (Help W)}

theorem after_self : (s.after c r).helpers c = ⟨r.2.pt, active r.1, r.2.vars.out⟩ := by
  simp [after]

theorem Tells.call_self (h : Tells c start events s) (hrun : (s.helpers c).running = true)
    (hcall : HelpCall (s.view c) (s.helpers c).pt r) (hactive : active r.1 = true) :
    Phase (s.after c r) c start (Quiet events) := by
  have hphase := h.phase hrun
  generalize hpt : (s.helpers c).pt = pt at hcall
  cases hcall with
  | start =>
      refine .header (by simp [after_self]) ?_
      simp [after_self, view, hphase.of_start hpt]
  | waiting hpt' _ =>
      refine .header (by simp [after_self]) ?_
      rw [← hpt] at hpt'
      simp [after_self, view, hphase.of_header hpt']
  | begin hpt' _ =>
      rw [← hpt] at hpt'
      have hout := hphase.of_header hpt'
      change Phase (s.after c (Help.next _ 61 (s.cmds.nameAt 0))) c start _
      change active (Help.next _ 61 (s.cmds.nameAt 0)).1 = true at hactive
      cases hname : s.cmds.nameAt 0 with
      | none =>
          rw [hname] at hactive
          cases hactive
      | some name =>
          obtain ⟨x, hx, hline⟩ := nameAt_eq_some hname
          refine .listing [x] (by simp [after_self, Help.next]) ?_ (.first hx h.kept)
          simp [after, Help.next, view, hout, hline]
  | line =>
      obtain ⟨printed, hout, hlisted⟩ := hphase.of_line hpt
      change Phase (s.after c (Help.next _ 68 (s.cmds.nameAt (s.cmd + 1)))) c start _
      change active (Help.next _ 68 (s.cmds.nameAt (s.cmd + 1))).1 = true at hactive
      cases hname : s.cmds.nameAt (s.cmd + 1) with
      | none =>
          rw [hname] at hactive
          cases hactive
      | some name =>
          obtain ⟨x, hx, hline⟩ := nameAt_eq_some hname
          refine .listing (printed ++ [x]) (by simp [after_self, Help.next]) ?_ (hlisted.next hx)
          simp [after, Help.next, view, hout, hline]

theorem Tells.call_other (h : Tells c start events s) (hne : d ≠ c)
    (hrun : (s.helpers c).running = true) (hrun' : (s.helpers d).running = true)
    (hcall : HelpCall (s.view d) (s.helpers d).pt r) :
    Phase (s.after d r) c start (Quiet events) := by
  have hcmds : (s.after d r).cmds = s.cmds := call_cmds hcall
  apply (h.phase hrun).keep
  · simp [after, hne.symm]
  · rw [hcmds]
  · intro hpt printed hlisted
    have hlocked := h.valid.locked.mpr ⟨c, hrun, hpt⟩
    have hother : (s.helpers d).pt ≠ 68 := fun hpt' =>
      hne (h.valid.unique d c ⟨hrun', hpt'⟩ ⟨hrun, hpt⟩)
    have hcmd : (s.after d r).cmd = s.cmd := call_cmd hcall hlocked hother
    rw [hcmds, hcmd]
    exact hlisted

theorem Tells.step (h : Tells c start events s) {event : HelpEvent C}
    (hevent : event ≠ .start c) (hstep : Step s event t) :
    Tells c start (events ++ [event]) t := by
  have hvalid := h.valid.step hstep
  cases hstep with
  | @start d hidle =>
      have hne : c ≠ d := by
        rintro rfl
        exact hevent rfl
      refine ⟨hvalid, h.kept, fun hquiet => h.same hquiet.left, fun hrun => ?_⟩
      simp only [Function.update_of_ne hne] at hrun
      apply (h.phase hrun).keep
      · exact Function.update_of_ne hne _ _
      · rfl
      · exact fun _ _ hlisted => hlisted.mono Quiet.left
  | @call d r hrun' hcall =>
      obtain ⟨entries, last, htable⟩ := h.valid.table
      have hcall := HelpCall.of_returns (s := s.view _) htable (h.valid.helpPoint hrun') hcall
      have hcmds : (s.after d r).cmds = s.cmds := call_cmds hcall
      have hphase : ((s.after d r).helpers c).running = true →
          Phase (s.after d r) c start (Quiet events) := by
        intro hrun
        by_cases hd : d = c
        · subst hd
          rw [after_self] at hrun
          exact h.call_self hrun' hcall hrun
        · have hsame : (s.after d r).helpers c = s.helpers c := by simp [after, Ne.symm hd]
          rw [hsame] at hrun
          exact h.call_other hd hrun hrun' hcall
      refine ⟨hvalid, ?_, ?_, fun hrun => ?_⟩
      · rw [hcmds]
        exact h.kept
      · rw [hcmds]
        exact fun hquiet => h.same hquiet.left
      · exact (hphase hrun).keep rfl rfl fun _ _ hlisted => hlisted.mono Quiet.left
  | register hname hreg => exact h.register hname hreg

/-- A listing that goes from the start of `console_help` on console `c` to its end
prints as many commands as the table has at its end, all of them registered, and
among them every command that was registered at the start.  If nothing is
registered meanwhile it prints the table. -/
theorem help_listing {s₀ s₁ s₂ s₃ s₄ : HelpSystem W C} {earlier events : List (HelpEvent C)}
    (hinit : s₀.Initial) (hearlier : Run Step s₀ earlier s₁) (hstart : Step s₁ (.start c) s₂)
    (hrun : Run Step s₂ events s₃) (honce : .start c ∉ events)
    {res : PtState} (hexit : active res = false) (hend : Step s₃ (.call c res) s₄) :
    ∃ printed : List Nat, (s₄.helpers c).out =
        helpHeader :: printed.map (commandLine s₄.cmds.name) ∧
      printed.length = s₄.cmds.listed.length ∧
      (∀ x ∈ s₁.cmds.listed, x ∈ printed) ∧ (∀ x ∈ printed, x ∈ s₄.cmds.listed) ∧
      ((∀ cmd, .register cmd ∉ events) → printed = s₁.cmds.listed) := by
  have hvalid := (run_valid hinit hearlier).step hstart
  have htells : .start c ∉ events → Tells c s₁.cmds.listed events s₃ := by
    refine hrun.traceInvariant (I := fun ls s => .start c ∉ ls → Tells c s₁.cmds.listed ls s)
      (fun _ => ?_) fun ls u event v hI hstep hnot => ?_
    · cases hstart with
      | start hidle =>
          refine ⟨hvalid, fun _ hx => hx, fun _ => rfl, fun _ => ?_⟩
          exact .fresh (by simp) (by simp)
    · simp only [List.mem_append, List.mem_singleton, not_or] at hnot
      exact (hI hnot.1).step (fun heq => hnot.2 heq.symm) hstep
  generalize hcalled : HelpEvent.call c res = event at hend
  cases hend with
  | start _ => cases hcalled
  | register _ _ => cases hcalled
  | @call _ r hrunning hreturns =>
      injection hcalled with hc hres
      subst hc hres
      have htells := htells honce
      obtain ⟨entries, last, htable⟩ := htells.valid.table
      have hcall := HelpCall.of_returns (s := s₃.view _) htable
        (htells.valid.helpPoint hrunning) hreturns
      have hcmds : (s₃.after c r).cmds = s₃.cmds := call_cmds hcall
      rw [after_self, hcmds]
      exact htells.ended hrunning hcall hexit

end Tells

/-- The state after an event, if it can happen and the call ends with that much fuel. -/
def perform [DecidableEq C] (fuel : Nat) (s : HelpSystem W C) :
    HelpEvent C → Option (HelpSystem W C)
  | .start c =>
      if (s.helpers c).running = false then
        some { s with helpers := Function.update s.helpers c ⟨0, true, []⟩ }
      else none
  | .call c res =>
      if (s.helpers c).running = true then
        match consoleHelp.run fuel ⟨(s.helpers c).pt, s.view c⟩ with
        | .error _ => none
        | .ok r => if r.1 = res then some (s.after c r) else none
      else none
  | .register cmd =>
      if s.cmds.name cmd ≠ none then
        match consoleRegister cmd s.cmds with
        | .error _ => none
        | .ok (_, cmds) => some { s with cmds }
      else none

theorem perform_step [DecidableEq C] {fuel : Nat} {s t : HelpSystem W C} {event : HelpEvent C}
    (h : perform fuel s event = some t) : Step s event t := by
  cases event with
  | start c =>
      simp only [perform] at h
      split at h
      · next hidle =>
          cases h
          exact .start hidle
      · cases h
  | call c res =>
      simp only [perform] at h
      split at h
      · next hrun =>
          split at h
          · cases h
          · next r hcall =>
              split at h
              · next heq =>
                  cases h
                  exact heq ▸ .call hrun (Code.returns_iff.mpr ⟨fuel, hcall⟩)
              · cases h
      · cases h
  | register cmd =>
      simp only [perform] at h
      split at h
      · next hname =>
          split at h
          · cases h
          · next r cmds hreg =>
              cases h
              exact .register hname hreg
      · cases h

theorem perform_run [DecidableEq C] {fuel : Nat} {events : List (HelpEvent C)}
    {s t : HelpSystem W C} (h : List.foldlM (perform fuel) s events = some t) :
    Run Step s events t := by
  induction events generalizing s with
  | nil =>
      cases h
      exact .nil
  | cons event events ih =>
      obtain ⟨u, hperform, hrest⟩ := Option.bind_eq_some_iff.mp h
      exact .cons (perform_step hperform) (ih hrest)

/-- The table as it is compiled, and the descriptor of a command that is not in it yet. -/
def fadeCommands : Commands Unit where
  __ := exitCommands
  name
    | 3 => some "fade".toUTF8.toList
    | cmd => exitCommands.name cmd

def helpIdle : HelpSystem Unit Bool := ⟨fadeCommands, false, 0, fun _ => ⟨0, false, []⟩⟩

theorem helpIdle_initial : helpIdle.Initial := ⟨⟨rfl, rfl, rfl, rfl⟩, rfl, fun _ => rfl⟩

def helpEvents : List (HelpEvent Bool) :=
  [.call true .yielded, .start false, .call false .yielded, .call true .yielded,
    .call false .waiting, .register 3, .call true .yielded, .call false .waiting]

theorem help_exclusive_waiting : ∃ t, Run Step helpIdle (.start true :: helpEvents) t ∧
    t.Lists true ∧ ¬ t.Lists false ∧ t.locked = true ∧
    ∃ r, consoleHelp.Returns ⟨61, t.view false⟩ r := by
  have hvalues : (List.foldlM (perform 2) helpIdle (.start true :: helpEvents)).any (fun t => decide
      (((t.helpers true).running = true ∧ (t.helpers true).pt = 68) ∧
        (t.helpers false).running = true ∧ (t.helpers false).pt = 61)) = true := by
    decide +kernel
  obtain ⟨t, hperform, hpost⟩ := (Option.any_eq_true _ _).mp hvalues
  obtain ⟨hlists, hrunning, hpt⟩ := of_decide_eq_true hpost
  have hrun := perform_run hperform
  obtain ⟨hunique, hlocked, hreturns⟩ := help_exclusive helpIdle_initial hrun
  refine ⟨t, hrun, hlists, ?_, hlocked.mpr ⟨true, hlists⟩, hpt ▸ hreturns false hrunning⟩
  exact fun hother => Bool.noConfusion (hunique true false hlists hother)

theorem help_listing_registered : ∃ s t, Run Step helpIdle [.start true] s ∧
    Run Step s (helpEvents ++ [.call true .yielded] ++ [.call true .exited]) t ∧
    ∃ printed : List Nat, (t.helpers true).out =
        helpHeader :: printed.map (commandLine t.cmds.name) ∧
      printed.length = 3 ∧ 0 ∈ printed ∧ 1 ∈ printed := by
  have hvalues : (List.foldlM (perform 2) helpIdle [.start true]).any (fun s =>
      (List.foldlM (perform 2) s (helpEvents ++ [.call true .yielded])).any fun u =>
        (List.foldlM (perform 2) u [.call true .exited]).any fun t =>
          decide (t.cmds.listed = [0, 3, 1])) = true := by
    decide +kernel
  obtain ⟨s, hstart, hpost⟩ := (Option.any_eq_true _ _).mp hvalues
  obtain ⟨u, hevents, hpost⟩ := (Option.any_eq_true _ _).mp hpost
  obtain ⟨t, hend, hafter⟩ := (Option.any_eq_true _ _).mp hpost
  have hstart := perform_run hstart
  have hevents := perform_run hevents
  have hend := perform_run hend
  have hlisted : helpIdle.cmds.listed = [0, 1] := by decide +kernel
  obtain ⟨printed, hout, hlength, hmem, -⟩ := help_listing helpIdle_initial .nil
    hstart.of_single hevents (by simp [helpEvents]) rfl hend.of_single
  rw [of_decide_eq_true hafter] at hlength
  rw [hlisted] at hmem
  exact ⟨s, t, hstart, hevents.append hend, printed, hout, hlength, hmem 0 (by simp),
    hmem 1 (by simp)⟩

end HelpSystem

end Librfn
