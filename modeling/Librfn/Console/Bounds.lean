import Librfn.Console.Arguments
import Librfn.Console.CommandTable
import Librfn.Console.LineEditing

/-!
# Buffer safety

Whatever bytes come, the line stays in front of the last byte of the buffer,
which is `NUL` while a line is typed.  The commands may leave anything in the
buffer: it is wiped before the next line.
-/

namespace Librfn

open Librfn.Logic

variable {W : Type}

/-- The commands touch only the scratch buffer and their protothread, write to
the stream, and know their own state. -/
def Commands.Confined (cmds : Commands W) : Prop :=
  ∀ cmd c, ∃ scratch pt out world,
    (cmds.fn cmd c).2 = { c with scratch, pt, out, world }

structure InBounds (rest : List UInt8) (c : Console W) : Prop where
  ring : c.ring.Contains rest
  bufp : c.bufp ≤ 79
  last : c.priv ≠ .command → c.scratch 79 = 0

/-- The arguments are strings within the buffer. -/
structure ArgsInBounds (c : Console W) : Prop where
  pos : 1 ≤ c.argc
  le : c.argc ≤ 4
  strings : ∀ k < 4, ∃ str, HoldsString c (c.argv k) str

/-- What `console_run` itself stores while it waits for the end of a line:
nothing, the zeros of a prompt, or one byte in front of the last. -/
def StoresTyped (c c' : Console W) : Prop :=
  c'.scratch = c.scratch ∨ (∀ i, c'.scratch i = 0) ∨
    c.bufp ≤ 78 ∧ ∃ b, c'.scratch = Function.update c.scratch c.bufp b

section Turn

variable {cmds : Commands W} {c : Console W} {rest : List UInt8} {ch : UInt8}

def BoundedTurn (c : Console W) (rest : List UInt8) (t : ConsoleTurn)
    (c' : Console W) : Prop :=
  ∃ rest', InBounds rest' c' ∧ (t.line ≠ none → c.priv = .getch ∧ ArgsInBounds c') ∧
    (t.result = none → turnsLeft c' rest' < turnsLeft c rest)

theorem InBounds.init (world : W) : InBounds [] (consoleInit world) where
  ring := Ringbuf.contains_init _ (by omega) (by omega)
  bufp := Nat.zero_le 79
  last := fun _ => rfl

theorem InBounds.silent (world : W) :
    InBounds [] (consoleSilent (consoleInit world)) where
  ring := Ringbuf.contains_init _ (by omega) (by omega)
  bufp := Nat.zero_le 79
  last := fun _ => rfl

theorem startTurn_bounds (h : InBounds rest c) (hpriv : c.priv = .start) :
    Prog.wp startTurn (BoundedTurn c rest) c := by
  have hlast := h.last (by simp [hpriv])
  have hless : ∀ c' : Console W, c'.priv = .getch →
      turnsLeft c' rest < turnsLeft c rest := by
    intro c' hpriv'
    simp [turnsLeft, hpriv, hpriv']
  simp only [startTurn, Prog.wp_bind, Prog.wp_get, Prog.wp_ite, doPrompt, print,
    Prog.wp_modify, Prog.wp_pure]
  split
  · exact ⟨rest, ⟨h.ring, Nat.zero_le 79, fun _ => rfl⟩, by simp, fun _ => hless _ rfl⟩
  · exact ⟨rest, ⟨h.ring, Nat.zero_le 79, fun _ => hlast⟩, by simp, fun _ => hless _ rfl⟩

theorem commandTurn_bounds (hconf : cmds.Confined) (h : InBounds rest c)
    (hpriv : c.priv = .command) :
    Prog.wp (commandTurn cmds) (BoundedTurn c rest) c := by
  obtain ⟨scratch, pt, out, world, hfn⟩ := hconf c.cmd c
  simp only [commandTurn, Prog.wp_bind, Prog.wp_modifyGet, hfn]
  have hreturned : ∀ res, BoundedTurn c rest { result := some res }
      { c with scratch, pt, out, world } := by
    intro res
    exact ⟨rest, ⟨h.ring, h.bufp, fun hne => absurd hpriv hne⟩, by simp, by simp⟩
  have hprompted : ∀ out : List String, BoundedTurn c rest {}
      { c with scratch := fun _ => 0, bufp := 0, priv := .getch, pt, out, world } := by
    intro out
    refine ⟨rest, ⟨h.ring, Nat.zero_le 79, fun _ => rfl⟩, by simp, fun _ => ?_⟩
    simp [turnsLeft, hpriv]
  cases (cmds.fn c.cmd c).1 with
  | yielded => exact hreturned _
  | waiting => exact hreturned _
  | exited => exact hprompted _
  | failed => exact hprompted _

theorem tokenize_bounds (hcmds : cmds.Registered) (hring : c.ring.Contains rest)
    (hbufp : c.bufp ≤ 79) (hlast : c.scratch 79 = 0) :
    Prog.wp doTokenize (fun _ => Prog.wp (findCommand cmds) (fun _ c' =>
      InBounds rest { c' with pt := 0, priv := .command } ∧
        ArgsInBounds { c' with pt := 0, priv := .command })) c := by
  obtain ⟨entries, last, htable⟩ := hcmds.table
  have hlast' : c.scratch (0 + 79) = 0 := hlast
  obtain ⟨line, hline⟩ := exists_holdsString (by decide) hlast'
  refine Prog.wp_mono (Prog.wp_and (doTokenize_spec hline) (doTokenize_arguments hline)) ?_
  rintro _ c₁ ⟨⟨-, htok, hargs⟩, -, -, hstrings⟩
  refine Prog.wp_mono (findCommand_table htable (.of_sorted htable.sorted)
    (hstrings 0 (by decide))) ?_
  rintro _ _ rfl
  refine ⟨⟨?_, ?_, fun hne => absurd rfl hne⟩, ⟨hargs.1, hargs.2.1, ?_⟩⟩
  · exact htok.ring ▸ hring
  · exact htok.bufp ▸ hbufp
  · exact fun k hk => ⟨_, hstrings k hk⟩

theorem getchTurn_bounds (hcmds : cmds.Registered) (h : InBounds rest c)
    (hpriv : c.priv = .getch) :
    Prog.wp (getchTurn cmds) (BoundedTurn c rest) c := by
  have hlast := h.last (by simp [hpriv])
  cases rest with
  | nil =>
      have hget := Ringbuf.ringbufGet_nil h.ring
      simp only [getchTurn, consoleGetch, onRing, Prog.wp_bind, Prog.wp_zoom,
        Prog.wp_iff_of_eq hget, if_true, Prog.wp_pure]
      exact ⟨[], h, by simp, by simp⟩
  | cons ch rest =>
      obtain ⟨rb, hget, hrest, -⟩ := Ringbuf.ringbufGet_cons h.ring
      have hsome : (ch.toNat : Int) ≠ -1 := by omega
      have hbufp := h.bufp
      -- the turn goes on with a line
      have hgoes : ∀ (scratch : Nat → UInt8) (bufp : Nat) (out : List String),
          bufp ≤ 79 → scratch 79 = 0 → BoundedTurn c (ch :: rest) {}
            { c with ring := rb, scratch, bufp, out } := by
        intro scratch bufp out hbufp hzero
        refine ⟨rest, ⟨hrest, hbufp, fun _ => hzero⟩, by simp, fun _ => ?_⟩
        simp [turnsLeft, hpriv]
      simp only [getchTurn, consoleGetch, onRing, Prog.wp_bind, Prog.wp_zoom,
        Prog.wp_iff_of_eq hget, if_neg hsome, Prog.wp_get, Prog.wp_ite]
      split
      · simp only [Prog.wp_modify, Prog.wp_pure]
        refine Prog.wp_mono (tokenize_bounds hcmds (c := { c with ring := rb }) hrest
          hbufp hlast) fun line c₁ hfind => Prog.wp_mono hfind ?_
        rintro _ c₂ ⟨hin, hargs⟩
        refine ⟨rest, hin, fun _ => ⟨hpriv, hargs⟩, fun _ => ?_⟩
        simp only [turnsLeft, hpriv, List.length_cons, reduceCtorEq, if_true, if_false]
        omega
      next hmore =>
      have hroom : c.bufp < 79 := by omega
      simp only [print, doPrompt, Prog.wp_bind, Prog.wp_modify, Prog.wp_get, Prog.wp_pure]
      split
      · split
        · exact hgoes _ _ _ (by omega) hlast
        · exact hgoes _ _ _ hbufp hlast
      split
      · exact hgoes _ _ _ (Nat.zero_le 79) rfl
      · rw [wp_storeBuf _ (by simp only [scratchSize]; omega)]
        refine hgoes _ _ _ hroom ?_
        exact (Function.update_of_ne (Nat.ne_of_gt hroom) _ _).trans hlast

theorem consoleTurn_bounds (hcmds : cmds.Registered) (hconf : cmds.Confined)
    (h : InBounds rest c) :
    Prog.wp (consoleTurn cmds) (BoundedTurn c rest) c := by
  simp only [consoleTurn, Prog.wp_bind, Prog.wp_get]
  cases hpriv : c.priv with
  | start => exact startTurn_bounds h hpriv
  | getch => exact getchTurn_bounds hcmds h hpriv
  | command => exact commandTurn_bounds hconf h hpriv

theorem getchTurn_stores {t : ConsoleTurn} {c' : Console W}
    (h : getchTurn cmds c = .ok (t, c')) (hline : t.line = none) :
    StoresTyped c c' := by
  obtain ⟨ch, c₁, hget, h⟩ := Prog.bind_eq_ok h
  unfold consoleGetch onRing at hget
  obtain ⟨rb, -, rfl⟩ := Prog.zoom_eq_ok hget
  split at h
  · cases h
    exact .inl rfl
  obtain ⟨_, _, hsame, h⟩ := Prog.bind_eq_ok h
  cases hsame
  split at h
  · obtain ⟨line, _, -, h⟩ := Prog.bind_eq_ok h
    obtain ⟨_, _, -, h⟩ := Prog.bind_eq_ok h
    cases h
    cases hline
  next hmore =>
  have hroom : c.bufp ≤ 78 := by
    have : ¬ c.bufp ≥ 79 := fun hge => hmore (.inr hge)
    omega
  split at h
  · obtain ⟨_, _, hsame, h⟩ := Prog.bind_eq_ok h
    cases hsame
    split at h <;> (cases h; exact .inl rfl)
  split at h
  · cases h
    exact .inr (.inl fun _ => rfl)
  · obtain ⟨_, _, hsame, h⟩ := Prog.bind_eq_ok h
    cases hsame
    obtain ⟨_, c₂, hstore, h⟩ := Prog.bind_eq_ok h
    cases h
    have hbuf : c.bufp < scratchSize := by
      unfold scratchSize
      omega
    exact .inr (.inr ⟨hroom, _, (Prog.wp_iff_of_eq hstore).mp
      ((wp_storeBuf _ hbuf _ fun _ c₂ => c₂.scratch = _).mpr rfl)⟩)

theorem consoleRun_bounds (hcmds : cmds.Registered) (hconf : cmds.Confined)
    (h : InBounds rest c) {fuel : Nat} (hfuel : turnsLeft c rest < fuel) :
    Prog.wp (consoleRun cmds fuel) (fun _ c' => ∃ rest', InBounds rest' c') c := by
  induction fuel generalizing rest c with
  | zero => exact absurd hfuel (Nat.not_lt_zero _)
  | succ fuel ih =>
      rw [consoleRun, Prog.wp_bind]
      refine Prog.wp_mono (consoleTurn_bounds hcmds hconf h) ?_
      rintro t c' ⟨rest', hin, -, hless⟩
      cases hresult : t.result with
      | some res => exact ⟨rest', hin⟩
      | none =>
          have hdone := hless hresult
          exact (Prog.wp_bind _ _ _ _).mpr (Prog.wp_mono (ih hin (by omega))
            fun _ _ hlater => hlater)

end Turn

section Runs

variable {cmds : Commands W} {ls : List ConsoleLabel} {l : ConsoleLabel}
  {c c' : Console W}

theorem InBounds.step (hcmds : cmds.Registered) (hconf : cmds.Confined)
    {rest : List UInt8} (h : InBounds rest c) (hstep : ConsoleStep cmds c l c') :
    ∃ rest', InBounds rest' c' := by
  cases hstep with
  | @put _ d hput =>
      have hwp : Prog.wp (consolePutchar d) (fun _ c' => ∃ rest', InBounds rest' c') c := by
        rw [consolePutchar, onRing, Prog.wp_zoom]
        have hlength := h.ring.length_lt
        rcases Nat.lt_or_ge (rest.length + 1) c.ring.bufLen with hroom | hfull
        · obtain ⟨rb, hrb, hcontains, -⟩ := Ringbuf.ringbufPut_room h.ring hroom d
          rw [Prog.wp_iff_of_eq hrb]
          exact ⟨_, hcontains, h.bufp, h.last⟩
        · rw [Prog.wp_iff_of_eq (Ringbuf.ringbufPut_full h.ring (by omega) d)]
          exact ⟨_, h.ring, h.bufp, h.last⟩
      exact (Prog.wp_iff_of_eq hput).mp hwp
  | turn hturn =>
      obtain ⟨rest', hin, -⟩ :=
        (Prog.wp_iff_of_eq hturn).mp (consoleTurn_bounds hcmds hconf h)
      exact ⟨rest', hin⟩
  | other => exact ⟨rest, h.ring, h.bufp, h.last⟩

theorem inBounds_of_run (hcmds : cmds.Registered) (hconf : cmds.Confined) {world : W}
    {c₀ : Console W}
    (hstart : c₀ = consoleInit world ∨ c₀ = consoleSilent (consoleInit world))
    (hrun : Run (ConsoleStep cmds) c₀ ls c) : ∃ rest, InBounds rest c := by
  refine hrun.invariant (I := fun c => ∃ rest, InBounds rest c) ?_ ?_
  · rcases hstart with rfl | rfl
    · exact ⟨[], .init world⟩
    · exact ⟨[], .silent world⟩
  · rintro u l v ⟨rest, hin⟩ hstep
    exact hin.step hcmds hconf hstep

end Runs

/-- In every run `console_run` comes to its end without an access outside of
the buffers, and what it stores itself is in front of the last byte of the
buffer. -/
theorem console_in_bounds {cmds : Commands W} (hcmds : cmds.Registered)
    (hconf : cmds.Confined) {world : W} {c₀ c : Console W}
    (hstart : c₀ = consoleInit world ∨ c₀ = consoleSilent (consoleInit world))
    {ls : List ConsoleLabel} (hrun : Run (ConsoleStep cmds) c₀ ls c) :
    c.bufp ≤ 79 ∧ (c.priv = .getch → c.scratch 79 = 0) ∧
    (∃ t c', consoleTurn cmds c = .ok (t, c') ∧
      (t.line ≠ none → c.priv = .getch ∧ 1 ≤ c'.argc ∧ c'.argc ≤ 4 ∧
        ∀ k < 4, ∃ str, HoldsString c' (c'.argv k) str)) ∧
    (∃ fuel, Prog.wp (consoleRun cmds fuel) (fun _ _ => True) c) ∧
    ∀ (c : Console W) t c', getchTurn cmds c = .ok (t, c') → t.line = none →
      StoresTyped c c' := by
  obtain ⟨rest, hin⟩ := inBounds_of_run hcmds hconf hstart hrun
  refine ⟨hin.bufp, fun hpriv => hin.last (by simp [hpriv]), ?_,
    ⟨_, Prog.wp_mono (consoleRun_bounds hcmds hconf hin (Nat.lt_succ_self _))
      fun _ _ _ => trivial⟩, fun _ _ _ => getchTurn_stores⟩
  obtain ⟨t, c', hturn, rest', hin', hargs, -⟩ :=
    Prog.wp_iff_exists.mp (consoleTurn_bounds hcmds hconf hin)
  refine ⟨t, c', hturn, fun hline => ?_⟩
  obtain ⟨hpriv, hin⟩ := hargs hline
  exact ⟨hpriv, hin.pos, hin.le, hin.strings⟩

/-- Eighty bytes and a `NUL` among them. -/
theorem console_in_bounds_long : ∃ ls c,
    Run (ConsoleStep exitCommands) (consoleInit ()) ls c ∧
    fed ls = 0 :: List.replicate 79 97 ∧ c.bufp ≤ 79 ∧
    ∃ t c', consoleTurn exitCommands c = .ok (t, c') ∧
      (t.line ≠ none → c.priv = .getch ∧ 1 ≤ c'.argc ∧ c'.argc ≤ 4 ∧
        ∀ k < 4, ∃ str, HoldsString c' (c'.argv k) str) := by
  have hconf : exitCommands.Confined := fun _ c => ⟨c.scratch, c.pt, c.out, c.world, rfl⟩
  have hfed : (drive exitCommands ([none, some 0, none] ++
      (List.replicate 79 [some 97, none]).flatten) (consoleInit ())).map
        (fun r => fed r.1) = some (0 :: List.replicate 79 97) := by
    decide +kernel
  obtain ⟨⟨ls, c⟩, hdrive, hbytes⟩ := Option.map_eq_some_iff.mp hfed
  have hrun := drive_run hdrive
  obtain ⟨hbufp, -, hturn, -⟩ := console_in_bounds exitCommands_registered hconf
    (.inl rfl) hrun
  exact ⟨ls, c, hrun, hbytes, hbufp, hturn⟩

end Librfn
