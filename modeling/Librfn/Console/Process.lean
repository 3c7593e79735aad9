import Librfn.Console.Schedules

/-!
# `console_process`

A program without fibres hands each character to `console_process`, which runs
the console until it waits for the next.  If the commands do not wait this does
what the fibre would have done.
-/

namespace Librfn

open Librfn.Logic

variable {W : Type}

def Commands.NeverWaits (cmds : Commands W) : Prop := ∀ cmd c, (cmds.fn cmd c).1 ≠ .waiting

/-- Calls of `console_run` until one has not yielded. -/
inductive Drained (cmds : Commands W) : Console W → List (List UInt8) → Console W → Prop
  | last {c c' lines res} : Prog.Returns (consoleRun cmds) c ((lines, res), c') →
      res ≠ .yielded → Drained cmds c lines c'
  | again {c c₁ c' lines more} : Prog.Returns (consoleRun cmds) c ((lines, .yielded), c₁) →
      Drained cmds c₁ more c' → Drained cmds c (lines ++ more) c'

section

variable {cmds : Commands W} {c c₁ c' d : Console W} {t : ConsoleTurn} {res : PtState}
  {lines more : List (List UInt8)} {rest bytes : List UInt8}

theorem consoleRun_last (h : consoleTurn cmds c = .ok (t, c')) (hres : t.result = some res) :
    Prog.Returns (consoleRun cmds) c ((t.line.toList, res), c') := by
  refine .of_succ (.bind (m := fun _ => consoleTurn cmds) ⟨0, fun _ _ => h⟩ ?_)
  rw [hres]
  exact .pure _ _

theorem consoleRun_on (h : consoleTurn cmds c = .ok (t, c₁)) (hres : t.result = none)
    (hrun : Prog.Returns (consoleRun cmds) c₁ ((lines, res), c')) :
    Prog.Returns (consoleRun cmds) c ((t.line.toList ++ lines, res), c') := by
  refine .of_succ (.bind (m := fun _ => consoleTurn cmds) ⟨0, fun _ _ => h⟩ ?_)
  rw [hres]
  exact .bind hrun (.pure _ _)

theorem Drained.turn (h : consoleTurn cmds c = .ok (t, c₁))
    (hres : t.result = none ∨ t.result = some .yielded) (hrest : Drained cmds c₁ lines c') :
    Drained cmds c (t.line.toList ++ lines) c' := by
  rcases hres with hres | hres
  · cases hrest with
    | last hrun hlast => exact .last (consoleRun_on h hres hrun) hlast
    | again hrun hrest =>
        rw [← List.append_assoc]
        exact .again (consoleRun_on h hres hrun) hrest
  · exact .again (consoleRun_last h hres) hrest

theorem Drained.returns (h : Drained cmds c lines c') :
    Prog.Returns (processLoop cmds) c (lines, c') := by
  induction h with
  | last hrun hlast =>
      refine .of_succ (.bind hrun ?_)
      simp only [hlast, if_false]
      exact .pure _ _
  | again hrun _ ih =>
      refine .of_succ (.bind hrun ?_)
      exact .bind ih (.pure _ _)

/-! ## The turns of one call -/

theorem silent_result (hcmds : cmds.NeverWaits) (hpriv : c.priv ≠ .getch)
    (h : consoleTurn cmds c = .ok (t, c')) : t.result = none ∨ t.result = some .yielded := by
  rw [consoleTurn_eq] at h
  cases hpoint : c.priv with
  | start =>
      rw [hpoint] at h
      have hgoes : GoesOn (startTurn : Prog (Console W) ConsoleTurn) :=
        .bind fun _ => .ite (.bind fun _ => .bind fun _ => .pure rfl)
          (.bind fun _ => .bind fun _ => .pure rfl)
      exact .inl (hgoes _ _ _ h)
  | getch => exact absurd hpoint hpriv
  | command =>
      rw [hpoint] at h
      obtain ⟨res, c₁, hfn, hafter⟩ := Prog.bind_eq_ok h
      have hgoes : GoesOn (do
          doPrompt
          modify fun c => { c with priv := .getch }
          return {} : Prog (Console W) ConsoleTurn) := .bind fun _ => .bind fun _ => .pure rfl
      cases hres : res with
      | yielded =>
          rw [hres] at hafter
          cases hafter
          exact .inr rfl
      | waiting =>
          have hreturned : (cmds.fn c.cmd c).1 = res := congrArg Prod.fst (Except.ok.inj hfn)
          exact absurd (hreturned.trans hres) (hcmds _ _)
      | exited | failed =>
          rw [hres] at hafter
          exact .inl (GoesOn.ite (.bind fun _ => hgoes) hgoes _ _ _ hafter)

theorem silent_turn (hblind : cmds.RingBlind) (h : Act cmds c.bare (none, lines) d) :
    ∃ t c', consoleTurn cmds c = .ok (t, c') ∧ t.line.toList = lines ∧ c'.bare = d ∧
      c'.ring = c.ring := by
  cases h with
  | @silent _ t hpriv hturn =>
      obtain ⟨m, hm, hpoint⟩ := silent_point (c := c) hblind hpriv
      rw [hpoint c.bare rfl] at hturn
      obtain ⟨hkept, hfull⟩ := Coupled.beside (hm c.bare.ring c.ring) hturn
      refine ⟨t, { d with ring := c.ring }, (hpoint c rfl).trans hfull, rfl, ?_, rfl⟩
      change { d with ring := c.bare.ring } = d
      rw [← hkept]

theorem char_turn {b : UInt8} (h : Act cmds c.bare (some b, lines) d)
    (hring : c.ring.Contains (b :: bytes)) :
    ∃ t c', consoleTurn cmds c = .ok (t, c') ∧ t.line.toList = lines ∧ c'.bare = d ∧
      c'.ring.Contains bytes ∧ c'.ring.bufLen = c.ring.bufLen ∧ t.result = none := by
  cases h with
  | @char _ t _ hpriv hturn =>
      obtain ⟨ring, hget, hbytes, hlen⟩ := consoleGetch_cons hring
      have hrespects : Prog.Respects (Beside c.bare.ring ring) (charTurn cmds b.toNat) :=
        charTurn_respects _
      obtain ⟨hkept, hfull⟩ := Coupled.beside hrespects hturn
      have hcall : consoleTurn cmds c = .ok (t, { d with ring }) :=
        (consoleTurn_getch (c := c) hpriv hget).trans hfull
      refine ⟨t, { d with ring }, hcall, rfl, ?_, hbytes, hlen, ?_⟩
      · change { d with ring := c.bare.ring } = d
        rw [← hkept]
      · exact charTurn_goesOn (by omega) _ _ _ hturn

theorem drained_idle (h : Idle c) : Drained cmds c [] c := by
  have hturn : consoleTurn cmds c = .ok ({ result := some .waiting }, c) :=
    consoleTurn_getch h.priv (consoleGetch_nil h.ring)
  exact .last (consoleRun_last hturn rfl) nofun

/-- The console does the first part of `als` and waits for the characters
`bytes` of the rest. -/
def Stops (cmds : Commands W) (c : Console W) (als : List (Option UInt8 × List (List UInt8)))
    (d : Console W) (bytes : List UInt8) : Prop :=
  ∃ als' lines c', outputs als = lines ++ outputs als' ∧ Drained cmds c lines c' ∧
    Run (Act cmds) c'.bare als' d ∧ inputs als' = bytes ∧ Idle c' ∧
    c'.ring.bufLen = c.ring.bufLen

section Follow

variable {als : List (Option UInt8 × List (List UInt8))}

theorem stops_idle (h : Idle c) (hrun : Run (Act cmds) c.bare als d) (hin : inputs als = bytes) :
    Stops cmds c als d bytes :=
  ⟨als, [], c, rfl, drained_idle h, hrun, hin, h, rfl⟩

theorem Stops.turn (h : consoleTurn cmds c = .ok (t, c₁))
    (hres : t.result = none ∨ t.result = some .yielded) (hlen : c₁.ring.bufLen = c.ring.bufLen)
    (hrest : Stops cmds c₁ als d bytes) {i : Option UInt8} :
    Stops cmds c ((i, t.line.toList) :: als) d bytes := by
  obtain ⟨als', lines, c', hout, hdrained, hrun, hin, hidle, hlen'⟩ := hrest
  refine ⟨als', t.line.toList ++ lines, c', ?_, hdrained.turn h hres, hrun, hin, hidle,
    hlen'.trans hlen⟩
  rw [List.append_assoc, ← hout]
  rfl

theorem stops_of_run (hblind : cmds.RingBlind) (hcmds : cmds.NeverWaits)
    (hrun : Run (Act cmds) c.bare als d) (hd : d.priv = .getch) (hring : c.ring.Contains rest)
    (hin : inputs als = rest ++ bytes) : Stops cmds c als d bytes := by
  induction als generalizing c rest with
  | nil =>
      have hc := hrun.of_nil
      subst hc
      obtain ⟨rfl, -⟩ := List.append_eq_nil_iff.mp hin.symm
      exact stops_idle ⟨hd, hring⟩ hrun hin
  | cons a als ih =>
      obtain ⟨e, hfirst, hrest⟩ := hrun.of_cons
      obtain ⟨_ | b, lines⟩ := a
      · have hpriv : c.priv ≠ .getch := fun hpriv =>
          waiting_of_getch (c := c.bare) hpriv _ _ hfirst
        obtain ⟨t, c', hturn, rfl, rfl, hkept⟩ := silent_turn hblind hfirst
        refine .turn hturn (silent_result hcmds hpriv hturn) (by rw [hkept]) ?_
        exact ih hrest (hkept ▸ hring) hin
      · cases rest with
        | nil =>
            have hpriv : c.priv = .getch := by
              cases hfirst
              assumption
            exact stops_idle ⟨hpriv, hring⟩ hrun hin
        | cons b' rest =>
            obtain ⟨rfl, htail⟩ := List.cons.inj hin
            obtain ⟨t, c', hturn, rfl, rfl, hbytes, hlen, hres⟩ := char_turn hfirst hring
            exact .turn hturn (.inl hres) hlen (ih hrest hbytes htail)

end Follow

end

/-! ## A text -/

def processAll (cmds : Commands W) (fuel : Nat) :
    List UInt8 → Prog (Console W) (List (List UInt8))
  | [] => return []
  | d :: bytes => do
      let lines ← consoleProcess cmds d fuel
      let more ← processAll cmds fuel bytes
      return lines ++ more

theorem processAll_returns {cmds : Commands W} (hblind : cmds.RingBlind)
    (hcmds : cmds.NeverWaits) {c d : Console W} {als : List (Option UInt8 × List (List UInt8))}
    {bytes : List UInt8} (hrun : Run (Act cmds) c.bare als d) (hd : d.priv = .getch)
    (hring : c.ring.Contains []) (hroom : 1 < c.ring.bufLen) (hin : inputs als = bytes)
    (hstart : c.priv = .getch ∨ bytes ≠ []) :
    ∃ c', Prog.Returns (fun fuel => processAll cmds fuel bytes) c (outputs als, c') ∧
      Idle c' ∧ c'.bare = d := by
  induction bytes generalizing c als with
  | nil =>
      have hpriv : c.priv = .getch := by simpa using hstart
      obtain ⟨hc, hout⟩ := InputDriven.stopped (waiting_of_getch (c := c.bare) hpriv) hrun hin
      rw [hout]
      exact ⟨c, .pure _ _, ⟨hpriv, hring⟩, hc.symm⟩
  | cons b bytes ih =>
      obtain ⟨ring, hput, hcontains, hlen⟩ := Ringbuf.ringbufPut_room hring hroom b
      obtain ⟨als', lines, c₁, hout, hdrained, hrun', hin', hidle, hlen'⟩ :=
        stops_of_run (c := { c with ring }) hblind hcmds hrun hd hcontains hin
      have hroom' : 1 < c₁.ring.bufLen := by
        rw [hlen']
        exact hlen ▸ hroom
      obtain ⟨c', hrest, hidle', hbare⟩ := ih hrun' hidle.ring hroom' hin' (.inl hidle.priv)
      have hfirst : (onRing (ringbufPut b) : Prog (Console W) Bool) c =
          .ok (true, { c with ring }) := by
        unfold onRing Prog.zoom
        rw [hput]
      have hprocess : Prog.Returns (fun fuel => consoleProcess cmds b fuel) c (lines, c₁) :=
        .bind (m := fun _ => onRing (ringbufPut b)) ⟨0, fun _ _ => hfirst⟩ hdrained.returns
      rw [hout]
      exact ⟨c', .bind hprocess (.bind hrest (.pure _ _)), hidle', hbare⟩

/-- What the fibre of the console does with a text, however its characters come,
`console_process` does with them one by one, and returns from each. -/
theorem console_process_schedules {cmds : Commands W} (hblind : cmds.RingBlind)
    (hcmds : cmds.NeverWaits) {c d : Console W} (hring : c.ring.Contains [])
    (hroom : 1 < c.ring.bufLen) {ls : List ConsoleLabel} (hrun : Run (Alternates cmds) c ls d)
    (hd : Idle d) (hfed : fed ls ≠ []) :
    ∃ d', Prog.Returns (fun fuel => processAll cmds fuel (fed ls)) c (handed ls, d') ∧
      Idle d' ∧ d' = { d with ring := d'.ring } := by
  obtain ⟨als, hacts, hin, hout⟩ := acts_of_idle hblind hring hrun hd
  obtain ⟨d', hreturns, hidle, hbare⟩ :=
    processAll_returns hblind hcmds hacts hd.priv hring hroom hin (.inr hfed)
  rw [hout] at hreturns
  exact ⟨d', hreturns, hidle, congrArg (fun e : Console W => { e with ring := d'.ring }) hbare⟩

/-- The console of `exitCommands` that is given `a` and a newline before its
first turn. -/
theorem console_process_schedules_line : ∃ ls d d',
    drive exitCommands [some 97, some 10, none, none, none, none] (consoleInit ()) =
        some (ls, d) ∧
      fed ls = [97, 10] ∧ handed ls = [[97]] ∧
      Prog.Returns (fun fuel => processAll exitCommands fuel (fed ls)) (consoleInit ())
        (handed ls, d') ∧
      Idle d' ∧ d' = { d with ring := d'.ring } := by
  have hblind : exitCommands.RingBlind := fun _ _ _ => rfl
  have hcmds : exitCommands.NeverWaits := fun _ _ => nofun
  have hring : (consoleInit ()).ring.Contains [] :=
    Ringbuf.contains_init _ (by omega) (by omega)
  obtain ⟨ls, d, hdrive, hrun, hidle, hfed, hhanded⟩ :=
    @idle_of_drive _ _ hblind _ hring [some 97, some 10, none, none, none, none] [97, 10]
      [[97]] (by decide +kernel)
  obtain ⟨d', hreturns⟩ := console_process_schedules hblind hcmds hring (by decide) hrun hidle
    (by rw [hfed]; decide)
  exact ⟨ls, d, d', hdrive, hfed, hhanded, hreturns⟩

end Librfn
