import Librfn.Console.LineEditing
import Librfn.Logic.Confluence
import Librfn.Logic.Relational

/-!
# When the characters come

To the fibre of a console, characters come at any time.  What the console does
with them does not depend on when they come.
-/

namespace Librfn

open Librfn.Logic

variable {W : Type}

/-- The commands neither look at the ring nor change it. -/
def Commands.RingBlind (cmds : Commands W) : Prop :=
  ∀ cmd c ring, cmds.fn cmd { c with ring } =
    ((cmds.fn cmd c).1, { (cmds.fn cmd c).2 with ring })

/-- Two consoles that differ in their rings `r` and `r'`. -/
def Beside (r r' : Ringbuf) (c c' : Console W) : Prop := c.ring = r ∧ c' = { c with ring := r' }

section Beside

variable {r r' : Ringbuf} {cmds : Commands W}

theorem Beside.update {c c' : Console W} (h : Beside r r' c c') {f : Console W → Console W}
    (hf : ∀ ring, f { c with ring } = { f c with ring }) : Beside r r' (f c) (f c') := by
  obtain ⟨rfl, rfl⟩ := h
  have hring := congrArg Console.ring (hf c.ring)
  exact ⟨hring, hf r'⟩

theorem modify_respects {f : Console W → Console W}
    (hf : ∀ c ring, f { c with ring } = { f c with ring }) :
    Prog.Respects (Beside r r') (modify f : Prog (Console W) PUnit) :=
  .modify fun _ _ h => h.update (hf _)

theorem get_respects {α : Type} {f : Console W → Prog (Console W) α}
    (hf : ∀ c ring, f { c with ring } = f c) (hr : ∀ c, Prog.Respects (Beside r r') (f c)) :
    Prog.Respects (Beside r r') (get >>= f) :=
  .get_bind (fun c c' h => by rw [h.2]; exact hf c r') hr

theorem print_respects (s : String) :
    Prog.Respects (Beside r r') (print s : Prog (Console W) Unit) :=
  modify_respects fun _ _ => rfl

theorem loadBuf_respects (i : Nat) :
    Prog.Respects (Beside r r') (loadBuf i : Prog (Console W) UInt8) :=
  .ite (get_respects (fun _ _ => rfl) fun _ => .pure _) (.throw _)

theorem storeBuf_respects (i : Nat) (b : UInt8) :
    Prog.Respects (Beside r r') (storeBuf i b : Prog (Console W) Unit) :=
  .ite (modify_respects fun _ _ => rfl) (.throw _)

theorem storeArgv_respects (i offset : Nat) :
    Prog.Respects (Beside r r') (storeArgv i offset : Prog (Console W) Unit) :=
  .ite (modify_respects fun _ _ => rfl) (.throw _)

theorem loadString_respects (fuel i : Nat) :
    Prog.Respects (Beside r r') (loadString fuel i : Prog (Console W) (List UInt8)) := by
  induction fuel generalizing i with
  | zero => exact .throw _
  | succ fuel ih =>
      exact .bind (loadBuf_respects i) fun b => .ite (.pure _)
        (.bind (ih (i + 1)) fun _ => .pure _)

theorem tokenizeLoop_respects (len fuel i : Nat) (quote : UInt8) :
    Prog.Respects (Beside r r') (tokenizeLoop len fuel i quote : Prog (Console W) Unit) := by
  induction fuel generalizing i quote with
  | zero => exact .throw _
  | succ fuel ih =>
      have hstore : ∀ quote, Prog.Respects (Beside r r') (do
          storeBuf i 0
          tokenizeLoop len fuel (i + 1) quote : Prog (Console W) Unit) :=
        fun quote => .bind (storeBuf_respects i 0) fun _ => ih _ quote
      rw [tokenizeLoop]
      refine .ite (.pure _) (.bind (loadBuf_respects i) fun b => ?_)
      refine .ite (hstore quote) (.ite (hstore 0) ?_)
      refine .bind (loadBuf_respects (i - 1)) fun before => ?_
      refine .ite (.ite (hstore b) ?_) (ih _ quote)
      refine get_respects (fun _ _ => rfl) fun c => ?_
      refine .bind (storeArgv_respects _ _) fun _ => ?_
      refine .bind (modify_respects fun _ _ => rfl) fun _ => ?_
      exact get_respects (fun _ _ => rfl) fun c => .ite (.pure _) (ih _ quote)

theorem terminateLoop_respects (len fuel i : Nat) :
    Prog.Respects (Beside r r') (terminateLoop len fuel i : Prog (Console W) Unit) := by
  induction fuel generalizing i with
  | zero => exact .throw _
  | succ fuel ih =>
      exact .ite (.bind (storeArgv_respects i len) fun _ => ih _) (.pure _)

theorem doTokenize_respects :
    Prog.Respects (Beside r r') (doTokenize : Prog (Console W) (List UInt8)) := by
  refine .bind (modify_respects fun _ _ => rfl) fun _ => ?_
  refine .bind (storeArgv_respects 0 0) fun _ => ?_
  refine .bind (loadString_respects _ 0) fun line => ?_
  refine .bind (tokenizeLoop_respects _ _ 1 0) fun _ => ?_
  exact get_respects (fun _ _ => rfl) fun c =>
    .bind (terminateLoop_respects _ 5 c.argc) fun _ => .pure _

theorem findCommandLoop_respects (argv0 : List UInt8) (fuel i : Nat) :
    Prog.Respects (Beside r r') (findCommandLoop cmds argv0 fuel i) := by
  induction fuel generalizing i with
  | zero => exact .throw _
  | succ fuel ih =>
      rw [findCommandLoop]
      refine .ite (.throw _) ?_
      split
      · exact .throw _
      · split
        · exact modify_respects fun _ _ => rfl
        · exact .ite (modify_respects fun _ _ => rfl) (ih _)

theorem findCommand_respects : Prog.Respects (Beside r r') (findCommand cmds) :=
  get_respects (fun _ _ => rfl) fun _ =>
    .bind (loadString_respects _ _) fun argv0 => findCommandLoop_respects argv0 33 0

theorem doPrompt_respects : Prog.Respects (Beside r r') (doPrompt : Prog (Console W) Unit) :=
  .bind (modify_respects fun _ _ => rfl) fun _ =>
    get_respects (fun _ _ => rfl) fun c => print_respects c.prompt

theorem startTurn_respects :
    Prog.Respects (Beside r r') (startTurn : Prog (Console W) ConsoleTurn) := by
  have hrest : Prog.Respects (Beside r r') (do
      modify fun c => { c with priv := .getch }
      return {} : Prog (Console W) ConsoleTurn) :=
    .bind (modify_respects fun _ _ => rfl) fun _ => .pure _
  exact get_respects (fun _ _ => rfl) fun _ =>
    .ite (.bind doPrompt_respects fun _ => hrest)
      (.bind (modify_respects fun _ _ => rfl) fun _ => hrest)

theorem fn_respects (hblind : cmds.RingBlind) :
    Prog.Respects (Beside r r') (modifyGet fun c => cmds.fn c.cmd c) := by
  rintro c _ ⟨rfl, rfl⟩
  refine Prog.Coupled.of_ok rfl rfl ⟨?_, ?_, ?_⟩
  · exact (congrArg Prod.fst (hblind c.cmd c r')).symm
  · exact congrArg (fun p => p.2.ring) (hblind c.cmd c c.ring)
  · exact congrArg Prod.snd (hblind c.cmd c r')

theorem commandTurn_respects (hblind : cmds.RingBlind) :
    Prog.Respects (Beside r r') (commandTurn cmds) := by
  have hrest : Prog.Respects (Beside r r') (do
      doPrompt
      modify fun c => { c with priv := .getch }
      return {} : Prog (Console W) ConsoleTurn) :=
    .bind doPrompt_respects fun _ => .bind (modify_respects fun _ _ => rfl) fun _ => .pure _
  refine .bind (fn_respects hblind) fun res => ?_
  cases res with
  | yielded | waiting => exact .pure _
  | exited | failed => exact .ite (.bind (print_respects _) fun _ => hrest) hrest

def charTurn (cmds : Commands W) (ch : Int) : Prog (Console W) ConsoleTurn := do
  if ch = -1 then
    return { result := some .waiting }
  if ch = 10 ∨ (← get).bufp ≥ 79 then
    let line ← doTokenize
    findCommand cmds
    modify fun c => { c with pt := 0, priv := .command }
    return { line := some line }
  else if ch = 8 then
    if (← get).bufp > 0 then
      modify fun c => { c with bufp := c.bufp - 1 }
      print " \x08"
    else
      print " "
    return {}
  else if ch = 3 then
    print "\n"
    doPrompt
    return {}
  else
    storeBuf (← get).bufp (UInt8.ofInt ch)
    modify fun c => { c with bufp := c.bufp + 1 }
    return {}

theorem getchTurn_eq : getchTurn cmds = consoleGetch >>= charTurn cmds := rfl

theorem charTurn_respects (ch : Int) : Prog.Respects (Beside r r') (charTurn cmds ch) := by
  have hpure : Prog.Respects (Beside r r') (pure {} : Prog (Console W) ConsoleTurn) := .pure _
  refine .ite (.pure _) (get_respects (fun _ _ => rfl) fun _ => .ite ?_ (.ite ?_ (.ite ?_ ?_)))
  · exact .bind doTokenize_respects fun _ => .bind findCommand_respects fun _ =>
      .bind (modify_respects fun _ _ => rfl) fun _ => .pure _
  · exact get_respects (fun _ _ => rfl) fun _ =>
      .ite (.bind (modify_respects fun _ _ => rfl) fun _ => .bind (print_respects _) fun _ => hpure)
        (.bind (print_respects _) fun _ => hpure)
  · exact .bind (print_respects _) fun _ => .bind doPrompt_respects fun _ => hpure
  · exact get_respects (fun _ _ => rfl) fun _ => .bind (storeBuf_respects _ _) fun _ =>
      .bind (modify_respects fun _ _ => rfl) fun _ => hpure

end Beside

/-! ## Turns that go on -/

def GoesOn (m : Prog (Console W) ConsoleTurn) : Prop :=
  ∀ c t c', m c = .ok (t, c') → t.result = none

theorem GoesOn.pure {t : ConsoleTurn} (h : t.result = none) :
    GoesOn (pure t : Prog (Console W) ConsoleTurn) := by
  rintro c _ _ ⟨⟩
  exact h

theorem GoesOn.bind {α : Type} {m : Prog (Console W) α} {f : α → Prog (Console W) ConsoleTurn}
    (h : ∀ a, GoesOn (f a)) : GoesOn (m >>= f) := by
  intro c t c' hm
  obtain ⟨a, d, -, hf⟩ := Prog.bind_eq_ok hm
  exact h a d t c' hf

theorem GoesOn.ite {p : Prop} [Decidable p] {m n : Prog (Console W) ConsoleTurn} (hm : GoesOn m)
    (hn : GoesOn n) : GoesOn (if p then m else n) := by
  split
  · exact hm
  · exact hn

theorem charTurn_goesOn {cmds : Commands W} {ch : Int} (hch : ch ≠ -1) :
    GoesOn (charTurn cmds ch) := by
  have hpure : GoesOn (pure {} : Prog (Console W) ConsoleTurn) := .pure rfl
  rw [charTurn, if_neg hch]
  refine .bind fun _ => .ite ?_ (.ite ?_ (.ite ?_ ?_))
  · exact .bind fun _ => .bind fun _ => .bind fun _ => .pure rfl
  · exact .bind fun _ => .ite (.bind fun _ => .bind fun _ => hpure) (.bind fun _ => hpure)
  · exact .bind fun _ => .bind fun _ => hpure
  · exact .bind fun _ => .bind fun _ => .bind fun _ => hpure

/-! ## The console without its ring -/

def Console.bare (c : Console W) : Console W := { c with ring := ringbufInit (fun _ => 0) 16 }

/-- What the console does by itself, or with a character, and the lines that it
hands to `do_tokenize`. -/
inductive Act (cmds : Commands W) :
    Console W → Option UInt8 × List (List UInt8) → Console W → Prop
  | silent {c c' : Console W} {t : ConsoleTurn} : c.priv ≠ .getch →
      consoleTurn cmds c = .ok (t, c') → Act cmds c (none, t.line.toList) c'
  | char {c c' : Console W} {t : ConsoleTurn} {b : UInt8} : c.priv = .getch →
      charTurn cmds b.toNat c = .ok (t, c') → Act cmds c (some b, t.line.toList) c'

section Act

variable {cmds : Commands W} {c c' d d' : Console W} {t : ConsoleTurn} {rest : List UInt8}

theorem act_determined (cmds : Commands W) : InputDriven (Act cmds) where
  unique := by
    intro c d d' i o o' h h'
    cases h with
    | silent hpriv hturn =>
        cases h' with
        | silent hpriv' hturn' =>
            rw [hturn] at hturn'
            cases hturn'
            exact ⟨rfl, rfl⟩
    | char hpriv hturn =>
        cases h' with
        | char hpriv' hturn' =>
            rw [hturn] at hturn'
            cases hturn'
            exact ⟨rfl, rfl⟩
  waits := by
    intro c d d' b o o' h h'
    cases h with
    | silent hpriv _ =>
        cases h' with
        | char hpriv' _ => exact hpriv hpriv'

theorem waiting_of_getch (h : c.priv = .getch) : Waiting (Act cmds) c := by
  intro o d hact
  cases hact with
  | silent hpriv _ => exact hpriv h

theorem Coupled.beside {m : Prog (Console W) ConsoleTurn} {r' : Ringbuf}
    (h : Prog.Respects (Beside c.ring r') m) (hm : m c = .ok (t, c')) :
    c'.ring = c.ring ∧ m { c with ring := r' } = .ok (t, { c' with ring := r' }) := by
  obtain ⟨t', c'', hm', rfl, hring, rfl⟩ := (h c _ ⟨rfl, rfl⟩).ok hm
  exact ⟨hring, hm'⟩

/-- How a turn uses the ring. -/
inductive TurnUses (cmds : Commands W) (c : Console W) (rest : List UInt8) (t : ConsoleTurn)
    (c' : Console W) : Prop
  | silent : c.priv ≠ .getch → Act cmds c.bare (none, t.line.toList) c'.bare →
      c'.ring.Contains rest → TurnUses cmds c rest t c'
  | none : c.priv = .getch → rest = [] → c' = c → t = { result := some .waiting } →
      TurnUses cmds c rest t c'
  | char {b : UInt8} {bytes : List UInt8} : c.priv = .getch → rest = b :: bytes →
      Act cmds c.bare (some b, t.line.toList) c'.bare → c'.ring.Contains bytes →
      t.result = .none → TurnUses cmds c rest t c'

theorem consoleTurn_eq (cmds : Commands W) (c : Console W) : consoleTurn cmds c =
    (match c.priv with
      | .start => startTurn
      | .getch => getchTurn cmds
      | .command => commandTurn cmds) c := rfl

theorem silent_point (hblind : cmds.RingBlind) (hpriv : c.priv ≠ .getch) :
    ∃ m : Prog (Console W) ConsoleTurn, (∀ r r', Prog.Respects (Beside r r') m) ∧
      ∀ d : Console W, d.priv = c.priv → consoleTurn cmds d = m d := by
  cases h : c.priv with
  | start =>
      exact ⟨startTurn, fun _ _ => startTurn_respects, fun d hd => by
        rw [consoleTurn_eq, hd]⟩
  | getch => exact absurd h hpriv
  | command =>
      exact ⟨commandTurn cmds, fun _ _ => commandTurn_respects hblind, fun d hd => by
        rw [consoleTurn_eq, hd]⟩

theorem silent_uses (hblind : cmds.RingBlind) (hring : c.ring.Contains rest)
    (hpriv : c.priv ≠ .getch) (h : consoleTurn cmds c = .ok (t, c')) :
    TurnUses cmds c rest t c' := by
  obtain ⟨m, hm, hpoint⟩ := silent_point hblind hpriv
  rw [hpoint c rfl] at h
  obtain ⟨hkept, hbare⟩ := Coupled.beside (hm c.ring c.bare.ring) h
  exact .silent hpriv (.silent hpriv ((hpoint c.bare rfl).trans hbare)) (hkept ▸ hring)

theorem consoleTurn_getch (hpriv : c.priv = .getch) {ch : Int} {c₁ : Console W}
    (hget : consoleGetch c = .ok (ch, c₁)) : consoleTurn cmds c = charTurn cmds ch c₁ := by
  rw [consoleTurn_eq, hpriv]
  change getchTurn cmds c = _
  rw [getchTurn_eq]
  change (consoleGetch c >>= fun p => charTurn cmds p.1 p.2) = _
  rw [hget]
  rfl

theorem consoleGetch_nil (hring : c.ring.Contains []) : consoleGetch c = .ok (-1, c) := by
  unfold consoleGetch onRing Prog.zoom
  rw [Ringbuf.ringbufGet_nil hring]

theorem consoleGetch_cons {b : UInt8} {bytes : List UInt8}
    (hring : c.ring.Contains (b :: bytes)) :
    ∃ ring, consoleGetch c = .ok (b.toNat, { c with ring }) ∧ ring.Contains bytes ∧
      ring.bufLen = c.ring.bufLen := by
  obtain ⟨ring, hget, hbytes, hlen⟩ := Ringbuf.ringbufGet_cons hring
  refine ⟨ring, ?_, hbytes, hlen⟩
  unfold consoleGetch onRing Prog.zoom
  rw [hget]

theorem getch_uses (hpriv : c.priv = .getch) (hring : c.ring.Contains rest)
    (h : consoleTurn cmds c = .ok (t, c')) : TurnUses cmds c rest t c' := by
  cases rest with
  | nil =>
      rw [consoleTurn_getch hpriv (consoleGetch_nil hring)] at h
      cases h
      exact .none hpriv rfl rfl rfl
  | cons b bytes =>
      obtain ⟨ring, hget, hbytes, -⟩ := consoleGetch_cons hring
      rw [consoleTurn_getch hpriv hget] at h
      obtain ⟨hkept, hbare⟩ := Coupled.beside (charTurn_respects _) h
      have hch : (b.toNat : Int) ≠ -1 := by omega
      exact .char hpriv rfl (.char hpriv hbare) (hkept ▸ hbytes) (charTurn_goesOn hch _ _ _ h)

theorem consoleTurn_uses (hblind : cmds.RingBlind) (hring : c.ring.Contains rest)
    (h : consoleTurn cmds c = .ok (t, c')) : TurnUses cmds c rest t c' := by
  by_cases hpriv : c.priv = .getch
  · exact getch_uses hpriv hring h
  · exact silent_uses hblind hring hpriv h

/-! ## Any schedule -/

/-- Characters come and turns are taken, and nothing else happens. -/
def Alternates (cmds : Commands W) (c : Console W) (l : ConsoleLabel) (c' : Console W) : Prop :=
  ConsoleStep cmds c l c' ∧ l ≠ .other

/-- The console waits for a character, and none is there. -/
structure Idle (c : Console W) : Prop where
  priv : c.priv = .getch
  ring : c.ring.Contains []

theorem consolePutchar_eq {b : UInt8} {ok : Bool} (h : consolePutchar b c = .ok (ok, c')) :
    ∃ ring, ringbufPut b c.ring = .ok (ok, ring) ∧ c' = { c with ring } := by
  unfold consolePutchar onRing Prog.zoom at h
  cases hput : ringbufPut b c.ring with
  | error e =>
      rw [hput] at h
      cases h
  | ok p =>
      rw [hput] at h
      cases h
      exact ⟨_, rfl, rfl⟩

theorem contains_put {rb rb' : Ringbuf} {b : UInt8} (hrb : rb.Contains rest)
    (h : ringbufPut b rb = .ok (true, rb')) : rb'.Contains (rest ++ [b]) := by
  by_cases hfull : rest.length + 1 = rb.bufLen
  · rw [Ringbuf.ringbufPut_full hrb hfull] at h
    cases h
  · have hlen := hrb.length_lt
    obtain ⟨_, hput, hcontains, -⟩ := Ringbuf.ringbufPut_room hrb (by omega) b
    rw [hput] at h
    cases h
    exact hcontains

/-- Whatever the schedule, the console acts on the characters in their order. -/
theorem acts_of_run (hblind : cmds.RingBlind) (hring : c.ring.Contains [])
    {ls : List ConsoleLabel} (hrun : Run (Alternates cmds) c ls d) :
    ∃ als rest, Run (Act cmds) c.bare als d.bare ∧ d.ring.Contains rest ∧
      inputs als ++ rest = fed ls ∧ outputs als = handed ls := by
  refine hrun.traceInvariant (I := fun ls d => ∃ als rest, Run (Act cmds) c.bare als d.bare ∧
    d.ring.Contains rest ∧ inputs als ++ rest = fed ls ∧ outputs als = handed ls)
    ⟨[], [], .nil, hring, rfl, rfl⟩ ?_
  rintro ms d l d' ⟨als, rest, hacts, hrest, hin, hout⟩ ⟨hstep, hother⟩
  have hact : ∀ {i o rest'}, Act cmds d.bare (i, o) d'.bare → d'.ring.Contains rest' →
      rest = i.toList ++ rest' → fed [l] = [] → handed [l] = o →
      ∃ als rest, Run (Act cmds) c.bare als d'.bare ∧ d'.ring.Contains rest ∧
        inputs als ++ rest = fed (ms ++ [l]) ∧ outputs als = handed (ms ++ [l]) := by
    rintro i o rest' h hrest' rfl hfed hhanded
    refine ⟨als ++ [(i, o)], rest', hacts.snoc h, hrest', ?_, ?_⟩
    · rw [fed_append, hfed, ← hin]
      cases i <;> simp [inputs]
    · rw [handed_append, hhanded, ← hout]
      simp [outputs]
  cases hstep with
  | put hput =>
      obtain ⟨ring, hring', rfl⟩ := consolePutchar_eq hput
      refine ⟨als, _, hacts, contains_put hrest hring', ?_, ?_⟩
      · rw [fed_append, ← hin, List.append_assoc]
        rfl
      · rw [handed_append, ← hout]
        exact (List.append_nil _).symm
  | turn hturn =>
      cases consoleTurn_uses hblind hrest hturn with
      | silent hpriv h hrest' => exact hact h hrest' rfl rfl (handed_turn _)
      | none hpriv hnil hd ht =>
          subst hd ht
          refine ⟨als, rest, hacts, hrest, ?_, ?_⟩
          · rw [fed_append, ← hin]
            exact (List.append_nil _).symm
          · rw [handed_append, ← hout]
            exact (List.append_nil _).symm
      | char hpriv hcons h hrest' _ => exact hact h hrest' hcons rfl (handed_turn _)
  | other => exact absurd rfl hother

theorem acts_of_idle (hblind : cmds.RingBlind) (hring : c.ring.Contains [])
    {ls : List ConsoleLabel} (hrun : Run (Alternates cmds) c ls d) (hd : Idle d) :
    ∃ als, Run (Act cmds) c.bare als d.bare ∧ inputs als = fed ls ∧ outputs als = handed ls := by
  obtain ⟨als, rest, hacts, hrest, hin, hout⟩ := acts_of_run hblind hring hrun
  obtain rfl := hrest.writei_eq_iff.mp (hd.ring.writei_eq_iff.mpr rfl)
  rw [List.append_nil] at hin
  exact ⟨als, hacts, hin, hout⟩

theorem idle_of_run (hblind : cmds.RingBlind) (hring : c.ring.Contains [])
    {ls : List ConsoleLabel} (hrun : Run (Alternates cmds) c ls d) (hpriv : d.priv = .getch)
    (hempty : d.ring.readi = d.ring.writei) : Idle d := by
  obtain ⟨_, rest, -, hrest, -, -⟩ := acts_of_run hblind hring hrun
  obtain rfl := hrest.writei_eq_iff.mp hempty
  exact ⟨hpriv, hrest⟩

theorem Logic.Run.alternates {ls : List ConsoleLabel} (h : Run (ConsoleStep cmds) c ls d)
    (hother : .other ∉ ls) : Run (Alternates cmds) c ls d :=
  h.mono fun _ _ _ hl hstep => ⟨hstep, fun heq => hother (heq ▸ hl)⟩

end Act

/-- However characters and turns of `console_run` alternate, a console that
waits in the end has done the same with the same characters. -/
theorem console_schedules {cmds : Commands W} (hblind : cmds.RingBlind) {c d d' : Console W}
    (hring : c.ring.Contains []) {ls ls' : List ConsoleLabel}
    (hrun : Run (Alternates cmds) c ls d) (hrun' : Run (Alternates cmds) c ls' d')
    (hfed : fed ls = fed ls') (hd : Idle d) (hd' : Idle d') :
    d' = { d with ring := d'.ring } ∧ handed ls = handed ls' := by
  obtain ⟨als, hacts, hin, hout⟩ := acts_of_idle hblind hring hrun hd
  obtain ⟨als', hacts', hin', hout'⟩ := acts_of_idle hblind hring hrun' hd'
  obtain ⟨hbare, houtputs⟩ := (act_determined cmds).confluent hacts hacts'
    (by rw [hin, hin', hfed]) (waiting_of_getch hd.priv) (waiting_of_getch hd'.priv)
  refine ⟨?_, by rw [← hout, ← hout', houtputs]⟩
  exact congrArg (fun e : Console W => { e with ring := d'.ring }) hbare.symm

theorem idle_of_drive {cmds : Commands W} (hblind : cmds.RingBlind) {c : Console W}
    (hring : c.ring.Contains []) {acts : List (Option UInt8)} {bytes : List UInt8}
    {lines : List (List UInt8)}
    (h : (drive cmds acts c).map (fun r => (fed r.1, handed r.1,
      decide (.other ∉ r.1 ∧ r.2.priv = .getch ∧ r.2.ring.readi = r.2.ring.writei))) =
      some (bytes, lines, true)) :
    ∃ ls d, drive cmds acts c = some (ls, d) ∧ Run (Alternates cmds) c ls d ∧ Idle d ∧
      fed ls = bytes ∧ handed ls = lines := by
  obtain ⟨⟨ls, d⟩, hdrive, hvalues⟩ := Option.map_eq_some_iff.mp h
  simp only [Prod.mk.injEq, decide_eq_true_eq] at hvalues
  obtain ⟨hfed, hhanded, hother, hpriv, hempty⟩ := hvalues
  have hrun := (drive_run hdrive).alternates hother
  exact ⟨ls, d, hdrive, hrun, idle_of_run hblind hring hrun hpriv hempty, hfed, hhanded⟩

/-- Two characters come before the first turn, or each of them just in time. -/
theorem console_schedules_line : ∃ ls ls' d d',
    drive exitCommands [some 97, some 10, none, none, none, none] (consoleInit ()) =
        some (ls, d) ∧
      drive exitCommands [none, some 97, none, some 10, none, none] (consoleInit ()) =
        some (ls', d') ∧
      handed ls = [[97]] ∧ d' = { d with ring := d'.ring } ∧ handed ls = handed ls' := by
  have hblind : exitCommands.RingBlind := fun _ _ _ => rfl
  have hring : (consoleInit ()).ring.Contains [] :=
    Ringbuf.contains_init _ (by omega) (by omega)
  obtain ⟨ls, d, hdrive, hrun, hidle, hfed, hhanded⟩ :=
    @idle_of_drive _ _ hblind _ hring [some 97, some 10, none, none, none, none] [97, 10]
      [[97]] (by decide +kernel)
  obtain ⟨ls', d', hdrive', hrun', hidle', hfed', -⟩ :=
    @idle_of_drive _ _ hblind _ hring [none, some 97, none, some 10, none, none] [97, 10]
      [[97]] (by decide +kernel)
  exact ⟨ls, ls', d, d', hdrive, hdrive', hhanded,
    console_schedules hblind hring hrun hrun' (hfed.trans hfed'.symm) hidle hidle'⟩

end Librfn
