import Librfn.Console.Editor
import Librfn.Console.Tokenizer
import Librfn.Logic.Transition
import Librfn.Ringbuf.Contents
import Mathlib.Data.List.Infix

/-!
# Line editing

Bytes come into the ring between any two turns of `console_run`.  In every run
the console is the editor that keeps what was deleted behind the line, so it
hands over the lines of the reference exactly when every line is submitted at
its greatest length.
-/

namespace Librfn

open Librfn.Logic

variable {W : Type}

/-- The commands take no input: they leave the ring, and where `console_run`
goes on, as they are. -/
def Commands.Quiet (cmds : Commands W) : Prop :=
  ∀ cmd c, (cmds.fn cmd c).2.ring = c.ring ∧ (cmds.fn cmd c).2.priv = c.priv

inductive ConsoleLabel where
  | put (d : UInt8)
  | turn (t : ConsoleTurn)
  | other
  deriving DecidableEq, Repr

/-- A byte that is put finds room.  What only the commands know may change at
any time. -/
inductive ConsoleStep (cmds : Commands W) :
    Console W → ConsoleLabel → Console W → Prop
  | put {c c' d} : consolePutchar d c = .ok (true, c') →
      ConsoleStep cmds c (.put d) c'
  | turn {c c' t} : consoleTurn cmds c = .ok (t, c') →
      ConsoleStep cmds c (.turn t) c'
  | other {c world} : ConsoleStep cmds c .other { c with world }

def ConsoleLabel.put? : ConsoleLabel → Option UInt8
  | .put d => some d
  | _ => none

def ConsoleLabel.line? : ConsoleLabel → Option (List UInt8)
  | .turn t => t.line
  | _ => none

def fed (ls : List ConsoleLabel) : List UInt8 := ls.filterMap ConsoleLabel.put?

def handed (ls : List ConsoleLabel) : List (List UInt8) :=
  ls.filterMap ConsoleLabel.line?

@[simp] theorem fed_append (ls ms : List ConsoleLabel) :
    fed (ls ++ ms) = fed ls ++ fed ms := List.filterMap_append

@[simp] theorem handed_append (ls ms : List ConsoleLabel) :
    handed (ls ++ ms) = handed ls ++ handed ms := List.filterMap_append

theorem handed_turn (t : ConsoleTurn) : handed [.turn t] = t.line.toList := by
  cases h : t.line with
  | none => simp [handed, ConsoleLabel.line?, h]
  | some line => simp [handed, ConsoleLabel.line?, h]

/-! ## One turn -/

/-- Where the line is while `console_run` goes on at a point. -/
def BufferedAt (e : BufferEditor) (c : Console W) : ConsolePoint → Prop
  | .start => e.buf = [] ∧ ∀ i < scratchSize, c.scratch i = 0
  | .getch => c.bufp = e.line.length ∧
      ∀ i < scratchSize, c.scratch i = e.buf[i]?.getD 0
  | .command => e.buf = []

/-- The editor `e` is in the console, and `rest` waits in the ring. -/
structure Editing (e : BufferEditor) (rest : List UInt8) (c : Console W) : Prop where
  ring : c.ring.Contains rest
  length_lt : e.buf.length < 79
  ne_zero : ∀ b ∈ e.buf, b ≠ 0
  buffered : BufferedAt e c c.priv

def turnsLeft (c : Console W) (rest : List UInt8) : Nat :=
  2 * rest.length + if c.priv = .getch then 0 else 1

def TurnSpec (e : BufferEditor) (used rest : List UInt8) (t : ConsoleTurn)
    (c : Console W) : Prop :=
  Editing (used.foldl BufferEditor.feed e) rest c ∧
    (used.foldl BufferEditor.feed e).lines = e.lines ++ t.line.toList

theorem editing_init (world : W) : Editing {} [] (consoleInit world) where
  ring := Ringbuf.contains_init _ (by omega) (by omega)
  length_lt := by simp [BufferEditor.buf]
  ne_zero := nofun
  buffered := ⟨rfl, fun _ _ => rfl⟩

theorem editing_silent (world : W) :
    Editing {} [] (consoleSilent (consoleInit world)) where
  ring := Ringbuf.contains_init _ (by omega) (by omega)
  length_lt := by simp [BufferEditor.buf]
  ne_zero := nofun
  buffered := ⟨rfl, fun _ _ => rfl⟩

section Turn

variable {cmds : Commands W} {e : BufferEditor} {ch : UInt8}
  {rest : List UInt8} {c : Console W}

theorem Editing.prompted {lines : List (List UInt8)} {out : List String}
    (hring : c.ring.Contains rest) :
    Editing { lines } rest
      { c with scratch := fun _ => 0, bufp := 0, out, priv := .getch } where
  ring := hring
  length_lt := by simp [BufferEditor.buf]
  ne_zero := nofun
  buffered := ⟨rfl, fun _ _ => rfl⟩

theorem startTurn_spec (h : Editing e rest c) (hpriv : c.priv = .start) :
    Prog.wp startTurn (fun t c' => TurnSpec e [] rest t c' ∧ t.result = none ∧
      c'.priv = .getch) c := by
  have hbuf := h.buffered
  rw [hpriv] at hbuf
  obtain ⟨hempty, hzero⟩ := hbuf
  obtain ⟨hline, -⟩ := List.append_eq_nil_iff.mp hempty
  have he := BufferEditor.eq_of_buf_eq_nil hempty
  simp only [startTurn, Prog.wp_bind, Prog.wp_get, Prog.wp_ite, doPrompt, print,
    Prog.wp_modify, Prog.wp_pure]
  split
  · refine ⟨⟨?_, by simp⟩, trivial, trivial⟩
    rw [he]
    exact Editing.prompted h.ring
  · refine ⟨⟨⟨h.ring, h.length_lt, h.ne_zero, ?_⟩, by simp⟩, trivial, trivial⟩
    refine ⟨by simp [hline], fun i hi => ?_⟩
    rw [List.foldl_nil, hempty]
    exact hzero i hi

theorem commandTurn_spec (hquiet : cmds.Quiet) (h : Editing e rest c)
    (hpriv : c.priv = .command) :
    Prog.wp (commandTurn cmds) (fun t c' => TurnSpec e [] rest t c' ∧
      (t.result = none → c'.priv = .getch)) c := by
  have hempty := h.buffered
  rw [hpriv] at hempty
  have he := BufferEditor.eq_of_buf_eq_nil hempty
  obtain ⟨hring, hsame⟩ := hquiet c.cmd c
  have hcontains : (cmds.fn c.cmd c).2.ring.Contains rest := hring ▸ h.ring
  have hreturned : TurnSpec e [] rest { result := some (cmds.fn c.cmd c).1 }
      (cmds.fn c.cmd c).2 := by
    refine ⟨⟨hcontains, h.length_lt, h.ne_zero, ?_⟩, by simp⟩
    rw [hsame, hpriv]
    exact hempty
  have hprompted : ∀ out : List String, TurnSpec e [] rest {}
      { (cmds.fn c.cmd c).2 with
        scratch := fun _ => 0, bufp := 0, out, priv := .getch } := by
    intro out
    refine ⟨?_, by simp⟩
    rw [he]
    exact Editing.prompted hcontains
  simp only [commandTurn, Prog.wp_bind, Prog.wp_modifyGet]
  cases hres : (cmds.fn c.cmd c).1 with
  | yielded => exact ⟨hres ▸ hreturned, by simp⟩
  | waiting => exact ⟨hres ▸ hreturned, by simp⟩
  | exited => exact ⟨hprompted _, fun _ => rfl⟩
  | failed => exact ⟨hprompted _, fun _ => rfl⟩

theorem getchTurn_nil (h : Editing e [] c) :
    Prog.wp (getchTurn cmds) (fun t c' => TurnSpec e [] [] t c' ∧
      t.result = some .waiting) c := by
  have hget := Ringbuf.ringbufGet_nil h.ring
  simp only [getchTurn, consoleGetch, onRing, Prog.wp_bind, Prog.wp_zoom,
    Prog.wp_iff_of_eq hget, if_true, Prog.wp_pure]
  exact ⟨⟨h, by simp⟩, trivial⟩

theorem newline_spec (hcmds : cmds.Registered) (hring : c.ring.Contains rest)
    (hlength : e.buf.length < 79) (hne : ∀ b ∈ e.buf, b ≠ 0)
    (hscratch : ∀ i < scratchSize, c.scratch i = e.buf[i]?.getD 0) :
    Prog.wp (do
        let line ← doTokenize
        findCommand cmds
        modify fun c => { c with pt := 0, priv := .command }
        return { line := some line })
      (fun t c' => TurnSpec e [10] rest t c' ∧ t.result = none) c := by
  have hend : c.scratch e.buf.length = 0 := by
    rw [hscratch _ (by unfold scratchSize; omega)]
    simp
  have hholds : HoldsString c 0 e.buf := by
    refine ⟨by unfold scratchSize; omega, by rwa [Nat.zero_add], fun k hk => ?_⟩
    rw [Nat.zero_add, hscratch k (by unfold scratchSize; omega),
      List.getElem?_eq_getElem hk]
    exact ⟨rfl, hne _ (List.getElem_mem hk)⟩
  simp only [Prog.wp_bind, Prog.wp_modify, Prog.wp_pure]
  refine Prog.wp_mono (doTokenize_spec hholds) ?_
  rintro _ c₁ ⟨rfl, htok, hargs⟩
  refine Prog.wp_mono (findCommand_spec hcmds hargs
    (by unfold scratchSize; omega) (htok.zeros _ hend)) ?_
  intro _ c₂ hfind
  have hsame : c₂.ring = c.ring := (htok.trans hfind).ring
  have hempty : ∀ b ∈ (e.feed 10).buf, b ≠ 0 := fun _ hb => absurd hb List.not_mem_nil
  refine ⟨⟨⟨?_, Nat.zero_lt_succ _, hempty, rfl⟩, rfl⟩, trivial⟩
  exact hsame ▸ hring

theorem getchTurn_cons (hcmds : cmds.Registered)
    (h : Editing e (ch :: rest) c) (hpriv : c.priv = .getch) (hch : ch ≠ 0)
    (hshort : (e.feed ch).line.length < 79) :
    Prog.wp (getchTurn cmds) (fun t c' => TurnSpec e [ch] rest t c' ∧
      t.result = none) c := by
  obtain ⟨rb, hget, hrest, -⟩ := Ringbuf.ringbufGet_cons h.ring
  have hbuf := h.buffered
  rw [hpriv] at hbuf
  obtain ⟨hbufp, hscratch⟩ := hbuf
  have hlength := h.length_lt
  have hline : e.line.length ≤ e.buf.length := by simp [BufferEditor.buf]
  have hcode : ∀ n : UInt8, (ch.toNat : Int) = n.toNat ↔ ch = n := by
    intro n
    rw [Int.ofNat_inj, UInt8.toNat_inj]
  have h10 : (ch.toNat : Int) = 10 ↔ ch = 10 := hcode 10
  have h8 : (ch.toNat : Int) = 8 ↔ ch = 8 := hcode 8
  have h3 : (ch.toNat : Int) = 3 ↔ ch = 3 := hcode 3
  have hsome : (ch.toNat : Int) ≠ -1 := by omega
  have hroom : ¬ c.bufp ≥ 79 := by omega
  -- what has to be seen when the line goes on
  have hedited : ∀ (e' : BufferEditor) (out : List String) (scratch : Nat → UInt8)
      (bufp : Nat), e.feed ch = e' → e'.lines = e.lines → bufp = e'.line.length →
      (∀ i < scratchSize, scratch i = e'.buf[i]?.getD 0) →
      TurnSpec e [ch] rest {} { c with ring := rb, out, scratch, bufp } := by
    rintro e' out scratch bufp rfl hlines hbufp' hscratch'
    refine ⟨⟨hrest, bufferFeed_length hlength hshort,
      bufferFeed_ne_zero hch h.ne_zero, ?_⟩, by simpa using hlines⟩
    rw [hpriv]
    exact ⟨hbufp', hscratch'⟩
  simp only [getchTurn, consoleGetch, onRing, Prog.wp_bind, Prog.wp_zoom,
    Prog.wp_iff_of_eq hget, if_neg hsome, Prog.wp_get, Prog.wp_ite, h10, h8, h3,
    hroom, or_false]
  split
  · next hch10 =>
      subst hch10
      have hnewline := newline_spec hcmds (c := { c with ring := rb }) hrest
        hlength h.ne_zero hscratch
      simpa only [Prog.wp_bind] using hnewline
  next hch10 =>
  split
  · next hch8 =>
      have hfeed : e.feed ch = { e with
          line := e.line.dropLast, stale := e.line.getLast?.toList ++ e.stale } := by
        simp [BufferEditor.feed, hch8]
      have hdeleted : ∀ i < scratchSize, c.scratch i =
          (e.line.dropLast ++ (e.line.getLast?.toList ++ e.stale))[i]?.getD 0 := by
        rw [dropLast_append_stale]
        exact hscratch
      have hlast := e.line.length_dropLast
      split
      · exact ⟨hedited _ _ _ _ hfeed rfl (by simp only []; omega) hdeleted, rfl⟩
      · exact ⟨hedited _ _ _ _ hfeed rfl (by simp only []; omega) hdeleted, rfl⟩
  next hch8 =>
  split
  · next hch3 =>
      have hfeed : e.feed ch = { lines := e.lines } := by
        simp [BufferEditor.feed, hch3]
      exact ⟨hedited _ _ _ _ hfeed rfl rfl fun i _ => by simp [BufferEditor.buf], rfl⟩
  · next hch3 =>
      have hfeed : e.feed ch = { e with
          line := e.line ++ [ch], stale := e.stale.tail } := by
        simp [BufferEditor.feed, hch10, hch8, hch3]
      have hbyte : UInt8.ofInt (ch.toNat : Int) = ch := by
        have hsmall := ch.toNat_lt
        have hmod : ((ch.toNat : Int) % 256).toNat = ch.toNat := by omega
        simp [UInt8.ofInt, hmod]
      have htyped : ∀ i < scratchSize, Function.update c.scratch c.bufp ch i =
          (e.line ++ [ch] ++ e.stale.tail)[i]?.getD 0 := by
        intro i hi
        rw [typed_getElem?, Function.update_apply, hbufp]
        split
        · rfl
        · exact hscratch i hi
      rw [wp_storeBuf _ (by simp only [scratchSize]; omega), hbyte]
      exact ⟨hedited _ _ _ _ hfeed rfl (by simp [hbufp]) htyped, rfl⟩

theorem consoleTurn_spec (hcmds : cmds.Registered) (hquiet : cmds.Quiet)
    (h : Editing e rest c) (hnul : 0 ∉ rest)
    (hshort : ∀ ch ∈ rest.head?, (e.feed ch).line.length < 79) :
    Prog.wp (consoleTurn cmds) (fun t c' => ∃ used rest', rest = used ++ rest' ∧
      TurnSpec e used rest' t c' ∧
      (t.result = none → turnsLeft c' rest' < turnsLeft c rest)) c := by
  simp only [consoleTurn, Prog.wp_bind, Prog.wp_get]
  cases hpriv : c.priv with
  | start =>
      refine Prog.wp_mono (startTurn_spec h hpriv) ?_
      rintro t c' ⟨hspec, -, hpriv'⟩
      exact ⟨[], rest, rfl, hspec, fun _ => by simp [turnsLeft, hpriv, hpriv']⟩
  | getch =>
      cases rest with
      | nil =>
          refine Prog.wp_mono (getchTurn_nil h) ?_
          rintro t c' ⟨hspec, hresult⟩
          exact ⟨[], [], rfl, hspec, fun hnone => by simp [hnone] at hresult⟩
      | cons ch rest =>
          have hch : ch ≠ 0 := fun heq => hnul (heq ▸ List.mem_cons_self)
          refine Prog.wp_mono (getchTurn_cons hcmds h hpriv hch (hshort ch rfl)) ?_
          rintro t c' ⟨hspec, -⟩
          refine ⟨[ch], rest, rfl, hspec, fun _ => ?_⟩
          simp only [turnsLeft, hpriv, if_true, List.length_cons]
          split <;> omega
  | command =>
      refine Prog.wp_mono (commandTurn_spec hquiet h hpriv) ?_
      rintro t c' ⟨hspec, hpriv'⟩
      exact ⟨[], rest, rfl, hspec, fun hnone => by simp [turnsLeft, hpriv, hpriv' hnone]⟩

theorem consoleRun_returns (hcmds : cmds.Registered) (hquiet : cmds.Quiet)
    (h : Editing e rest c) (hnul : 0 ∉ rest)
    (hshort : ∀ used, used <+: rest →
      (used.foldl BufferEditor.feed e).line.length < 79)
    {fuel : Nat} (hfuel : turnsLeft c rest < fuel) :
    Prog.wp (consoleRun cmds fuel) (fun _ _ => True) c := by
  induction fuel generalizing e rest c with
  | zero => exact absurd hfuel (Nat.not_lt_zero _)
  | succ fuel ih =>
      have hhead : ∀ ch ∈ rest.head?, (e.feed ch).line.length < 79 := by
        intro ch hch
        obtain ⟨tail, rfl⟩ := List.head?_eq_some_iff.mp hch
        exact hshort [ch] ⟨tail, rfl⟩
      rw [consoleRun, Prog.wp_bind]
      refine Prog.wp_mono (consoleTurn_spec hcmds hquiet h hnul hhead) ?_
      rintro t c' ⟨used, rest', rfl, hspec, hless⟩
      cases hresult : t.result with
      | some res => trivial
      | none =>
          have hdone := hless hresult
          have hnul' : 0 ∉ rest' := fun hmem => hnul (List.mem_append_right used hmem)
          refine Prog.wp_bind _ _ _ _ |>.mpr (Prog.wp_mono
            (ih hspec.1 hnul' (fun more hmore => ?_) (by omega)) fun _ _ _ => trivial)
          rw [← List.foldl_append]
          exact hshort _ ((List.prefix_append_right_inj used).mpr hmore)

end Turn

/-! ## Runs -/

/-- What a run of the console has done with the bytes that were fed. -/
def Edited (ls : List ConsoleLabel) (c : Console W) : Prop :=
  ∃ consumed rest, fed ls = consumed ++ rest ∧
    Editing (bufferEdit consumed) rest c ∧ handed ls = (bufferEdit consumed).lines

/-- Neither a zero nor a line of 79 characters comes. -/
def Acceptable (bytes : List UInt8) : Prop :=
  0 ∉ bytes ∧ ∀ used, used <+: bytes → (edit used).line.length < 79

section Runs

variable {cmds : Commands W} {ls : List ConsoleLabel} {l : ConsoleLabel}
  {c c' : Console W}

theorem Acceptable.mono {bytes used : List UInt8} (h : Acceptable bytes)
    (hused : used <+: bytes) : Acceptable used :=
  ⟨fun hmem => h.1 (hused.subset hmem), fun _ hpre => h.2 _ (hpre.trans hused)⟩

theorem Acceptable.rest {consumed rest used : List UInt8}
    (h : Acceptable (consumed ++ rest)) (hused : used <+: rest) :
    (used.foldl BufferEditor.feed (bufferEdit consumed)).line.length < 79 := by
  have hline := bufferEdit_line (consumed ++ used)
  rw [bufferEdit, List.foldl_append] at hline
  rw [bufferEdit, hline]
  exact h.2 _ ((List.prefix_append_right_inj consumed).mpr hused)

theorem Edited.step (hcmds : cmds.Registered) (hquiet : cmds.Quiet)
    (h : Edited ls c) (hstep : ConsoleStep cmds c l c')
    (hok : Acceptable (fed (ls ++ [l]))) : Edited (ls ++ [l]) c' := by
  obtain ⟨consumed, rest, hfed, hedit, hlines⟩ := h
  cases hstep with
  | @put _ d hput =>
      have hwp : Prog.wp (consolePutchar d)
          (fun r c' => r = true → Editing (bufferEdit consumed) (rest ++ [d]) c') c := by
        rw [consolePutchar, onRing, Prog.wp_zoom]
        have hlength := hedit.ring.length_lt
        rcases Nat.lt_or_ge (rest.length + 1) c.ring.bufLen with hroom | hfull
        · obtain ⟨rb, hrb, hcontains, -⟩ := Ringbuf.ringbufPut_room hedit.ring hroom d
          rw [Prog.wp_iff_of_eq hrb]
          exact fun _ => ⟨hcontains, hedit.length_lt, hedit.ne_zero, hedit.buffered⟩
        · rw [Prog.wp_iff_of_eq (Ringbuf.ringbufPut_full hedit.ring (by omega) d)]
          intro hfalse
          cases hfalse
      refine ⟨consumed, rest ++ [d], ?_, (Prog.wp_iff_of_eq hput).mp hwp rfl, ?_⟩
      · rw [fed_append, hfed, List.append_assoc]
        rfl
      · rw [handed_append, hlines]
        exact List.append_nil _
  | @turn _ t hturn =>
      have hsame : fed (ls ++ [.turn t]) = fed ls := by
        rw [fed_append]
        exact List.append_nil _
      rw [hsame, hfed] at hok
      have hnul : 0 ∉ rest := fun hmem => hok.1 (List.mem_append_right _ hmem)
      have hhead : ∀ ch ∈ rest.head?,
          ((bufferEdit consumed).feed ch).line.length < 79 := by
        intro ch hch
        obtain ⟨tail, rfl⟩ := List.head?_eq_some_iff.mp hch
        have hfirst : [ch] <+: ch :: tail := ⟨tail, rfl⟩
        exact hok.rest hfirst
      obtain ⟨used, rest', rfl, ⟨hedit', hlines'⟩, -⟩ :=
        (Prog.wp_iff_of_eq hturn).mp (consoleTurn_spec hcmds hquiet hedit hnul hhead)
      rw [bufferEdit, ← List.foldl_append] at hedit' hlines'
      refine ⟨consumed ++ used, rest', ?_, hedit', ?_⟩
      · rw [hsame, hfed, List.append_assoc]
      · rw [handed_append, hlines]
        refine Eq.trans ?_ hlines'.symm
        rw [handed_turn]
        rfl
  | other =>
      refine ⟨consumed, rest, ?_, ⟨hedit.ring, hedit.length_lt, hedit.ne_zero,
        hedit.buffered⟩, ?_⟩
      · rw [fed_append, hfed]
        exact List.append_nil _
      · rw [handed_append, hlines]
        exact List.append_nil _

theorem edited_of_run (hcmds : cmds.Registered) (hquiet : cmds.Quiet)
    {c₀ : Console W} (hstart : Editing {} [] c₀)
    (hrun : Run (ConsoleStep cmds) c₀ ls c) (hok : Acceptable (fed ls)) :
    Edited ls c := by
  revert hok
  refine hrun.traceInvariant (I := fun ls c => Acceptable (fed ls) → Edited ls c) ?_ ?_
  · exact fun _ => ⟨[], [], rfl, hstart, rfl⟩
  · intro ms u l v ih hstep hok'
    have hpre : fed ms <+: fed (ms ++ [l]) := ⟨_, (fed_append ms [l]).symm⟩
    exact (ih (hok'.mono hpre)).step hcmds hquiet hstep hok'

end Runs

theorem consoleRun_run {cmds : Commands W} {fuel : Nat} {c c' : Console W}
    {lines : List (List UInt8)} {res : PtState}
    (h : consoleRun cmds fuel c = .ok ((lines, res), c')) :
    ∃ ls, Run (ConsoleStep cmds) c ls c' ∧ fed ls = [] ∧ handed ls = lines := by
  induction fuel generalizing c lines with
  | zero => exact nomatch h
  | succ fuel ih =>
      obtain ⟨t, c₁, hturn, hrest⟩ := Prog.bind_eq_ok h
      cases hresult : t.result with
      | some res' =>
          rw [hresult] at hrest
          cases hrest
          exact ⟨[.turn t], .single (.turn hturn), rfl, handed_turn t⟩
      | none =>
          rw [hresult] at hrest
          obtain ⟨⟨lines', res'⟩, c₂, hcall, hreturn⟩ := Prog.bind_eq_ok hrest
          cases hreturn
          obtain ⟨ls, hrun, hfed, hhanded⟩ := ih hcall
          refine ⟨.turn t :: ls, .cons (.turn hturn) hrun, hfed, ?_⟩
          change handed ([.turn t] ++ ls) = _
          rw [handed_append, handed_turn, hhanded]

/-! ## The lines that are handed over -/

def drive (cmds : Commands W) :
    List (Option UInt8) → Console W → Option (List ConsoleLabel × Console W)
  | [], c => some ([], c)
  | some d :: acts, c =>
      match consolePutchar d c with
      | .ok (true, c') => (drive cmds acts c').map fun r => (.put d :: r.1, r.2)
      | _ => none
  | none :: acts, c =>
      match consoleTurn cmds c with
      | .ok (t, c') => (drive cmds acts c').map fun r => (.turn t :: r.1, r.2)
      | .error _ => none

theorem drive_run {cmds : Commands W} {acts : List (Option UInt8)}
    {c c' : Console W} {ls : List ConsoleLabel}
    (h : drive cmds acts c = some (ls, c')) : Run (ConsoleStep cmds) c ls c' := by
  induction acts generalizing c ls with
  | nil =>
      cases h
      exact .nil
  | cons act acts ih =>
      cases act with
      | some d =>
          rw [drive] at h
          split at h
          · next c₁ hput =>
              obtain ⟨⟨ls, c₂⟩, hrest, heq⟩ := Option.map_eq_some_iff.mp h
              cases heq
              exact .cons (.put hput) (ih hrest)
          · cases h
      | none =>
          rw [drive] at h
          split at h
          · next t c₁ hturn =>
              obtain ⟨⟨ls, c₂⟩, hrest, heq⟩ := Option.map_eq_some_iff.mp h
              cases heq
              exact .cons (.turn hturn) (ih hrest)
          · cases h

theorem exitCommands_quiet : exitCommands.Quiet := fun _ _ => ⟨rfl, rfl⟩

theorem line_editing_iff {cmds : Commands W} (hcmds : cmds.Registered)
    (hquiet : cmds.Quiet) {world : W} {c₀ c : Console W}
    (hstart : c₀ = consoleInit world ∨ c₀ = consoleSilent (consoleInit world))
    {ls : List ConsoleLabel} (hrun : Run (ConsoleStep cmds) c₀ ls c)
    (hnul : 0 ∉ fed ls)
    (hshort : ∀ bytes, bytes <+: fed ls → (edit bytes).line.length < 79) :
    ∃ consumed rest, fed ls = consumed ++ rest ∧ c.ring.Contains rest ∧
      (handed ls = (edit consumed).lines ↔ Refilled 0 0 consumed) ∧
      ∃ fuel, Prog.wp (consoleRun cmds fuel) (fun _ _ => True) c := by
  have hediting : Editing {} [] c₀ := by
    rcases hstart with rfl | rfl
    · exact editing_init world
    · exact editing_silent world
  obtain ⟨consumed, rest, hfed, hedit, hlines⟩ :=
    edited_of_run hcmds hquiet hediting hrun ⟨hnul, hshort⟩
  have hok : Acceptable (consumed ++ rest) := hfed ▸ ⟨hnul, hshort⟩
  refine ⟨consumed, rest, hfed, hedit.ring, ?_, turnsLeft c rest + 1, ?_⟩
  · rw [hlines]
    exact bufferEdit_lines_iff consumed
  · exact consoleRun_returns hcmds hquiet hedit
      (fun hmem => hok.1 (List.mem_append_right _ hmem))
      (fun _ hused => hok.rest hused) (Nat.lt_succ_self _)

theorem line_editing_plain : ∃ ls c,
    Run (ConsoleStep exitCommands) (consoleInit ()) ls c ∧ fed ls = [97, 10] ∧
      ∃ consumed rest, fed ls = consumed ++ rest ∧ c.ring.Contains rest ∧
        (handed ls = (edit consumed).lines ↔ Refilled 0 0 consumed) ∧
        ∃ fuel, Prog.wp (consoleRun exitCommands fuel) (fun _ _ => True) c := by
  have hfed : (drive exitCommands [some 97, some 10, none, none, none]
      (consoleInit ())).map (fun r => fed r.1) = some [97, 10] := by
    decide +kernel
  obtain ⟨⟨ls, c⟩, hdrive, hbytes⟩ := Option.map_eq_some_iff.mp hfed
  have hrun := drive_run hdrive
  refine ⟨ls, c, hrun, hbytes, line_editing_iff exitCommands_registered
    exitCommands_quiet (.inl rfl) hrun ?_ ?_⟩
  · rw [hbytes]
    decide
  · rw [hbytes]
    intro bytes hbytes
    rw [← List.mem_inits] at hbytes
    revert bytes
    decide

/-- `a`, `b`, backspace, newline: `ab` is handed over for `a`. -/
theorem line_editing_stale : exitCommands.Registered ∧ exitCommands.Quiet ∧
    ∃ ls c, Run (ConsoleStep exitCommands) (consoleInit ()) ls c ∧
      fed ls = [97, 98, 8, 10] ∧ ringbufEmpty c.ring = .ok (true, c.ring) ∧
      (edit (fed ls)).lines = [[97]] ∧ handed ls = [[97, 98]] := by
  refine ⟨exitCommands_registered, exitCommands_quiet, ?_⟩
  have hresult : (drive exitCommands [some 97, some 98, some 8, some 10, none,
      none, none, none, none] (consoleInit ())).map
        (fun r => (fed r.1, handed r.1, decide (r.2.ring.readi = r.2.ring.writei))) =
      some ([97, 98, 8, 10], [[97, 98]], true) := by
    decide +kernel
  obtain ⟨⟨ls, c⟩, hdrive, hvalues⟩ := Option.map_eq_some_iff.mp hresult
  simp only [Prod.mk.injEq] at hvalues
  obtain ⟨hfed, hhanded, hempty⟩ := hvalues
  refine ⟨ls, c, drive_run hdrive, hfed, ?_, ?_, hhanded⟩
  · change Except.ok (decide (c.ring.readi = c.ring.writei), c.ring) = _
    rw [hempty]
  · rw [hfed]
    decide

end Librfn
