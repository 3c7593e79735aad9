import Librfn.Console.LineEditing
import Librfn.Logic.Transition
import Mathlib.Data.List.Basic

/-!
# Injecting a string

The cursor of `console_eval` is in the scratch buffer behind the line, where
the console never writes but for the prompt: that clears all of the buffer.  As
long as no turn of the console touches the cursor, the string is put into the
ring exactly once.
-/

namespace Librfn

open Librfn.Logic

variable {W : Type}

def cursor (c : Console W) : Nat :=
  (c.scratch cursorOffset).toNat + 256 * (c.scratch (cursorOffset + 1)).toNat

/-! ## The turns that leave the cursor alone -/

def SameCursor (c c' : Console W) : Prop :=
  c'.scratch cursorOffset = c.scratch cursorOffset ∧
    c'.scratch (cursorOffset + 1) = c.scratch (cursorOffset + 1)

theorem SameCursor.refl (c : Console W) : SameCursor c c := ⟨rfl, rfl⟩

theorem SameCursor.trans (c c' c'' : Console W) (h : SameCursor c c')
    (h' : SameCursor c' c'') : SameCursor c c'' :=
  ⟨h'.1.trans h.1, h'.2.trans h.2⟩

theorem SameCursor.eq {c c' : Console W} (h : SameCursor c c') :
    cursor c' = cursor c := by
  rw [cursor, h.1, h.2]
  rfl

theorem cursor_eq_zero_iff (c : Console W) : cursor c = 0 ↔
    c.scratch cursorOffset = 0 ∧ c.scratch (cursorOffset + 1) = 0 := by
  rw [cursor, ← UInt8.toNat_inj, ← UInt8.toNat_inj, UInt8.toNat_zero]
  omega

theorem SameCursor.prompted {c c' : Console W} (h : cursor c = 0)
    (hcleared : c'.scratch = fun _ => 0) : SameCursor c c' := by
  obtain ⟨hlow, hhigh⟩ := (cursor_eq_zero_iff c).mp h
  exact ⟨by rw [hcleared, hlow], by rw [hcleared, hhigh]⟩

section Keeps

theorem storeBuf_keeps (i : Nat) (b : UInt8) :
    Prog.Keeps SameCursor (storeBuf i b : Prog (Console W) Unit) := by
  unfold storeBuf
  split
  · next hi =>
      refine .modify fun c => ?_
      unfold scratchSize at hi
      exact ⟨Function.update_of_ne (by unfold cursorOffset scratchSize; omega) _ _,
        Function.update_of_ne (by unfold cursorOffset scratchSize; omega) _ _⟩
  · exact .throw _

theorem loadBuf_keeps (i : Nat) :
    Prog.Keeps SameCursor (loadBuf i : Prog (Console W) UInt8) := by
  unfold loadBuf
  exact .ite (.bind .trans (.get .refl) fun _ => .pure .refl _) (.throw _)

theorem storeArgv_keeps (i offset : Nat) :
    Prog.Keeps SameCursor (storeArgv i offset : Prog (Console W) Unit) := by
  unfold storeArgv
  exact .ite (.modify fun _ => .refl _) (.throw _)

theorem loadString_keeps (fuel i : Nat) :
    Prog.Keeps SameCursor (loadString fuel i : Prog (Console W) (List UInt8)) := by
  induction fuel generalizing i with
  | zero => exact .throw _
  | succ fuel ih =>
      exact .bind .trans (loadBuf_keeps i) fun _ => .ite (.pure .refl _)
        (.bind .trans (ih (i + 1)) fun _ => .pure .refl _)

theorem tokenizeLoop_keeps (len fuel i : Nat) (quote : UInt8) :
    Prog.Keeps SameCursor
      (tokenizeLoop len fuel i quote : Prog (Console W) Unit) := by
  induction fuel generalizing i quote with
  | zero => exact .throw _
  | succ fuel ih =>
      have hstore : ∀ quote, Prog.Keeps SameCursor (do
          storeBuf i 0
          tokenizeLoop len fuel (i + 1) quote : Prog (Console W) Unit) :=
        fun quote => .bind .trans (storeBuf_keeps i 0) fun _ => ih _ quote
      rw [tokenizeLoop]
      refine .ite (.pure .refl _) (.bind .trans (loadBuf_keeps i) fun b => ?_)
      refine .ite (hstore quote) (.ite (hstore 0) ?_)
      refine .bind .trans (loadBuf_keeps (i - 1)) fun before => ?_
      refine .ite (.ite (hstore b) ?_) (ih _ quote)
      refine .bind .trans (.get .refl) fun c => ?_
      refine .bind .trans (storeArgv_keeps c.argc i) fun _ => ?_
      refine .bind .trans (.modify fun _ => .refl _) fun _ => ?_
      refine .bind .trans (.get .refl) fun c => ?_
      exact .ite (.pure .refl _) (ih _ quote)

theorem terminateLoop_keeps (len fuel i : Nat) :
    Prog.Keeps SameCursor (terminateLoop len fuel i : Prog (Console W) Unit) := by
  induction fuel generalizing i with
  | zero => exact .throw _
  | succ fuel ih =>
      rw [terminateLoop]
      exact .ite (.bind .trans (storeArgv_keeps i len) fun _ => ih _) (.pure .refl _)

theorem doTokenize_keeps :
    Prog.Keeps SameCursor (doTokenize : Prog (Console W) (List UInt8)) := by
  refine .bind .trans (.modify fun _ => .refl _) fun _ => ?_
  refine .bind .trans (storeArgv_keeps 0 0) fun _ => ?_
  refine .bind .trans (loadString_keeps _ 0) fun line => ?_
  refine .bind .trans (tokenizeLoop_keeps _ _ 1 0) fun _ => ?_
  refine .bind .trans (.get .refl) fun c => ?_
  exact .bind .trans (terminateLoop_keeps _ 5 c.argc) fun _ => .pure .refl _

theorem findCommandLoop_keeps (cmds : Commands W) (argv0 : List UInt8)
    (fuel i : Nat) : Prog.Keeps SameCursor (findCommandLoop cmds argv0 fuel i) := by
  induction fuel generalizing i with
  | zero => exact .throw _
  | succ fuel ih =>
      rw [findCommandLoop]
      refine .ite (.throw _) ?_
      split
      · exact .throw _
      · split
        · exact .modify fun _ => .refl _
        · exact .ite (.modify fun _ => .refl _) (ih _)

theorem findCommand_keeps (cmds : Commands W) :
    Prog.Keeps SameCursor (findCommand cmds) := by
  refine .bind .trans (.get .refl) fun c => ?_
  exact .bind .trans (loadString_keeps _ _) fun argv0 =>
    findCommandLoop_keeps cmds argv0 33 0

end Keeps

/-- The character that `console_run` would get. -/
def nextChar (c : Console W) : Option UInt8 :=
  if c.ring.readi = c.ring.writei then none else some (c.ring.bufp c.ring.readi)

/-- In this state a turn of `console_run` leaves the cursor as it is: it issues
no prompt, unless the cursor is zero, and it calls no command that writes the
cursor. -/
def SparesCursor (cmds : Commands W) (c : Console W) : Prop :=
  match c.priv with
  | .start => c.argc = 0 → cursor c = 0
  | .getch => nextChar c = some 3 → c.bufp < 79 → cursor c = 0
  | .command =>
      if (cmds.fn c.cmd c).1 = .exited ∨ (cmds.fn c.cmd c).1 = .failed then
        cursor c = 0
      else SameCursor c (cmds.fn c.cmd c).2

theorem startTurn_sameCursor {c c' : Console W} {t : ConsoleTurn}
    (hspares : c.argc = 0 → cursor c = 0) (h : startTurn c = .ok (t, c')) :
    SameCursor c c' := by
  have hwp : Prog.wp startTurn (fun _ c' => c'.scratch =
      if c.argc = 0 then fun _ => 0 else c.scratch) c := by
    simp only [startTurn, Prog.wp_bind, Prog.wp_get, Prog.wp_ite, doPrompt, print,
      Prog.wp_modify, Prog.wp_pure]
    split <;> trivial
  have hscratch := (Prog.wp_iff_of_eq h).mp hwp
  by_cases hargc : c.argc = 0
  · rw [if_pos hargc] at hscratch
    exact .prompted (hspares hargc) hscratch
  · rw [if_neg hargc] at hscratch
    exact ⟨by rw [hscratch], by rw [hscratch]⟩

theorem ringbufGet_eq {rb rb' : Ringbuf} {ch : Int} (h : ringbufGet rb = .ok (ch, rb')) :
    (rb.readi = rb.writei ∧ ch = -1) ∨
      (rb.readi ≠ rb.writei ∧ ch = (rb.bufp rb.readi).toNat) := by
  have hwp := Prog.wp_of_eq (Q := fun r _ => r = ch) h rfl
  simp only [ringbufGet, Prog.wp_bind, Prog.wp_get, Prog.wp_assert, Prog.wp_ite,
    Prog.wp_pure, Prog.wp_modify] at hwp
  obtain ⟨-, hwp⟩ := hwp
  split at hwp
  · next heq => exact .inl ⟨heq, hwp.symm⟩
  · next hne => exact .inr ⟨hne, hwp.symm⟩

theorem consoleGetch_eq {c c' : Console W} {ch : Int}
    (h : consoleGetch c = .ok (ch, c')) :
    SameCursor c c' ∧ c'.bufp = c.bufp ∧ (ch = 3 → nextChar c = some 3) := by
  have hwp := Prog.wp_of_eq (Q := fun r t => r = ch ∧ t = c') h ⟨rfl, rfl⟩
  rw [consoleGetch, onRing, Prog.wp_zoom] at hwp
  obtain ⟨ch', rb, hget, rfl, rfl⟩ := Prog.wp_iff_exists.mp hwp
  refine ⟨.refl _, rfl, fun hch => ?_⟩
  unfold nextChar
  rcases ringbufGet_eq hget with ⟨-, hnone⟩ | ⟨hne, hbyte⟩
  · omega
  · rw [if_neg hne, Option.some_inj, ← UInt8.toNat_inj]
    change _ = 3
    omega

theorem getchTurn_sameCursor {cmds : Commands W} {c c' : Console W} {t : ConsoleTurn}
    (hspares : nextChar c = some 3 → c.bufp < 79 → cursor c = 0)
    (h : getchTurn cmds c = .ok (t, c')) : SameCursor c c' := by
  obtain ⟨ch, c₁, hgetch, hrest⟩ := Prog.bind_eq_ok h
  obtain ⟨hsame, hbufp, hchar⟩ := consoleGetch_eq hgetch
  refine hsame.trans _ _ _ ?_
  dsimp only at hrest
  split at hrest
  · cases hrest
    exact .refl _
  obtain ⟨c₂, c₃, hget, hline⟩ := Prog.bind_eq_ok hrest
  cases hget
  split at hline
  · have hkeeps : Prog.Keeps SameCursor (do
        let line ← doTokenize
        findCommand cmds
        modify fun c => { c with pt := 0, priv := .command }
        return { line := some line } : Prog (Console W) ConsoleTurn) := by
      refine .bind .trans doTokenize_keeps fun line => ?_
      refine .bind .trans (findCommand_keeps cmds) fun _ => ?_
      exact .bind .trans (.modify fun _ => .refl _) fun _ => .pure .refl _
    exact hkeeps _ _ _ hline
  next hgoes =>
  split at hline
  · have hkeeps : Prog.Keeps SameCursor (do
        if (← get).bufp > 0 then
          modify fun c => { c with bufp := c.bufp - 1 }
          print " \x08"
        else
          print " "
        return {} : Prog (Console W) ConsoleTurn) := by
      refine .bind .trans (.get .refl) fun c => ?_
      refine .ite ?_ (.bind .trans (.modify fun _ => .refl _) fun _ => .pure .refl _)
      refine .bind .trans (.modify fun _ => .refl _) fun _ => ?_
      exact .bind .trans (.modify fun _ => .refl _) fun _ => .pure .refl _
    exact hkeeps _ _ _ hline
  split at hline
  · next hctrlc =>
      have hzero := hspares (hchar hctrlc) (by omega)
      have hwp : Prog.wp (do
          print "\n"
          doPrompt
          return {} : Prog (Console W) ConsoleTurn)
          (fun _ c' => c'.scratch = fun _ => 0) c₁ := by
        simp [print, doPrompt]
      exact .prompted (hsame.eq.trans hzero) ((Prog.wp_iff_of_eq hline).mp hwp)
  · have hkeeps : Prog.Keeps SameCursor (do
        storeBuf (← get).bufp (UInt8.ofInt ch)
        modify fun c => { c with bufp := c.bufp + 1 }
        return {} : Prog (Console W) ConsoleTurn) := by
      refine .bind .trans (.get .refl) fun c => ?_
      refine .bind .trans (storeBuf_keeps _ _) fun _ => ?_
      exact .bind .trans (.modify fun _ => .refl _) fun _ => .pure .refl _
    exact hkeeps _ _ _ hline

theorem commandTurn_sameCursor {cmds : Commands W} {c c' : Console W}
    {t : ConsoleTurn} (hspares : if (cmds.fn c.cmd c).1 = .exited ∨
      (cmds.fn c.cmd c).1 = .failed then cursor c = 0
      else SameCursor c (cmds.fn c.cmd c).2)
    (h : commandTurn cmds c = .ok (t, c')) : SameCursor c c' := by
  have hwp : Prog.wp (commandTurn cmds) (fun _ c' => c'.scratch =
      if (cmds.fn c.cmd c).1 = .exited ∨ (cmds.fn c.cmd c).1 = .failed then
        fun _ => 0 else (cmds.fn c.cmd c).2.scratch) c := by
    simp only [commandTurn, Prog.wp_bind, Prog.wp_modifyGet]
    cases (cmds.fn c.cmd c).1 <;> simp [print, doPrompt]
  have hscratch := (Prog.wp_iff_of_eq h).mp hwp
  split at hspares
  · next hdone =>
      rw [if_pos hdone] at hscratch
      exact .prompted hspares hscratch
  · next hmore =>
      rw [if_neg hmore] at hscratch
      exact ⟨by rw [hscratch]; exact hspares.1, by rw [hscratch]; exact hspares.2⟩

theorem consoleTurn_sameCursor {cmds : Commands W} {c c' : Console W}
    {t : ConsoleTurn} (hspares : SparesCursor cmds c)
    (h : consoleTurn cmds c = .ok (t, c')) : SameCursor c c' := by
  unfold SparesCursor at hspares
  obtain ⟨c₁, c₂, hget, h⟩ := Prog.bind_eq_ok h
  cases hget
  cases hpriv : c.priv with
  | start =>
      rw [hpriv] at h hspares
      exact startTurn_sameCursor hspares h
  | getch =>
      rw [hpriv] at h hspares
      exact getchTurn_sameCursor hspares h
  | command =>
      rw [hpriv] at h hspares
      exact commandTurn_sameCursor hspares h

/-! ## One call -/

theorem loadCursor_eq {c c' : Console W} {i : Nat}
    (h : loadCursor c = .ok (i, c')) : i = cursor c ∧ c' = c := by
  cases h
  exact ⟨rfl, rfl⟩

theorem storeCursor_cursor {c c' : Console W} {i : Nat} (hi : i < 65536)
    (h : storeCursor i c = .ok ((), c')) : cursor c' = i := by
  cases h
  have hne : cursorOffset ≠ cursorOffset + 1 := by omega
  simp only [cursor, Function.update_self, Function.update_of_ne hne,
    UInt8.toNat_ofNat']
  omega

theorem onRing_keeps {α : Type} (m : Prog Ringbuf α) :
    Prog.Keeps SameCursor (onRing m : Prog (Console W) α) :=
  .zoom fun c _ _ _ => .refl c

/-- A call puts what follows the cursor, and moves the cursor behind it. -/
structure Puts (cmd : List UInt8) (c : Console W) (put : List UInt8) (res : PtState)
    (c' : Console W) : Prop where
  cursor_eq : cursor c' = cursor c + put.length
  put_prefix : put <+: cmd.drop (cursor c)
  exited : res = .exited → put = cmd.drop (cursor c)
  result : res = .exited ∨ res = .yielded

theorem evalLoop_puts {cmd : List UInt8} (hnul : 0 ∉ cmd) (hlen : cmd.length < 65536)
    {fuel : Nat} {c c' : Console W} {put : List UInt8} {res : PtState}
    (hcursor : cursor c ≤ cmd.length)
    (h : evalLoop cmd fuel c = .ok ((put, res), c')) : Puts cmd c put res c' := by
  induction fuel generalizing c put with
  | zero => exact nomatch h
  | succ fuel ih =>
      obtain ⟨i, c₁, hload, hbody⟩ := Prog.bind_eq_ok h
      obtain ⟨hi, hc⟩ := loadCursor_eq hload
      rw [hi, hc] at hbody
      rcases Nat.eq_or_lt_of_le hcursor with hend | hmore
      · have hzero : (cmd ++ [0])[cursor c]? = some 0 := by
          rw [hend, List.getElem?_append_right (Nat.le_refl _)]
          simp
        have hdone : cmd.drop (cursor c) = [] := by rw [hend, List.drop_length]
        rw [hzero] at hbody
        cases hbody
        exact ⟨rfl, List.nil_prefix, fun _ => hdone.symm, .inl rfl⟩
      · have hbyte : (cmd ++ [0])[cursor c]? = some cmd[cursor c] := by
          rw [List.getElem?_append_left hmore, List.getElem?_eq_getElem hmore]
        have hne : cmd[cursor c] ≠ 0 := fun heq => hnul (heq ▸ List.getElem_mem hmore)
        rw [hbyte] at hbody
        dsimp only at hbody
        rw [if_neg hne] at hbody
        obtain ⟨room, c₂, hput, hbody⟩ := Prog.bind_eq_ok hbody
        have hsame := (onRing_keeps _ _ _ _ hput).eq
        cases room with
        | false =>
            cases hbody
            exact ⟨hsame, List.nil_prefix, nofun, .inr rfl⟩
        | true =>
            simp only [if_true] at hbody
            obtain ⟨i, c₃, hload, hbody⟩ := Prog.bind_eq_ok hbody
            obtain ⟨hi, hc⟩ := loadCursor_eq hload
            rw [hi, hc] at hbody
            obtain ⟨_, c₄, hstore, hbody⟩ := Prog.bind_eq_ok hbody
            obtain ⟨⟨put', res'⟩, c₅, hloop, hreturn⟩ := Prog.bind_eq_ok hbody
            cases hreturn
            have hnext : cursor c₄ = cursor c + 1 := by
              rw [← hsame]
              exact storeCursor_cursor (by omega) hstore
            have hputs := ih (by omega) hloop
            have hdrop : cmd.drop (cursor c) = cmd[cursor c] :: cmd.drop (cursor c₄) := by
              rw [hnext, List.drop_eq_getElem_cons hmore]
            refine ⟨?_, ?_, fun hres => ?_, hputs.result⟩
            · rw [hputs.cursor_eq, hnext]
              simp only [List.length_cons]
              omega
            · rw [hdrop]
              exact (List.prefix_cons_inj _).mpr hputs.put_prefix
            · rw [hdrop, ← hputs.exited hres]

theorem consoleEval_puts {cmd : List UInt8} (hnul : 0 ∉ cmd)
    (hlen : cmd.length < 65536) {fuel : Nat} {c c' : Console W} {pt : EvalPoint}
    {put : List UInt8} {res : PtState} {done : Nat}
    (hpt : (pt = .start ∧ done = 0) ∨ (pt = .yielded ∧ cursor c = done))
    (hdone : done ≤ cmd.length)
    (h : consoleEval cmd fuel pt c = .ok ((put, res), c')) :
    cursor c' = done + put.length ∧ put <+: cmd.drop done ∧
      (res = .exited → put = cmd.drop done) ∧ (res = .exited ∨ res = .yielded) := by
  rcases hpt with ⟨rfl, rfl⟩ | ⟨rfl, rfl⟩
  · obtain ⟨_, c₁, hstore, hloop⟩ := Prog.bind_eq_ok h
    have hzero : cursor c₁ = 0 := storeCursor_cursor (by omega) hstore
    have hputs := evalLoop_puts hnul hlen (by omega) hloop
    rw [← hzero]
    exact ⟨hputs.cursor_eq, hputs.put_prefix, hputs.exited, hputs.result⟩
  · have hputs := evalLoop_puts hnul hlen hdone h
    exact ⟨hputs.cursor_eq, hputs.put_prefix, hputs.exited, hputs.result⟩

/-! ## Runs -/

/-- The console and the protothread of `console_eval`, which is at no point
after it returned `PT_EXITED`. -/
structure Injector (W : Type) where
  console : Console W
  point : Option EvalPoint

inductive InjectLabel where
  | eval (put : List UInt8) (res : PtState)
  | turn (t : ConsoleTurn)
  | other
  deriving DecidableEq, Repr

inductive InjectStep (cmds : Commands W) (cmd : List UInt8) :
    Injector W → InjectLabel → Injector W → Prop
  | eval {c c' pt fuel put res} :
      consoleEval cmd fuel pt c = .ok ((put, res), c') →
      InjectStep cmds cmd ⟨c, some pt⟩ (.eval put res)
        ⟨c', if res = .exited then none else some .yielded⟩
  | turn {c c' point t} : consoleTurn cmds c = .ok (t, c') →
      InjectStep cmds cmd ⟨c, point⟩ (.turn t) ⟨c', point⟩
  | other {c point world} :
      InjectStep cmds cmd ⟨c, point⟩ .other ⟨{ c with world }, point⟩

/-- While `console_eval` is suspended, the console takes only turns that spare
the cursor. -/
def SparingStep (cmds : Commands W) (cmd : List UInt8) (s : Injector W)
    (l : InjectLabel) (s' : Injector W) : Prop :=
  InjectStep cmds cmd s l s' ∧
    ∀ t, l = .turn t → s.point = some .yielded → SparesCursor cmds s.console

def InjectLabel.put : InjectLabel → List UInt8
  | .eval put _ => put
  | _ => []

def bytesPut (ls : List InjectLabel) : List UInt8 := ls.flatMap InjectLabel.put

def Injected (cmd : List UInt8) (ls : List InjectLabel) (s : Injector W) : Prop :=
  bytesPut ls <+: cmd ∧
    match s.point with
    | none => bytesPut ls = cmd
    | some .start => bytesPut ls = []
    | some .yielded => cursor s.console = (bytesPut ls).length

theorem Injected.step {cmds : Commands W} {cmd : List UInt8} (hnul : 0 ∉ cmd)
    (hlen : cmd.length < 65536) {ls : List InjectLabel} {s s' : Injector W}
    {l : InjectLabel} (h : Injected cmd ls s) (hstep : SparingStep cmds cmd s l s') :
    Injected cmd (ls ++ [l]) s' := by
  obtain ⟨hfront, hpoint⟩ := h
  obtain ⟨rest, hrest⟩ := hfront
  obtain ⟨hstep, hspares⟩ := hstep
  have hbytes : bytesPut (ls ++ [l]) = bytesPut ls ++ l.put := by
    simp [bytesPut]
  unfold Injected
  rw [hbytes]
  cases hstep with
  | @eval c c' pt fuel put res heval =>
      have hpt : (pt = .start ∧ (bytesPut ls).length = 0) ∨
          (pt = .yielded ∧ cursor c = (bytesPut ls).length) := by
        cases pt with
        | start => exact .inl ⟨rfl, by rw [hpoint]; rfl⟩
        | yielded => exact .inr ⟨rfl, hpoint⟩
      have hdone : (bytesPut ls).length ≤ cmd.length := by
        rw [← hrest, List.length_append]
        omega
      obtain ⟨hcursor, hput, hexited, hres⟩ :=
        consoleEval_puts hnul hlen hpt hdone heval
      have hdrop : cmd.drop (bytesPut ls).length = rest := by
        rw [← hrest, List.drop_left]
      rw [hdrop] at hput hexited
      change bytesPut ls ++ put <+: cmd ∧ _
      refine ⟨?_, ?_⟩
      · rw [← hrest]
        exact (List.prefix_append_right_inj _).mpr hput
      · rcases hres with rfl | rfl
        · rw [if_pos rfl]
          exact (hexited rfl) ▸ hrest
        · simp only [reduceCtorEq, if_false]
          rw [List.length_append]
          exact hcursor
  | @turn c c' point t hturn =>
      have hnone : InjectLabel.put (.turn t) = [] := rfl
      rw [hnone, List.append_nil]
      refine ⟨⟨rest, hrest⟩, ?_⟩
      cases point with
      | none => exact hpoint
      | some pt =>
          cases pt with
          | start => exact hpoint
          | yielded =>
              have hsame := consoleTurn_sameCursor (hspares t rfl rfl) hturn
              exact hsame.eq.trans hpoint
  | other =>
      have hnone : InjectLabel.put .other = [] := rfl
      rw [hnone, List.append_nil]
      exact ⟨⟨rest, hrest⟩, hpoint⟩

instance (c c' : Console W) : Decidable (SameCursor c c') :=
  inferInstanceAs (Decidable (_ ∧ _))

instance (cmds : Commands W) (c : Console W) : Decidable (SparesCursor cmds c) :=
  match h : c.priv with
  | .start => decidable_of_iff (c.argc = 0 → cursor c = 0) (by rw [SparesCursor, h])
  | .getch => decidable_of_iff (nextChar c = some 3 → c.bufp < 79 → cursor c = 0)
      (by rw [SparesCursor, h])
  | .command => decidable_of_iff
      (if (cmds.fn c.cmd c).1 = .exited ∨ (cmds.fn c.cmd c).1 = .failed then
        cursor c = 0 else SameCursor c (cmds.fn c.cmd c).2) (by rw [SparesCursor, h])

/-- Call `console_eval`, or take a turn of the console; while `console_eval` is
suspended, only in states that are `good`. -/
def driveInjector (cmds : Commands W) (cmd : List UInt8) (good : Console W → Bool) :
    List Bool → Injector W → Option (List InjectLabel × Injector W)
  | [], s => some ([], s)
  | true :: acts, s =>
      match s.point with
      | none => none
      | some pt =>
          match consoleEval cmd 20 pt s.console with
          | .ok ((put, res), c') =>
              (driveInjector cmds cmd good acts
                ⟨c', if res = .exited then none else some .yielded⟩).map
                  fun r => (.eval put res :: r.1, r.2)
          | .error _ => none
  | false :: acts, s =>
      if s.point = some .yielded → good s.console then
        match consoleTurn cmds s.console with
        | .ok (t, c') =>
            (driveInjector cmds cmd good acts ⟨c', s.point⟩).map
              fun r => (.turn t :: r.1, r.2)
        | .error _ => none
      else none

theorem driveInjector_run {cmds : Commands W} {cmd : List UInt8}
    {good : Console W → Bool} {acts : List Bool} {s s' : Injector W}
    {ls : List InjectLabel}
    (h : driveInjector cmds cmd good acts s = some (ls, s')) :
    Run (fun s l s' => InjectStep cmds cmd s l s' ∧
      ∀ t, l = .turn t → s.point = some .yielded → good s.console) s ls s' := by
  induction acts generalizing s ls with
  | nil =>
      cases h
      exact .nil
  | cons act acts ih =>
      obtain ⟨c, point⟩ := s
      cases act with
      | true =>
          rw [driveInjector] at h
          cases point with
          | none => cases h
          | some pt =>
              dsimp only at h
              split at h
              · next put res c₁ heval =>
                  obtain ⟨⟨ls, s₂⟩, hrest, heq⟩ := Option.map_eq_some_iff.mp h
                  cases heq
                  exact .cons ⟨.eval heval, nofun⟩ (ih hrest)
              · cases h
      | false =>
          rw [driveInjector] at h
          split at h
          · next hgood =>
              split at h
              · next t c₁ hturn =>
                  obtain ⟨⟨ls, s₂⟩, hrest, heq⟩ := Option.map_eq_some_iff.mp h
                  cases heq
                  exact .cons ⟨.turn hturn, fun _ _ => hgood⟩ (ih hrest)
              · cases h
          · cases h

theorem console_eval_exact {cmds : Commands W} {cmd : List UInt8} (hnul : 0 ∉ cmd)
    (hlen : cmd.length < 65536) {c₀ : Console W} {ls : List InjectLabel}
    {s : Injector W} (hrun : Run (SparingStep cmds cmd) ⟨c₀, some .start⟩ ls s) :
    bytesPut ls <+: cmd ∧ (s.point = none → bytesPut ls = cmd) := by
  have hinit : Injected cmd [] (⟨c₀, some .start⟩ : Injector W) :=
    ⟨List.nil_prefix, rfl⟩
  obtain ⟨hfront, hpoint⟩ :=
    hrun.traceInvariant hinit fun _ _ _ _ h hstep => h.step hnul hlen hstep
  refine ⟨hfront, fun hnone => ?_⟩
  rw [hnone] at hpoint
  exact hpoint

/-- Sixteen letters find room when the console has taken the first. -/
theorem console_eval_letters : ∃ ls s,
    Run (SparingStep exitCommands (List.replicate 16 97))
      ⟨consoleInit (), some .start⟩ ls s ∧ s.point = none ∧
      bytesPut ls <+: List.replicate 16 97 ∧
      (s.point = none → bytesPut ls = List.replicate 16 97) := by
  have hpoint : (driveInjector exitCommands (List.replicate 16 97)
      (fun c => SparesCursor exitCommands c) [false, true, false, true]
      ⟨consoleInit (), some .start⟩).map (fun r => r.2.point) = some none := by
    decide +kernel
  obtain ⟨⟨ls, s⟩, hdrive, hexited⟩ := Option.map_eq_some_iff.mp hpoint
  have hrun : Run (SparingStep exitCommands (List.replicate 16 97))
      ⟨consoleInit (), some .start⟩ ls s :=
    (driveInjector_run hdrive).mono fun _ _ _ _ h =>
      ⟨h.1, fun t hl hy => of_decide_eq_true (h.2 t hl hy)⟩
  exact ⟨ls, s, hrun, hexited,
    console_eval_exact (by decide) (by decide) hrun⟩

def promptedCmd : List UInt8 :=
  [10, 97, 98, 99, 100, 101, 102, 103, 104, 105, 106, 107, 108, 109, 110, 111, 112]

/-- The console takes the newline, the command exits, and the prompt sets the
cursor back: the newline is put once more. -/
theorem console_eval_restarts : 0 ∉ promptedCmd ∧ promptedCmd.length < 65536 ∧
    ∃ ls s, Run (InjectStep exitCommands promptedCmd)
        ⟨consoleInit (), some .start⟩ ls s ∧
      bytesPut ls = promptedCmd.take 15 ++ [10] ∧ ¬ bytesPut ls <+: promptedCmd := by
  refine ⟨by decide, by decide, ?_⟩
  have hbytes : (driveInjector exitCommands promptedCmd (fun _ => true)
      [false, true, false, false, true] ⟨consoleInit (), some .start⟩).map
        (fun r => bytesPut r.1) = some (promptedCmd.take 15 ++ [10]) := by
    decide +kernel
  obtain ⟨⟨ls, s⟩, hdrive, hput⟩ := Option.map_eq_some_iff.mp hbytes
  refine ⟨ls, s, (driveInjector_run hdrive).mono fun _ _ _ _ h => h.1, hput, ?_⟩
  rw [hput]
  decide +kernel

end Librfn
