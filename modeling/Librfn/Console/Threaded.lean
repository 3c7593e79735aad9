import Librfn.Protothreads.Sequential
import Librfn.Console.Register

/-!
# `console_run` as the macros expand it

`consoleRun` goes from one point of `console_run` to the next.  Here the body is
written with the macros, and the expansion is shown to do the same in a call.
-/

namespace Librfn

open Librfn.Logic Protothread

variable {W : Type}

/-- What `console_run` uses: its console and the local `ch`, which every call
assigns before it reads it. -/
structure RunVars (W : Type) where
  console : Console W
  ch : Int

def withConsole (console : Console W) (l : Locals (RunVars W)) : Locals (RunVars W) :=
  { l with vars := { l.vars with console } }

def onConsole {α : Type} (m : Prog (Console W) α) : Code (Locals (RunVars W)) α :=
  .lift (Prog.zoom (fun l => l.vars.console) withConsole m)

def assignCh : Code (Locals (RunVars W)) Bool :=
  (onConsole consoleGetch).bind fun ch =>
    (Code.lift (modify fun l => { l with vars := { l.vars with ch } })).bind fun _ =>
      .pure (ch ≠ -1)

def testCh (p : Int → Console W → Bool) : Code (Locals (RunVars W)) Bool :=
  .lift do
    let l ← get
    return p l.vars.ch l.vars.console

/-- `fibre.priv` has the line that is saved; `Console.priv` stands for it. -/
def setPriv (priv : ConsolePoint) : Code (Locals (RunVars W)) Unit :=
  onConsole (modify fun c => { c with priv })

def failedThread : Code (Locals (RunVars W)) Bool :=
  ptChildOk.bind fun ok => .pure !ok

def runAfterCommand : Thread (RunVars W) :=
  .seq (.ite failedThread (.act (onConsole (print "Command failed\n"))) .skip)
    (.act (onConsole doPrompt))

def commandThread (cmds : Commands W) : Code (Locals (RunVars W)) PtState :=
  onConsole (modifyGet fun c => cmds.fn c.cmd c)

def runChar (cmds : Commands W) : Thread (RunVars W) :=
  .ite (testCh fun ch c => ch = 10 ∨ c.bufp ≥ 79)
    (.seq (.act (onConsole do let _ ← doTokenize))
      (.seq (.act (onConsole (findCommand cmds)))
        (.seq
          (.spawn 235 (onConsole (modify fun c => { c with pt := 0, priv := .command }))
            (commandThread cmds))
          runAfterCommand)))
    (.ite (testCh fun ch _ => ch = 8)
      (.ite (testCh fun _ c => c.bufp > 0)
        (.act (onConsole do
          modify fun c => { c with bufp := c.bufp - 1 }
          print " \x08"))
        (.act (onConsole (print " "))))
      (.ite (testCh fun ch _ => ch = 3)
        (.act (onConsole do
          print "\n"
          doPrompt))
        (.ite (testCh fun ch _ => ch ≠ 10)
          (.act ((Code.lift get).bind fun l => onConsole do
            storeBuf (← get).bufp (UInt8.ofInt l.vars.ch)
            modify fun c => { c with bufp := c.bufp + 1 }))
          .skip)))

def runTurn (cmds : Commands W) : Thread (RunVars W) :=
  .seq (.act (setPriv .getch)) (.seq (.waitUntil 230 assignCh) (runChar cmds))

def runLoop (cmds : Commands W) : Thread (RunVars W) := .loop (.pure true) (runTurn cmds)

def runBody (cmds : Commands W) : Thread (RunVars W) :=
  .seq
    (.ite (testCh fun _ c => c.argc = 0) (.act (onConsole doPrompt))
      (.act (onConsole (modify fun c => { c with bufp := 0 }))))
    (runLoop cmds)

def ConsolePoint.line : ConsolePoint → BitVec 16
  | .start => 0
  | .getch => 230
  | .command => 235

theorem runBody_compiles (cmds : Commands W) : (runBody cmds).Compiles := by
  refine ⟨⟨?_, ?_⟩, ?_⟩ <;>
    simp [runBody, runLoop, runTurn, runChar, runAfterCommand, Thread.lines]

/-! ## The turns of `consoleRun`, one iteration of the loop at a time -/

def ServesIn (cmds : Commands W) (fuel : Nat) (c : Console W) (res : PtState)
    (c' : Console W) : Prop :=
  Prog.wp (consoleRun cmds fuel) (fun r c₁ => r.2 = res ∧ c₁ = c') c

def Serves (cmds : Commands W) (c : Console W) (res : PtState) (c' : Console W) : Prop :=
  ∃ fuel, ServesIn cmds fuel c res c'

/-- What is left of a call after a part of it. -/
def ServesNext (cmds : Commands W) (res : PtState) (c' : Console W) (o : Option PtState)
    (c : Console W) : Prop :=
  match o with
  | none => Serves cmds c res c'
  | some r => r = res ∧ c = c'

def branch {α : Type} (p : Console W → Bool) (m n : Prog (Console W) α) :
    Prog (Console W) α :=
  fun c => if p c then m c else n c

@[simp] theorem wp_branch {α : Type} (p : Console W → Bool) (m n : Prog (Console W) α)
    (Q : α → Console W → Prop) (c : Console W) :
    Prog.wp (branch p m n) Q c ↔ if p c then Prog.wp m Q c else Prog.wp n Q c := by
  cases hp : p c <;> simp [branch, Prog.wp, hp]

def commandIteration (cmds : Commands W) : Prog (Console W) (Option PtState) := do
  let res ← modifyGet fun c => cmds.fn c.cmd c
  if active res then
    return some res
  else
    if res = .failed then
      print "Command failed\n"
    doPrompt
    return none

def charIteration (cmds : Commands W) (ch : Int) : Prog (Console W) (Option PtState) :=
  branch (fun c => ch = 10 ∨ c.bufp ≥ 79)
    (do
      let _ ← doTokenize
      findCommand cmds
      modify fun c => { c with pt := 0, priv := .command }
      commandIteration cmds)
    (branch (fun _ => ch = 8)
      (branch (fun c => c.bufp > 0)
        (do
          modify fun c => { c with bufp := c.bufp - 1 }
          print " \x08"
          return none)
        (do
          print " "
          return none))
      (branch (fun _ => ch = 3)
        (do
          print "\n"
          doPrompt
          return none)
        (branch (fun _ => ch ≠ 10)
          (do
            storeBuf (← get).bufp (UInt8.ofInt ch)
            modify fun c => { c with bufp := c.bufp + 1 }
            return none)
          (return none))))

def getchIteration (cmds : Commands W) : Prog (Console W) (Option PtState) := do
  let ch ← consoleGetch
  if ch = -1 then
    return some .waiting
  else charIteration cmds ch

def startIteration : Prog (Console W) (Option PtState) :=
  branch (fun c => c.argc = 0)
    (do
      doPrompt
      return none)
    (do
      modify fun c => { c with bufp := 0 }
      return none)

def ConsolePoint.iteration (cmds : Commands W) :
    ConsolePoint → Prog (Console W) (Option PtState)
  | .start => startIteration
  | .getch => getchIteration cmds
  | .command => commandIteration cmds

theorem wp_congr {α σ : Type} {m : Prog σ α} {P Q : α → σ → Prop} {s : σ}
    (h : ∀ a s', P a s' ↔ Q a s') : Prog.wp m P s ↔ Prog.wp m Q s :=
  ⟨fun hP => Prog.wp_mono hP fun a s' => (h a s').mp,
    fun hQ => Prog.wp_mono hQ fun a s' => (h a s').mpr⟩

section Serves

variable {cmds : Commands W} {c c' : Console W} {res : PtState}

theorem servesIn_succ {fuel : Nat} : ServesIn cmds (fuel + 1) c res c' ↔
    Prog.wp (consoleTurn cmds) (fun turn c₁ =>
      match turn.result with
      | none => ServesIn cmds fuel c₁ res c'
      | some r => r = res ∧ c₁ = c') c := by
  unfold ServesIn
  rw [consoleRun, Prog.wp_bind]
  apply wp_congr
  rintro ⟨line, result⟩ c₁
  cases result with
  | none => simp
  | some r => simp

theorem serves_iff : Serves cmds c res c' ↔
    Prog.wp (consoleTurn cmds) (fun turn => ServesNext cmds res c' turn.result) c := by
  constructor
  · rintro ⟨fuel, h⟩
    cases fuel with
    | zero => exact h.elim
    | succ fuel =>
        apply Prog.wp_mono (servesIn_succ.mp h)
        rintro ⟨line, result⟩ c₁ hrest
        cases result with
        | none => exact ⟨fuel, hrest⟩
        | some r => exact hrest
  · intro h
    obtain ⟨⟨line, result⟩, c₁, hturn, hnext⟩ := Prog.wp_iff_exists.mp h
    cases result with
    | none =>
        obtain ⟨fuel, hrest⟩ := hnext
        exact ⟨fuel + 1, servesIn_succ.mpr (Prog.wp_of_eq hturn hrest)⟩
    | some r => exact ⟨1, servesIn_succ.mpr (Prog.wp_of_eq hturn hnext)⟩

theorem serves_command (hpriv : c.priv = .command) : Serves cmds c res c' ↔
    Prog.wp (commandIteration cmds) (fun o c₁ => ServesNext cmds res c' o
      (if o.isSome then c₁ else { c₁ with priv := .getch })) c := by
  rw [serves_iff]
  simp only [consoleTurn, Prog.wp_bind, Prog.wp_get, hpriv, commandTurn, commandIteration,
    Prog.wp_modifyGet]
  cases (cmds.fn c.cmd c).1 with
  | yielded => simp [active, ServesNext]
  | waiting => simp [active, ServesNext]
  | exited => simp [active, ServesNext]
  | failed => simp [active, ServesNext]

theorem serves_getch (hpriv : c.priv = .getch) : Serves cmds c res c' ↔
    Prog.wp (getchIteration cmds) (fun o c₁ => ServesNext cmds res c' o
      (if o.isSome then c₁ else { c₁ with priv := .getch })) c := by
  rw [serves_iff]
  simp only [consoleTurn, Prog.wp_bind, Prog.wp_get, hpriv, getchTurn, getchIteration,
    consoleGetch, onRing, Prog.wp_zoom]
  apply wp_congr
  intro ch ring
  simp only [Prog.wp_ite, charIteration, wp_branch, Prog.wp_bind, Prog.wp_get]
  split
  · simp [ServesNext]
  next hch =>
  simp only [decide_eq_true_eq]
  split
  · apply wp_congr
    intro line c₁
    apply wp_congr
    intro _ c₂
    simp only [Prog.wp_modify, Prog.wp_pure]
    exact serves_command rfl
  split
  · split <;> simp [ServesNext, print]
  split
  · simp [ServesNext, print, doPrompt]
  next hline _ _ =>
  have hne : ch ≠ 10 := fun h => hline (.inl h)
  simp [hne, storeBuf, ServesNext]

/-- `ServesNext` with a bound on the turns that are left. -/
def ServesWithin (cmds : Commands W) (fuel : Nat) (res : PtState) (c' : Console W)
    (o : Option PtState) (c : Console W) : Prop :=
  match o with
  | none => ∃ n ≤ fuel, ServesIn cmds n c res c'
  | some r => r = res ∧ c = c'

theorem ServesIn.command {fuel : Nat} (h : ServesIn cmds fuel c res c')
    (hpriv : c.priv = .command) :
    Prog.wp (commandIteration cmds) (fun o c₁ => ServesWithin cmds fuel res c' o
      (if o.isSome then c₁ else { c₁ with priv := .getch })) c := by
  cases fuel with
  | zero => exact h.elim
  | succ fuel =>
      rw [servesIn_succ] at h
      have hle := Nat.le_succ fuel
      simp only [consoleTurn, Prog.wp_bind, Prog.wp_get, hpriv, commandTurn, commandIteration,
        Prog.wp_modifyGet] at h ⊢
      cases hres : (cmds.fn c.cmd c).1 with
      | yielded => simpa [hres, active, ServesWithin] using h
      | waiting => simpa [hres, active, ServesWithin] using h
      | exited =>
          simp [hres, active, ServesWithin] at h ⊢
          exact ⟨fuel, hle, h⟩
      | failed =>
          simp [hres, active, ServesWithin] at h ⊢
          exact ⟨fuel, hle, h⟩

theorem ServesIn.getch {fuel : Nat} (h : ServesIn cmds (fuel + 1) c res c')
    (hpriv : c.priv = .getch) :
    Prog.wp (getchIteration cmds) (fun o c₁ => ServesWithin cmds fuel res c' o
      (if o.isSome then c₁ else { c₁ with priv := .getch })) c := by
  rw [servesIn_succ] at h
  simp only [consoleTurn, Prog.wp_bind, Prog.wp_get, hpriv, getchTurn, getchIteration,
    consoleGetch, onRing, Prog.wp_zoom] at h ⊢
  apply Prog.wp_mono h
  intro ch ring
  simp only [Prog.wp_ite, charIteration, wp_branch, Prog.wp_bind, Prog.wp_get]
  split
  · simp [ServesWithin]
  next hch =>
  simp only [decide_eq_true_eq]
  split
  · intro hline
    apply Prog.wp_mono hline
    intro line c₁ hfind
    apply Prog.wp_mono hfind
    intro _ c₂ hcommand
    exact ServesIn.command hcommand rfl
  have hstay : ∀ c₁, ServesIn cmds fuel c₁ res c' → ∃ n ≤ fuel, ServesIn cmds n c₁ res c' :=
    fun c₁ h => ⟨fuel, Nat.le_refl fuel, h⟩
  split
  · split
    · simpa [ServesWithin, print] using hstay _
    · simpa [ServesWithin, print] using hstay _
  split
  · simpa [ServesWithin, print, doPrompt] using hstay _
  next hline _ _ =>
  have hne : ch ≠ 10 := fun h => hline (.inl h)
  simp [hne, storeBuf, ServesWithin]
  intro hlt h
  exact ⟨hlt, hstay _ h⟩

end Serves

/-! ## The thread shadows the iterations -/

/-- The console of the thread is the console, and the thread is left at a point
of which `P` holds. -/
def Shadowed (P : Suspended (RunVars W) → Console W → Prop) (o : Option (Leave (RunVars W)))
    (l : Locals (RunVars W)) (res : Option PtState) (c : Console W) : Prop :=
  l.vars.console = c ∧ res = o.map Leave.result ∧
    ∀ left ∈ o, ∃ k, left.rest = some k ∧ P k c

abbrev Shadows (P : Suspended (RunVars W) → Console W → Prop) (fuel : Nat)
    (m : Running (RunVars W)) (n : Prog (Console W) (Option PtState))
    (l : Locals (RunVars W)) : Prop :=
  Prog.Coupled (m.run fuel) n (Shadowed P) l l.vars.console

section Shadows

variable {P : Suspended (RunVars W) → Console W → Prop} {fuel : Nat} {l : Locals (RunVars W)}

theorem onConsole_run {α : Type} (m : Prog (Console W) α) (fuel : Nat)
    (l : Locals (RunVars W)) :
    (onConsole m).run fuel l = match m l.vars.console with
      | .ok (a, c) => .ok (a, withConsole c l)
      | .error e => .error e := by
  unfold onConsole Code.lift
  dsimp only
  unfold Prog.zoom
  cases m l.vars.console <;> rfl

theorem onConsole_coupled {α : Type} (m : Prog (Console W) α) (fuel : Nat)
    (l : Locals (RunVars W)) :
    Prog.Coupled ((onConsole m).run fuel) m
      (fun a l' b c => b = a ∧ l'.vars.console = c ∧ l'.vars.ch = l.vars.ch ∧
        l'.spawnRes = l.spawnRes) l l.vars.console := by
  have hzoom := @Prog.Coupled.zoom _ _ _ (fun l => l.vars.console) withConsole m l
    (fun a c b l' => b = a ∧ l'.vars.console = c ∧ l'.vars.ch = l.vars.ch ∧
      l'.spawnRes = l.spawnRes) fun a c => ⟨rfl, rfl, rfl, rfl⟩
  exact hzoom.symm.mono fun _ _ _ _ h => ⟨h.1.symm, h.2⟩

theorem shadows_none {l : Locals (RunVars W)} :
    Shadows P fuel (.pure none) (pure none) l :=
  ⟨rfl, rfl, fun _ h => by cases h⟩

theorem shadows_act (m : Prog (Console W) Unit) :
    Shadows P fuel (Thread.act (onConsole m)).run (m >>= fun _ => pure none) l := by
  apply (onConsole_coupled m fuel l).bind
  rintro _ l' _ _ ⟨-, rfl, -, -⟩
  exact shadows_none

theorem shadows_act_seq {m : Prog (Console W) Unit} {t : Thread (RunVars W)}
    {n : Prog (Console W) (Option PtState)}
    (h : ∀ l', l'.vars.ch = l.vars.ch → l'.spawnRes = l.spawnRes → Shadows P fuel t.run n l') :
    Shadows P fuel (Thread.seq (.act (onConsole m)) t).run (m >>= fun _ => n) l := by
  have hact : Prog.Coupled ((before t (Thread.act (onConsole m)).run).run fuel) (m >>= pure)
      (fun o l' _ c => o = none ∧ l'.vars.console = c ∧ l'.vars.ch = l.vars.ch ∧
        l'.spawnRes = l.spawnRes) l l.vars.console := by
    have hbefore : (before t (Thread.act (onConsole m)).run).run fuel =
        (onConsole m).run fuel >>= fun _ => pure none := by
      change ((_ >>= _) >>= _) = _
      rw [bind_assoc]
      rfl
    rw [hbefore]
    apply (onConsole_coupled m fuel l).bind
    rintro _ l' _ _ ⟨-, rfl, hch, hres⟩
    exact ⟨rfl, rfl, hch, hres⟩
  rw [bind_pure] at hact
  apply hact.bind
  rintro _ l' _ _ ⟨rfl, rfl, hch, hres⟩
  exact h l' hch hres

theorem shadows_ite {p : Int → Console W → Bool} {t u : Thread (RunVars W)}
    {m n : Prog (Console W) (Option PtState)} (ht : Shadows P fuel t.run m l)
    (hu : Shadows P fuel u.run n l) :
    Shadows P fuel (Thread.ite (testCh p) t u).run (branch (p l.vars.ch) m n) l := by
  have hrun : (Thread.ite (testCh p) t u).run.run fuel l =
      (if p l.vars.ch l.vars.console then t.run else u.run).run fuel l := rfl
  unfold Shadows Prog.Coupled at ht hu ⊢
  rw [hrun]
  cases hp : p l.vars.ch l.vars.console with
  | true => simpa [branch, hp] using ht
  | false => simpa [branch, hp] using hu

def afterSpawn (cmds : Commands W) : Suspended (RunVars W) :=
  .within (.awaiting (commandThread cmds)) runAfterCommand

theorem shadows_command {cmds : Commands W}
    (hcmds : ∀ cmd c, (cmds.fn cmd c).2.priv = c.priv) (hpriv : l.vars.console.priv = .command) :
    Shadows (fun k c => k = afterSpawn cmds ∧ c.priv = .command) fuel
      (afterSpawn cmds).resume (commandIteration cmds) l := by
  have hkeep := hcmds l.vars.console.cmd l.vars.console
  rw [hpriv] at hkeep
  generalize hfn : cmds.fn l.vars.console.cmd l.vars.console = r at hkeep
  obtain ⟨res, c₁⟩ := r
  have hassign : (assignSpawnRes (commandThread cmds)).run fuel l =
      .ok ((), ⟨res, ⟨c₁, l.vars.ch⟩⟩) := by
    have hrun : (assignSpawnRes (commandThread cmds)).run fuel l =
        .ok ((), ⟨(cmds.fn l.vars.console.cmd l.vars.console).1,
          ⟨(cmds.fn l.vars.console.cmd l.vars.console).2, l.vars.ch⟩⟩) := rfl
    rw [hrun, hfn]
  have hleft : ∀ o l', ((before runAfterCommand
        (if h : active res = true then suspend res (.awaiting (commandThread cmds)) h
          else .pure none)).andThen runAfterCommand.run).run fuel ⟨res, ⟨c₁, l.vars.ch⟩⟩ =
        .ok (o, l') → (afterSpawn cmds).resume.run fuel l = .ok (o, l') := by
    intro o l' h
    rw [← h]
    simp only [afterSpawn, Suspended.resume, Code.andThen, before, await, Code.run_bind,
      hassign, Code.run_get]
  have hright : ∀ o c', (if active res then pure (some res) else do
        if res = .failed then print "Command failed\n"
        doPrompt
        return none : Prog (Console W) (Option PtState)) c₁ = .ok (o, c') →
      commandIteration cmds l.vars.console = .ok (o, c') := by
    intro o c' h
    rw [← h]
    have hrun : commandIteration cmds l.vars.console =
        (if active (cmds.fn l.vars.console.cmd l.vars.console).1 then
          pure (some (cmds.fn l.vars.console.cmd l.vars.console).1) else do
        if (cmds.fn l.vars.console.cmd l.vars.console).1 = .failed then print "Command failed\n"
        doPrompt
        return none : Prog (Console W) (Option PtState))
          (cmds.fn l.vars.console.cmd l.vars.console).2 := rfl
    rw [hrun, hfn]
  cases res with
  | yielded =>
      refine .of_ok (hleft _ _ rfl) (hright _ _ rfl) ⟨rfl, rfl, fun left hmem => ?_⟩
      cases hmem
      exact ⟨_, rfl, rfl, hkeep⟩
  | waiting =>
      refine .of_ok (hleft _ _ rfl) (hright _ _ rfl) ⟨rfl, rfl, fun left hmem => ?_⟩
      cases hmem
      exact ⟨_, rfl, rfl, hkeep⟩
  | exited =>
      exact .of_ok (hleft _ _ rfl) (hright _ _ rfl) ⟨rfl, rfl, fun _ h => by cases h⟩
  | failed =>
      exact .of_ok (hleft _ _ rfl) (hright _ _ rfl) ⟨rfl, rfl, fun _ h => by cases h⟩

abbrev AtCommand (cmds : Commands W) (k : Suspended (RunVars W)) (c : Console W) : Prop :=
  k = afterSpawn cmds ∧ c.priv = .command

theorem shadows_spawn {cmds : Commands W} (hcmds : ∀ cmd c, (cmds.fn cmd c).2.priv = c.priv) :
    Shadows (AtCommand cmds) fuel
      (Thread.seq
        (.spawn 235 (onConsole (modify fun c => { c with pt := 0, priv := .command }))
          (commandThread cmds))
        runAfterCommand).run
      (modify (fun c => { c with pt := 0, priv := .command }) >>= fun _ => commandIteration cmds)
      l := by
  have hleft : (Thread.seq
      (.spawn 235 (onConsole (modify fun c => { c with pt := 0, priv := .command }))
        (commandThread cmds))
      runAfterCommand).run.run fuel l = (afterSpawn cmds).resume.run fuel
        (withConsole { l.vars.console with pt := 0, priv := .command } l) := by
    simp only [afterSpawn, Suspended.resume, Thread.run, Code.andThen, before, Code.run_bind]
    rfl
  exact Prog.Coupled.congr hleft rfl
    (shadows_command (l := withConsole { l.vars.console with pt := 0, priv := .command } l)
      hcmds rfl)

theorem shadows_act_bind {α : Type} (m : Prog (Console W) α)
    (n : Prog (Console W) Unit) :
    Shadows P fuel (Thread.act (onConsole (m >>= fun _ => n))).run
      (m >>= fun _ => n >>= fun _ => pure none) l := by
  have h := @shadows_act _ P fuel l (m >>= fun _ => n)
  rwa [bind_assoc] at h

theorem shadows_char {cmds : Commands W} (hcmds : ∀ cmd c, (cmds.fn cmd c).2.priv = c.priv) :
    Shadows (AtCommand cmds) fuel (runChar cmds).run (charIteration cmds l.vars.ch) l := by
  apply shadows_ite
  · have h := @shadows_act_seq _ (AtCommand cmds) fuel l (doTokenize >>= fun _ => pure ()) _ _
      fun l' _ _ => shadows_act_seq (m := findCommand cmds) (l := l')
        fun l'' _ _ => shadows_spawn hcmds
    simpa only [bind_assoc, pure_bind] using h
  apply shadows_ite
  · apply shadows_ite
    · exact shadows_act_bind _ _
    · exact shadows_act _
  apply shadows_ite
  · exact shadows_act_bind _ _
  apply shadows_ite
  · have h := @shadows_act _ (AtCommand cmds) fuel l (do
      storeBuf (← get).bufp (UInt8.ofInt l.vars.ch)
      modify fun c => { c with bufp := c.bufp + 1 })
    simp only [bind_assoc] at h
    exact h
  · exact shadows_none

theorem assignCh_run {ch : Int} {c : Console W} (h : consoleGetch l.vars.console = .ok (ch, c)) :
    (poll assignCh).run fuel l =
      (if ch = -1 then suspend .waiting (.polling assignCh) rfl else .pure none).run fuel
        ⟨l.spawnRes, ⟨c, ch⟩⟩ := by
  have hassign : assignCh.run fuel l = .ok (decide (ch ≠ -1), ⟨l.spawnRes, ⟨c, ch⟩⟩) := by
    unfold assignCh
    rw [Code.run_bind, onConsole_run, h]
    rfl
  unfold poll
  rw [Code.run_bind, hassign]
  by_cases hch : ch = -1
  · subst hch
    rfl
  · simp [hch]

def afterPoll (cmds : Commands W) : Suspended (RunVars W) :=
  .within (.polling assignCh) (runChar cmds)

abbrev AtWait (cmds : Commands W) (k : Suspended (RunVars W)) (c : Console W) : Prop :=
  (k = afterPoll cmds ∧ c.priv = .getch) ∨ AtCommand cmds k c

theorem shadows_poll {cmds : Commands W} (hcmds : ∀ cmd c, (cmds.fn cmd c).2.priv = c.priv)
    (hpriv : l.vars.console.priv = .getch) :
    Shadows (AtWait cmds) fuel (afterPoll cmds).resume (getchIteration cmds) l := by
  cases hget : consoleGetch l.vars.console with
  | error e =>
      apply Prog.Coupled.of_error (e := e)
      · simp only [afterPoll, Suspended.resume, Code.andThen, before, poll, assignCh,
          Code.run_bind, onConsole_run, hget]
      · change (consoleGetch l.vars.console >>= _) = _
        rw [hget]
        rfl
  | ok r =>
      obtain ⟨ch, c⟩ := r
      have hkeep : c.priv = .getch := by
        unfold consoleGetch onRing at hget
        obtain ⟨ring, -, rfl⟩ := Prog.zoom_eq_ok hget
        exact hpriv
      have hleft : (afterPoll cmds).resume.run fuel l =
          ((before (runChar cmds)
            (if ch = -1 then suspend .waiting (.polling assignCh) rfl else .pure none)).andThen
              (runChar cmds).run).run fuel ⟨l.spawnRes, ⟨c, ch⟩⟩ := by
        simp only [afterPoll, Suspended.resume, Code.andThen, before, Code.run_bind,
          assignCh_run hget]
      have hright : getchIteration cmds l.vars.console =
          (if ch = -1 then pure (some .waiting) else charIteration cmds ch :
            Prog (Console W) (Option PtState)) c := by
        change (consoleGetch l.vars.console >>= _) = _
        rw [hget]
        rfl
      apply Prog.Coupled.congr hleft hright
      split
      · refine ⟨rfl, rfl, fun left hmem => ?_⟩
        cases hmem
        exact ⟨_, rfl, .inl ⟨rfl, hkeep⟩⟩
      · apply (shadows_char (l := ⟨l.spawnRes, ⟨c, ch⟩⟩) hcmds).mono
        rintro o l' res c' ⟨hc, hres, hP⟩
        exact ⟨hc, hres, fun left hmem => (hP left hmem).imp fun k hk => ⟨hk.1, .inr hk.2⟩⟩

def ConsolePoint.rest (cmds : Commands W) : ConsolePoint → Suspended (RunVars W)
  | .start => .within .after (runBody cmds)
  | .getch => .within (afterPoll cmds) (runLoop cmds)
  | .command => .within (afterSpawn cmds) (runLoop cmds)

theorem shadows_before {m : Running (RunVars W)} {n : Prog (Console W) (Option PtState)}
    {Q : Suspended (RunVars W) → Console W → Prop} {t : Thread (RunVars W)}
    (h : Shadows P fuel m n l) (himp : ∀ k c, P k c → Q (.within k t) c) :
    Shadows Q fuel (before t m) n l := by
  have hn : n = n >>= pure := (bind_pure n).symm
  unfold Shadows
  rw [hn]
  apply h.bind
  rintro o l' _ _ ⟨rfl, rfl, hP⟩
  refine ⟨rfl, by cases o <;> rfl, fun left hmem => ?_⟩
  obtain ⟨left', hleft', rfl⟩ := Option.map_eq_some_iff.mp hmem
  obtain ⟨k, hk, hPk⟩ := hP left' hleft'
  exact ⟨.within k t, by simp [Leave.before, hk], himp k _ hPk⟩

abbrev AtPoint (cmds : Commands W) (k : Suspended (RunVars W)) (c : Console W) : Prop :=
  k = c.priv.rest cmds

theorem act_modify_seq_run (f : Console W → Console W) (t : Thread (RunVars W)) :
    (Thread.seq (.act (onConsole (modify f))) t).run.run fuel l =
      t.run.run fuel (withConsole (f l.vars.console) l) := rfl

theorem shadows_turn {cmds : Commands W} (hcmds : ∀ cmd c, (cmds.fn cmd c).2.priv = c.priv) :
    Shadows (AtPoint cmds) fuel (before (runLoop cmds) (runTurn cmds).run)
      (modify (fun c => { c with priv := .getch }) >>= fun _ => getchIteration cmds) l := by
  apply shadows_before (P := AtWait cmds)
  · have hleft : (runTurn cmds).run.run fuel l = (afterPoll cmds).resume.run fuel
        (withConsole { l.vars.console with priv := .getch } l) := by
      unfold runTurn setPriv
      rw [act_modify_seq_run]
      rfl
    exact Prog.Coupled.congr hleft rfl
      (shadows_poll (l := withConsole { l.vars.console with priv := .getch } l) hcmds rfl)
  · rintro k c (⟨rfl, hpriv⟩ | ⟨rfl, hpriv⟩)
    · rw [AtPoint, hpriv]
      rfl
    · rw [AtPoint, hpriv]
      rfl

theorem shadows_start {cmds : Commands W} :
    Shadows (AtPoint cmds) fuel (before (runLoop cmds) (Thread.ite
      (testCh fun _ c => c.argc = 0) (.act (onConsole doPrompt))
        (.act (onConsole (modify fun c => { c with bufp := 0 })))).run) startIteration l := by
  apply shadows_before (P := fun _ _ => False)
  · exact shadows_ite (shadows_act _) (shadows_act _)
  · exact fun _ _ h => h.elim

/-- What is run at a point, up to the loop. -/
def ConsolePoint.opening (cmds : Commands W) : ConsolePoint → Running (RunVars W)
  | .start => before (runLoop cmds) (Thread.ite
      (testCh fun _ c => c.argc = 0) (.act (onConsole doPrompt))
        (.act (onConsole (modify fun c => { c with bufp := 0 })))).run
  | .getch => before (runLoop cmds) (afterPoll cmds).resume
  | .command => before (runLoop cmds) (afterSpawn cmds).resume

theorem ConsolePoint.resume_rest (cmds : Commands W) (p : ConsolePoint) :
    (p.rest cmds).resume = (p.opening cmds).andThen (runLoop cmds).run := by
  cases p with
  | start => rfl
  | getch => rfl
  | command => rfl

theorem shadows_opening {cmds : Commands W}
    (hcmds : ∀ cmd c, (cmds.fn cmd c).2.priv = c.priv) :
    Shadows (AtPoint cmds) fuel (l.vars.console.priv.opening cmds)
      (l.vars.console.priv.iteration cmds) l := by
  cases hpriv : l.vars.console.priv with
  | start => exact shadows_start
  | getch =>
      apply shadows_before (shadows_poll hcmds hpriv)
      rintro k c (⟨rfl, hc⟩ | ⟨rfl, hc⟩)
      · rw [AtPoint, hc]
        rfl
      · rw [AtPoint, hc]
        rfl
  | command =>
      apply shadows_before (shadows_command hcmds hpriv)
      rintro k c ⟨rfl, hc⟩
      rw [AtPoint, hc]
      rfl

section Loop

variable {cmds : Commands W} {m : Running (RunVars W)}
  {n : Prog (Console W) (Option PtState)} {res : PtState} {c' : Console W}

/-- What a call leaves: a point, where the console is. -/
def LeftAt (cmds : Commands W) (res : PtState) (c' : Console W)
    (o : Option (Leave (RunVars W))) (l : Locals (RunVars W)) : Prop :=
  l.vars.console = c' ∧ ∃ left, o = some left ∧ left.result = res ∧
    left.rest = some (c'.priv.rest cmds)

/-- What a part of a call leaves, when the loop follows it. -/
abbrev ServesRest (cmds : Commands W) (n : Prog (Console W) (Option PtState))
    (c : Console W) (res : PtState) (c' : Console W) : Prop :=
  Prog.wp n (fun o c₁ => ServesNext cmds res c' o
    (if o.isSome then c₁ else { c₁ with priv := .getch })) c

theorem leftAt_of_shadows (hm : ∀ fuel, Shadows (AtPoint cmds) fuel m n l)
    {left : Leave (RunVars W)} {l' : Locals (RunVars W)} (h : m.Returns l (some left, l')) :
    LeftAt cmds left.result l'.vars.console (some left) l' ∧
      ServesRest cmds n l.vars.console left.result l'.vars.console := by
  obtain ⟨fuel, hrun⟩ := Code.returns_iff.mp h
  obtain ⟨_, _, hn, rfl, rfl, hleft⟩ := (hm fuel).ok hrun
  obtain ⟨k, hk, rfl⟩ := hleft left rfl
  exact ⟨⟨rfl, left, rfl, rfl, hk⟩, Prog.wp_of_eq hn ⟨rfl, rfl⟩⟩

theorem servesRest_of_shadows (hm : ∀ fuel, Shadows (AtPoint cmds) fuel m n l)
    {l' : Locals (RunVars W)} (h : m.Returns l (none, l'))
    (hserves : Serves cmds { l'.vars.console with priv := .getch } res c') :
    ServesRest cmds n l.vars.console res c' := by
  obtain ⟨fuel, hrun⟩ := Code.returns_iff.mp h
  obtain ⟨_, _, hn, rfl, rfl, -⟩ := (hm fuel).ok hrun
  exact Prog.wp_of_eq hn hserves

theorem serves_of_loop (hcmds : ∀ cmd c, (cmds.fn cmd c).2.priv = c.priv)
    {o : Option (Leave (RunVars W))} {l l' : Locals (RunVars W)}
    (h : (runLoop cmds).run.Returns l (o, l')) :
    ∃ res, LeftAt cmds res l'.vars.console o l' ∧
      Serves cmds { l.vars.console with priv := .getch } res l'.vars.console := by
  apply Code.whileLoop_induction (P := fun l o l' => ∃ res,
    LeftAt cmds res l'.vars.console o l' ∧
      Serves cmds { l.vars.console with priv := .getch } res l'.vars.console) _ _ _ h
  · intro l l' hcond
    cases Code.returns_pure.mp hcond
  · intro l l₁ left l₂ hcond hbody
    cases Code.returns_pure.mp hcond
    obtain ⟨hat, hrest⟩ := leftAt_of_shadows (fun _ => shadows_turn hcmds) hbody
    exact ⟨left.result, hat, (serves_getch rfl).mpr hrest⟩
  · rintro l l₁ l₂ o l' hcond hbody ⟨res, hat, hserves⟩
    cases Code.returns_pure.mp hcond
    exact ⟨res, hat,
      (serves_getch rfl).mpr (servesRest_of_shadows (fun _ => shadows_turn hcmds) hbody hserves)⟩

theorem returns_of_shadows (hm : Shadows (AtPoint cmds) 0 m n l) {x : Running (RunVars W)}
    {i : Nat} (hn : Prog.wp n (fun o c₁ => ServesWithin cmds i res c' o
      (if o.isSome then c₁ else { c₁ with priv := .getch })) l.vars.console)
    (hx : ∀ j ≤ i, ∀ l₁, ServesIn cmds j { l₁.vars.console with priv := .getch } res c' →
      ∃ o l', x.Returns l₁ (o, l') ∧ LeftAt cmds res c' o l') :
    ∃ o l', (m.andThen x).Returns l (o, l') ∧ LeftAt cmds res c' o l' := by
  obtain ⟨_, _, hiter, hnext⟩ := Prog.wp_iff_exists.mp hn
  obtain ⟨o, l₁, hrun, rfl, rfl, hleft⟩ := hm.symm.ok hiter
  have hm := m.mono.returns hrun
  cases o with
  | none =>
      obtain ⟨j, hj, hin⟩ := hnext
      obtain ⟨o, l', hx, hat⟩ := hx j hj l₁ hin
      exact ⟨o, l', Code.returns_andThen.mpr (.inl ⟨l₁, hm, hx⟩), hat⟩
  | some left =>
      obtain ⟨k, hk, rfl⟩ := hleft left rfl
      obtain ⟨rfl, rfl⟩ := hnext
      exact ⟨some left, l₁, Code.returns_andThen.mpr (.inr ⟨left, l₁, hm, rfl⟩),
        rfl, left, rfl, rfl, hk⟩

theorem loop_of_serves (hcmds : ∀ cmd c, (cmds.fn cmd c).2.priv = c.priv) {i : Nat}
    {l : Locals (RunVars W)}
    (h : ServesIn cmds i { l.vars.console with priv := .getch } res c') :
    ∃ o l', (runLoop cmds).run.Returns l (o, l') ∧ LeftAt cmds res c' o l' := by
  induction i using Nat.strongRecOn generalizing l with
  | _ i ih =>
      cases i with
      | zero => exact h.elim
      | succ i =>
          obtain ⟨o, l', hrun, hat⟩ := returns_of_shadows (shadows_turn hcmds) (h.getch rfl)
            fun j hj l₁ hin => ih j (by omega) hin
          refine ⟨o, l', Code.Returns.whileLoop ?_, hat⟩
          exact Code.returns_bind.mpr ⟨true, l, Code.returns_pure.mpr rfl, hrun⟩

theorem serves_point {c : Console W} :
    Serves cmds c res c' ↔ ServesRest cmds (c.priv.iteration cmds) c res c' := by
  cases hpriv : c.priv with
  | start =>
      rw [serves_iff]
      simp only [consoleTurn, Prog.wp_bind, Prog.wp_get, hpriv, startTurn, ServesRest,
        ConsolePoint.iteration, startIteration, wp_branch]
      split <;> simp [ServesNext, doPrompt, print, *]
  | getch => exact serves_getch hpriv
  | command => exact serves_command hpriv

theorem ServesIn.point {i : Nat} {c : Console W} (h : ServesIn cmds (i + 1) c res c') :
    Prog.wp (c.priv.iteration cmds) (fun o c₁ => ServesWithin cmds (i + 1) res c' o
      (if o.isSome then c₁ else { c₁ with priv := .getch })) c := by
  have hstep : ∀ o c₁, ServesWithin cmds i res c' o c₁ → ServesWithin cmds (i + 1) res c' o c₁ := by
    intro o c₁ h
    cases o with
    | none =>
        obtain ⟨j, hj, hin⟩ := h
        exact ⟨j, by omega, hin⟩
    | some r => exact h
  cases hpriv : c.priv with
  | start =>
      rw [servesIn_succ] at h
      have hle := Nat.le_succ i
      simp only [consoleTurn, Prog.wp_bind, Prog.wp_get, hpriv, startTurn] at h
      simp only [ConsolePoint.iteration, startIteration, wp_branch]
      split
      next hargc =>
        rw [if_pos (of_decide_eq_true hargc)] at h
        simp [doPrompt, print, ServesWithin] at h ⊢
        exact ⟨i, hle, h⟩
      next hargc =>
        rw [if_neg (by simpa using hargc)] at h
        simp [ServesWithin] at h ⊢
        exact ⟨i, hle, h⟩
  | getch => exact Prog.wp_mono (h.getch hpriv) fun o c₁ => hstep o _
  | command => exact h.command hpriv

theorem serves_of_rest (hcmds : ∀ cmd c, (cmds.fn cmd c).2.priv = c.priv)
    {o : Option (Leave (RunVars W))} {l l' : Locals (RunVars W)}
    (h : (l.vars.console.priv.rest cmds).resume.Returns l (o, l')) :
    ∃ res, LeftAt cmds res l'.vars.console o l' ∧
      Serves cmds l.vars.console res l'.vars.console := by
  rw [ConsolePoint.resume_rest] at h
  rcases Code.returns_andThen.mp h with ⟨l₁, hopen, hloop⟩ | ⟨left, l₁, hopen, hr⟩
  · obtain ⟨res, hat, hserves⟩ := serves_of_loop hcmds hloop
    exact ⟨res, hat,
      serves_point.mpr (servesRest_of_shadows (fun _ => shadows_opening hcmds) hopen hserves)⟩
  · cases hr
    obtain ⟨hat, hrest⟩ := leftAt_of_shadows (fun _ => shadows_opening hcmds) hopen
    exact ⟨left.result, hat, serves_point.mpr hrest⟩

theorem rest_of_serves (hcmds : ∀ cmd c, (cmds.fn cmd c).2.priv = c.priv)
    {l : Locals (RunVars W)} (h : Serves cmds l.vars.console res c') :
    ∃ o l', (l.vars.console.priv.rest cmds).resume.Returns l (o, l') ∧
      LeftAt cmds res c' o l' := by
  obtain ⟨fuel, hin⟩ := h
  rw [ConsolePoint.resume_rest]
  cases fuel with
  | zero => exact hin.elim
  | succ fuel =>
      exact returns_of_shadows (shadows_opening hcmds) hin.point
        fun j _ l₁ hin => loop_of_serves hcmds hin

/-! ## Points and lines -/

theorem labelled_rest (cmds : Commands W) (p : ConsolePoint) : (p.rest cmds).Labelled := by
  have hbody := (runBody_compiles cmds).toLabelled
  have hloop : (runLoop cmds).Labelled := hbody.right
  have hturn : (runTurn cmds).Labelled := ⟨hloop.nodup, hloop.small⟩
  cases p with
  | start => exact ⟨trivial, hbody⟩
  | getch => exact ⟨⟨trivial, hturn.right.right⟩, hloop⟩
  | command =>
      refine ⟨⟨trivial, ?_, ?_⟩, hloop⟩ <;> simp [runAfterCommand, Thread.lines]

theorem leadsTo_rest (cmds : Commands W) (p : ConsolePoint) :
    (runBody cmds).LeadsTo (p.rest cmds) p.line := by
  refine ⟨labelled_rest cmds p, ?_⟩
  cases p with
  | start => rfl
  | getch => rfl
  | command => rfl

theorem rest_expand_injective {p q : ConsolePoint}
    (h : (p.rest cmds).expand = (q.rest cmds).expand) : p = q := by
  cases p with
  | start =>
      cases q with
      | start => rfl
      | getch => cases h
      | command => cases h
  | getch =>
      cases q with
      | start => cases h
      | getch => rfl
      | command => cases h
  | command =>
      cases q with
      | start => cases h
      | getch => cases h
      | command => rfl

theorem line_of_leadsTo {p : ConsolePoint} {pt : BitVec 16}
    (h : (runBody cmds).LeadsTo (p.rest cmds) pt) : pt = p.line := by
  have hmem := Stmt.mem_labels_of_seek h.2
  rw [Stmt.labels, Thread.expand_labels] at hmem
  have hpoint : ∃ q : ConsolePoint, pt = q.line := by
    have hcases : pt.toNat = 0 ∨ pt.toNat = 230 ∨ pt.toNat = 235 := by
      simpa [Stmt.labels, runBody, runLoop, runTurn, runChar, runAfterCommand, Thread.lines]
        using hmem
    rcases hcases with hpt | hpt | hpt
    · exact ⟨.start, BitVec.eq_of_toNat_eq hpt⟩
    · exact ⟨.getch, BitVec.eq_of_toNat_eq hpt⟩
    · exact ⟨.command, BitVec.eq_of_toNat_eq hpt⟩
  obtain ⟨q, rfl⟩ := hpoint
  have hsame := (leadsTo_rest cmds q).2.symm.trans h.2
  rw [rest_expand_injective (Option.some.inj hsame)]

/-- A call of the function that the macros make of `console_run` is a call of
`consoleRun`. -/
theorem consoleRun_iff_ptFunction (cmds : Commands W)
    (hcmds : ∀ cmd c, (cmds.fn cmd c).2.priv = c.priv) (c c' : Console W) (ch : Int)
    (res : PtState) :
    (∃ fuel lines, consoleRun cmds fuel c = .ok ((lines, res), c')) ↔
      ∃ ch', (ptFunction (runBody cmds).expand).Returns ⟨c.priv.line, ⟨c, ch⟩⟩
        (res, ⟨c'.priv.line, ⟨c', ch'⟩⟩) := by
  have hserves : (∃ fuel lines, consoleRun cmds fuel c = .ok ((lines, res), c')) ↔
      Serves cmds c res c' := by
    constructor
    · rintro ⟨fuel, lines, hrun⟩
      exact ⟨fuel, Prog.wp_of_eq hrun ⟨rfl, rfl⟩⟩
    · rintro ⟨fuel, hin⟩
      obtain ⟨⟨lines, res'⟩, c₁, hrun, rfl, rfl⟩ := Prog.wp_iff_exists.mp hin
      exact ⟨fuel, lines, hrun⟩
  rw [hserves]
  have hstart := leadsTo_rest cmds c.priv
  constructor
  · intro h
    obtain ⟨o, l, hrun, rfl, left, rfl, rfl, hrest⟩ :=
      rest_of_serves (l := ⟨.yielded, ⟨c, ch⟩⟩) hcmds h
    obtain ⟨pt', hcall, hfound⟩ :=
      ptFunction_returns (runBody_compiles cmds) hstart (resumeCall_returns hrun)
    have hactive : active left.result = true := by
      rw [← Bool.not_eq_false, ← left.finished.not, hrest]
      simp
    have hpt : pt' = l.vars.console.priv.line := by
      refine @line_of_leadsTo _ cmds _ _ ?_
      simpa [hrest] using hfound hactive
    subst hpt
    exact ⟨l.vars.ch, hcall⟩
  · rintro ⟨ch', hcall⟩
    obtain ⟨k', hresume, -⟩ := returns_ptFunction (runBody_compiles cmds) hstart hcall
    obtain ⟨o, l, hrun, hvars, hres⟩ := returns_resumeCall hresume
    obtain ⟨res', ⟨-, left, rfl, rfl, -⟩, hserves⟩ :=
      serves_of_rest (l := ⟨.yielded, ⟨c, ch⟩⟩) hcmds hrun
    rw [hvars, ← hres.1] at hserves
    exact hserves

def pausingCommands : Commands Unit where
  __ := exitCommands
  fn _ c := if c.pt = 0 then (.waiting, { c with pt := 1 }) else (.exited, c)

def lineInRing : Console Unit :=
  { consoleInit () with
    ring := { ringbufInit (fun | 0 => 97 | _ => 10) 16 with writei := 2 } }

theorem consoleRun_iff_ptFunction_pausing : ∃ c₁ c₂ ch₁ ch₂,
    (ptFunction (runBody pausingCommands).expand).Returns ⟨0, ⟨lineInRing, 0⟩⟩
      (.waiting, ⟨235, ⟨c₁, ch₁⟩⟩) ∧
    (ptFunction (runBody pausingCommands).expand).Returns ⟨235, ⟨c₁, ch₁⟩⟩
      (.waiting, ⟨230, ⟨c₂, ch₂⟩⟩) := by
  have hexec : Prog.wp (consoleRun pausingCommands 6) (fun r₁ c₁ =>
      r₁ = ([[97]], .waiting) ∧ c₁.priv = .command ∧
        Prog.wp (consoleRun pausingCommands 6) (fun r₂ c₂ =>
          r₂ = ([], .waiting) ∧ c₂.priv = .getch) c₁) lineInRing := by
    decide +kernel
  obtain ⟨_, c₁, hrun₁, rfl, hpriv₁, hexec⟩ := Prog.wp_iff_exists.mp hexec
  obtain ⟨_, c₂, hrun₂, rfl, hpriv₂⟩ := Prog.wp_iff_exists.mp hexec
  have hcmds : ∀ cmd c, (pausingCommands.fn cmd c).2.priv = c.priv := by
    intro cmd c
    simp only [pausingCommands]
    split <;> rfl
  obtain ⟨ch₁, hcall₁⟩ := (consoleRun_iff_ptFunction pausingCommands hcmds lineInRing c₁ 0
    .waiting).mp ⟨6, _, hrun₁⟩
  obtain ⟨ch₂, hcall₂⟩ := (consoleRun_iff_ptFunction pausingCommands hcmds c₁ c₂ ch₁
    .waiting).mp ⟨6, _, hrun₂⟩
  rw [hpriv₁] at hcall₁ hcall₂
  rw [hpriv₂] at hcall₂
  exact ⟨c₁, c₂, ch₁, ch₂, hcall₁, hcall₂⟩

end Loop

end Shadows

end Librfn
