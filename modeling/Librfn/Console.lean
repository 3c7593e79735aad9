import Librfn.Logic.CString
import Librfn.Ringbuf

/-!
# The command console

`console.c`: the line editor, the tokenizer and the protothread that injects a
string.  Pointers into the scratch buffer are offsets.  The descriptors of the
commands and their functions are given from outside, and so is what else the
functions read and write; what the console writes to its stream is kept as a
list of strings.
-/

namespace Librfn

open Librfn.Logic

inductive PtState where
  | yielded
  | waiting
  | exited
  | failed
  deriving DecidableEq, Repr

/-- Where `console_run` goes on: at its start, at the wait for a character, or
at the call of the command. -/
inductive ConsolePoint where
  | start
  | getch
  | command
  deriving DecidableEq, Repr

def scratchSize : Nat := 80

/-- `console_t`.  `priv` is that of its fibre; `world` is what only the
commands know. -/
structure Console (W : Type) where
  priv : ConsolePoint
  prompt : String
  out : List String
  ring : Ringbuf
  scratch : Nat → UInt8
  bufp : Nat
  argc : Nat
  argv : Nat → Nat
  cmd : Nat
  pt : BitVec 16
  world : W

/-- The command table and the descriptors, by address. -/
structure Commands (W : Type) where
  cmdTable : Nat → Option Nat
  name : Nat → Option (List UInt8)
  fn : Nat → Console W → PtState × Console W

variable {W : Type}

def onRing {α : Type} (m : Prog Ringbuf α) : Prog (Console W) α :=
  Prog.zoom Console.ring (fun ring c => { c with ring }) m

def print (s : String) : Prog (Console W) Unit :=
  modify fun c => { c with out := c.out ++ [s] }

def loadBuf (i : Nat) : Prog (Console W) UInt8 := do
  if i < scratchSize then
    return (← get).scratch i
  else throw .badPointer

def storeBuf (i : Nat) (b : UInt8) : Prog (Console W) Unit := do
  if i < scratchSize then
    modify fun c => { c with scratch := Function.update c.scratch i b }
  else throw .badPointer

def storeArgv (i offset : Nat) : Prog (Console W) Unit := do
  if i < 4 then
    modify fun c => { c with argv := Function.update c.argv i offset }
  else throw .badPointer

def loadString : Nat → Nat → Prog (Console W) (List UInt8)
  | 0, _ => throw .outOfFuel
  | fuel + 1, i => do
      let b ← loadBuf i
      if b = 0 then return []
      else return b :: (← loadString fuel (i + 1))

/-! ## The tokenizer -/

/-- The first loop of `do_tokenize`. -/
def tokenizeLoop (len : Nat) : Nat → Nat → UInt8 → Prog (Console W) Unit
  | 0, _, _ => throw .outOfFuel
  | fuel + 1, i, quote => do
      if ¬ i < len then
        return ()
      let b ← loadBuf i
      if isspace b ∧ quote = 0 then
        storeBuf i 0
        tokenizeLoop len fuel (i + 1) quote
      else if b = quote then
        storeBuf i 0
        tokenizeLoop len fuel (i + 1) 0
      else if (← loadBuf (i - 1)) = 0 then
        if b = 39 ∨ b = 34 then
          storeBuf i 0
          tokenizeLoop len fuel (i + 1) b
        else
          storeArgv (← get).argc i
          modify fun c => { c with argc := c.argc + 1 }
          if (← get).argc ≥ 4 then
            return ()
          tokenizeLoop len fuel (i + 1) quote
      else
        tokenizeLoop len fuel (i + 1) quote

/-- The second loop of `do_tokenize`. -/
def terminateLoop (len : Nat) : Nat → Nat → Prog (Console W) Unit
  | 0, _ => throw .outOfFuel
  | fuel + 1, i => do
      if i < 4 then
        storeArgv i len
        terminateLoop len fuel (i + 1)

/-- The line that is tokenized is returned. -/
def doTokenize : Prog (Console W) (List UInt8) := do
  modify fun c => { c with argc := 1 }
  storeArgv 0 0
  let line ← loadString (scratchSize + 1) 0
  tokenizeLoop line.length (scratchSize + 1) 1 0
  terminateLoop line.length 5 (← get).argc
  return line

/-! ## The command table -/

/-- `cmd_echo`, `cmd_help` and `cmd_unknown`, at their addresses. -/
structure Commands.Initial (cmds : Commands W) : Prop where
  cmdTable : cmds.cmdTable = fun i => if i < 3 then some i else none
  echo : cmds.name 0 = some "echo".toUTF8.toList
  help : cmds.name 1 = some "help".toUTF8.toList
  unknown : cmds.name 2 = none

/-- The first loop of `console_register`. -/
def registerSlot (cmd : Nat) : Nat → Nat → Prog (Commands W) Nat
  | 0, _ => throw .outOfFuel
  | fuel + 1, i => do
      if ¬ i < 32 then
        return i
      let cmds ← get
      match cmds.cmdTable i with
      | none => throw .nullPointer
      | some slot =>
          match cmds.name slot, cmds.name cmd with
          | none, _ => return i
          | some _, none => throw .nullPointer
          | some name, some newName =>
              if newName < name then return i
              else registerSlot cmd fuel (i + 1)

def storeCmdTable (i : Nat) (cmd : Option Nat) : Prog (Commands W) Unit := do
  if i < 32 then
    modify fun cmds => { cmds with cmdTable := Function.update cmds.cmdTable i cmd }
  else throw .badPointer

/-- The second loop of `console_register`. -/
def registerShift (i : Nat) : Nat → Prog (Commands W) Unit
  | 0 => return ()
  | j + 1 => do
      if j + 1 > i then
        storeCmdTable (j + 1) ((← get).cmdTable j)
        registerShift i j

def consoleRegister (cmd : Nat) : Prog (Commands W) Int := do
  -- fail if the last command slot is already full
  if (← get).cmdTable 31 ≠ none then
    return -1
  let i ← registerSlot cmd 33 0
  registerShift i 31
  storeCmdTable i (some cmd)
  return 0

/-! ## The console -/

def findCommandLoop (cmds : Commands W) (argv0 : List UInt8) :
    Nat → Nat → Prog (Console W) Unit
  | 0, _ => throw .outOfFuel
  | fuel + 1, i => do
      if ¬ i < 32 then throw .badPointer
      match cmds.cmdTable i with
      | none => throw .nullPointer
      | some cmd =>
          match cmds.name cmd with
          | none => modify fun c => { c with cmd }
          | some name =>
              if argv0 = name then modify fun c => { c with cmd }
              else findCommandLoop cmds argv0 fuel (i + 1)

def findCommand (cmds : Commands W) : Prog (Console W) Unit := do
  let argv0 ← loadString (scratchSize + 1) ((← get).argv 0)
  findCommandLoop cmds argv0 33 0

def doPrompt : Prog (Console W) Unit := do
  -- `memset` clears the whole union
  modify fun c => { c with scratch := fun _ => 0, bufp := 0 }
  print (← get).prompt

def consoleGetch : Prog (Console W) Int := onRing ringbufGet

/-- What one turn of the loop of `console_run` does: the line it hands to
`do_tokenize`, and what `console_run` returns if it returns. -/
structure ConsoleTurn where
  line : Option (List UInt8) := none
  result : Option PtState := none
  deriving DecidableEq, Repr

/-- `PT_SPAWN(&c->pt, c->cmd->fn(c))` and what follows it. -/
def commandTurn (cmds : Commands W) : Prog (Console W) ConsoleTurn := do
  let res ← modifyGet fun c => cmds.fn c.cmd c
  match res with
  | .yielded | .waiting => return { result := some res }
  | .exited | .failed =>
      if res = .failed then
        print "Command failed\n"
      doPrompt
      modify fun c => { c with priv := .getch }
      return {}

/-- A turn of the loop from the wait for a character on. -/
def getchTurn (cmds : Commands W) : Prog (Console W) ConsoleTurn := do
  let ch ← consoleGetch
  if ch = -1 then
    return { result := some .waiting }
  if ch = 10 ∨ (← get).bufp ≥ 79 then
    let line ← doTokenize
    findCommand cmds
    modify fun c => { c with pt := 0, priv := .command }
    return { line := some line }
  else if ch = 8 then
    if (← get).bufp > 0 then
      modify fun c => { c with bufp := c.bufp - 1 }
      print " \x08"
    else
      print " "
    return {}
  else if ch = 3 then
    print "\n"
    doPrompt
    return {}
  else
    storeBuf (← get).bufp (UInt8.ofInt ch)
    modify fun c => { c with bufp := c.bufp + 1 }
    return {}

def startTurn : Prog (Console W) ConsoleTurn := do
  if (← get).argc = 0 then
    doPrompt
  else
    modify fun c => { c with bufp := 0 }
  modify fun c => { c with priv := .getch }
  return {}

def consoleTurn (cmds : Commands W) : Prog (Console W) ConsoleTurn := do
  match (← get).priv with
  | .start => startTurn
  | .getch => getchTurn cmds
  | .command => commandTurn cmds

/-- `console_run` returns the lines that it handed to `do_tokenize` besides its
result. -/
def consoleRun (cmds : Commands W) : Nat → Prog (Console W) (List (List UInt8) × PtState)
  | 0 => throw .outOfFuel
  | fuel + 1 => do
      let turn ← consoleTurn cmds
      match turn.result with
      | some res => return (turn.line.toList, res)
      | none =>
          let (lines, res) ← consoleRun cmds fuel
          return (turn.line.toList ++ lines, res)

/-- The console after `console_init`; the platform's part is not included. -/
def consoleInit (world : W) : Console W :=
  { priv := .start
    prompt := "> "
    out := []
    ring := ringbufInit (fun _ => 0) 16
    scratch := fun _ => 0
    bufp := 0
    argc := 0
    argv := fun _ => 0
    cmd := 0
    pt := 0
    world }

def consoleSilent (c : Console W) : Console W := { c with argc := 1 }

/-- `console_putchar` up to waking the fibre. -/
def consolePutchar (d : UInt8) : Prog (Console W) Bool := onRing (ringbufPut d)

/-- The loop of `console_process`, with the lines that its calls hand over. -/
def processLoop (cmds : Commands W) : Nat → Prog (Console W) (List (List UInt8))
  | 0 => throw .outOfFuel
  | fuel + 1 => do
      let (lines, s) ← consoleRun cmds fuel
      if s = .yielded then
        let more ← processLoop cmds fuel
        return lines ++ more
      else return lines

def consoleProcess (cmds : Commands W) (d : UInt8) (fuel : Nat) :
    Prog (Console W) (List (List UInt8)) := do
  let _ ← onRing (ringbufPut d)
  processLoop cmds fuel

/-! ## Injecting a string -/

/-- Where `console_eval` goes on. -/
inductive EvalPoint where
  | start
  | yielded
  deriving DecidableEq, Repr

/-- The byte offset of `c->scratch.u16[sizeof(c->scratch.u16)-1]`.  With
pointers of eight bytes it is inside the union. -/
def cursorOffset : Nat := 2 * (scratchSize - 1)

def loadCursor : Prog (Console W) Nat := do
  let c ← get
  return (c.scratch cursorOffset).toNat + 256 * (c.scratch (cursorOffset + 1)).toNat

def storeCursor (i : Nat) : Prog (Console W) Unit :=
  modify fun c =>
    { c with
      scratch := Function.update
        (Function.update c.scratch cursorOffset (UInt8.ofNat i))
        (cursorOffset + 1) (UInt8.ofNat (i / 256)) }

/-- The loop of `console_eval`, with the bytes that it puts into the ring. -/
def evalLoop (cmd : List UInt8) : Nat → Prog (Console W) (List UInt8 × PtState)
  | 0 => throw .outOfFuel
  | fuel + 1 => do
      let i ← loadCursor
      match (cmd ++ [0])[i]? with
      | none => throw .badPointer
      | some d =>
          if d = 0 then return ([], .exited)
          if ← onRing (ringbufPut d) then
            storeCursor ((← loadCursor) + 1)
            let (put, res) ← evalLoop cmd fuel
            return (d :: put, res)
          else return ([], .yielded)

def consoleEval (cmd : List UInt8) (fuel : Nat) (pt : EvalPoint) :
    Prog (Console W) (List UInt8 × PtState) := do
  if pt = .start then
    storeCursor 0
  evalLoop cmd fuel

end Librfn
