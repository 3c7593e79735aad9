import Librfn.Console.Output
import Librfn.Protothreads
import Librfn.Fibre

/-!
# The USB console

`output_fibre` of `console_cdcacm.c` takes what was printed out of the output
ring and hands it to the USB endpoint, a byte in a packet.  The endpoint may
refuse a packet; the fibre keeps the byte and yields.
-/

namespace Librfn

open Librfn.Logic Protothread

/-- What `output_fibre` uses: the output ring, the `ch` of its task and its
local `ch`, the packets that the endpoint took, how many it takes before it
refuses one, the clock, the time of the scheduler pass, and whether the fibre is
on the timer queue. -/
structure CdcOutput where
  out : OutStream
  ch : UInt8
  got : Int
  sent : List UInt8
  room : Nat
  time : Nat
  now : BitVec 32
  armed : Bool

def getOutring : Prog CdcOutput Unit := do
  let got ← Prog.zoom CdcOutput.out (fun out s => { s with out }) (onOutring ringbufGet)
  modify fun s => { s with got }

def usbdEpWritePacket : Prog CdcOutput Bool := do
  if (← get).room = 0 then
    return false
  modify fun s => { s with sent := s.sent ++ [s.ch], room := s.room - 1 }
  return true

@[irreducible] def settleTime : Nat := 2000000

def settleTimeout : Prog CdcOutput Bool := do
  if cyclecmp32 (BitVec.ofNat 32 settleTime) (← get).now ≤ 0 then
    return true
  modify fun s => { s with armed := true }
  return false

def sendLoop : Thread CdcOutput :=
  .loop (onVars do return !(← usbdEpWritePacket)) (.yield 223)

def outputTurn : Thread CdcOutput :=
  .seq (.act (onVars getOutring))
    (.seq (.ite (onVars do return (← get).got = -1) .exit .skip)
      (.seq (.act (onVars (modify fun s => { s with ch := UInt8.ofInt s.got })))
        sendLoop))

def outputLoop : Thread CdcOutput := .loop (.pure true) outputTurn

def outputBody : Thread CdcOutput :=
  .seq
    -- initial timeout to allow things to settle
    (.ite (onVars do return (← get).time < settleTime) (.waitUntil 213 (onVars settleTimeout)) .skip)
    outputLoop

def outputFibre : Code (Instance CdcOutput) PtState := ptFunction outputBody.expand

/-! ## One call of the fibre -/

/-- The fibre has sent as much as the endpoint takes: everything, or all but the
byte it has in hand and those behind it. -/
inductive CdcOutput.Pumps (s : CdcOutput) (gone content : List UInt8) :
    PtState → CdcOutput → Prop
  | all {s' : CdcOutput} : content.length ≤ s.room → s'.out.Carries (gone ++ content) [] →
      s'.sent = s.sent ++ content → Pumps s gone content .exited s'
  | some {s' : CdcOutput} {bytes rest : List UInt8} {b : UInt8} :
      content = bytes ++ b :: rest → bytes.length = s.room →
      s'.out.Carries (gone ++ bytes ++ [b]) rest → s'.ch = b → s'.sent = s.sent ++ bytes →
      Pumps s gone content .yielded s'

structure CdcOutput.Kept (s s' : CdcOutput) : Prop where
  offered : s'.out.offered = s.out.offered
  time : s'.time = s.time
  armed : s'.armed = s.armed

section Calls

variable {s : CdcOutput} {gone content : List UInt8} {f : CallFrame CdcOutput} {n : Nat}

theorem wp_sendLoop (Q : Option PtState → CallFrame CdcOutput → Prop) :
    Prog.wp ((Stmt.exec (Thread.expand sendLoop)).run (n + 1)) Q f ↔
      if f.locals.vars.room = 0 then Q (some .yielded) { f with pt := 223 }
      else Q none ⟨f.pt, ⟨f.locals.spawnRes, { f.locals.vars with
        sent := f.locals.vars.sent ++ [f.locals.vars.ch]
        room := f.locals.vars.room - 1 }⟩⟩ := by
  by_cases hroom : f.locals.vars.room = 0
  · simp [sendLoop, Thread.expand, Stmt.exec, wp_onVars, usbdEpWritePacket, hroom, ptYield,
      saveLine, returning]
  · simp [sendLoop, Thread.expand, Stmt.exec, wp_onVars, usbdEpWritePacket, hroom]

def CdcOutput.Ends (s : CdcOutput) (gone content : List UInt8) (o : Option PtState)
    (f : CallFrame CdcOutput) : Prop :=
  ∃ res, o = some res ∧ s.Pumps gone content res f.locals.vars ∧ s.Kept f.locals.vars ∧
    (res = .yielded → f.pt = 223)

theorem wp_getOutring (Q : Unit → CdcOutput → Prop) :
    Prog.wp getOutring Q s ↔ Prog.wp (onOutring ringbufGet) (fun got out =>
      Q () { s with out, got }) s.out := by
  simp [getOutring]

theorem wp_outputTurn_nil (hcontent : f.locals.vars.out.Carries gone [])
    (Q : Option PtState → CallFrame CdcOutput → Prop) :
    Prog.wp ((Stmt.exec (Thread.expand outputTurn)).run (n + 1)) Q f ↔
      Q (some .exited) ⟨f.pt, ⟨f.locals.spawnRes, { f.locals.vars with got := -1 }⟩⟩ := by
  simp [outputTurn, Thread.expand, Stmt.exec, wp_onVars, wp_getOutring,
    Prog.wp_iff_of_eq hcontent.get_nil, ptExit, returning]

theorem wp_outputTurn_cons {b : UInt8} {out : OutStream}
    (hget : onOutring ringbufGet f.locals.vars.out = .ok (b.toNat, out))
    (Q : Option PtState → CallFrame CdcOutput → Prop) :
    Prog.wp ((Stmt.exec (Thread.expand outputTurn)).run (n + 1)) Q f ↔
      if f.locals.vars.room = 0 then
        Q (some .yielded) ⟨223, ⟨f.locals.spawnRes, { f.locals.vars with
          got := b.toNat, out, ch := b }⟩⟩
      else
        Q none ⟨f.pt, ⟨f.locals.spawnRes, { f.locals.vars with
          got := b.toNat, out, ch := b
          sent := f.locals.vars.sent ++ [b]
          room := f.locals.vars.room - 1 }⟩⟩ := by
  have hgot : (b.toNat : Int) ≠ -1 := by omega
  simp [outputTurn, Thread.expand, Stmt.exec, wp_onVars, wp_getOutring,
    Prog.wp_iff_of_eq hget, wp_sendLoop, hgot, ofInt_toNat]

theorem wp_outputTurns (hcontent : f.locals.vars.out.Carries gone content) {m : Nat}
    (hn : content.length < n) :
    Prog.wp (Code.turns ((locally (.pure true)).run (m + 1))
      ((Stmt.exec (Thread.expand outputTurn)).run (m + 1)) n)
      (f.locals.vars.Ends gone content) f := by
  induction content generalizing n f gone with
  | nil =>
      obtain ⟨n, rfl⟩ : ∃ k, n = k + 1 := ⟨n - 1, by omega⟩
      rw [Code.wp_turns_succ]
      change Prog.wp ((Stmt.exec (Thread.expand outputTurn)).run (m + 1)) _ f
      rw [wp_outputTurn_nil hcontent]
      refine ⟨_, rfl, .all (Nat.zero_le _) ?_ (by simp), ⟨rfl, rfl, rfl⟩, nofun⟩
      simpa using hcontent
  | cons b bytes ih =>
      obtain ⟨n, rfl⟩ : ∃ k, n = k + 1 := ⟨n - 1, by omega⟩
      obtain ⟨out, hget, hrest, hoffered, htaken, -⟩ := hcontent.get_cons
      rw [Code.wp_turns_succ]
      change Prog.wp ((Stmt.exec (Thread.expand outputTurn)).run (m + 1)) _ f
      rw [wp_outputTurn_cons hget]
      split
      next hroom =>
        refine ⟨_, rfl, @CdcOutput.Pumps.some _ _ _ _ [] _ _ rfl hroom.symm ?_ rfl (by simp),
          ⟨hoffered, rfl, rfl⟩, fun _ => rfl⟩
        simpa using hrest
      next hroom =>
        refine Prog.wp_mono (ih (f := ⟨f.pt, ⟨f.locals.spawnRes, { f.locals.vars with
          got := b.toNat, out, ch := b
          sent := f.locals.vars.sent ++ [b]
          room := f.locals.vars.room - 1 }⟩⟩) hrest (by simpa using hn)) ?_
        rintro o f' ⟨res, rfl, hpumps, hkept, hpt⟩
        refine ⟨res, rfl, ?_, ⟨hkept.offered.trans hoffered, hkept.time, hkept.armed⟩, hpt⟩
        cases hpumps with
        | all hlen hcarries hsent =>
            refine .all ?_ ?_ ?_
            · simp only [List.length_cons]
              dsimp only at hlen
              omega
            · simpa using hcarries
            · simpa using hsent
        | some hsplit hlen hcarries hch hsent =>
            refine @CdcOutput.Pumps.some _ _ _ _ (b :: _) _ _ (by rw [hsplit]; rfl) ?_ ?_ hch ?_
            · simp only [List.length_cons]
              dsimp only at hlen
              omega
            · simpa using hcarries
            · simpa using hsent

theorem wp_outputLoop (hcontent : f.locals.vars.out.Carries gone content)
    (hn : content.length ≤ n) :
    Prog.wp ((Stmt.exec (Thread.expand outputLoop)).run (n + 1))
      (f.locals.vars.Ends gone content) f :=
  wp_outputTurns hcontent (Nat.lt_succ_of_le hn)

def CdcOutput.Returns (s : CdcOutput) (gone content : List UInt8) (res : PtState)
    (a : Instance CdcOutput) : Prop :=
  s.Pumps gone content res a.vars ∧ s.Kept a.vars ∧ (res = .yielded → a.pt = 223)

theorem CdcOutput.Ends.returns {o : Option PtState} (h : s.Ends gone content o f) :
    s.Returns gone content (o.getD .exited) ⟨f.pt, f.locals.vars⟩ := by
  obtain ⟨res, rfl, hpumps, hkept, hpt⟩ := h
  exact ⟨hpumps, hkept, hpt⟩

theorem outputFibre_start (hcontent : s.out.Carries gone content) (hn : content.length ≤ n)
    (htime : settleTime ≤ s.time) :
    Prog.wp (outputFibre.run (n + 1)) (s.Returns gone content) ⟨0, s⟩ := by
  rw [outputFibre, wp_ptFunction rfl]
  have hlate : ¬ s.time < settleTime := Nat.not_lt.mpr htime
  simp only [Stmt.exec, outputBody, Thread.expand, wp_onVars, hlate, Code.wp_andThen,
    Code.wp_bind, Code.wp_pure, Prog.wp_bind, Prog.wp_get, Prog.wp_pure, decide_false,
    Bool.false_eq_true, if_false]
  have hloop := wp_outputLoop (f := ⟨0, ⟨.yielded, s⟩⟩) hcontent hn
  exact Prog.wp_mono hloop fun _ _ h => h.returns

theorem wp_settleTimeout_due (hdue : cyclecmp32 (BitVec.ofNat 32 settleTime) s.now ≤ 0)
    (Q : Bool → CdcOutput → Prop) : Prog.wp settleTimeout Q s ↔ Q true s := by
  simp only [settleTimeout, Prog.wp_bind, Prog.wp_get, hdue, if_true, Prog.wp_pure]

theorem outputFibre_settled {pt : BitVec 16} (hpt : pt = 0 ∧ s.time < settleTime ∨ pt = 213)
    (hcontent : s.out.Carries gone content) (hn : content.length ≤ n)
    (hdue : cyclecmp32 (BitVec.ofNat 32 settleTime) s.now ≤ 0) :
    Prog.wp (outputFibre.run (n + 1)) (s.Returns gone content) ⟨pt, s⟩ := by
  have hloop := wp_outputLoop (f := ⟨213, ⟨.yielded, s⟩⟩) hcontent hn
  rcases hpt with ⟨rfl, htime⟩ | rfl
  · rw [outputFibre, wp_ptFunction rfl]
    simp only [Stmt.exec, outputBody, Thread.expand, wp_onVars, Code.wp_andThen, Code.wp_bind,
      Code.wp_pure, Prog.wp_bind, Prog.wp_get, Prog.wp_pure, htime, decide_true, if_true]
    rw [wp_ptWaitUntil, wp_onVars, wp_settleTimeout_due hdue]
    exact Prog.wp_mono hloop fun _ _ h => h.returns
  · rw [outputFibre, wp_ptFunction rfl]
    simp only [Stmt.exec, wp_onVars, wp_settleTimeout_due hdue, Code.wp_andThen, Code.wp_bind,
      Code.wp_pure, if_true]
    exact Prog.wp_mono hloop fun _ _ h => h.returns

theorem wp_settleTimeout (hearly : ¬ cyclecmp32 (BitVec.ofNat 32 settleTime) s.now ≤ 0)
    (Q : Bool → CdcOutput → Prop) :
    Prog.wp settleTimeout Q s ↔ Q false { s with armed := true } := by
  simp only [settleTimeout, Prog.wp_bind, Prog.wp_get, hearly, if_false, Prog.wp_modify,
    Prog.wp_pure]

theorem outputFibre_waits {pt : BitVec 16} (hpt : pt = 0 ∧ s.time < settleTime ∨ pt = 213)
    (hearly : ¬ cyclecmp32 (BitVec.ofNat 32 settleTime) s.now ≤ 0) :
    Prog.wp (outputFibre.run n) (fun res a => res = .waiting ∧
      a = ⟨213, { s with armed := true }⟩) ⟨pt, s⟩ := by
  rcases hpt with ⟨rfl, htime⟩ | rfl
  · rw [outputFibre, wp_ptFunction rfl]
    simp only [Stmt.exec, outputBody, Thread.expand, wp_onVars, Code.wp_andThen, Code.wp_bind,
      Code.wp_pure, Prog.wp_bind, Prog.wp_get, Prog.wp_pure, htime, decide_true, if_true]
    rw [wp_ptWaitUntil, wp_onVars, wp_settleTimeout hearly]
    exact ⟨rfl, rfl⟩
  · rw [outputFibre, wp_ptFunction rfl]
    simp only [Stmt.exec, wp_onVars, wp_settleTimeout hearly, Code.wp_andThen, Code.wp_bind,
      Code.wp_pure, returning, Bool.false_eq_true, if_false]
    exact ⟨rfl, trivial⟩

/-- What is left of the body when a byte is in hand. -/
def afterYield : PtStmt CdcOutput :=
  .seq (.seq .skip sendLoop.expand) outputLoop.expand

theorem wp_outputFibre_again (Q : PtState → Instance CdcOutput → Prop) :
    Prog.wp (outputFibre.run n) Q ⟨223, s⟩ ↔ Prog.wp (afterYield.exec.run n)
      (fun res f => Q (res.getD .exited) ⟨f.pt, f.locals.vars⟩) ⟨223, ⟨.yielded, s⟩⟩ := by
  have hseek : (Stmt.seq (.label 0) outputBody.expand).seek (223 : BitVec 16).toNat =
      some afterYield := rfl
  rw [outputFibre, wp_ptFunction hseek]

theorem wp_afterYield (Q : Option PtState → CallFrame CdcOutput → Prop) :
    Prog.wp (afterYield.exec.run (n + 1)) Q f ↔
      if f.locals.vars.room = 0 then Q (some .yielded) { f with pt := 223 }
      else Prog.wp ((Stmt.exec (Thread.expand outputLoop)).run (n + 1)) Q
        ⟨f.pt, ⟨f.locals.spawnRes, { f.locals.vars with
          sent := f.locals.vars.sent ++ [f.locals.vars.ch]
          room := f.locals.vars.room - 1 }⟩⟩ := by
  simp only [afterYield, Stmt.exec, Code.wp_andThen, Code.wp_pure, wp_sendLoop]

theorem outputFibre_stuck (hroom : s.room = 0) :
    Prog.wp (outputFibre.run (n + 1)) (fun res a => res = .yielded ∧ a = ⟨223, s⟩)
      ⟨223, s⟩ := by
  rw [wp_outputFibre_again, wp_afterYield, if_pos hroom]
  exact ⟨rfl, rfl⟩

theorem outputFibre_again (hcontent : s.out.Carries gone content) (hn : content.length ≤ n)
    (hroom : s.room ≠ 0) :
    Prog.wp (outputFibre.run (n + 1))
      (CdcOutput.Returns { s with sent := s.sent ++ [s.ch], room := s.room - 1 } gone content)
      ⟨223, s⟩ := by
  rw [wp_outputFibre_again, wp_afterYield, if_neg hroom]
  have hloop := wp_outputLoop (f := ⟨223, ⟨.yielded, { s with
    sent := s.sent ++ [s.ch], room := s.room - 1 }⟩⟩) hcontent hn
  exact Prog.wp_mono hloop fun _ _ h => h.returns

end Calls

end Librfn
