import Librfn.Fibre.System

/-!
# What the calls return

The steps of a run with what the caller gets to see: whether a call succeeded,
which fibre is entered and where its function resumes, and when the scheduler
wants to be called again.
-/

namespace Librfn

open Librfn.Logic

/-- The result of a call.  `fibre_scheduler_next` shows itself twice: when it
calls the function of a fibre, and when it returns. -/
inductive Reply (F : Type) where
  | done
  | answer (res : Bool)
  | fibre (f : Option F)
  | event (evtp : Option Nat)
  | dispatched (f : F) (priv : BitVec 16)
  | wakeup (time : BitVec 32)
  deriving DecidableEq, Repr

namespace System

variable {F : Type} [DecidableEq F]

def perform (fuel : Nat) (action : Action F) : Prog (System F) (Reply F) := do
  let frames := (← get).frames
  match action with
  | .run f =>
      onWorld (fibreRun fuel f)
      return .done
  | .call (.runAtomic f) => return .answer (← onWorld (fibreRunAtomic f))
  | .call call =>
      onWorld (handlerCall call)
      return .done
  | .kill f => return .answer (← onWorld (fibreKill fuel f))
  | .timeout duetime =>
      let res ← onWorld (fibreTimeout fuel duetime)
      if ¬ res then
        setFrames (markArmed frames)
      return .answer res
  | .schedulerNext time =>
      match ← onWorld (schedulerDispatch fuel time) with
      | none =>
          setFrames (markNested frames)
          return .wakeup (← onWorld getNextWakeup)
      | some fibre =>
          setFrames ({ fibre, armed := false, nested := false } :: markNested frames)
          return .dispatched fibre ((← get).world.fibre fibre).priv
  | .ret state =>
      match frames with
      | [] => throw .badPointer
      | frame :: frames =>
          let time ← onWorld (schedulerReturn frame.fibre state)
          setFrames frames
          return .wakeup time

/-- The replies change nothing. -/
theorem exec_eq_perform (fuel : Nat) (action : Action F) :
    exec fuel action = (do let _ ← perform fuel action) := by
  unfold exec perform
  rw [bind_assoc]
  congr 1
  funext sys
  cases action with
  | call call =>
      cases call with
      | runAtomic f =>
          have hcall : handlerCall (.runAtomic f) =
              (fun _ => ()) <$> fibreRunAtomic f := by
            simp [handlerCall]
          simp [hcall, onWorld, Prog.zoom_map]
      | eventqClaim f => simp
      | eventqSend f event => simp
  | timeout duetime =>
      simp only [bind_assoc]
      congr 1
      funext res
      cases res <;> simp
  | schedulerNext time =>
      simp only [bind_assoc]
      congr 1
      funext current
      cases current <;> simp
  | ret state =>
      cases sys.frames with
      | nil => rfl
      | cons frame frames => simp
  | _ => simp

theorem perform_monotone (action : Action F) :
    Prog.Monotone (fun fuel => perform fuel action) := by
  intro fuel
  refine .bind (.refl _) fun sys => ?_
  cases action with
  | run f => exact .bind (.zoom (fibreRun_le fuel f)) fun _ => .refl _
  | call call => cases call <;> exact .refl _
  | kill f => exact .bind (.zoom (fibreKill_le fuel f)) fun _ => .refl _
  | timeout duetime =>
      exact .bind (.zoom (fibreTimeout_le fuel duetime)) fun _ => .refl _
  | schedulerNext time =>
      exact .bind (.zoom (schedulerDispatch_le fuel time)) fun _ => .refl _
  | ret state => exact .refl _

theorem exec_returns_iff {sys sys' : System F} {action : Action F} :
    Prog.Returns (fun fuel => exec fuel action) sys ((), sys') ↔
      ∃ reply, Prog.Returns (fun fuel => perform fuel action) sys (reply, sys') := by
  simp only [exec_eq_perform]
  constructor
  · intro h
    obtain ⟨reply, sys₁, hperform, hpure⟩ := Prog.Returns.of_bind
      (perform_monotone action) (fun _ _ => .refl _) h
    cases hpure.unique (.pure () sys₁)
    exact ⟨reply, hperform⟩
  · rintro ⟨reply, h⟩
    exact h.bind (.pure () sys')

end System

end Librfn
