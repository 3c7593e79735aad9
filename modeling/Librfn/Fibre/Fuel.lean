import Librfn.Fibre

/-!
# More fuel changes nothing

A call that returns with some fuel returns the same with more.
-/

namespace Librfn

open Librfn.Logic

open Librfn.Logic.Prog (Le)

/-! ## Lists -/

section Lists

variable {L N : Type} [DecidableEq L] [DecidableEq N]

theorem listContainsLoop_le (node : N) (fuel : Nat) (curr : NodePtr L N)
    (iter : ListIterator L N) :
    Le (listContainsLoop node fuel curr iter)
      (listContainsLoop node (fuel + 1) curr iter) := by
  induction fuel generalizing curr iter with
  | zero => exact .throw _ _
  | succ fuel ih =>
      unfold listContainsLoop
      refine .ite (.refl _) (.ite (.refl _) (.bind (.refl _) ?_))
      exact fun r => ih r.1 r.2

theorem listContains_le (fuel : Nat) (list : L) (node : N) :
    Le (listContains fuel list node) (listContains (fuel + 1) list node) :=
  .bind (.refl _) fun r => listContainsLoop_le node fuel r.1 r.2

theorem listRemove_le (fuel : Nat) (list : L) (node : N) :
    Le (listRemove fuel list node) (listRemove (fuel + 1) list node) :=
  .bind (listContains_le fuel list node) fun _ => .refl _

omit [DecidableEq L] [DecidableEq N] in
theorem listInsertSortedLoop_le (node : N) (nodecmp : N → N → Int) (fuel : Nat)
    (curr : NodePtr L N) (iter : ListIterator L N) :
    Le (listInsertSortedLoop node nodecmp fuel curr iter)
      (listInsertSortedLoop node nodecmp (fuel + 1) curr iter) := by
  induction fuel generalizing curr iter with
  | zero => exact .throw _ _
  | succ fuel ih =>
      unfold listInsertSortedLoop
      refine .bind (.refl _) fun _ => .ite (.bind (.refl _) fun _ => ?_) (.refl _)
      exact .bind (.refl _) fun r => ih r.1 r.2

theorem listInsertSorted_le (fuel : Nat) (list : L) (node : N)
    (nodecmp : N → N → Int) :
    Le (listInsertSorted fuel list node nodecmp)
      (listInsertSorted (fuel + 1) list node nodecmp) := by
  unfold listInsertSorted
  refine .bind (.refl _) fun _ => .bind (.refl _) fun _ => .bind (.refl _) fun _ =>
    .ite (.refl _) ?_
  refine .bind (.refl _) fun _ => .bind (.refl _) fun _ =>
    .ite (.refl _) (.bind (.refl _) fun r => ?_)
  exact .bind (listInsertSortedLoop_le node nodecmp fuel r.1 r.2) fun _ => .refl _

end Lists

/-! ## The scheduler -/

variable {F : Type}

theorem onLists_le {α : Type} {m n : Prog (ListMem KernelList F) α}
    (h : Le m n) : Le (onLists m) (onLists n) := .zoom (.zoom h)

variable [DecidableEq F]

theorem fibreRunWith_le {m n : Prog (World F) Unit} (h : Le m n) (fuel : Nat)
    (f : F) : Le (fibreRunWith m fuel f) (fibreRunWith n (fuel + 1) f) := by
  unfold fibreRunWith
  refine .bind h fun _ => .bind (onLists_le (listContains_le fuel _ f)) fun r => ?_
  refine .ite (.bind (onLists_le (listRemove_le fuel _ f)) fun _ => .refl _) (.refl _)

theorem handleAtomicRunq_le (fuel : Nat) :
    Le (handleAtomicRunq (F := F) fuel) (handleAtomicRunq (fuel + 1)) := by
  induction fuel with
  | zero => exact .throw _ _
  | succ fuel ih =>
      rw [handleAtomicRunq, handleAtomicRunq]
      refine .bind (.refl _) fun _ => .bind (.refl _) fun entry => ?_
      cases entry with
      | none => exact .refl _
      | some entry =>
          refine .bind (.refl _) fun _ => .bind (.refl _) fun f => ?_
          refine .bind (fibreRunWith_le ih fuel f) fun _ => ?_
          exact .bind (.refl _) fun _ => .bind (.refl _) fun _ => ih

theorem fibreRun_le (fuel : Nat) (f : F) :
    Le (fibreRun fuel f) (fibreRun (fuel + 1) f) :=
  fibreRunWith_le (handleAtomicRunq_le fuel) fuel f

theorem handleTimerqLoop_le (fuel : Nat) (node : NodePtr KernelList F)
    (iter : ListIterator KernelList F) :
    Le (handleTimerqLoop fuel node iter)
      (handleTimerqLoop (fuel + 1) node iter) := by
  induction fuel generalizing node with
  | zero => exact .throw _ _
  | succ fuel ih =>
      unfold handleTimerqLoop
      refine .ite (.refl _) (.bind (.refl _) fun _ => .bind (.refl _) fun _ => ?_)
      refine .ite (.bind (.refl _) fun node => ?_) (.refl _)
      exact .bind (.refl _) fun _ => .bind (.refl _) fun _ => ih node

theorem handleTimerq_le (fuel : Nat) :
    Le (handleTimerq (F := F) fuel) (handleTimerq (fuel + 1)) :=
  .bind (.refl _) fun r => handleTimerqLoop_le fuel r.1 r.2

theorem updateCurrentState_le (fuel : Nat) :
    Le (updateCurrentState (F := F) fuel) (updateCurrentState (fuel + 1)) := by
  unfold updateCurrentState
  refine .bind (.refl _) fun w => ?_
  dsimp only
  cases w.kernel.current with
  | none => exact .refl _
  | some f =>
      refine .bind (.refl _) fun _ => ?_
      cases w.kernel.state with
      | yielded => exact fibreRun_le fuel f
      | _ => exact .refl _

theorem schedulerUpdate_le (fuel : Nat) :
    Le (schedulerUpdate (F := F) fuel) (schedulerUpdate (fuel + 1)) := by
  unfold schedulerUpdate
  refine .bind (handleAtomicRunq_le fuel) fun _ => .bind (.refl _) fun _ => ?_
  refine .bind (.refl _) fun w => .ite ?_ (.refl _)
  exact .bind (updateCurrentState_le fuel) fun _ => .refl _

theorem schedulerDispatch_le (fuel : Nat) (time : BitVec 32) :
    Le (schedulerDispatch (F := F) fuel time)
      (schedulerDispatch (fuel + 1) time) := by
  unfold schedulerDispatch
  refine .bind (.refl _) fun _ => .bind (.refl _) fun _ => .bind (.refl _) fun _ =>
    .ite (.bind (schedulerUpdate_le fuel) fun _ => ?_) (.refl _)
  exact .bind (handleTimerq_le fuel) fun _ => .refl _

theorem fibreKill_le (fuel : Nat) (f : F) :
    Le (fibreKill fuel f) (fibreKill (fuel + 1) f) := by
  unfold fibreKill
  refine .bind (handleAtomicRunq_le fuel) fun _ => .bind (.refl _) fun _ => ?_
  refine .bind (onLists_le (listRemove_le fuel _ f)) fun _ => ?_
  exact .bind (onLists_le (listRemove_le fuel _ f)) fun _ => .refl _

theorem fibreTimeout_le (fuel : Nat) (duetime : BitVec 32) :
    Le (fibreTimeout (F := F) fuel duetime) (fibreTimeout (fuel + 1) duetime) := by
  unfold fibreTimeout
  refine .bind (.refl _) fun w => ?_
  dsimp only
  refine .ite (.refl _) ?_
  cases w.kernel.current with
  | none => exact .refl _
  | some f =>
      refine .bind (.refl _) fun _ => ?_
      refine .bind (onLists_le (listContains_le fuel _ f)) fun r => .ite ?_ (.refl _)
      refine .bind (.refl _) fun w => ?_
      exact .bind (onLists_le (listInsertSorted_le fuel _ f _)) fun _ => .refl _

end Librfn
