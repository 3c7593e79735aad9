import Librfn.Fibre.System

/-!
# The queues of the scheduler

In every run the run queue and the timer queue are two disjoint lists, and no
call fails an assertion.
-/

namespace Librfn

open Librfn.Logic

variable {F : Type}

/-- The two lists hold these fibres: each chain of links from a head visits
them once and ends in `NULL`, the tails are right, no fibre is in two places
and the link of a fibre on neither queue is `NULL`. -/
def World.Queues (w : World F) (runq timerq : List F) : Prop :=
  w.kernel.lists.Represents fun
    | .runq => runq
    | .timerq => timerq

theorem World.Represents.queues {w : World F} {s : Sched F}
    (h : w.Represents s) : w.Queues s.runq s.timerq := by
  obtain ⟨lists, mq, buf, m, hw, hlists, -⟩ := h
  have hseq : s.seq = (fun
      | .runq => s.runq
      | .timerq => s.timerq) := by
    funext list
    cases list <;> rfl
  rw [World.Queues, hw, ← hseq]
  exact hlists

theorem World.Queues.unique {w : World F} {runq timerq runq' timerq' : List F}
    (h : w.Queues runq timerq) (h' : w.Queues runq' timerq') :
    runq = runq' ∧ timerq = timerq' := by
  have heq := ListMem.Represents.unique h h'
  exact ⟨congrFun heq .runq, congrFun heq .timerq⟩

namespace System

variable [DecidableEq F]

theorem Valid.entered_free {sys sys' : System F} {s : Sched F}
    (h : sys.Valid s) {step : Step F} {frame : Frame F}
    (hnext : Next TimesOutFirst sys step sys')
    (hpush : sys'.frames = frame :: markNested sys.frames) :
    ∃ runq timerq, sys'.world.Queues runq timerq ∧ frame.fibre ∉ runq ∧
      frame.fibre ∉ timerq := by
  obtain ⟨s', hdoes, hvalid⟩ := h.next (fun _ _ _ => id) hnext
  have hlen := congrArg List.length hpush
  rw [List.length_cons] at hlen
  have hmark : (markNested sys.frames).length = sys.frames.length := by
    cases sys.frames <;> rfl
  refine ⟨s'.runq, s'.timerq, hvalid.represents.queues, ?_⟩
  obtain ⟨action, interrupts⟩ := step
  generalize sys.frames = frames at hdoes hpush hlen hmark
  generalize sys'.frames = frames' at hdoes hpush hlen
  cases hdoes with
  | dispatch hpass hcurrent =>
      cases hpush
      exact (hpass.passed h.inv.distinct).free _ hcurrent
  | idle => omega
  | arm =>
      rw [List.length_cons] at hlen hmark
      omega
  | yield =>
      rw [List.length_cons] at hmark
      omega
  | ret =>
      rw [List.length_cons] at hmark
      omega
  | _ => omega

/-- In every state that is reached the queues are well formed, the fibre whose
function the next step enters is on neither of them, and every call that may be
made returns. -/
theorem queues_safe {atomicRunqBuf : Nat} {eventq : F → Messageq}
    {steps : List (Step F)} {sys : System F}
    (hrun : Run (Next TimesOutFirst) (init atomicRunqBuf eventq) steps sys) :
    (∃ runq timerq, sys.world.Queues runq timerq) ∧
    (∀ step sys' frame, Next TimesOutFirst sys step sys' →
      sys'.frames = frame :: markNested sys.frames →
      ∃ runq timerq, sys'.world.Queues runq timerq ∧
        frame.fibre ∉ runq ∧ frame.fibre ∉ timerq) ∧
    (∀ step : Step F,
      TimesOutFirst sys.frames sys.world.kernel.now step.action →
      ∃ sys', Next TimesOutFirst sys step sys') := by
  obtain ⟨s, hs⟩ := run_valid (fun _ _ _ => id) hrun
  exact ⟨⟨_, _, hs.represents.queues⟩, fun _ _ _ hnext hpush => hs.entered_free hnext hpush,
    fun _ hstep => hs.returns (fun _ _ _ => id) hstep⟩

theorem queues_safe_sleep : ∃ sys : System Bool,
    Run (Next TimesOutFirst) (init 64 fun _ => messageqInit 0 32 4)
      [{ action := .run true }, { action := .schedulerNext 0 },
        { action := .timeout 5 }, { action := .ret .waiting },
        { action := .schedulerNext 5 }] sys ∧
      ∃ runq timerq, sys.world.Queues runq timerq := by
  have hsome : (follow (F := Bool) TimesOutFirst 9 [{ action := .run true },
      { action := .schedulerNext 0 }, { action := .timeout 5 },
      { action := .ret .waiting }, { action := .schedulerNext 5 }]
      (init 64 fun _ => messageqInit 0 32 4)).isSome = true := by
    decide +kernel
  obtain ⟨sys, hsys⟩ := Option.isSome_iff_exists.mp hsome
  exact ⟨sys, follow_run hsys, (queues_safe (follow_run hsys)).1⟩

/-- A fibre that calls the scheduler and then waits for a time arms whichever
fibre was dispatched last, here one that waits already. -/
theorem nested_timeout_cycle : ∃ sys : System Bool,
    Run (Next Follows) (init 64 fun _ => messageqInit 0 32 4)
      [{ action := .run false }, { action := .run true },
        { action := .schedulerNext 0 }, { action := .schedulerNext 0 },
        { action := .timeout 10 }, { action := .ret .waiting },
        { action := .timeout 10 }] sys ∧
      ¬ ∃ runq timerq, sys.world.Queues runq timerq := by
  have hlink : (follow (F := Bool) Follows 9 [{ action := .run false },
      { action := .run true }, { action := .schedulerNext 0 },
      { action := .schedulerNext 0 }, { action := .timeout 10 },
      { action := .ret .waiting }, { action := .timeout 10 }]
      (init 64 fun _ => messageqInit 0 32 4)).map
        (fun sys => sys.world.kernel.lists.link (.next true)) =
      some (some (.next true)) := by
    decide +kernel
  obtain ⟨sys, hsys, hself⟩ := Option.map_eq_some_iff.mp hlink
  exact ⟨sys, follow_run hsys, fun ⟨_, _, hqueues⟩ =>
    hqueues.link_ne_self true hself⟩

end System

end Librfn
