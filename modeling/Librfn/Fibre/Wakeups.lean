import Librfn.Fibre.Requests
import Librfn.Fibre.Safety

/-!
# Wake-ups

A fibre that was asked to run, whose timer ran out or that yielded is on the
run queue, in the atomic run queue or, until the next pass, the current fibre
that has just yielded.
-/

namespace Librfn

open Librfn.Logic

variable {F : Type}

namespace Sched

/-- The fibre that has just yielded, if no function is being executed. -/
def idle (s : Sched F) : List (Frame F) → Option F
  | [] => s.justYielded
  | _ :: _ => none

theorem idle_eq {s s' : Sched F} (h : Drained s s') (frames : List (Frame F)) :
    s'.idle frames = s.idle frames := by
  cases frames with
  | nil => exact justYielded_eq h
  | cons _ _ => rfl

theorem justYielded_none {s : Sched F} (h : s.current = none) :
    s.justYielded = none := by
  rw [justYielded, h, ite_self]

theorem returned_requests (s : Sched F) (f : F) {state : FibreState}
    (h : state ≠ .yielded) : Requests s (s.returned f state) := by
  refine ⟨[.returned f state], rfl, by simp, ?_, fun g hg => .inl hg⟩
  intro g
  simp [FibreEvent.Wakes, h, Queued, returned]

/-- At most one function is being executed, and it has not called the
scheduler. -/
def Single (frames : List (Frame F)) : Prop :=
  ∀ frame ∈ frames, frame.nested = false ∧ frames.tail = []

end Sched

namespace System

def WithoutKill : Rule F := fun frames now action =>
  MainLoopOnly frames now action ∧ ∀ f, action ≠ .kill f

end System

namespace Sched

variable [DecidableEq F]

omit [DecidableEq F] in
theorem Single.cons {frame : Frame F} {frames : List (Frame F)}
    (h : Single (frame :: frames)) : frame.nested = false ∧ frames = [] :=
  h frame List.mem_cons_self

theorem Does.single {action : Action F} {frames frames' : List (Frame F)}
    {s s' : Sched F} (h : Does action frames s frames' s')
    (hrule : System.WithoutKill frames s.now action) (hsingle : Single frames) :
    Single frames' := by
  cases h with
  | arm _ =>
      intro frame hframe
      obtain ⟨hnested, rfl⟩ := hsingle.cons
      rw [List.mem_singleton.mp hframe]
      exact ⟨hnested, rfl⟩
  | idle _ _ =>
      obtain ⟨⟨-, rfl⟩, -⟩ := hrule
      exact hsingle
  | dispatch _ _ =>
      obtain ⟨⟨-, rfl⟩, -⟩ := hrule
      intro frame hframe
      rw [List.mem_singleton.mp hframe]
      exact ⟨rfl, rfl⟩
  | yield =>
      obtain ⟨-, rfl⟩ := hsingle.cons
      exact nofun
  | ret _ =>
      obtain ⟨-, rfl⟩ := hsingle.cons
      exact nofun
  | _ => exact hsingle

theorem Does.woken {action : Action F} {frames frames' : List (Frame F)}
    {s s' : Sched F} (h : Does action frames s frames' s')
    (hrule : System.WithoutKill frames s.now action) (hinv : Inv frames s)
    (hsingle : Single frames) (hw : s.Woken (s.idle frames)) :
    s'.Woken (s'.idle frames') := by
  cases h with
  | @run _ _ s₁ f hdrain =>
      rw [idle_eq (hdrain.drained.trans (enqueue_drained s₁ f))]
      exact hw.requests (hdrain.requests.trans (enqueue_requests s₁ f))
  | call =>
      rw [idle_eq (handlerCall_same s _).drained]
      exact hw.requests (handlerCall_requests s _)
  | kill _ => exact absurd rfl (hrule.2 _)
  | past _ => exact hw
  | arm _ => exact hw.requests (.of_eq rfl rfl rfl rfl)
  | @idle _ _ s₁ time hpass hcurrent =>
      obtain ⟨⟨-, rfl⟩, -⟩ := hrule
      have hw₁ := (hpass.woken hw).requests (interrupt_requests s₁)
      have hnone : s₁.interrupt.current = none :=
        (interrupt_same s₁).current.trans hcurrent
      change Woken _ s₁.interrupt.justYielded
      rwa [justYielded_none hnone]
  | dispatch hpass _ =>
      obtain ⟨⟨-, rfl⟩, -⟩ := hrule
      exact hpass.woken hw
  | @yield frame _ _ =>
      obtain ⟨hnested, rfl⟩ := hsingle.cons
      obtain ⟨hcurrent, -⟩ := hinv.top frame rfl hnested
      intro f hf
      obtain ⟨-, hwakes | hpending⟩ := hf
      · have hf : frame.fibre = f := by simpa [FibreEvent.Wakes] using hwakes
        exact .inr (by simp [Sched.idle, justYielded, Sched.returned, hcurrent, hf])
      · have hbusy : s.idle [frame] ≠ some f := Option.some_ne_none f ∘ Eq.symm
        exact .inl ((hw f hpending).resolve_right hbusy)
  | @ret frame _ _ state hstate =>
      obtain ⟨-, rfl⟩ := hsingle.cons
      rw [idle_eq (interrupt_same _).drained]
      have hw₁ := hw.requests (returned_requests s frame.fibre hstate)
      have hidle : (s.returned frame.fibre state).idle [] = none :=
        if_neg hstate
      rw [hidle]
      exact hw₁.requests (interrupt_requests _)

theorem Does.justified {action : Action F} {frames frames' : List (Frame F)}
    {s s' : Sched F} (h : Does action frames s frames' s')
    (hrule : System.WithoutKill frames s.now action) (hinv : Inv frames s)
    (hsingle : Single frames)
    (hquiet : ∀ time, action = .schedulerNext time → frames' ≠ [] →
      Undisturbed s.log s'.log)
    (hj : s.Justified (s.idle frames)) (hcaused : Caused s.log) :
    s'.Justified (s'.idle frames') ∧ Caused s'.log := by
  cases h with
  | @run _ _ s₁ f hdrain =>
      have hr := hdrain.requests.trans (enqueue_requests s₁ f)
      rw [idle_eq (hdrain.drained.trans (enqueue_drained s₁ f))]
      exact ⟨hj.requests hr, hr.caused hcaused⟩
  | call =>
      rw [idle_eq (handlerCall_same s _).drained]
      exact ⟨hj.requests (handlerCall_requests s _),
        (handlerCall_requests s _).caused hcaused⟩
  | kill _ => exact absurd rfl (hrule.2 _)
  | past _ => exact ⟨hj, hcaused⟩
  | arm _ => exact ⟨hj.requests (.of_eq rfl rfl rfl rfl), hcaused⟩
  | @idle _ _ s₁ time hpass hcurrent =>
      obtain ⟨⟨-, rfl⟩, -⟩ := hrule
      obtain ⟨hj₁, hcaused₁⟩ := hpass.justified hinv.distinct hinv.held
        (fun hne => absurd hcurrent hne) hj hcaused
      have hnone : s₁.interrupt.current = none :=
        (interrupt_same s₁).current.trans hcurrent
      refine ⟨?_, (interrupt_requests s₁).caused hcaused₁⟩
      change Justified _ s₁.interrupt.justYielded
      rw [justYielded_none hnone]
      exact hj₁.requests (interrupt_requests s₁)
  | @dispatch _ _ s₁ time f hpass hcurrent =>
      obtain ⟨⟨-, rfl⟩, -⟩ := hrule
      exact hpass.justified hinv.distinct hinv.held
        (fun _ => hquiet time rfl nofun) hj hcaused
  | @yield frame _ _ =>
      obtain ⟨hnested, rfl⟩ := hsingle.cons
      obtain ⟨hcurrent, -⟩ := hinv.top frame rfl hnested
      refine ⟨?_, hcaused.cons nofun⟩
      rintro f (hqueued | hidle)
      · exact ⟨nofun, .inr (hj f (.inl hqueued))⟩
      · have hf : frame.fibre = f := by
          simpa [Sched.idle, justYielded, Sched.returned, hcurrent] using hidle
        exact ⟨nofun, .inl (by simp [FibreEvent.Wakes, hf])⟩
  | @ret frame _ _ state hstate =>
      obtain ⟨-, rfl⟩ := hsingle.cons
      have hr := (returned_requests s frame.fibre hstate).trans
        (interrupt_requests _)
      rw [idle_eq (interrupt_same _).drained]
      have hidle : (s.returned frame.fibre state).idle [] = none :=
        if_neg hstate
      rw [hidle]
      exact ⟨hj.requests hr, hr.caused hcaused⟩

end Sched

/-- The atomic run queue holds these entries, oldest first, and all of them are
there to be received. -/
def World.AtomicRunq (w : World F) (fs : List F) : Prop :=
  ∃ m, Entries w.kernel.atomicRunq w.kernel.atomicRunqBuf m fs 0 none

theorem World.Represents.atomicRunq {w : World F} {s : Sched F}
    (h : w.Represents s) (hheld : s.held = []) : w.AtomicRunq s.pending := by
  obtain ⟨lists, mq, buf, m, rfl, -, hentries⟩ := h
  rw [hheld] at hentries
  exact ⟨m, hentries⟩

namespace System

/-- The fibre is on one of these queues, or it is the current one and has just
yielded. -/
def ToRun (sys : System F) (runq pending : List F) (f : F) : Prop :=
  f ∈ runq ∨ f ∈ pending ∨
    sys.frames = [] ∧ sys.world.kernel.current = some f ∧
      sys.world.kernel.state = .yielded

theorem Valid.toRun_iff [DecidableEq F] {sys : System F} {s : Sched F}
    (h : sys.Valid s) (f : F) :
    sys.ToRun s.runq s.pending f ↔ s.Queued f ∨ s.idle sys.frames = some f := by
  obtain ⟨hcurrent, hstate, -⟩ := h.represents.scalars
  have hidle : s.idle sys.frames = some f ↔ sys.frames = [] ∧
      s.current = some f ∧ s.state = .yielded := by
    cases sys.frames with
    | nil =>
        by_cases hyield : s.state = .yielded <;>
          simp [Sched.idle, Sched.justYielded, hyield]
    | cons _ _ => simp [Sched.idle]
  rw [hidle, ToRun, Sched.Queued, h.inv.held, hcurrent, hstate]
  simp only [List.not_mem_nil, or_false, or_assoc]

variable [DecidableEq F]

/-- A pass that makes a dispatch is not disturbed by atomic requests. -/
def QuietNext (sys : System F) (step : Step F) (sys' : System F) : Prop :=
  Next WithoutKill sys step sys' ∧
    ∀ time, step.action = .schedulerNext time → sys'.frames ≠ [] →
      Undisturbed sys.world.log sys'.world.log

/-- A memory between calls in a run without `fibre_kill`. -/
structure Wakeful (sys : System F) (s : Sched F) : Prop where
  valid : sys.Valid s
  single : Sched.Single sys.frames
  woken : s.Woken (s.idle sys.frames)

structure Tracked (sys : System F) (s : Sched F) : Prop extends Wakeful sys s where
  justified : s.Justified (s.idle sys.frames)
  caused : Caused s.log

omit [DecidableEq F] in
theorem init_tracked (atomicRunqBuf : Nat) (eventq : F → Messageq) :
    Tracked (init atomicRunqBuf eventq) (.init eventq) where
  valid := ⟨init_represents atomicRunqBuf eventq, Sched.init_inv eventq⟩
  single := nofun
  woken := nofun
  justified := by
    intro f hf
    simp [Sched.Queued, Sched.init, Sched.idle, Sched.justYielded, init] at hf
  caused := by
    intro later earlier f heq
    cases later <;> cases heq

theorem Wakeful.next {sys sys' : System F} {s : Sched F} {step : Step F}
    (h : sys.Wakeful s) (hnext : Next WithoutKill sys step sys') :
    ∃ s', Sched.Does step.action sys.frames
      { s with interrupts := step.interrupts } sys'.frames s' ∧
      sys'.Wakeful s' := by
  obtain ⟨s', hdoes, hvalid⟩ := h.valid.next (fun _ _ _ hrule => hrule.1.1) hnext
  have hinv := h.valid.inv.withInterrupts step.interrupts
  have hrule := hnext.1
  rw [h.valid.represents.scalars.2.2.1] at hrule
  have hw : Sched.Woken { s with interrupts := step.interrupts }
      (s.idle sys.frames) := h.woken.requests (.of_eq rfl rfl rfl rfl)
  exact ⟨s', hdoes, hvalid, hdoes.single hrule h.single,
    hdoes.woken hrule hinv h.single hw⟩

theorem Tracked.next {sys sys' : System F} {s : Sched F} {step : Step F}
    (h : sys.Tracked s) (hnext : QuietNext sys step sys') :
    ∃ s', sys'.Tracked s' := by
  obtain ⟨s', hdoes, hwakeful⟩ := h.toWakeful.next hnext.1
  have hinv := h.valid.inv.withInterrupts step.interrupts
  have hrule := hnext.1.1
  rw [h.valid.represents.scalars.2.2.1] at hrule
  have hquiet := hnext.2
  rw [h.valid.represents.scalars.2.2.2.2,
    hwakeful.valid.represents.scalars.2.2.2.2] at hquiet
  have hj : Sched.Justified { s with interrupts := step.interrupts }
      (s.idle sys.frames) := h.justified.requests (.of_eq rfl rfl rfl rfl)
  obtain ⟨hjustified, hcaused⟩ := hdoes.justified hrule hinv h.single hquiet hj
    h.caused
  exact ⟨s', hwakeful, hjustified, hcaused⟩

/-- No wake-up is lost: a fibre that is to run is on one of the queues or has
just yielded.  When no atomic request disturbs a pass between its start and its
dispatch, only such fibres are, and every dispatch answers a request. -/
theorem wakeups (atomicRunqBuf : Nat) (eventq : F → Messageq)
    (steps : List (Step F)) (sys : System F) :
    (Run (Next WithoutKill) (init atomicRunqBuf eventq) steps sys →
      ∃ runq timerq pending, sys.world.Queues runq timerq ∧
        sys.world.AtomicRunq pending ∧
        ∀ f, Pending sys.world.log f → sys.ToRun runq pending f) ∧
    (Run QuietNext (init atomicRunqBuf eventq) steps sys →
      ∃ runq timerq pending, sys.world.Queues runq timerq ∧
        sys.world.AtomicRunq pending ∧
        (∀ f, Pending sys.world.log f ↔ sys.ToRun runq pending f) ∧
        Caused sys.world.log) := by
  constructor
  · intro hrun
    obtain ⟨s, h⟩ := hrun.invariant (I := fun sys => ∃ s, Wakeful sys s)
      ⟨_, (init_tracked atomicRunqBuf eventq).toWakeful⟩
      fun _ _ _ ⟨_, hs⟩ hnext =>
        let ⟨s', _, hs'⟩ := hs.next hnext
        ⟨s', hs'⟩
    refine ⟨s.runq, s.timerq, s.pending, h.valid.represents.queues,
      h.valid.represents.atomicRunq h.valid.inv.held, ?_⟩
    intro f hf
    rw [h.valid.represents.scalars.2.2.2.2] at hf
    exact (h.valid.toRun_iff f).mpr (h.woken f hf)
  · intro hrun
    obtain ⟨s, h⟩ := hrun.invariant (I := fun sys => ∃ s, Tracked sys s)
      ⟨_, init_tracked atomicRunqBuf eventq⟩
      fun _ _ _ ⟨_, hs⟩ hnext => hs.next hnext
    refine ⟨s.runq, s.timerq, s.pending, h.valid.represents.queues,
      h.valid.represents.atomicRunq h.valid.inv.held, ?_⟩
    rw [h.valid.represents.scalars.2.2.2.2]
    refine ⟨?_, h.caused⟩
    intro f
    rw [h.valid.toRun_iff]
    exact ⟨h.woken f, h.justified f⟩

theorem follow_quiet {fuel : Nat} {steps : List (Step F)} {sys sys' : System F}
    (h : follow TimesOutFirst fuel steps sys = some sys')
    (hsteps : ∀ step ∈ steps,
      (∀ f, step.action ≠ .kill f) ∧ ∀ time, step.action ≠ .schedulerNext time) :
    Run QuietNext sys steps sys' := by
  induction steps generalizing sys with
  | nil =>
      cases h
      exact .nil
  | cons step steps ih =>
      obtain ⟨sys₁, ⟨hrule, hreturns⟩, hrest⟩ := follow_cons h
      obtain ⟨⟨hkill, hpass⟩, hsteps⟩ := List.forall_mem_cons.mp hsteps
      refine .cons ⟨⟨⟨⟨hrule, ?_⟩, hkill⟩, hreturns⟩, fun time heq => absurd heq (hpass time)⟩
        (ih hrest hsteps)
      cases haction : step.action with
      | schedulerNext time => exact absurd haction (hpass time)
      | _ => trivial

theorem follow_quiet_pass {fuel : Nat} {time : BitVec 32} {sys sys' : System F}
    (h : follow TimesOutFirst fuel [{ action := .schedulerNext time }] sys = some sys')
    (hframes : sys.frames = []) (hlog : ∀ f queued, .runAtomic f queued ∉ sys'.world.log) :
    QuietNext sys { action := .schedulerNext time } sys' := by
  obtain ⟨hrule, hreturns⟩ := (follow_run h).of_single
  refine ⟨⟨⟨⟨hrule, hframes⟩, nofun⟩, hreturns⟩, fun _ _ _ new heq f queued hmem => ?_⟩
  exact hlog f queued (heq ▸ List.mem_append_left _ hmem)

theorem first_dispatch : ∃ sys : System Bool,
    Run QuietNext (init 64 fun _ => messageqInit 0 32 4)
      [{ action := .run true }, { action := .schedulerNext 0 }] sys ∧
    sys.world.kernel.current = some true ∧
    sys.world.kernel.state = .yielded ∧
    sys.world.log = [.dispatched true, .run true] := by
  have hvalues : (follow (F := Bool) TimesOutFirst 9 [{ action := .run true }]
      (init 64 fun _ => messageqInit 0 32 4)).any (fun u₁ => decide (u₁.frames = []) &&
        (follow TimesOutFirst 9 [{ action := .schedulerNext 0 }] u₁).any (fun u₂ => decide
          (u₂.world.kernel.current = some true ∧ u₂.world.kernel.state = .yielded ∧
            u₂.world.log = [.dispatched true, .run true]))) = true := by
    decide +kernel
  obtain ⟨u₁, h₁, hpost⟩ := (Option.any_eq_true _ _).mp hvalues
  obtain ⟨hframes, hpost⟩ := Bool.and_eq_true_iff.mp hpost
  obtain ⟨u₂, h₂, hpost⟩ := (Option.any_eq_true _ _).mp hpost
  obtain ⟨hcurrent, hstate, hlog⟩ := of_decide_eq_true hpost
  have hpass := follow_quiet_pass h₂ (of_decide_eq_true hframes) (by simp [hlog])
  exact ⟨u₂, (follow_quiet h₁ (by simp)).append (.single hpass), hcurrent, hstate, hlog⟩

theorem wakeups_run_and_request : ∃ sys : System Bool,
    Run QuietNext (init 64 fun _ => messageqInit 0 32 4)
      [{ action := .run true }, { action := .schedulerNext 0 }, { action := .ret .waiting },
        { action := .run true }, { action := .call (.runAtomic false) }] sys ∧
    ∃ runq timerq pending, sys.world.Queues runq timerq ∧
      sys.world.AtomicRunq pending ∧
      (∀ f, Pending sys.world.log f ↔ sys.ToRun runq pending f) ∧
      Caused sys.world.log ∧ runq = [true] ∧ false ∈ pending := by
  have hvalues : (follow (F := Bool) TimesOutFirst 9 [{ action := .run true }]
      (init 64 fun _ => messageqInit 0 32 4)).any (fun u₁ => decide (u₁.frames = []) &&
        (follow TimesOutFirst 9 [{ action := .schedulerNext 0 }] u₁).any (fun u₂ => decide
          (u₂.world.log = [.dispatched true, .run true]) &&
          (follow TimesOutFirst 9 [{ action := .ret .waiting }, { action := .run true },
            { action := .call (.runAtomic false) }] u₂).any (fun sys => decide
              (sys.world.kernel.lists.link (.head .runq) = some (.next true) ∧
                sys.world.kernel.lists.link (.next true) = none ∧
                sys.world.kernel.state = .waiting ∧
                sys.world.log.head? = some (.runAtomic false true))))) = true := by
    decide +kernel
  obtain ⟨u₁, h₁, hpost⟩ := (Option.any_eq_true _ _).mp hvalues
  obtain ⟨hframes, hpost⟩ := Bool.and_eq_true_iff.mp hpost
  obtain ⟨u₂, h₂, hpost⟩ := (Option.any_eq_true _ _).mp hpost
  obtain ⟨hlog₂, hpost⟩ := Bool.and_eq_true_iff.mp hpost
  obtain ⟨sys, hsys, hpost⟩ := (Option.any_eq_true _ _).mp hpost
  obtain ⟨hhead, hnext, hstate, hlog⟩ := of_decide_eq_true hpost
  have hpass := follow_quiet_pass h₂ (of_decide_eq_true hframes)
    (by simp [of_decide_eq_true hlog₂])
  have hrun := ((follow_quiet h₁ (by simp)).append (.single hpass)).append
    (follow_quiet hsys (by simp))
  obtain ⟨runq, timerq, pending, hqueues, hatomic, hiff, hcaused⟩ := (wakeups 64 _ _ sys).2 hrun
  have hrunq : runq = [true] := (hqueues.chain .runq).unique ⟨hhead, hnext⟩
  refine ⟨sys, hrun, runq, timerq, pending, hqueues, hatomic, hiff, hcaused, hrunq, ?_⟩
  obtain ⟨log, hlog⟩ := List.head?_eq_some_iff.mp hlog
  have hwoken : Pending sys.world.log false := by
    rw [hlog]
    exact ⟨nofun, .inl (.inr (.inl rfl))⟩
  -- Nothing but a request brings the other fibre to a queue.
  rcases (hiff false).mp hwoken with hmem | hmem | ⟨_, _, hyielded⟩
  · simp [hrunq] at hmem
  · exact hmem
  · simp [hstate] at hyielded

/-- While a function is being executed `kernel.state` is still that of the
fibre before it, so the current fibre seems to have yielded.  And when a fibre
calls the scheduler and yields afterwards, another fibre is the current one and
nothing is left of the yield. -/
theorem stale_state_and_lost_yield :
    (∃ sys : System Bool,
      Run QuietNext (init 64 fun _ => messageqInit 0 32 4)
        [{ action := .run true }, { action := .schedulerNext 0 }] sys ∧
      sys.world.kernel.current = some true ∧
      sys.world.kernel.state = .yielded ∧ ¬ Pending sys.world.log true) ∧
    ∃ sys : System Bool,
      Run (Next TimesOutFirst) (init 64 fun _ => messageqInit 0 32 4)
        [{ action := .run true }, { action := .schedulerNext 0 },
          { action := .ret .waiting }, { action := .run false },
          { action := .run true }, { action := .schedulerNext 0 },
          { action := .schedulerNext 0 }, { action := .ret .waiting },
          { action := .ret .yielded }] sys ∧
      Pending sys.world.log false ∧
      ¬ ∃ runq timerq pending, sys.world.Queues runq timerq ∧
        sys.world.AtomicRunq pending ∧ sys.ToRun runq pending false := by
  constructor
  · obtain ⟨sys, hrun, hcurrent, hstate, hlog⟩ := first_dispatch
    refine ⟨sys, hrun, hcurrent, hstate, ?_⟩
    rw [hlog]
    exact fun h => h.1 rfl
  · have hexec : (follow (F := Bool) TimesOutFirst 9 [{ action := .run true },
        { action := .schedulerNext 0 }, { action := .ret .waiting },
        { action := .run false }, { action := .run true },
        { action := .schedulerNext 0 }, { action := .schedulerNext 0 },
        { action := .ret .waiting }, { action := .ret .yielded }]
        (init 64 fun _ => messageqInit 0 32 4)).map (fun sys =>
          (sys.world.kernel.lists.link (.head .runq),
            messageqEmpty sys.world.kernel.atomicRunq,
            sys.world.kernel.current, sys.world.log.head?)) =
        some (none, true, some true, some (.returned false .yielded)) := by
      decide +kernel
    obtain ⟨sys, hsys, heq⟩ := Option.map_eq_some_iff.mp hexec
    obtain ⟨hrunq, hempty, hcurrent, hlog⟩ : _ ∧ _ ∧ _ ∧ _ := by
      simpa only [Prod.mk.injEq] using heq
    refine ⟨sys, follow_run hsys, ?_, ?_⟩
    · obtain ⟨log, hlog⟩ := List.head?_eq_some_iff.mp hlog
      rw [hlog]
      exact ⟨nofun, .inl (by simp [FibreEvent.Wakes])⟩
    · rintro ⟨runq, timerq, pending, hqueues, ⟨m, hentries⟩, hf⟩
      have hhead := ListMem.Represents.link_head hqueues .runq
      rw [hrunq] at hhead
      have hnil : runq = [] := firstPtr_none_eq_none.mp hhead.symm
      rw [hentries.messageqEmpty_eq, decide_eq_true_eq] at hempty
      rw [ToRun, hnil, hempty, hcurrent] at hf
      simp at hf

end System

end Librfn
