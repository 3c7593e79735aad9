import Librfn.Fibre.Fuel
import Librfn.Fibre.Pass
import Librfn.Logic.Transition

/-!
# Runs of the scheduler

The main loop and the fibres call the scheduler in any order.  The functions of
the fibres that are being executed form a stack, because a fibre may itself
call `fibre_scheduler_next`.
-/

namespace Librfn

open Librfn.Logic

/-- A fibre whose function is being executed. -/
structure Frame (F : Type) where
  fibre : F
  /-- A `fibre_timeout` of this dispatch has returned false. -/
  armed : Bool
  /-- The function has called `fibre_scheduler_next`. -/
  nested : Bool
  deriving DecidableEq, Repr

structure System (F : Type) where
  world : World F
  /-- Innermost first. -/
  frames : List (Frame F)

inductive Action (F : Type) where
  | run (f : F)
  | call (call : HandlerCall F)
  | kill (f : F)
  | timeout (duetime : BitVec 32)
  | schedulerNext (time : BitVec 32)
  /-- The innermost function returns. -/
  | ret (state : FibreState)
  deriving DecidableEq, Repr

/-- An action, and what interrupt handlers do while it lasts. -/
structure Step (F : Type) where
  action : Action F
  interrupts : List (List (HandlerCall F)) := []

def markNested {F : Type} : List (Frame F) → List (Frame F)
  | [] => []
  | frame :: frames => { frame with nested := true } :: frames

def markArmed {F : Type} : List (Frame F) → List (Frame F)
  | [] => []
  | frame :: frames => { frame with armed := true } :: frames

namespace System

variable {F : Type}

def init (atomicRunqBuf : Nat) (eventq : F → Messageq) : System F :=
  { world := .init atomicRunqBuf eventq, frames := [] }

/-- A rule about what may be called, given the frames and the time of the last
scheduler pass. -/
abbrev Rule (F : Type) := List (Frame F) → BitVec 32 → Action F → Prop

/-- What every caller keeps to: only a fibre calls `fibre_timeout`, it returns
`PT_WAITING` straight after one that returned false, and its function returns
one of four states. -/
def Follows : Rule F := fun frames _ action =>
  match action with
  | .call _ => True
  | .timeout _ => ∃ frame ∈ frames.head?, frame.armed = false
  | .ret state => ∃ frame ∈ frames.head?, state.Returned ∧
      (frame.armed = true → state = .waiting)
  | _ => ∀ frame ∈ frames.head?, frame.armed = false

/-- Besides, a fibre that has called `fibre_scheduler_next` does not wait for a
time after it in that dispatch. -/
def TimesOutFirst : Rule F := fun frames now action =>
  Follows frames now action ∧
    match action with
    | .timeout duetime => ∀ frame ∈ frames.head?,
        cyclecmp32 duetime now ≤ 0 ∨ frame.nested = false
    | _ => True

def MainLoopOnly : Rule F := fun frames now action =>
  TimesOutFirst frames now action ∧
    match action with
    | .schedulerNext _ => frames = []
    | _ => True

instance (state : FibreState) : Decidable state.Returned :=
  inferInstanceAs (Decidable (_ ∨ _ ∨ _ ∨ _))

instance (frames : List (Frame F)) (now : BitVec 32) :
    DecidablePred (Follows frames now)
  | .call _ => inferInstanceAs (Decidable True)
  | .timeout _ => inferInstanceAs (Decidable (∃ frame ∈ frames.head?, _))
  | .ret _ => inferInstanceAs (Decidable (∃ frame ∈ frames.head?, _ ∧ (_ → _)))
  | .run _ => inferInstanceAs (Decidable (∀ frame ∈ frames.head?, _))
  | .kill _ => inferInstanceAs (Decidable (∀ frame ∈ frames.head?, _))
  | .schedulerNext _ => inferInstanceAs (Decidable (∀ frame ∈ frames.head?, _))

instance (frames : List (Frame F)) (now : BitVec 32) :
    DecidablePred (TimesOutFirst frames now)
  | .timeout _ =>
      inferInstanceAs (Decidable (_ ∧ ∀ frame ∈ frames.head?, _ ∨ _))
  | .call _ => inferInstanceAs (Decidable (_ ∧ True))
  | .ret _ => inferInstanceAs (Decidable (_ ∧ True))
  | .run _ => inferInstanceAs (Decidable (_ ∧ True))
  | .kill _ => inferInstanceAs (Decidable (_ ∧ True))
  | .schedulerNext _ => inferInstanceAs (Decidable (_ ∧ True))

variable [DecidableEq F]

def onWorld {α : Type} (m : Prog (World F) α) : Prog (System F) α :=
  Prog.zoom System.world (fun world sys => { sys with world }) m

def setFrames (frames : List (Frame F)) : Prog (System F) Unit :=
  modify fun sys => { sys with frames }

def exec (fuel : Nat) (action : Action F) : Prog (System F) Unit := do
  let frames := (← get).frames
  match action with
  | .run f => onWorld (fibreRun fuel f)
  | .call call => onWorld (handlerCall call)
  | .kill f =>
      let _ ← onWorld (fibreKill fuel f)
  | .timeout duetime =>
      if ¬ (← onWorld (fibreTimeout fuel duetime)) then
        setFrames (markArmed frames)
  | .schedulerNext time =>
      match ← onWorld (schedulerDispatch fuel time) with
      | none =>
          setFrames (markNested frames)
          let _ ← onWorld getNextWakeup
      | some fibre =>
          setFrames ({ fibre, armed := false, nested := false } :: markNested frames)
  | .ret state =>
      match frames with
      | [] => throw .badPointer
      | frame :: frames =>
          let _ ← onWorld (schedulerReturn frame.fibre state)
          setFrames frames

/-- One step of a system whose parties keep to a rule. -/
def Next (rule : Rule F) (sys : System F) (step : Step F)
    (sys' : System F) : Prop :=
  rule sys.frames sys.world.kernel.now step.action ∧
    Prog.Returns (fun fuel => exec fuel step.action)
      { sys with world := { sys.world with interrupts := step.interrupts } }
      ((), sys')

theorem exec_monotone (action : Action F) :
    Prog.Monotone (fun fuel => exec fuel action) := by
  intro fuel
  unfold exec
  refine .bind (.refl _) fun sys => ?_
  cases action with
  | run f => exact .zoom (fibreRun_le fuel f)
  | call call => exact .refl _
  | kill f => exact .bind (.zoom (fibreKill_le fuel f)) fun _ => .refl _
  | timeout duetime =>
      exact .bind (.zoom (fibreTimeout_le fuel duetime)) fun _ => .refl _
  | schedulerNext time =>
      exact .bind (.zoom (schedulerDispatch_le fuel time)) fun _ => .refl _
  | ret state => exact .refl _

end System

namespace Sched

variable {F : Type} [DecidableEq F]

/-- What an action does to the frames and the sequences. -/
inductive Does : Action F → List (Frame F) → Sched F →
    List (Frame F) → Sched F → Prop
  | run {frames s s' f} : Drain s s' →
      Does (.run f) frames s frames (s'.enqueue f)
  | call {frames s call} :
      Does (.call call) frames s frames (s.handlerCall call)
  | kill {frames s s' f} : Drain s s' →
      Does (.kill f) frames s frames (s'.interrupt.kill f)
  | past {frames s duetime} : cyclecmp32 duetime s.now ≤ 0 →
      Does (.timeout duetime) frames s frames s
  | arm {frame frames s duetime} : ¬ cyclecmp32 duetime s.now ≤ 0 →
      Does (.timeout duetime) (frame :: frames) s
        ({ frame with armed := true } :: frames) (s.arm frame.fibre duetime)
  | idle {frames s s' time} : Pass time s s' → s'.current = none →
      Does (.schedulerNext time) frames s (markNested frames) s'.interrupt
  | dispatch {frames s s' time f} : Pass time s s' → s'.current = some f →
      Does (.schedulerNext time) frames s
        ({ fibre := f, armed := false, nested := false } :: markNested frames) s'
  | yield {frame frames s} :
      Does (.ret .yielded) (frame :: frames) s frames
        (s.returned frame.fibre .yielded)
  | ret {frame frames s state} : state ≠ .yielded →
      Does (.ret state) (frame :: frames) s frames
        (s.returned frame.fibre state).interrupt

/-- What holds between calls. -/
structure Inv (frames : List (Frame F)) (s : Sched F) : Prop where
  held : s.held = []
  distinct : Distinct s
  state : s.state.Returned
  /-- A fibre that may still wait for a time is the current one, and it is not
  waiting already. -/
  top : ∀ frame, frames.head? = some frame → frame.nested = false →
    s.current = some frame.fibre ∧
      (frame.armed = false → frame.fibre ∉ s.timerq)
  outer : ∀ frame ∈ frames.tail, frame.nested = true

omit [DecidableEq F] in
theorem init_inv (eventq : F → Messageq) : Inv [] (init eventq) where
  held := rfl
  distinct := List.nodup_nil
  state := Or.inl rfl
  top := nofun
  outer := nofun

omit [DecidableEq F] in
/-- Steps that only move fibres to the run queue keep the invariant. -/
theorem Inv.drained {frames : List (Frame F)} {s s' : Sched F}
    (h : Inv frames s) (hheld : s'.held = s.held) (hdistinct : Distinct s')
    (hdrained : Drained s s') : Inv frames s' where
  held := hheld.trans h.held
  distinct := hdistinct
  state := hdrained.state ▸ h.state
  top := by
    intro frame htop hnested
    obtain ⟨hcurrent, hfree⟩ := h.top frame htop hnested
    refine ⟨hdrained.current.trans hcurrent, ?_⟩
    intro harmed hmem
    exact hfree harmed (hdrained.timerq.subset hmem)
  outer := h.outer

omit [DecidableEq F] in
theorem Inv.same {frames : List (Frame F)} {s s' : Sched F}
    (h : Inv frames s) (hsame : SameTasks s s') : Inv frames s' :=
  h.drained hsame.held (hsame.distinct h.distinct) hsame.drained

omit [DecidableEq F] in
theorem Inv.withInterrupts {frames : List (Frame F)} {s : Sched F}
    (h : Inv frames s) (interrupts : List (List (HandlerCall F))) :
    Inv frames { s with interrupts } :=
  ⟨h.held, h.distinct, h.state, h.top, h.outer⟩

omit [DecidableEq F] in
theorem markNested_nested {frames : List (Frame F)}
    (h : ∀ frame ∈ frames.tail, frame.nested = true) :
    ∀ frame ∈ markNested frames, frame.nested = true := by
  cases frames with
  | nil => exact nofun
  | cons top frames =>
      intro frame hframe
      rcases List.mem_cons.mp hframe with rfl | hmem
      · rfl
      · exact h frame hmem

theorem kill_inv {frames : List (Frame F)} {s : Sched F} (f : F)
    (h : Inv frames s) : Inv frames (s.kill f) where
  held := h.held
  distinct := kill_distinct f h.distinct
  state := h.state
  top := by
    intro frame htop hnested
    obtain ⟨hcurrent, hfree⟩ := h.top frame htop hnested
    exact ⟨hcurrent, fun harmed hmem =>
      hfree harmed (List.erase_sublist.subset hmem)⟩
  outer := h.outer

theorem Does.inv {action : Action F} {frames frames' : List (Frame F)}
    {s s' : Sched F} (h : Does action frames s frames' s')
    (hrule : System.TimesOutFirst frames s.now action) (hinv : Inv frames s) :
    Inv frames' s' := by
  cases h with
  | run hdrain =>
      exact (hinv.drained hdrain.held (hdrain.distinct hinv.distinct)
        hdrain.drained).drained (enqueue_held _ _)
        (enqueue_distinct _ (hdrain.distinct hinv.distinct)) (enqueue_drained _ _)
  | call => exact hinv.same (handlerCall_same _ _)
  | kill hdrain =>
      have hdrained := hinv.drained hdrain.held (hdrain.distinct hinv.distinct)
        hdrain.drained
      exact kill_inv _ (hdrained.same (interrupt_same _))
  | past _ => exact hinv
  | @arm frame frames _ duetime hfuture =>
      obtain ⟨⟨_, htop, harmed⟩, hnested⟩ := hrule
      cases htop
      obtain ⟨hcurrent, hfree⟩ := hinv.top frame rfl
        ((hnested frame rfl).resolve_left hfuture)
      refine ⟨hinv.held, arm_distinct (hfree harmed) duetime hinv.distinct,
        hinv.state, ?_, hinv.outer⟩
      rintro _ ⟨⟩ _
      exact ⟨hcurrent, nofun⟩
  | idle hpass _ =>
      have hpassed := hpass.passed hinv.distinct
      have hnested := markNested_nested hinv.outer
      refine Inv.same ⟨hpassed.held.trans hinv.held, hpassed.distinct,
        hpassed.state ▸ hinv.state, ?_, ?_⟩ (interrupt_same _)
      · intro frame htop hnot
        rw [hnested frame (List.mem_of_head? htop)] at hnot
        cases hnot
      · exact fun frame hmem => hnested frame (List.mem_of_mem_tail hmem)
  | @dispatch _ _ _ _ f hpass hcurrent =>
      have hpassed := hpass.passed hinv.distinct
      refine ⟨hpassed.held.trans hinv.held, hpassed.distinct,
        hpassed.state ▸ hinv.state, ?_, markNested_nested hinv.outer⟩
      rintro _ ⟨⟩ _
      exact ⟨hcurrent, fun _ => (hpassed.free f hcurrent).2⟩
  | @yield frame frames _ =>
      obtain ⟨⟨_, htop, hstate, -⟩, -⟩ := hrule
      refine ⟨hinv.held, hinv.distinct, hstate, ?_, ?_⟩
      · intro top htop hnot
        rw [hinv.outer top (List.mem_of_head? htop)] at hnot
        cases hnot
      · exact fun top hmem => hinv.outer top (List.mem_of_mem_tail hmem)
  | @ret frame frames _ state _ =>
      obtain ⟨⟨_, htop, hstate, -⟩, -⟩ := hrule
      refine Inv.same (s := s.returned frame.fibre state)
        ⟨hinv.held, hinv.distinct, hstate, ?_, ?_⟩ (interrupt_same _)
      · intro top htop hnot
        rw [hinv.outer top (List.mem_of_head? htop)] at hnot
        cases hnot
      · exact fun top hmem => hinv.outer top (List.mem_of_mem_tail hmem)

end Sched

/-! ## The scheduler does what it should -/

namespace System

variable {F : Type}

@[simp] theorem wp_onWorld {α : Type} (m : Prog (World F) α)
    (Q : α → System F → Prop) (sys : System F) :
    Prog.wp (onWorld m) Q sys ↔
      Prog.wp m (fun a world => Q a { sys with world }) sys.world :=
  Prog.wp_zoom _ _ _ _ _

@[simp] theorem wp_setFrames (frames : List (Frame F))
    (Q : Unit → System F → Prop) (sys : System F) :
    Prog.wp (setFrames frames) Q sys ↔ Q () { sys with frames } := Iff.rfl

variable [DecidableEq F]

/-- Every action but a timeout returns and does what it should, whatever was
called before. -/
theorem exec_does {sys : System F} {s : Sched F} {action : Action F}
    (h : sys.world.Represents s) (hstate : s.state.Returned)
    (haction : ∀ duetime, action ≠ .timeout duetime)
    (hret : ∀ state, action = .ret state → sys.frames ≠ []) {fuel : Nat}
    (hfuel : s.weight + 1 < fuel) :
    Prog.wp (exec fuel action) (fun _ sys' => ∃ s',
      Sched.Does action sys.frames s sys'.frames s' ∧
        sys'.world.Represents s') sys := by
  have hweight : s.weight < fuel := Nat.lt_of_succ_lt hfuel
  rw [exec, Prog.wp_bind, Prog.wp_get]
  cases action with
  | run f =>
      rw [wp_onWorld]
      refine Prog.wp_mono (fibreRun_spec h f hweight) ?_
      rintro _ w' ⟨s', hs', hw'⟩
      exact ⟨_, .run hs', hw'⟩
  | call call =>
      rw [wp_onWorld]
      refine Prog.wp_mono (handlerCall_spec h call) ?_
      intro _ w' hw'
      exact ⟨_, .call, hw'⟩
  | kill f =>
      rw [Prog.wp_bind, wp_onWorld]
      refine Prog.wp_mono (fibreKill_spec h f hweight) ?_
      rintro _ w' ⟨s', hs', -, hw'⟩
      exact ⟨_, .kill hs', hw'⟩
  | timeout duetime => exact absurd rfl (haction duetime)
  | schedulerNext time =>
      rw [Prog.wp_bind, wp_onWorld]
      refine Prog.wp_mono (schedulerDispatch_spec h time hstate hfuel) ?_
      rintro _ w' ⟨s', hpass, rfl, hw'⟩
      cases hcurrent : s'.current with
      | none =>
          simp only [Prog.wp_bind, wp_setFrames, wp_onWorld]
          refine Prog.wp_mono (getNextWakeup_spec hw') ?_
          rintro _ w'' ⟨-, hw''⟩
          exact ⟨_, .idle hpass hcurrent, hw''⟩
      | some f => exact ⟨_, .dispatch hpass hcurrent, hw'⟩
  | ret state =>
      obtain ⟨frame, frames, hframes⟩ := List.exists_cons_of_ne_nil (hret state rfl)
      rw [hframes]
      simp only [Prog.wp_bind, wp_onWorld, wp_setFrames]
      refine Prog.wp_mono (schedulerReturn_spec h frame.fibre state) ?_
      intro time w' hreturn
      by_cases hyield : state = .yielded
      · subst hyield
        rw [if_pos rfl] at hreturn
        exact ⟨_, .yield, hreturn.2⟩
      · rw [if_neg hyield] at hreturn
        exact ⟨_, .ret hyield, hreturn.2⟩

/-- Every action that keeps to the rule returns, and does what it should. -/
theorem exec_spec {sys : System F} {s : Sched F} {action : Action F}
    (h : sys.world.Represents s) (hinv : s.Inv sys.frames)
    (hrule : TimesOutFirst sys.frames s.now action) {fuel : Nat}
    (hfuel : s.weight + 1 < fuel) :
    Prog.wp (exec fuel action) (fun _ sys' => ∃ s',
      Sched.Does action sys.frames s sys'.frames s' ∧
        sys'.world.Represents s') sys := by
  cases action with
  | timeout duetime =>
      have hweight : s.weight < fuel := Nat.lt_of_succ_lt hfuel
      obtain ⟨⟨frame, htop, harmed⟩, hnested⟩ := hrule
      rw [exec, Prog.wp_bind, Prog.wp_get, Prog.wp_bind, wp_onWorld]
      by_cases hpast : cyclecmp32 duetime s.now ≤ 0
      · refine Prog.wp_mono (fibreTimeout_past h hpast) ?_
        rintro _ w' ⟨rfl, hw'⟩
        exact ⟨s, .past hpast, hw'⟩
      · obtain ⟨frames, hframes⟩ := List.head?_eq_some_iff.mp htop
        obtain ⟨hcurrent, hfree⟩ := hinv.top frame htop
          ((hnested frame htop).resolve_left hpast)
        refine Prog.wp_mono
          (fibreTimeout_arm h hpast hcurrent (hfree harmed) hweight) ?_
        rintro _ w' ⟨rfl, hw'⟩
        rw [hframes]
        exact ⟨_, .arm hpast, hw'⟩
  | ret state =>
      obtain ⟨⟨frame, htop, -⟩, -⟩ := hrule
      refine exec_does h hinv.state (by simp) (fun _ _ hnil => ?_) hfuel
      rw [hnil] at htop
      cases htop
  | _ => exact exec_does h hinv.state (by simp) (by simp) hfuel

omit [DecidableEq F] in
theorem init_represents (atomicRunqBuf : Nat) (eventq : F → Messageq) :
    (init atomicRunqBuf eventq).world.Represents (.init eventq) := by
  refine ⟨.init KernelList F, messageqInit atomicRunqBuf 64 8, fun _ => none,
    .init 8, rfl, ?_, ?_⟩
  · have hseq : (Sched.init eventq).seq = fun _ => [] := by
      funext list
      cases list <;> rfl
    rw [hseq]
    exact ListMem.init_represents
  · exact ⟨Messageq.messageqInit_represents _ (by decide) (by decide)
      (by decide) (by decide), rfl, nofun, rfl, rfl, nofun⟩

/-- A memory between calls. -/
structure Valid (sys : System F) (s : Sched F) : Prop where
  represents : sys.world.Represents s
  inv : s.Inv sys.frames

omit [DecidableEq F] in
theorem Valid.withInterrupts {sys : System F} {s : Sched F}
    (h : sys.Valid s) (interrupts : List (List (HandlerCall F))) :
    Valid { sys with world := { sys.world with interrupts } }
      { s with interrupts } :=
  ⟨h.represents.withInterrupts interrupts, h.inv.withInterrupts interrupts⟩

section Rules

variable {rule : Rule F}
  (hrule : ∀ frames now action, rule frames now action →
    TimesOutFirst frames now action)
  {sys sys' : System F} {s : Sched F}

include hrule

/-- Between calls no assertion fails and no loop runs for ever. -/
theorem Valid.returns (h : sys.Valid s) {step : Step F}
    (hstep : rule sys.frames sys.world.kernel.now step.action) :
    ∃ sys', Next rule sys step sys' := by
  have hnow := h.represents.scalars.2.2.1
  have hspec := exec_spec (h.withInterrupts step.interrupts).represents
    (h.withInterrupts step.interrupts).inv (hnow ▸ hrule _ _ _ hstep)
    (Nat.lt_succ_self _)
  obtain ⟨_, sys', hret, -⟩ :=
    Prog.exists_returns (exec_monotone step.action) hspec
  exact ⟨sys', hstep, hret⟩

theorem Valid.next (h : sys.Valid s) {step : Step F}
    (hnext : Next rule sys step sys') : ∃ s',
      Sched.Does step.action sys.frames { s with interrupts := step.interrupts }
        sys'.frames s' ∧ sys'.Valid s' := by
  obtain ⟨hstep, hret⟩ := hnext
  have hw := h.withInterrupts step.interrupts
  have htimesOut := hrule _ _ _ hstep
  rw [h.represents.scalars.2.2.1] at htimesOut
  obtain ⟨s', hdoes, hs'⟩ := hret.of_wp (exec_monotone step.action)
    (exec_spec hw.represents hw.inv htimesOut (Nat.lt_succ_self _))
  exact ⟨s', hdoes, hs', hdoes.inv htimesOut hw.inv⟩

theorem run_valid {atomicRunqBuf : Nat} {eventq : F → Messageq}
    {steps : List (Step F)}
    (hrun : Run (Next rule) (init atomicRunqBuf eventq) steps sys) :
    ∃ s, sys.Valid s :=
  hrun.invariant (I := fun sys => ∃ s, sys.Valid s)
    ⟨_, init_represents atomicRunqBuf eventq, Sched.init_inv eventq⟩
    fun _ _ _ ⟨_, hs⟩ hnext =>
      let ⟨s', _, hs'⟩ := hs.next hrule hnext
      ⟨s', hs'⟩

end Rules

/-! ## Following a run by computation -/

/-- The state after some steps, each with the same fuel, if all of them keep to
the rule and return. -/
def follow (rule : Rule F) [∀ frames now, DecidablePred (rule frames now)]
    (fuel : Nat) :
    List (Step F) → System F → Option (System F)
  | [], sys => some sys
  | step :: steps, sys =>
      if rule sys.frames sys.world.kernel.now step.action then
        match exec fuel step.action { sys with
            world := { sys.world with interrupts := step.interrupts } } with
        | .error _ => none
        | .ok (_, sys') => follow rule fuel steps sys'
      else none

theorem follow_cons {rule : Rule F} [∀ frames now, DecidablePred (rule frames now)]
    {fuel : Nat} {step : Step F} {steps : List (Step F)} {sys sys' : System F}
    (h : follow rule fuel (step :: steps) sys = some sys') :
    ∃ sys₁, Next rule sys step sys₁ ∧ follow rule fuel steps sys₁ = some sys' := by
  unfold follow at h
  split at h
  · rename_i hrule
    split at h
    · cases h
    · rename_i sys₁ heq
      exact ⟨sys₁, ⟨hrule, (exec_monotone step.action).returns heq⟩, h⟩
  · cases h

theorem follow_run {rule : Rule F}
    [∀ frames now, DecidablePred (rule frames now)] {fuel : Nat} {steps : List (Step F)}
    {sys sys' : System F} (h : follow rule fuel steps sys = some sys') :
    Run (Next rule) sys steps sys' := by
  induction steps generalizing sys with
  | nil =>
      cases h
      exact .nil
  | cons step steps ih =>
      obtain ⟨sys₁, hnext, hrest⟩ := follow_cons h
      exact .cons hnext (ih hrest)

end System

end Librfn
