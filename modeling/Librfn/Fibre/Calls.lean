import Librfn.Fibre.Safety

/-!
# Any calls in any order

Runs in which the main loop and the fibres make whatever calls they like.  The
only thing that is asked of them is that no fibre is put on the timer queue
that is there already; the queues are then well formed in every state.
-/

namespace Librfn

open Librfn.Logic

variable {F : Type}

namespace System

/-- A function returns only while it is executed, and returns one of four
states. -/
def AnyCalls : Rule F := fun frames _ action =>
  match action with
  | .ret state => frames ≠ [] ∧ state.Returned
  | _ => True

/-- Besides, `fibre_timeout` is left to the fibres. -/
def FibresTimeOut : Rule F := fun frames now action =>
  AnyCalls frames now action ∧
    match action with
    | .timeout _ => frames ≠ []
    | _ => True

instance (frames : List (Frame F)) (now : BitVec 32) :
    DecidablePred (AnyCalls frames now)
  | .ret _ => inferInstanceAs (Decidable (¬ _ = _ ∧ _))
  | .run _ => inferInstanceAs (Decidable True)
  | .call _ => inferInstanceAs (Decidable True)
  | .kill _ => inferInstanceAs (Decidable True)
  | .timeout _ => inferInstanceAs (Decidable True)
  | .schedulerNext _ => inferInstanceAs (Decidable True)

instance (frames : List (Frame F)) (now : BitVec 32) :
    DecidablePred (FibresTimeOut frames now)
  | .timeout _ => inferInstanceAs (Decidable (_ ∧ ¬ _ = _))
  | .run _ => inferInstanceAs (Decidable (_ ∧ True))
  | .call _ => inferInstanceAs (Decidable (_ ∧ True))
  | .kill _ => inferInstanceAs (Decidable (_ ∧ True))
  | .ret _ => inferInstanceAs (Decidable (_ ∧ True))
  | .schedulerNext _ => inferInstanceAs (Decidable (_ ∧ True))

end System

def World.OffTimerq (w : World F) : Action F → Prop
  | .timeout duetime => cyclecmp32 duetime w.kernel.now ≤ 0 ∨
      ∀ f runq timerq, w.kernel.current = some f → w.Queues runq timerq →
        f ∉ timerq
  | _ => True

namespace Sched

/-- What holds between calls, whatever is called. -/
structure Sound (s : Sched F) : Prop where
  held : s.held = []
  distinct : Distinct s
  state : s.state.Returned

theorem init_sound (eventq : F → Messageq) : Sound (init eventq) :=
  ⟨rfl, List.nodup_nil, .inl rfl⟩

theorem Sound.withInterrupts {s : Sched F} (h : Sound s)
    (interrupts : List (List (HandlerCall F))) : Sound { s with interrupts } :=
  ⟨h.held, h.distinct, h.state⟩

theorem Sound.same {s s' : Sched F} (h : Sound s) (hsame : SameTasks s s') :
    Sound s' :=
  ⟨hsame.held.trans h.held, hsame.distinct h.distinct, hsame.state ▸ h.state⟩

variable [DecidableEq F]

/-- What an action does; a timeout concerns the fibre that is current. -/
inductive Acts : Action F → List (Frame F) → Sched F → List (Frame F) →
    Sched F → Prop
  | does {action frames s frames' s'} : (∀ duetime, action ≠ .timeout duetime) →
      Does action frames s frames' s' → Acts action frames s frames' s'
  | past {frames s duetime} : cyclecmp32 duetime s.now ≤ 0 →
      Acts (.timeout duetime) frames s frames s
  | arm {frames s duetime f} : ¬ cyclecmp32 duetime s.now ≤ 0 →
      s.current = some f → f ∉ s.timerq →
      Acts (.timeout duetime) frames s (markArmed frames) (s.arm f duetime)

theorem Does.sound {action : Action F} {frames frames' : List (Frame F)}
    {s s' : Sched F} (h : Does action frames s frames' s')
    (haction : ∀ duetime, action ≠ .timeout duetime)
    (hret : ∀ state, action = .ret state → state.Returned) (hs : Sound s) :
    Sound s' := by
  cases h with
  | run hdrain =>
      refine ⟨?_, enqueue_distinct _ (hdrain.distinct hs.distinct), ?_⟩
      · rw [enqueue_held, hdrain.held, hs.held]
      · rw [(enqueue_drained _ _).state, hdrain.drained.state]
        exact hs.state
  | call => exact hs.same (handlerCall_same _ _)
  | kill hdrain =>
      have hdrained : Sound _ := ⟨hdrain.held.trans hs.held,
        hdrain.distinct hs.distinct, hdrain.drained.state ▸ hs.state⟩
      have hinterrupted := hdrained.same (interrupt_same _)
      exact ⟨hinterrupted.held, kill_distinct _ hinterrupted.distinct,
        hinterrupted.state⟩
  | past _ => exact hs
  | arm _ => exact absurd rfl (haction _)
  | idle hpass _ =>
      have hpassed := hpass.passed hs.distinct
      exact Sound.same ⟨hpassed.held.trans hs.held, hpassed.distinct,
        hpassed.state ▸ hs.state⟩ (interrupt_same _)
  | dispatch hpass _ =>
      have hpassed := hpass.passed hs.distinct
      exact ⟨hpassed.held.trans hs.held, hpassed.distinct,
        hpassed.state ▸ hs.state⟩
  | yield => exact ⟨hs.held, hs.distinct, hret _ rfl⟩
  | @ret frame frames _ state _ =>
      have hreturned : Sound (s.returned frame.fibre state) :=
        ⟨hs.held, hs.distinct, hret _ rfl⟩
      exact hreturned.same (interrupt_same _)

theorem Acts.sound {action : Action F} {frames frames' : List (Frame F)}
    {s s' : Sched F} (h : Acts action frames s frames' s')
    (hret : ∀ state, action = .ret state → state.Returned) (hs : Sound s) :
    Sound s' := by
  cases h with
  | does haction hdoes => exact hdoes.sound haction hret hs
  | past _ => exact hs
  | arm _ _ hfree => exact ⟨hs.held, arm_distinct hfree _ hs.distinct, hs.state⟩

end Sched

namespace System

variable [DecidableEq F]

/-- A step that keeps to a rule and puts no fibre on the timer queue twice. -/
def FreeNext (rule : Rule F) (sys : System F) (step : Step F) (sys' : System F) :
    Prop :=
  Next rule sys step sys' ∧ sys.world.OffTimerq step.action

/-- A memory between calls, whatever is called. -/
structure Tidy (sys : System F) (s : Sched F) : Prop where
  represents : sys.world.Represents s
  sound : s.Sound

omit [DecidableEq F] in
theorem init_tidy (atomicRunqBuf : Nat) (eventq : F → Messageq) :
    (init atomicRunqBuf eventq).Tidy (.init eventq) :=
  ⟨init_represents atomicRunqBuf eventq, Sched.init_sound eventq⟩

omit [DecidableEq F] in
theorem Tidy.withInterrupts {sys : System F} {s : Sched F} (h : sys.Tidy s)
    (interrupts : List (List (HandlerCall F))) :
    Tidy { sys with world := { sys.world with interrupts } }
      { s with interrupts } :=
  ⟨h.represents.withInterrupts interrupts, h.sound.withInterrupts interrupts⟩

theorem fibreTimeout_null {w : World F} {duetime : BitVec 32}
    (hfuture : ¬ cyclecmp32 duetime w.kernel.now ≤ 0)
    (hcurrent : w.kernel.current = none) (fuel : Nat) (r : Bool × World F) :
    fibreTimeout fuel duetime w ≠ .ok r := by
  intro hret
  have hwp := Prog.wp_of_eq (Q := fun _ _ => True) hret trivial
  rw [fibreTimeout, Prog.wp_bind, Prog.wp_get] at hwp
  dsimp only at hwp
  rw [if_neg hfuture, hcurrent] at hwp
  exact hwp

omit [DecidableEq F] in
theorem offTimerq_timeout_iff {w : World F} {s : Sched F} (h : w.Represents s)
    (duetime : BitVec 32) : w.OffTimerq (.timeout duetime) ↔
      cyclecmp32 duetime s.now ≤ 0 ∨ ∀ f, s.current = some f → f ∉ s.timerq := by
  obtain ⟨hcurrent, -, hnow, -⟩ := h.scalars
  rw [World.OffTimerq, hnow, hcurrent]
  refine or_congr Iff.rfl ⟨fun hoff f hf => hoff f _ _ hf h.queues, ?_⟩
  intro hoff f runq timerq hf hqueues
  rw [(hqueues.unique h.queues).2]
  exact hoff f hf

theorem timeout_acts {sys sys' : System F} {s : Sched F} {duetime : BitVec 32}
    (h : sys.world.Represents s)
    (hoff : cyclecmp32 duetime s.now ≤ 0 ∨ ∀ f, s.current = some f → f ∉ s.timerq)
    (hret : Prog.Returns (fun fuel => exec fuel (.timeout duetime)) sys ((), sys')) :
    ∃ s', Sched.Acts (.timeout duetime) sys.frames s sys'.frames s' ∧
      sys'.world.Represents s' := by
  have hwp : Prog.wp (exec (s.weight + 1) (.timeout duetime)) (fun _ sys' => ∃ s',
      Sched.Acts (.timeout duetime) sys.frames s sys'.frames s' ∧
        sys'.world.Represents s') sys ∨ s.current = none ∧
          ¬ cyclecmp32 duetime s.now ≤ 0 := by
    rw [exec, Prog.wp_bind, Prog.wp_get, Prog.wp_bind, wp_onWorld]
    by_cases hpast : cyclecmp32 duetime s.now ≤ 0
    · refine .inl (Prog.wp_mono (fibreTimeout_past h hpast) ?_)
      rintro _ w' ⟨rfl, hw'⟩
      exact ⟨s, .past hpast, hw'⟩
    · cases hcurrent : s.current with
      | none => exact .inr ⟨rfl, hpast⟩
      | some f =>
          have hfree := hoff.resolve_left hpast f hcurrent
          refine .inl (Prog.wp_mono (fibreTimeout_arm h hpast hcurrent hfree
            (Nat.lt_succ_self _)) ?_)
          rintro _ w' ⟨rfl, hw'⟩
          exact ⟨_, .arm hpast hcurrent hfree, hw'⟩
  rcases hwp with hwp | ⟨hcurrent, hpast⟩
  · exact hret.of_wp (exec_monotone _) hwp
  · exfalso
    obtain ⟨enough, hret⟩ := hret
    obtain ⟨_, _, hget, hret⟩ := Prog.bind_eq_ok (hret enough (Nat.le_refl _))
    cases hget
    obtain ⟨_, t, htimeout, -⟩ := Prog.bind_eq_ok hret
    have hwp := Prog.wp_of_eq (Q := fun _ _ => True) htimeout trivial
    rw [wp_onWorld] at hwp
    obtain ⟨_, _, htimeout, -⟩ := Prog.wp_iff_exists.mp hwp
    exact fibreTimeout_null (h.scalars.2.2.1 ▸ hpast)
      (h.scalars.1.trans hcurrent) _ _ htimeout

section Rules

variable {rule : Rule F}
  (hrule : ∀ frames now action, rule frames now action →
    AnyCalls frames now action)
  {sys sys' : System F} {s : Sched F}

include hrule

theorem Tidy.next (h : sys.Tidy s) {step : Step F}
    (hnext : FreeNext rule sys step sys') : ∃ s',
      Sched.Acts step.action sys.frames { s with interrupts := step.interrupts }
        sys'.frames s' ∧ sys'.Tidy s' := by
  obtain ⟨⟨hstep, hret⟩, hoff⟩ := hnext
  have hcalls := hrule _ _ _ hstep
  have hw := h.withInterrupts step.interrupts
  have hreturned : ∀ state, step.action = .ret state → state.Returned := by
    intro state haction
    rw [haction] at hcalls
    exact hcalls.2
  obtain ⟨s', hacts, hs'⟩ : ∃ s', Sched.Acts step.action sys.frames
      { s with interrupts := step.interrupts } sys'.frames s' ∧
        sys'.world.Represents s' := by
    cases haction : step.action with
    | timeout duetime =>
        rw [haction] at hret hoff
        have hacts := timeout_acts hw.represents
          ((offTimerq_timeout_iff h.represents duetime).mp hoff) hret
        exact hacts
    | _ =>
        have hnot : ∀ duetime, step.action ≠ .timeout duetime := by
          simp [haction]
        have hframes : ∀ state, step.action = .ret state → sys.frames ≠ [] := by
          intro state hstate
          rw [hstate] at hcalls
          exact hcalls.1
        obtain ⟨s', hdoes, hs'⟩ := hret.of_wp (exec_monotone step.action)
          (exec_does hw.represents hw.sound.state hnot hframes
            (Nat.lt_succ_self _))
        rw [← haction]
        exact ⟨s', .does hnot hdoes, hs'⟩
  exact ⟨s', hacts, hs', hacts.sound hreturned hw.sound⟩

theorem run_tidy {atomicRunqBuf : Nat} {eventq : F → Messageq}
    {steps : List (Step F)}
    (hrun : Run (FreeNext rule) (init atomicRunqBuf eventq) steps sys) :
    ∃ s, sys.Tidy s :=
  hrun.invariant (I := fun sys => ∃ s, sys.Tidy s)
    ⟨_, init_tidy atomicRunqBuf eventq⟩
    fun _ _ _ ⟨_, hs⟩ hnext =>
      let ⟨s', _, hs'⟩ := hs.next hrule hnext
      ⟨s', hs'⟩

end Rules

omit [DecidableEq F] in
theorem offTimerq_of_ne {w : World F} {action : Action F}
    (h : ∀ duetime, action ≠ .timeout duetime) : w.OffTimerq action := by
  cases action with
  | timeout duetime => exact absurd rfl (h duetime)
  | _ => trivial

theorem freeRun_of_run {rule : Rule F} {sys sys' : System F}
    {steps : List (Step F)} (hrun : Run (Next rule) sys steps sys')
    (h : ∀ step ∈ steps, ∀ duetime, step.action ≠ .timeout duetime) :
    Run (FreeNext rule) sys steps sys' :=
  hrun.mono fun _ step _ hmem hstep => ⟨hstep, offTimerq_of_ne (h step hmem)⟩

end System

end Librfn
