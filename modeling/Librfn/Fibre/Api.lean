import Librfn.Fibre.Replies
import Librfn.Fibre.Calls

/-!
# Every call of `fibre.h`

The main loop and the functions of the fibres without interrupt handlers: all
calls that they can make, with what these return, and `fibre_scheduler_next`
with a given beginning.
-/

namespace Librfn

open Librfn.Logic

/-- A call, or what the function of a fibre does besides: it stores where it is
to resume, and it returns. -/
inductive ApiCall (F : Type) where
  | self
  | run (f : F)
  | runAtomic (f : F)
  | kill (f : F)
  | timeout (duetime : BitVec 32)
  | eventqClaim (f : F)
  | eventqSend (f : F) (evtp : Nat)
  | eventqEmpty (f : F)
  | eventqReceive (f : F)
  | eventqRelease (f : F) (evtp : Nat)
  | schedulerNext (time : BitVec 32)
  | setPriv (priv : BitVec 16)
  | ret (state : FibreState)
  deriving DecidableEq, Repr

structure Session (F : Type) where
  world : World F
  /-- The fibres whose functions are being executed, innermost first. -/
  executing : List F

variable {F : Type}

/-- A function does something only while it is executed, and returns one of
four states. -/
def ApiCall.Sensible (executing : List F) : ApiCall F → Prop
  | .setPriv _ => executing ≠ []
  | .ret state => executing ≠ [] ∧ state.Returned
  | _ => True

instance (executing : List F) : DecidablePred (ApiCall.Sensible executing)
  | .setPriv _ => inferInstanceAs (Decidable (¬ _ = _))
  | .ret _ => inferInstanceAs (Decidable (¬ _ = _ ∧ _))
  | .self => inferInstanceAs (Decidable True)
  | .run _ => inferInstanceAs (Decidable True)
  | .runAtomic _ => inferInstanceAs (Decidable True)
  | .kill _ => inferInstanceAs (Decidable True)
  | .timeout _ => inferInstanceAs (Decidable True)
  | .eventqClaim _ => inferInstanceAs (Decidable True)
  | .eventqSend _ _ => inferInstanceAs (Decidable True)
  | .eventqEmpty _ => inferInstanceAs (Decidable True)
  | .eventqReceive _ => inferInstanceAs (Decidable True)
  | .eventqRelease _ _ => inferInstanceAs (Decidable True)
  | .schedulerNext _ => inferInstanceAs (Decidable True)

namespace Session

def init (atomicRunqBuf : Nat) (eventq : F → Messageq) : Session F :=
  { world := .init atomicRunqBuf eventq, executing := [] }

def onWorld {α : Type} (m : Prog (World F) α) : Prog (Session F) α :=
  Prog.zoom Session.world (fun world t => { t with world }) m

def setExecuting (executing : List F) : Prog (Session F) Unit :=
  modify fun t => { t with executing }

@[simp] theorem wp_onWorld {α : Type} (m : Prog (World F) α)
    (Q : α → Session F → Prop) (t : Session F) :
    Prog.wp (onWorld m) Q t ↔
      Prog.wp m (fun a world => Q a { t with world }) t.world :=
  Prog.wp_zoom _ _ _ _ _

@[simp] theorem wp_setExecuting (executing : List F)
    (Q : Unit → Session F → Prop) (t : Session F) :
    Prog.wp (setExecuting executing) Q t ↔ Q () { t with executing } := Iff.rfl

variable [DecidableEq F]

def call (schedulerDispatch : Nat → BitVec 32 → Prog (World F) (Option F))
    (fuel : Nat) : ApiCall F → Prog (Session F) (Reply F)
  | .self => return .fibre (← onWorld fibreSelf)
  | .run f => do
      onWorld (fibreRun fuel f)
      return .done
  | .runAtomic f => return .answer (← onWorld (fibreRunAtomic f))
  | .kill f => return .answer (← onWorld (fibreKill fuel f))
  | .timeout duetime => return .answer (← onWorld (fibreTimeout fuel duetime))
  | .eventqClaim f => return .event (← onWorld (fibreEventqClaim f))
  | .eventqSend f evtp => return .answer (← onWorld (fibreEventqSend f evtp))
  | .eventqEmpty f => return .answer (← onWorld (fibreEventqEmpty f))
  | .eventqReceive f => return .event (← onWorld (fibreEventqReceive f))
  | .eventqRelease f evtp => do
      onWorld (fibreEventqRelease f evtp)
      return .done
  | .schedulerNext time => do
      let executing := (← get).executing
      match ← onWorld (schedulerDispatch fuel time) with
      | none => return .wakeup (← onWorld getNextWakeup)
      | some f =>
          setExecuting (f :: executing)
          return .dispatched f ((← get).world.fibre f).priv
  | .setPriv priv => do
      match (← get).executing with
      | [] => throw .badPointer
      | f :: _ =>
          onWorld (modify fun w =>
            { w with fibre := Function.update w.fibre f { w.fibre f with priv } })
          return .done
  | .ret state => do
      match (← get).executing with
      | [] => throw .badPointer
      | f :: executing =>
          let time ← onWorld (schedulerReturn f state)
          setExecuting executing
          return .wakeup time

/-- A call and its reply, with a given beginning of `fibre_scheduler_next`. -/
def Next (schedulerDispatch : Nat → BitVec 32 → Prog (World F) (Option F))
    (t : Session F) (step : ApiCall F × Reply F) (t' : Session F) : Prop :=
  step.1.Sensible t.executing ∧
    Prog.Returns (fun fuel => call schedulerDispatch fuel step.1) t (step.2, t')

def OffTimerq (t : Session F) (c : ApiCall F) : Prop :=
  ∀ duetime, c = .timeout duetime → t.world.OffTimerq (.timeout duetime)

def FreeNext (schedulerDispatch : Nat → BitVec 32 → Prog (World F) (Option F))
    (t : Session F) (step : ApiCall F × Reply F) (t' : Session F) : Prop :=
  Next schedulerDispatch t step t' ∧ t.OffTimerq step.1

theorem call_monotone
    {schedulerDispatch : Nat → BitVec 32 → Prog (World F) (Option F)}
    (h : ∀ time, Prog.Monotone (fun fuel => schedulerDispatch fuel time))
    (c : ApiCall F) :
    Prog.Monotone (fun fuel => call schedulerDispatch fuel c) := by
  intro fuel
  cases c with
  | run f => exact .bind (.zoom (fibreRun_le fuel f)) fun _ => .refl _
  | kill f => exact .bind (.zoom (fibreKill_le fuel f)) fun _ => .refl _
  | timeout duetime =>
      exact .bind (.zoom (fibreTimeout_le fuel duetime)) fun _ => .refl _
  | schedulerNext time =>
      exact .bind (.refl _) fun _ => .bind (.zoom (h time fuel)) fun _ => .refl _
  | _ => exact .refl _

/-- The state after some calls, each with the same fuel, if all of them are
sensible and give these replies. -/
def follow (schedulerDispatch : Nat → BitVec 32 → Prog (World F) (Option F))
    (fuel : Nat) : List (ApiCall F × Reply F) → Session F → Option (Session F)
  | [], t => some t
  | step :: steps, t =>
      if step.1.Sensible t.executing then
        match call schedulerDispatch fuel step.1 t with
        | .error _ => none
        | .ok (reply, t') =>
            if reply = step.2 then follow schedulerDispatch fuel steps t' else none
      else none

theorem follow_run
    {schedulerDispatch : Nat → BitVec 32 → Prog (World F) (Option F)}
    (h : ∀ time, Prog.Monotone (fun fuel => schedulerDispatch fuel time))
    {fuel : Nat} {steps : List (ApiCall F × Reply F)} {t t' : Session F}
    (hfollow : follow schedulerDispatch fuel steps t = some t') :
    Run (Next schedulerDispatch) t steps t' := by
  induction steps generalizing t with
  | nil =>
      cases hfollow
      exact .nil
  | cons step steps ih =>
      obtain ⟨c, reply⟩ := step
      unfold follow at hfollow
      split at hfollow
      · rename_i hsensible
        split at hfollow
        · cases hfollow
        · rename_i reply' t₁ heq
          split at hfollow
          · rename_i hreply
            cases hreply
            exact .cons ⟨hsensible, (call_monotone h c).returns heq⟩ (ih hfollow)
          · cases hfollow
      · cases hfollow

end Session

/-! ## What the calls do to the sequences -/

namespace Sched

variable [DecidableEq F]

def setPriv (s : Sched F) (f : F) (priv : BitVec 16) : Sched F :=
  { s with fibre := Function.update s.fibre f { s.fibre f with priv } }

def setEventq (s : Sched F) (f : F) (mq : Messageq) : Sched F :=
  { s with eventq := Function.update s.eventq f mq }

/-- A claim that finds no room leaves a taint. -/
def claimed (s : Sched F) : Option Nat → Sched F
  | none => { s with taintFlags := s.taintFlags ||| flag 32 4 }
  | some _ => s

/-- What a call answers and does, if `P` is what the beginning of
`fibre_scheduler_next` does. -/
inductive Answers (P : BitVec 32 → Sched F → Sched F → Prop) :
    ApiCall F → List F → Sched F → Reply F → List F → Sched F → Prop
  | self {fs s} : Answers P .self fs s (.fibre s.current) fs s
  | run {fs s s' f} : Drain s s' →
      Answers P (.run f) fs s .done fs (s'.enqueue f)
  | runAtomic {fs s f} :
      Answers P (.runAtomic f) fs s (.answer (decide s.Room)) fs (s.runAtomic f)
  | kill {fs s s' f} : Drain s s' →
      Answers P (.kill f) fs s
        (.answer (decide (f ∈ s'.runq) || decide (f ∈ s'.timerq))) fs
        (s'.interrupt.kill f)
  | past {fs s duetime} : cyclecmp32 duetime s.now ≤ 0 →
      Answers P (.timeout duetime) fs s (.answer true) fs s
  | arm {fs s duetime f} : ¬ cyclecmp32 duetime s.now ≤ 0 →
      s.current = some f → f ∉ s.timerq →
      Answers P (.timeout duetime) fs s (.answer false) fs (s.arm f duetime)
  | eventqClaim {fs s f evtp mq} :
      messageqClaim (s.eventq f) = .ok (evtp, mq) →
      Answers P (.eventqClaim f) fs s (.event evtp) fs
        ((s.setEventq f mq).claimed evtp)
  | eventqSend {fs s f evtp} :
      Answers P (.eventqSend f evtp) fs s (.answer (decide s.Room)) fs
        ((s.sendEvent f evtp).runAtomic f)
  | eventqEmpty {fs s f} :
      Answers P (.eventqEmpty f) fs s (.answer (messageqEmpty (s.eventq f))) fs s
  | eventqReceive {fs s f evtp mq} :
      messageqReceive (s.eventq f) = .ok (evtp, mq) →
      Answers P (.eventqReceive f) fs s (.event evtp) fs (s.setEventq f mq)
  | eventqRelease {fs s f evtp} :
      Answers P (.eventqRelease f evtp) fs s .done fs
        (s.setEventq f (s.eventq f).incFree)
  | idle {fs s s' time} : P time s s' → s'.current = none →
      Answers P (.schedulerNext time) fs s (.wakeup s'.interrupt.wakeup) fs
        s'.interrupt
  | dispatch {fs s s' time f} : P time s s' → s'.current = some f →
      Answers P (.schedulerNext time) fs s (.dispatched f (s'.fibre f).priv)
        (f :: fs) s'
  | setPriv {fs s priv f} :
      Answers P (.setPriv priv) (f :: fs) s .done (f :: fs) (s.setPriv f priv)
  | yield {fs s f} :
      Answers P (.ret .yielded) (f :: fs) s (.wakeup s.now) fs
        (s.returned f .yielded)
  | ret {fs s state f} : state ≠ .yielded →
      Answers P (.ret state) (f :: fs) s
        (.wakeup (s.returned f state).interrupt.wakeup) fs
        (s.returned f state).interrupt

theorem Answers.sound {P : BitVec 32 → Sched F → Sched F → Prop}
    (hP : ∀ {time s s'}, P time s s' → Sound s → Sound s') {c : ApiCall F}
    {fs fs' : List F} {s s' : Sched F} {reply : Reply F}
    (h : Answers P c fs s reply fs' s') (hsensible : c.Sensible fs)
    (hs : Sound s) : Sound s' := by
  cases h with
  | self => exact hs
  | @run _ _ _ f hdrain =>
      have hdoes : Does (.run f) [] s [] _ := .run hdrain
      exact hdoes.sound nofun nofun hs
  | runAtomic => exact hs.same (runAtomic_same _ _)
  | @kill _ _ _ f hdrain =>
      have hdoes : Does (.kill f) [] s [] _ := .kill hdrain
      exact hdoes.sound nofun nofun hs
  | past _ => exact hs
  | arm _ _ hfree => exact ⟨hs.held, arm_distinct hfree _ hs.distinct, hs.state⟩
  | @eventqClaim _ _ _ evtp _ _ =>
      cases evtp with
      | none => exact ⟨hs.held, hs.distinct, hs.state⟩
      | some evtp => exact ⟨hs.held, hs.distinct, hs.state⟩
  | @eventqSend _ _ f evtp =>
      have hsent : Sound (s.sendEvent f evtp) := ⟨hs.held, hs.distinct, hs.state⟩
      exact hsent.same (runAtomic_same _ _)
  | eventqEmpty => exact hs
  | eventqReceive _ => exact ⟨hs.held, hs.distinct, hs.state⟩
  | eventqRelease => exact ⟨hs.held, hs.distinct, hs.state⟩
  | idle hp _ => exact (hP hp hs).same (interrupt_same _)
  | dispatch hp _ => exact hP hp hs
  | setPriv => exact ⟨hs.held, hs.distinct, hs.state⟩
  | yield => exact ⟨hs.held, hs.distinct, hsensible.2⟩
  | @ret _ _ state f _ =>
      have hreturned : Sound (s.returned f state) :=
        ⟨hs.held, hs.distinct, hsensible.2⟩
      exact hreturned.same (interrupt_same _)

omit [DecidableEq F] in
def Ready (s : Sched F) (c : ApiCall F) : Prop :=
  ∀ duetime, c = .timeout duetime → cyclecmp32 duetime s.now ≤ 0 ∨
    ∃ f, s.current = some f ∧ f ∉ s.timerq

end Sched

/-- `messageq_receive` returns whatever the queue looks like. -/
theorem messageqReceive_returns (mq : Messageq) :
    ∃ evtp mq', messageqReceive mq = .ok (evtp, mq') := by
  have h : Prog.wp messageqReceive (fun _ _ => True) mq := by
    simp only [messageqReceive, Prog.wp_bind, Prog.wp_get, Prog.wp_modify,
      Prog.wp_ite, Prog.wp_pure, ite_self]
  obtain ⟨evtp, mq', heq, -⟩ := Prog.wp_iff_exists.mp h
  exact ⟨evtp, mq', heq⟩

theorem fibreEventqClaim_spec [DecidableEq F] {s : Sched F} {w : World F}
    (h : w.Represents s) (f : F) :
    Prog.wp (fibreEventqClaim f) (fun evtp w' => ∃ mq,
      messageqClaim (s.eventq f) = .ok (evtp, mq) ∧
        w'.Represents ((s.setEventq f mq).claimed evtp)) w := by
  obtain ⟨evtp, mq, heq⟩ := messageqClaim_returns (s.eventq f)
  refine Prog.wp_mono (fibreEventqClaim_claims h f heq) ?_
  rintro evtp w' ⟨rfl, hw'⟩
  cases evtp with
  | none => exact ⟨mq, heq, hw'⟩
  | some evtp => exact ⟨mq, heq, hw'⟩

/-- A beginning of `fibre_scheduler_next` does what it should. -/
structure Dispatches [DecidableEq F]
    (schedulerDispatch : Nat → BitVec 32 → Prog (World F) (Option F))
    (P : BitVec 32 → Sched F → Sched F → Prop) : Prop where
  monotone : ∀ time, Prog.Monotone (fun fuel => schedulerDispatch fuel time)
  spec : ∀ {s : Sched F} {w : World F} {fuel : Nat} (time : BitVec 32),
    w.Represents s → s.state.Returned → s.weight + 1 < fuel →
    Prog.wp (schedulerDispatch fuel time) (fun current w' => ∃ s', P time s s' ∧
      current = s'.current ∧ w'.Represents s') w
  sound : ∀ {time s s'}, P time s s' → Sched.Sound s → Sched.Sound s'

theorem dispatches_schedulerDispatch [DecidableEq F] :
    Dispatches (schedulerDispatch (F := F)) Sched.Pass where
  monotone := fun time fuel => schedulerDispatch_le fuel time
  spec := fun time h hstate hfuel => schedulerDispatch_spec h time hstate hfuel
  sound := by
    intro time s s' hpass hs
    have hpassed := hpass.passed hs.distinct
    exact ⟨hpassed.held.trans hs.held, hpassed.distinct,
      hpassed.state ▸ hs.state⟩

namespace Session

variable [DecidableEq F]

section Specs

variable {schedulerDispatch : Nat → BitVec 32 → Prog (World F) (Option F)}
  {P : BitVec 32 → Sched F → Sched F → Prop} {t t' : Session F} {s : Sched F}
  {c : ApiCall F} {fuel : Nat}

theorem call_spec (hd : Dispatches schedulerDispatch P)
    (h : t.world.Represents s) (hs : s.Sound) (hsensible : c.Sensible t.executing)
    (hready : s.Ready c) (hfuel : s.weight + 1 < fuel) :
    Prog.wp (call schedulerDispatch fuel c) (fun reply t' => ∃ s',
      Sched.Answers P c t.executing s reply t'.executing s' ∧
        t'.world.Represents s') t := by
  have hweight : s.weight < fuel := Nat.lt_of_succ_lt hfuel
  obtain ⟨hcurrent, -, hnow, hfibre, -⟩ := h.scalars
  cases c with
  | self =>
      refine ⟨s, ?_, h⟩
      rw [hcurrent]
      exact .self
  | run f =>
      simp only [call, Prog.wp_bind, wp_onWorld, Prog.wp_pure]
      refine Prog.wp_mono (fibreRun_spec h f hweight) ?_
      rintro _ w' ⟨s', hdrain, hw'⟩
      exact ⟨_, .run hdrain, hw'⟩
  | runAtomic f =>
      simp only [call, Prog.wp_bind, wp_onWorld, Prog.wp_pure]
      refine Prog.wp_mono (fibreRunAtomic_spec h f) ?_
      rintro _ w' ⟨rfl, hw'⟩
      exact ⟨_, .runAtomic, hw'⟩
  | kill f =>
      simp only [call, Prog.wp_bind, wp_onWorld, Prog.wp_pure]
      refine Prog.wp_mono (fibreKill_spec h f hweight) ?_
      rintro _ w' ⟨s', hdrain, rfl, hw'⟩
      exact ⟨_, .kill hdrain, hw'⟩
  | timeout duetime =>
      simp only [call, Prog.wp_bind, wp_onWorld, Prog.wp_pure]
      by_cases hpast : cyclecmp32 duetime s.now ≤ 0
      · refine Prog.wp_mono (fibreTimeout_past h hpast) ?_
        rintro _ w' ⟨rfl, hw'⟩
        exact ⟨s, .past hpast, hw'⟩
      · obtain ⟨f, hf, hfree⟩ := (hready duetime rfl).resolve_left hpast
        refine Prog.wp_mono (fibreTimeout_arm h hpast hf hfree hweight) ?_
        rintro _ w' ⟨rfl, hw'⟩
        exact ⟨_, .arm hpast hf hfree, hw'⟩
  | eventqClaim f =>
      simp only [call, Prog.wp_bind, wp_onWorld, Prog.wp_pure]
      refine Prog.wp_mono (fibreEventqClaim_spec h f) ?_
      rintro evtp w' ⟨mq, heq, hw'⟩
      exact ⟨_, .eventqClaim heq, hw'⟩
  | eventqSend f evtp =>
      have hsent := h.withEventq
        (Function.update s.eventq f ((s.eventq f).markFull evtp))
      simp only [call, fibreEventqSend, messageqSend, Prog.wp_bind, wp_onWorld,
        wp_onEventq, Prog.wp_modify, Prog.wp_pure, h.eventq]
      refine Prog.wp_mono (fibreRunAtomic_spec hsent f) ?_
      rintro _ w' ⟨rfl, hw'⟩
      exact ⟨_, .eventqSend, hw'⟩
  | eventqEmpty f =>
      refine ⟨s, ?_, h⟩
      rw [h.eventq]
      exact .eventqEmpty
  | eventqReceive f =>
      obtain ⟨evtp, mq, heq⟩ := messageqReceive_returns (s.eventq f)
      simp only [call, fibreEventqReceive, Prog.wp_bind, wp_onWorld, wp_onEventq,
        Prog.wp_pure, h.eventq]
      exact Prog.wp_of_eq heq ⟨_, .eventqReceive heq, h.withEventq _⟩
  | eventqRelease f evtp =>
      simp only [call, fibreEventqRelease, messageqRelease, Prog.wp_bind,
        wp_onWorld, wp_onEventq, Prog.wp_modify, Prog.wp_pure, h.eventq]
      exact ⟨_, .eventqRelease, h.withEventq _⟩
  | schedulerNext time =>
      simp only [call, Prog.wp_bind, Prog.wp_get, wp_onWorld]
      refine Prog.wp_mono (hd.spec time h hs.state hfuel) ?_
      rintro _ w' ⟨s', hp, rfl, hw'⟩
      cases hcurrent' : s'.current with
      | none =>
          simp only [Prog.wp_bind, wp_onWorld, Prog.wp_pure]
          refine Prog.wp_mono (getNextWakeup_spec hw') ?_
          rintro _ w'' ⟨rfl, hw''⟩
          exact ⟨_, .idle hp hcurrent', hw''⟩
      | some f =>
          simp only [Prog.wp_bind, wp_setExecuting, Prog.wp_get, Prog.wp_pure,
            hw'.scalars.2.2.2.1]
          exact ⟨_, .dispatch hp hcurrent', hw'⟩
  | setPriv priv =>
      obtain ⟨f, fs, hfs⟩ := List.exists_cons_of_ne_nil hsensible
      simp only [call, Prog.wp_bind, Prog.wp_get, hfs, wp_onWorld,
        Prog.wp_modify, Prog.wp_pure, hfibre]
      exact ⟨_, .setPriv, h.withFibre _⟩
  | ret state =>
      obtain ⟨f, fs, hfs⟩ := List.exists_cons_of_ne_nil hsensible.1
      simp only [call, Prog.wp_bind, Prog.wp_get, hfs, wp_onWorld,
        wp_setExecuting, Prog.wp_pure]
      refine Prog.wp_mono (schedulerReturn_spec h f state) ?_
      intro time w' hreturn
      by_cases hyield : state = .yielded
      · subst hyield
        rw [if_pos rfl] at hreturn
        obtain ⟨rfl, hw'⟩ := hreturn
        exact ⟨_, .yield, hw'⟩
      · rw [if_neg hyield] at hreturn
        obtain ⟨rfl, hw'⟩ := hreturn
        exact ⟨_, .ret hyield, hw'⟩

end Specs

end Session

end Librfn
