import Librfn.Fibre.Replies
import Librfn.Fibre.Timers

/-!
# When to call the scheduler again

`fibre_scheduler_next` returns the time at which there will be something to do.
Against the clock of the timer queue it is exact: it is now if a fibre is ready
to run, and otherwise the time of the first timer.
-/

namespace Librfn

open Librfn.Logic

variable {F : Type}

def World.Deliverable (w : World F) : Prop :=
  ∃ entry mq, messageqReceive w.kernel.atomicRunq = .ok (some entry, mq)

theorem World.Represents.deliverable_iff {w : World F} {s : Sched F}
    (h : w.Represents s) : w.Deliverable ↔ s.pending ≠ [] := by
  unfold World.Deliverable
  constructor
  · rintro ⟨entry, mq, hreceive⟩ hpending
    have hwp := receive_none h hpending
    rw [onAtomicRunq, wp_onKernel, Prog.wp_zoom, Prog.wp_iff_of_eq hreceive] at hwp
    cases hwp.1
  · intro hpending
    obtain ⟨f, fs, hpending⟩ := List.exists_cons_of_ne_nil hpending
    have hwp := receive_some h hpending
    rw [onAtomicRunq, wp_onKernel, Prog.wp_zoom] at hwp
    obtain ⟨_, mq, hreceive, entry, rfl, -⟩ := Prog.wp_iff_exists.mp hwp
    exact ⟨entry, mq, hreceive⟩

/-! ## The value returned -/

namespace System

variable [DecidableEq F] {sys sys' : System F} {s : Sched F}

/-- Only `fibre_scheduler_next` returns a time, when it finds no fibre to call
or when the function that it called returns. -/
theorem action_of_wakeup {action : Action F} {wake : BitVec 32} {fuel : Nat}
    (hret : perform fuel action sys = .ok (.wakeup wake, sys')) :
    (∃ time, action = .schedulerNext time) ∨
      ∃ state, action = .ret state ∧ sys.frames ≠ [] := by
  have hwp := Prog.wp_of_eq (Q := fun reply _ => reply = Reply.wakeup wake) hret rfl
  cases action with
  | schedulerNext time => exact .inl ⟨time, rfl⟩
  | ret state =>
      refine .inr ⟨state, rfl, fun hframes => ?_⟩
      simp only [perform, Prog.wp_bind, Prog.wp_get, hframes,
        Prog.wp_throw] at hwp
  | call call =>
      cases call <;> simp [perform, Prog.wp_iff_exists (m := onWorld _)] at hwp
  | timeout duetime =>
      simp only [perform, Prog.wp_bind, Prog.wp_get] at hwp
      obtain ⟨res, _, -, hwp⟩ := Prog.wp_iff_exists.mp hwp
      cases res <;> simp at hwp
  | run f =>
      simp only [perform, Prog.wp_bind, Prog.wp_get] at hwp
      obtain ⟨_, _, -, hwp⟩ := Prog.wp_iff_exists.mp hwp
      cases hwp
  | kill f =>
      simp only [perform, Prog.wp_bind, Prog.wp_get] at hwp
      obtain ⟨_, _, -, hwp⟩ := Prog.wp_iff_exists.mp hwp
      cases hwp

theorem perform_wakeup {action : Action F} {wake : BitVec 32}
    (h : sys.world.Represents s) (hstate : s.state.Returned)
    (hret : Prog.Returns (fun fuel => perform fuel action) sys (.wakeup wake, sys')) :
    ∃ s', sys'.world.Represents s' ∧
      wake = if action = .ret .yielded then s'.now else s'.wakeup := by
  have hmono := perform_monotone action
  obtain ⟨enough, hreturns⟩ := id hret
  rcases action_of_wakeup (hreturns enough (Nat.le_refl _)) with
    ⟨time, rfl⟩ | ⟨state, rfl, hframes⟩
  · have hspec : Prog.wp (perform (s.weight + 2) (.schedulerNext time))
        (fun reply sys' => reply = .wakeup wake →
          ∃ s', sys'.world.Represents s' ∧ wake = s'.wakeup) sys := by
      simp only [perform, Prog.wp_bind, Prog.wp_get, wp_onWorld]
      refine Prog.wp_mono (schedulerDispatch_spec h time hstate (Nat.lt_succ_self _)) ?_
      rintro _ w' ⟨s', -, rfl, hw'⟩
      cases s'.current with
      | none =>
          simp only [Prog.wp_bind, wp_setFrames, wp_onWorld, Prog.wp_pure]
          refine Prog.wp_mono (getNextWakeup_spec hw') ?_
          rintro _ w'' ⟨rfl, hw''⟩ ⟨⟩
          exact ⟨_, hw'', rfl⟩
      | some f =>
          intro hcurrent
          cases hcurrent
    exact hret.of_wp hmono hspec rfl
  · obtain ⟨frame, frames, hframes⟩ := List.exists_cons_of_ne_nil hframes
    have hspec : Prog.wp (perform 0 (.ret state)) (fun reply sys' =>
        reply = .wakeup wake → ∃ s', sys'.world.Represents s' ∧
          wake = if state = .yielded then s'.now else s'.wakeup) sys := by
      simp only [perform, Prog.wp_bind, Prog.wp_get, hframes,
        wp_onWorld, wp_setFrames, Prog.wp_pure]
      refine Prog.wp_mono (schedulerReturn_spec h frame.fibre state) ?_
      rintro time w' hreturn ⟨⟩
      by_cases hyield : state = .yielded
      · rw [if_pos hyield] at hreturn
        exact ⟨_, hreturn.2, by rw [if_pos hyield]; exact hreturn.1⟩
      · rw [if_neg hyield] at hreturn
        exact ⟨_, hreturn.2, by rw [if_neg hyield]; exact hreturn.1⟩
    simpa using hret.of_wp hmono hspec rfl

theorem wakeup_of_ret {state : FibreState} {reply : Reply F}
    (hret : Prog.Returns (fun fuel => perform fuel (.ret state)) sys (reply, sys')) :
    ∃ wake, reply = .wakeup wake := by
  obtain ⟨enough, hret⟩ := hret
  have hwp := Prog.wp_of_eq (Q := fun r _ => r = reply)
    (hret enough (Nat.le_refl _)) rfl
  simp only [perform, Prog.wp_bind, Prog.wp_get] at hwp
  cases hframes : sys.frames with
  | nil =>
      rw [hframes] at hwp
      cases hwp
  | cons frame frames =>
      simp only [hframes, Prog.wp_bind] at hwp
      obtain ⟨wake, _, -, hwp⟩ := Prog.wp_iff_exists.mp hwp
      exact ⟨wake, hwp.symm⟩

end System

/-! ## The first timer -/

namespace Clock

variable {c : Clock F} {s : Sched F} {last : Nat}

theorem Orders.first (h : c.Orders last s) {f : F} {fs : List F}
    (htimerq : s.timerq = f :: fs) : (s.fibre f).duetime = BitVec.ofNat 32 (c.due f) ∧
      last < c.due f ∧ c.due f < last + 2 ^ 31 ∧ ∀ g ∈ s.timerq, c.due f ≤ c.due g := by
  have hmem : f ∈ s.timerq := htimerq ▸ List.mem_cons_self
  obtain ⟨hlo, hhi⟩ := h.window f hmem
  refine ⟨h.duetime f hmem, hlo, hhi, ?_⟩
  have hsorted := h.sorted
  rw [htimerq, List.pairwise_cons] at hsorted
  rw [htimerq]
  intro g hg
  rcases List.mem_cons.mp hg with rfl | hg
  · exact Nat.le_refl _
  · have hbefore := hsorted.1 g hg
    unfold Before at hbefore
    omega

theorem ofNat_ne_of_ahead {last due : Nat} (hlo : last < due)
    (hhi : due < last + 2 ^ 31) : BitVec.ofNat 32 due ≠ BitVec.ofNat 32 last := by
  intro heq
  have hdiff := toInt_ofNat_sub (w := 31) (a := due) (b := last) (by omega) (by omega)
  rw [heq, BitVec.sub_self] at hdiff
  simp only [BitVec.toInt_zero] at hdiff
  omega

end Clock

namespace Timed

/-- The returned time is right for the state that the call leaves: it is now
exactly if a fibre is ready to run; otherwise it is the time of the first timer,
which is ahead, or as far away as possible if there is none.  In no case is it
after a timer that is armed. -/
def WakesAt (t : Timed F) (yielded : Prop) (wake : BitVec 32) : Prop :=
  ∃ now runq timerq, t.clock.time = some now ∧ t.sys.world.Queues runq timerq ∧
    (wake = BitVec.ofNat 32 now ↔
      yielded ∨ runq ≠ [] ∨ t.sys.world.Deliverable) ∧
    (¬ (yielded ∨ runq ≠ [] ∨ t.sys.world.Deliverable) →
      if timerq = [] then wake = BitVec.ofNat 32 now + fibreUnboundedSleep
      else ∃ f ∈ timerq, wake = (t.sys.world.fibre f).duetime ∧
        wake = BitVec.ofNat 32 (t.clock.due f) ∧ now < t.clock.due f ∧
        t.clock.due f < now + 2 ^ 31 ∧ ∀ g ∈ timerq, t.clock.due f ≤ t.clock.due g) ∧
    ∃ time, wake = BitVec.ofNat 32 time ∧ now ≤ time ∧
      ∀ f ∈ timerq, time ≤ t.clock.due f

variable {t : Timed F} {s : Sched F} {now : Nat} {yielded : Prop} [Decidable yielded]
  {wake : BitVec 32}

/-- A call that leaves a sorted timer queue with nothing due returns the right
time. -/
theorem wakesAt_of_follows (h : t.sys.world.Represents s) (hfollows : t.clock.Follows s)
    (htime : t.clock.time = some now)
    (hwake : wake = if yielded then s.now else s.wakeup) : t.WakesAt yielded wake := by
  have horders := hfollows.orders now htime
  have hnow := hfollows.now now htime
  obtain ⟨-, -, -, hfibre, -⟩ := h.scalars
  have hlate : ∀ f ∈ s.timerq, now ≤ t.clock.due f := fun f hf =>
    Nat.le_of_lt (horders.window f hf).1
  refine ⟨now, s.runq, s.timerq, htime, h.queues, ?_⟩
  rw [h.deliverable_iff]
  by_cases hready : yielded ∨ s.runq ≠ [] ∨ s.pending ≠ []
  · have hwake : wake = BitVec.ofNat 32 now := by
      rw [hwake, ← hnow]
      split
      · rfl
      · rename_i hnot
        have hbusy : s.pending ≠ [] ∨ s.runq ≠ [] := (hready.resolve_left hnot).symm
        rw [Sched.wakeup, if_pos hbusy]
    exact ⟨iff_of_true hwake hready, absurd hready, now, hwake, Nat.le_refl _, hlate⟩
  · rw [not_or, not_or, not_not, not_not] at hready
    obtain ⟨hyielded, hrunq, hpending⟩ := hready
    rw [if_neg hyielded, Sched.wakeup, if_neg (by simp [hrunq, hpending]), hnow] at hwake
    have hidle : ¬ (yielded ∨ s.runq ≠ [] ∨ s.pending ≠ []) := by
      simp [hyielded, hrunq, hpending]
    cases htimerq : s.timerq with
    | nil =>
        rw [htimerq] at hwake
        have hfar : BitVec.ofNat 32 now + fibreUnboundedSleep =
            BitVec.ofNat 32 (now + (2 ^ 31 - 1)) := by
          rw [BitVec.ofNat_add]
          rfl
        have hne : wake ≠ BitVec.ofNat 32 now := by
          rw [hwake]
          dsimp only
          rw [hfar]
          exact Clock.ofNat_ne_of_ahead (by omega) (by omega)
        refine ⟨iff_of_false hne hidle, fun _ => ?_, now + (2 ^ 31 - 1),
          hwake.trans hfar, by omega, nofun⟩
        rw [if_pos rfl]
        exact hwake
    | cons f fs =>
        obtain ⟨hduetime, hlo, hhi, hfirst⟩ := horders.first htimerq
        rw [htimerq] at hwake hfirst
        have hdue : wake = BitVec.ofNat 32 (t.clock.due f) := hwake.trans hduetime
        have hne : wake ≠ BitVec.ofNat 32 now :=
          hdue ▸ Clock.ofNat_ne_of_ahead hlo hhi
        refine ⟨iff_of_false hne hidle, fun _ => ?_, t.clock.due f, hdue,
          Nat.le_of_lt hlo, hfirst⟩
        rw [if_neg (List.cons_ne_nil f fs)]
        exact ⟨f, List.mem_cons_self, by rw [hfibre]; exact hwake, hdue, hlo, hhi, hfirst⟩

omit [Decidable yielded] in
theorem wakeup_unique {w : World F} {s s' : Sched F} (h : w.Represents s)
    (h' : w.Represents s') : s.wakeup = s'.wakeup := by
  obtain ⟨hrunq, htimerq⟩ := h.queues.unique h'.queues
  have hpending := h.deliverable_iff.symm.trans h'.deliverable_iff
  obtain ⟨-, -, hnow, hfibre, -⟩ := h.scalars
  obtain ⟨-, -, hnow', hfibre', -⟩ := h'.scalars
  unfold Sched.wakeup
  simp only [hpending, hrunq, htimerq, ← hnow, ← hnow', ← hfibre, ← hfibre']

variable [DecidableEq F]

theorem Valid.wakesAt {t' : Timed F} {step : Step F} (hs : t.Valid s)
    (hnext : Next t step t')
    (hret : Prog.Returns (fun fuel => System.perform fuel step.action)
      { t.sys with world := { t.sys.world with interrupts := step.interrupts } }
      (.wakeup wake, t'.sys)) :
    t'.WakesAt (step.action = .ret .yielded) wake := by
  have hw := hs.sys.withInterrupts step.interrupts
  obtain ⟨s', hs'⟩ := hs.next hnext
  obtain ⟨s'', h'', hwake⟩ := System.perform_wakeup hw.represents hw.inv.state hret
  rw [h''.scalars.2.2.1.symm.trans hs'.sys.represents.scalars.2.2.1,
    wakeup_unique h'' hs'.sys.represents] at hwake
  cases htime : t'.clock.time with
  | some now => exact wakesAt_of_follows hs'.sys.represents hs'.follows htime hwake
  | none =>
      exfalso
      obtain ⟨enough, hret⟩ := hret
      have hstarted := hs.started
      obtain ⟨-, hclock⟩ := hnext
      generalize t.clock = c at *
      generalize t'.clock = c' at *
      rcases System.action_of_wakeup (hret enough (Nat.le_refl _)) with
        ⟨time, haction⟩ | ⟨state, haction, hframes⟩
      · rw [haction] at hclock
        cases hclock with
        | schedulerNext => cases htime
        | other hne _ => exact hne _ rfl
      · rw [haction] at hclock
        cases hclock with
        | other => exact hframes (hstarted htime)

/-- In every run every call of `fibre_scheduler_next` that can return does
return, and the time that it returns is right. -/
theorem wakeup_exact {atomicRunqBuf : Nat} {eventq : F → Messageq}
    {steps : List (Step F)} {t : Timed F}
    (hrun : Run Next (init atomicRunqBuf eventq) steps t) (step : Step F) :
    (System.TimesOutFirst t.sys.frames t.sys.world.kernel.now step.action →
      (∀ time, step.action = .schedulerNext time →
        ∃ time', t.clock.Reaches time' ∧ time = BitVec.ofNat 32 time') →
      ∃ reply t', Next t step t' ∧
        Prog.Returns (fun fuel => System.perform fuel step.action)
          { t.sys with world := { t.sys.world with interrupts := step.interrupts } }
          (reply, t'.sys) ∧
        ∀ state, step.action = .ret state → ∃ wake, reply = .wakeup wake) ∧
    ∀ t' wake, Next t step t' →
      Prog.Returns (fun fuel => System.perform fuel step.action)
        { t.sys with world := { t.sys.world with interrupts := step.interrupts } }
        (.wakeup wake, t'.sys) →
      t'.WakesAt (step.action = .ret .yielded) wake := by
  obtain ⟨s, hs⟩ := run_valid hrun
  have hw := hs.sys.withInterrupts step.interrupts
  constructor
  · intro hrule htime
    obtain ⟨sys', hnext⟩ := hs.sys.returns (fun _ _ _ => id) hrule
    obtain ⟨clock', hnext'⟩ := hs.exists_next hnext htime
    obtain ⟨reply, hreply⟩ := System.exec_returns_iff.mp hnext.2
    refine ⟨reply, ⟨sys', clock'⟩, hnext', hreply, fun state haction => ?_⟩
    rw [haction] at hreply
    exact System.wakeup_of_ret hreply
  · exact fun t' wake hnext hret => hs.wakesAt hnext hret

/-- A fibre waits until after the 32-bit time has wrapped; the scheduler wants
to be called at that time. -/
theorem wakeup_exact_wrap : ∃ t t' : Timed Bool,
    Run Next (init 64 fun _ => messageqInit 0 32 4)
      [{ action := .run true },
        { action := .schedulerNext (BitVec.ofNat 32 (2 ^ 32 - 16)) },
        { action := .timeout (BitVec.ofNat 32 (2 ^ 32 + 4)) }] t ∧
      Next t { action := .ret .waiting } t' ∧
      t'.WakesAt ((Action.ret .waiting : Action Bool) = .ret .yielded) 4 := by
  have hsome : (follow (F := Bool) 9 [({ action := .run true }, 0),
      ({ action := .schedulerNext (BitVec.ofNat 32 (2 ^ 32 - 16)) }, 2 ^ 32 - 16),
      ({ action := .timeout (BitVec.ofNat 32 (2 ^ 32 + 4)) }, 2 ^ 32 + 4)]
      (init 64 fun _ => messageqInit 0 32 4)).any (fun t =>
        (follow 9 [({ action := .ret .waiting }, 0)] t).isSome = true ∧
          Prog.wp (System.perform 9 (.ret .waiting)) (fun reply _ => reply = .wakeup 4)
            { t.sys with world := { t.sys.world with interrupts := [] } }) = true := by
    decide +kernel
  obtain ⟨t, ht, hpost⟩ := (Option.any_eq_true _ _).mp hsome
  obtain ⟨hret, hwake⟩ := of_decide_eq_true hpost
  obtain ⟨t', ht'⟩ := Option.isSome_iff_exists.mp hret
  obtain ⟨_, sys', hperform, rfl⟩ := Prog.wp_iff_exists.mp hwake
  have hnext := (follow_run ht').of_single
  have hreturns := (System.perform_monotone _).returns hperform
  have hsys : sys' = t'.sys := by
    have hexec := System.exec_returns_iff.mpr ⟨_, hreturns⟩
    cases hexec.unique hnext.1.2
    rfl
  exact ⟨t, t', follow_run ht, hnext,
    (wakeup_exact (follow_run ht) { action := .ret .waiting }).2 t' 4 hnext
      (hsys ▸ hreturns)⟩

end Timed

namespace System

/-- Two ways in which a fibre that calls the scheduler spoils the times that are
returned.  Its own call, made at time 0, returns the time 5 of the inner one
when it yields.  And after the inner one it arms the wrong fibre, 1, whose timer
is then behind a later one: the time returned is 10, and 1 is due at 5. -/
theorem nested_wakeups :
    (∃ sys sys' : System Bool,
      Run (Next Follows) (init 64 fun _ => messageqInit 0 32 4)
        [{ action := .run true }, { action := .run false },
          { action := .schedulerNext 0 }, { action := .schedulerNext 5 },
          { action := .ret .waiting }] sys ∧
        sys.frames.map Frame.fibre = [true] ∧
        Prog.Returns (fun fuel => perform fuel (.ret .yielded)) sys (.wakeup 5, sys')) ∧
    ∃ sys sys' : System (Fin 3),
      Run (Next Follows) (init (F := Fin 3) 64 fun _ => messageqInit 0 32 4)
        [{ action := .run 2 }, { action := .run 0 }, { action := .run 1 },
          { action := .schedulerNext 0 }, { action := .schedulerNext 0 },
          { action := .timeout 10 }, { action := .ret .waiting },
          { action := .schedulerNext 0 }, { action := .timeout 15 },
          { action := .ret .waiting }, { action := .kill 2 },
          { action := .timeout 5 }] sys ∧
        Prog.Returns (fun fuel => perform fuel (.ret .waiting)) sys (.wakeup 10, sys') ∧
        sys'.world.kernel.lists.link (.head .runq) = none ∧
        messageqEmpty sys'.world.kernel.atomicRunq = true ∧
        sys'.world.kernel.lists.link (.head .timerq) = some (.next 0) ∧
        sys'.world.kernel.lists.link (.next 0) = some (.next 1) ∧
        (sys'.world.fibre 1).duetime = 5 := by
  constructor
  · have hsome : (follow (F := Bool) Follows 9 [{ action := .run true },
        { action := .run false }, { action := .schedulerNext 0 },
        { action := .schedulerNext 5 }, { action := .ret .waiting }]
        (init 64 fun _ => messageqInit 0 32 4)).any (fun sys =>
          sys.frames.map Frame.fibre = [true] ∧
            Prog.wp (perform 9 (.ret .yielded)) (fun reply _ => reply = .wakeup 5)
              sys) = true := by
      decide +kernel
    obtain ⟨sys, hsys, hpost⟩ := (Option.any_eq_true _ _).mp hsome
    obtain ⟨hframes, hwake⟩ := of_decide_eq_true hpost
    obtain ⟨_, sys', hperform, rfl⟩ := Prog.wp_iff_exists.mp hwake
    exact ⟨sys, sys', follow_run hsys, hframes,
      (perform_monotone _).returns hperform⟩
  · have hsome : (follow (F := Fin 3) Follows 12 [{ action := .run 2 },
        { action := .run 0 }, { action := .run 1 }, { action := .schedulerNext 0 },
        { action := .schedulerNext 0 }, { action := .timeout 10 },
        { action := .ret .waiting }, { action := .schedulerNext 0 },
        { action := .timeout 15 }, { action := .ret .waiting },
        { action := .kill 2 }, { action := .timeout 5 }]
        (init 64 fun _ => messageqInit 0 32 4)).any (fun sys =>
          Prog.wp (perform 12 (.ret .waiting)) (fun reply sys' =>
            reply = .wakeup 10 ∧
            sys'.world.kernel.lists.link (.head .runq) = none ∧
            messageqEmpty sys'.world.kernel.atomicRunq = true ∧
            sys'.world.kernel.lists.link (.head .timerq) = some (.next 0) ∧
            sys'.world.kernel.lists.link (.next 0) = some (.next 1) ∧
            (sys'.world.fibre 1).duetime = 5) sys) = true := by
      decide +kernel
    obtain ⟨sys, hsys, hpost⟩ := (Option.any_eq_true _ _).mp hsome
    obtain ⟨_, sys', hperform, rfl, hstate⟩ :=
      Prog.wp_iff_exists.mp (of_decide_eq_true hpost)
    exact ⟨sys, sys', follow_run hsys, (perform_monotone _).returns hperform, hstate⟩

end System

end Librfn
