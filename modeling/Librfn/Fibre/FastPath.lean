import Librfn.Fibre.Slots

/-!
# The fast path

`fibre_scheduler_next` skips its updates when a yielding fibre is the only one
there is.  With the updates it does the same.
-/

namespace Librfn

open Librfn.Logic

variable {F : Type} [DecidableEq F]

/-- `schedulerDispatch` if the condition of the fast path were never true. -/
def schedulerDispatchSlow (fuel : Nat) (time : BitVec 32) :
    Prog (World F) (Option F) := do
  onKernel (modify fun k => { k with now := time })
  interrupt
  schedulerUpdate fuel
  handleTimerq fuel
  interrupt
  switchTask
  interrupt
  dispatched

namespace Sched

/-- A scheduler pass that takes no fast path. -/
inductive SlowPass (time : BitVec 32) : Sched F → Sched F → Prop
  | slow {s s' : Sched F} : Update ({ s with now := time }).interrupt s' →
      SlowPass time s s'.expire.interrupt.nextTask.interrupt.dispatch

end Sched

theorem schedulerDispatchSlow_le (fuel : Nat) (time : BitVec 32) :
    Prog.Le (schedulerDispatchSlow (F := F) fuel time)
      (schedulerDispatchSlow (fuel + 1) time) := by
  refine .bind (.refl _) fun _ => .bind (.refl _) fun _ =>
    .bind (schedulerUpdate_le fuel) fun _ => ?_
  exact .bind (handleTimerq_le fuel) fun _ => .refl _

theorem schedulerDispatchSlow_spec {s : Sched F} {w : World F}
    (h : w.Represents s) (time : BitVec 32) (hstate : s.state.Returned) {fuel : Nat}
    (hfuel : s.weight + 1 < fuel) :
    Prog.wp (schedulerDispatchSlow fuel time) (fun current w' =>
      ∃ s', Sched.SlowPass time s s' ∧ current = s'.current ∧ w'.Represents s') w := by
  obtain ⟨hweight, hstate₁⟩ := s.interrupted time hstate
  rw [schedulerDispatchSlow, Prog.wp_bind, wp_onKernel, Prog.wp_modify, Prog.wp_bind]
  refine Prog.wp_mono (interrupt_spec (h.withNow time)) ?_
  intro _ w₁ h₁
  refine slowPath_spec h₁ hstate₁ (by omega) ?_
  intro s₂ w₂ hs₂ h₂
  rw [Prog.wp_bind]
  refine Prog.wp_mono (interrupt_spec h₂) ?_
  intro _ w₃ h₃
  refine Prog.wp_mono (dispatched_spec h₃) ?_
  rintro _ w₄ ⟨rfl, h₄⟩
  exact ⟨_, .slow hs₂, (Sched.dispatch_current _).symm, h₄⟩

theorem dispatches_schedulerDispatchSlow :
    Dispatches (schedulerDispatchSlow (F := F)) Sched.SlowPass where
  monotone := fun time fuel => schedulerDispatchSlow_le fuel time
  spec := fun time h hstate hfuel => schedulerDispatchSlow_spec h time hstate hfuel
  sound := by
    rintro time s _ ⟨hupdate⟩ hs
    have hpassed := hupdate.passed hs.distinct
    exact ⟨hpassed.held.trans hs.held, hpassed.distinct,
      hpassed.state ▸ hs.state⟩

/-! ## What the fast path skips changes nothing -/

namespace Sched

variable {s s' t t' : Sched F}

theorem interrupt_of_quiet (h : s.interrupts = []) : s.interrupt = s := by
  unfold interrupt
  rw [h]

theorem Drain.of_empty (h : Drain s s') (hquiet : s.interrupts = [])
    (hpending : s.pending = []) : s' = s := by
  cases h with
  | empty _ => exact interrupt_of_quiet hquiet
  | entry hentry _ _ =>
      rw [interrupt_of_quiet hquiet, hpending] at hentry
      cases hentry

/-- Nothing is waiting: no fibre, no entry, no interrupt handler. -/
structure Alone (s : Sched F) : Prop where
  quiet : s.interrupts = []
  runq : s.runq = []
  timerq : s.timerq = []
  pending : s.pending = []

omit [DecidableEq F] in
theorem Alone.nextTask (h : Alone s) (hcurrent : s.current = none) :
    s.nextTask = s := by
  obtain ⟨-, hrunq, -, -⟩ := h
  cases s
  cases hrunq
  cases hcurrent
  rfl

theorem Alone.enqueue (h : Alone s) {f : F} (hcurrent : s.current = some f) :
    Agrees s (s.enqueue f).interrupt.expire.interrupt.nextTask.interrupt.dispatch := by
  obtain ⟨hquiet, hrunq, htimerq, -⟩ := h
  have henqueue : s.enqueue f = { s with
      runq := [f]
      timerq := []
      log := .run f :: s.log } := by
    simp [Sched.enqueue, hrunq, htimerq]
  have hnext : (s.enqueue f).nextTask = { s with log := .run f :: s.log } := by
    rw [henqueue]
    cases s
    cases hrunq
    cases htimerq
    cases hcurrent
    rfl
  have hidle : (s.enqueue f).interrupt = s.enqueue f :=
    interrupt_of_quiet (henqueue ▸ hquiet)
  have hidle' : (s.enqueue f).nextTask.interrupt = (s.enqueue f).nextTask :=
    interrupt_of_quiet (hnext ▸ hquiet)
  unfold Agrees
  rw [dispatch_visible, hidle, expire_nil (henqueue ▸ rfl), hidle, hidle', hnext]
  rfl

theorem Update.alone (h : Update s s') (halone : Alone s)
    (hstate : s.state = .yielded) :
    Agrees s s'.expire.interrupt.nextTask.interrupt.dispatch := by
  have hidle := interrupt_of_quiet halone.quiet
  cases h with
  | idle hdrain hcurrent =>
      cases hdrain.of_empty halone.quiet halone.pending
      rw [hidle] at hcurrent
      rw [hidle, hidle, expire_nil halone.timerq, hidle, halone.nextTask hcurrent,
        hidle]
      exact (dispatch_visible s).symm
  | @current _ _ f hdrain hcurrent hupdate =>
      cases hdrain.of_empty halone.quiet halone.pending
      rw [hidle] at hcurrent hupdate
      cases hupdate with
      | yielded _ hdrain =>
          cases hdrain.of_empty halone.quiet halone.pending
          have hstored : Alone (s.storeState f) :=
            ⟨halone.quiet, halone.runq, halone.timerq, halone.pending⟩
          exact Agrees.trans (storeState_visible s f).symm (hstored.enqueue hcurrent)
      | waiting hwaiting => rw [hstate] at hwaiting; cases hwaiting
      | exited hexited => rw [hstate] at hexited; cases hexited
      | failed hfailed => rw [hstate] at hfailed; cases hfailed

theorem Pass.agrees_slow {time : BitVec 32} (hpass : Pass time s s')
    (hslow : SlowPass time t t') (hquiet : t.interrupts = []) (h : Agrees s t) :
    Agrees s' t' := by
  have hnow : Agrees { s with now := time } { t with now := time } :=
    h.map (g := fun u => { u with now := time }) fun _ => rfl
  cases hslow with
  | slow hupdate' =>
      cases hpass with
      | slow _ hupdate => exact (hupdate.agrees hupdate' hnow.interrupt).switched
      | fast hfast =>
          have hidle : ({ t with now := time } : Sched F).interrupt =
              { t with now := time } := interrupt_of_quiet hquiet
          obtain ⟨hstate, hrunq, htimerq, hpending⟩ :=
            hnow.interrupt.fastPath.mp hfast
          rw [hidle] at hupdate' hstate hrunq htimerq hpending
          refine Agrees.trans ?_
            (hupdate'.alone ⟨hquiet, hrunq, htimerq, hpending⟩ hstate)
          unfold Agrees
          rw [dispatch_visible]
          have hsame := hnow.interrupt.interrupt
          rwa [hidle, hidle] at hsame

/-! ## What is empty after a call -/

theorem enqueue_interrupts (s : Sched F) (f : F) :
    (s.enqueue f).interrupts = s.interrupts := by
  unfold enqueue
  split <;> rfl

omit [DecidableEq F] in
theorem dispatch_pending (s : Sched F) : s.dispatch.pending = s.pending := by
  unfold dispatch
  split <;> rfl

omit [DecidableEq F] in
theorem dispatch_interrupts (s : Sched F) : s.dispatch.interrupts = s.interrupts := by
  unfold dispatch
  split <;> rfl

/-- No entry is left, and no interrupt handler is going to run. -/
structure Settled (s : Sched F) : Prop where
  pending : s.pending = []
  quiet : s.interrupts = []

theorem Drain.settled (h : Drain s s') (hquiet : s.interrupts = []) :
    Settled s' := by
  refine ⟨h.pending, ?_⟩
  refine h.invariant (I := fun u => u.interrupts = []) hquiet ?_ ?_ ?_
  · intro u hu
    rwa [interrupt_of_quiet hu]
  · exact fun _ _ _ hu _ => hu
  · intro u f _ hu _
    have henqueue : (u.enqueue f).interrupts = [] :=
      (enqueue_interrupts u f).trans hu
    change (u.enqueue f).interrupt.interrupts = []
    rwa [interrupt_of_quiet henqueue]

theorem Settled.enqueue (h : Settled s) (f : F) : Settled (s.enqueue f) :=
  ⟨(enqueue_pending s f).trans h.pending, (enqueue_interrupts s f).trans h.quiet⟩

theorem Settled.interrupt (h : Settled s) : Settled s.interrupt := by
  rwa [interrupt_of_quiet h.quiet]

theorem UpdateCurrent.settled {f : F} (h : UpdateCurrent f s s') (hs : Settled s) :
    Settled s' := by
  cases h with
  | yielded _ hdrain => exact (hdrain.settled hs.quiet).enqueue f
  | waiting _ => exact ⟨hs.pending, hs.quiet⟩
  | exited _ => exact ⟨hs.pending, hs.quiet⟩
  | failed _ => exact ⟨hs.pending, hs.quiet⟩

theorem Update.calm (h : Update s s') (hquiet : s.interrupts = []) : Settled s' := by
  cases h with
  | idle hdrain _ => exact (hdrain.settled hquiet).interrupt.interrupt
  | current hdrain _ hupdate =>
      exact (hupdate.settled (hdrain.settled hquiet).interrupt).interrupt

theorem Update.settled (h : Update s s') (hquiet : s.interrupts = []) :
    Settled s'.expire.interrupt.nextTask.interrupt.dispatch := by
  have hupdated := h.calm hquiet
  have hexpired : Settled s'.expire.interrupt :=
    Settled.interrupt ⟨hupdated.pending, hupdated.quiet⟩
  have hnext : Settled s'.expire.interrupt.nextTask.interrupt :=
    Settled.interrupt ⟨hexpired.pending, hexpired.quiet⟩
  exact ⟨(dispatch_pending _).trans hnext.pending,
    (dispatch_interrupts _).trans hnext.quiet⟩

theorem SlowPass.settled {time : BitVec 32} (h : SlowPass time s s')
    (hquiet : s.interrupts = []) : Settled s' := by
  cases h with
  | slow hupdate =>
      rw [interrupt_of_quiet (s := { s with now := time }) hquiet] at hupdate
      exact hupdate.settled hquiet

theorem Pass.settled {time : BitVec 32} (h : Pass time s s')
    (hquiet : s.interrupts = []) : Settled s' := by
  have hidle := interrupt_of_quiet (s := { s with now := time }) hquiet
  cases h with
  | slow _ hupdate =>
      rw [hidle] at hupdate
      exact hupdate.settled hquiet
  | fast hfast =>
      obtain ⟨-, -, -, hpending⟩ := hfast
      rw [hidle] at hpending ⊢
      rw [hidle]
      exact ⟨(dispatch_pending _).trans hpending, (dispatch_interrupts _).trans hquiet⟩

theorem Answers.settled {P : BitVec 32 → Sched F → Sched F → Prop}
    (hP : ∀ {time s s'}, P time s s' → s.interrupts = [] → Settled s')
    {c : ApiCall F} {fs fs' : List F} {reply : Reply F}
    (h : Answers P c fs s reply fs' s') (hdrains : c.Drains)
    (hquiet : s.interrupts = []) : s'.pending = [] := by
  cases h with
  | run hdrain => exact ((hdrain.settled hquiet).enqueue _).pending
  | kill hdrain => exact (hdrain.settled hquiet).interrupt.pending
  | idle hp _ => exact (hP hp hquiet).interrupt.pending
  | dispatch hp _ => exact (hP hp hquiet).pending
  | _ => exact hdrains.elim

end Sched

theorem schedulerDispatchSlow_keeps (fuel : Nat) (time : BitVec 32) :
    Prog.Keeps (World.KeepsRequests Messageq.sender)
      (schedulerDispatchSlow (F := F) fuel time) :=
  .bind World.KeepsRequests.trans
    (modifyKernel_keeps (fun _ => rfl) fun _ => rfl) fun _ =>
      .bind World.KeepsRequests.trans interrupt_keeps fun _ => slowPath_keeps fuel

/-- A beginning of `fibre_scheduler_next` that leaves no request behind. -/
structure Drains (schedulerDispatch : Nat → BitVec 32 → Prog (World F) (Option F))
    (P : BitVec 32 → Sched F → Sched F → Prop) : Prop extends
    Dispatches schedulerDispatch P where
  keeps : ∀ fuel time, Prog.Keeps (World.KeepsRequests Messageq.sender)
    (schedulerDispatch fuel time)
  settled : ∀ {time s s'}, P time s s' → s.interrupts = [] → Sched.Settled s'

theorem drains_schedulerDispatch : Drains (schedulerDispatch (F := F)) Sched.Pass where
  toDispatches := dispatches_schedulerDispatch
  keeps := schedulerDispatch_keeps
  settled := Sched.Pass.settled

theorem drains_schedulerDispatchSlow :
    Drains (schedulerDispatchSlow (F := F)) Sched.SlowPass where
  toDispatches := dispatches_schedulerDispatchSlow
  keeps := schedulerDispatchSlow_keeps
  settled := Sched.SlowPass.settled

/-! ## Two runs side by side -/

omit [DecidableEq F] in
theorem World.Represents.sameSlots {w w' : World F} {s s' : Sched F}
    (h : w.Represents s) (h' : w'.Represents s')
    (hempty : s.pending = [] ∧ s.held = []) (hempty' : s'.pending = [] ∧ s'.held = [])
    (hsender : w'.kernel.atomicRunq.sender = w.kernel.atomicRunq.sender)
    (hbuf : w.kernel.atomicRunqBuf = w'.kernel.atomicRunqBuf) : w.SameSlots w' := by
  obtain ⟨lists, mq, buf, m, rfl, -, hentries⟩ := h
  obtain ⟨lists', mq', buf', m', rfl, -, hentries'⟩ := h'
  rw [hempty.1, hempty.2] at hentries
  rw [hempty'.1, hempty'.2] at hentries'
  exact ⟨hentries.eq_of_empty hentries' hsender, hbuf⟩

namespace Session

/-- Two memories between calls that differ in what is recorded only. -/
structure Twins (t u : Session F) (s v : Sched F) : Prop where
  executing : t.executing = u.executing
  slots : t.world.SameSlots u.world
  left : t.world.Represents s
  right : u.world.Represents v
  sound : s.Sound
  agrees : s.Agrees v
  quiet : s.interrupts = []

section Twins

variable {d d' : Nat → BitVec 32 → Prog (World F) (Option F)}
  {P P' : BitVec 32 → Sched F → Sched F → Prop} {t t' u u' : Session F}
  {s s' v v' : Sched F} {c : ApiCall F} {reply : Reply F}

omit [DecidableEq F] in
theorem Twins.sound_right (h : Twins t u s v) : v.Sound := by
  obtain ⟨hheld, hdistinct, hstate⟩ := h.sound
  refine ⟨?_, ?_, h.agrees.state ▸ hstate⟩
  · rw [← h.agrees.eq (g := Sched.held) fun _ => rfl]
    exact hheld
  · unfold Sched.Distinct
    rwa [← h.agrees.runq, ← h.agrees.timerq]

theorem Twins.slots_next (h : Twins t u s v) (hd : Drains d P) (hd' : Drains d' P')
    {fuel fuel' : Nat} {reply' : Reply F}
    (hcall : call d fuel c t = .ok (reply, t'))
    (hcall' : call d' fuel' c u = .ok (reply', u'))
    (hleft : t'.world.Represents s') (hright : u'.world.Represents v')
    (hsound : s'.Sound) (hagrees : s'.Agrees v')
    (hsettled : c.Drains → s'.pending = []) :
    t'.world.interrupts = [] ∧ t'.world.SameSlots u'.world := by
  have hquiet : t.world.interrupts = [] := h.left.interrupts.trans h.quiet
  have hquiet' : u.world.interrupts = [] :=
    h.right.interrupts.trans (h.agrees.interrupts ▸ h.quiet)
  obtain ⟨hmq, hbuf⟩ := h.slots
  by_cases hdrains : c.Drains
  · obtain ⟨hquiet₁, hbuf₁, hsender₁⟩ :=
      call_drains_keeps fuel hdrains (hd.keeps fuel) _ _ _ hcall hquiet
    obtain ⟨-, hbuf₂, hsender₂⟩ :=
      call_drains_keeps fuel' hdrains (hd'.keeps fuel') _ _ _ hcall' hquiet'
    have hheld : v'.held = [] :=
      (hagrees.eq (g := Sched.held) fun _ => rfl).symm.trans hsound.held
    refine ⟨hquiet₁, hleft.sameSlots hright ⟨hsettled hdrains, hsound.held⟩
      ⟨hagrees.pending.symm.trans (hsettled hdrains), hheld⟩ ?_ ?_⟩
    · rw [hsender₂, hsender₁, hmq]
    · rw [hbuf₁, hbuf₂, hbuf]
  · by_cases hrequests : ∃ f, c.Requests f
    · obtain ⟨f, hf⟩ := hrequests
      obtain ⟨hquiet₁, hslots₁⟩ :=
        (Prog.wp_iff_of_eq hcall).mp (call_requested fuel hf t)
      obtain ⟨-, hslots₂⟩ :=
        (Prog.wp_iff_of_eq hcall').mp (call_requested fuel' hf u)
      rw [hmq, hbuf, ← hslots₂, Prod.mk.injEq] at hslots₁
      exact ⟨hquiet₁.trans hquiet, hslots₁.1, hslots₁.2⟩
    · have hkeeps : t.KeepsRequests id t' :=
        call_keeps fuel hdrains (not_exists.mp hrequests) _ _ _ hcall
      have hkeeps' : u.KeepsRequests id u' :=
        call_keeps fuel' hdrains (not_exists.mp hrequests) _ _ _ hcall'
      obtain ⟨hquiet₁, hbuf₁, hmq₁⟩ := hkeeps hquiet
      obtain ⟨-, hbuf₂, hmq₂⟩ := hkeeps' hquiet'
      simp only [id] at hmq₁ hmq₂
      refine ⟨hquiet₁, ?_, ?_⟩
      · rw [hmq₁, hmq₂, hmq]
      · rw [hbuf₁, hbuf₂, hbuf]

theorem FreeNext.ready (h : FreeNext d t (c, reply) t') (hrepr : t.world.Represents s) :
    s.Ready c := by
  obtain ⟨⟨-, enough, hret⟩, hoff⟩ := h
  rintro duetime rfl
  by_cases hpast : cyclecmp32 duetime s.now ≤ 0
  · exact .inl hpast
  · have hfree := ((System.offTimerq_timeout_iff hrepr duetime).mp
      (hoff duetime rfl)).resolve_left hpast
    cases hcurrent : s.current with
    | some f => exact .inr ⟨f, rfl, hfree f hcurrent⟩
    | none =>
        exfalso
        obtain ⟨_, _, hcall, -⟩ := Prog.bind_eq_ok (hret enough (Nat.le_refl _))
        obtain ⟨_, hcall, -⟩ := Prog.zoom_eq_ok hcall
        exact System.fibreTimeout_null (hrepr.scalars.2.2.1 ▸ hpast)
          (hrepr.scalars.1.trans hcurrent) _ _ hcall

theorem Twins.next (h : Twins t u s v) (hd : Drains d P) (hd' : Drains d' P')
    (hP : ∀ {time s' v'}, P time s s' → P' time v v' → s'.Agrees v')
    (hnext : FreeNext d t (c, reply) t') :
    ∃ u' s' v', FreeNext d' u (c, reply) u' ∧ Twins t' u' s' v' := by
  have hready := hnext.ready h.left
  obtain ⟨⟨hsensible, hret⟩, hoff⟩ := hnext
  have hready' : v.Ready c := by
    intro duetime hc
    rw [← h.agrees.now, ← h.agrees.current, ← h.agrees.timerq]
    exact hready duetime hc
  obtain ⟨reply₁, t₁, hcall, s', hanswers, hleft⟩ := Prog.wp_iff_exists.mp
    (call_spec hd.toDispatches h.left h.sound hsensible hready (Nat.lt_succ_self _))
  cases hret.unique ((call_monotone hd.monotone c).returns hcall)
  have hsensible' : c.Sensible u.executing := h.executing ▸ hsensible
  obtain ⟨reply', u', hcall', v', hanswers', hright⟩ := Prog.wp_iff_exists.mp
    (call_spec hd'.toDispatches h.right h.sound_right hsensible' hready'
      (Nat.lt_succ_self _))
  rw [← h.executing] at hanswers'
  obtain ⟨rfl, hexecuting, hagrees⟩ := hanswers.agrees hP hanswers' h.agrees
  have hsound := hanswers.sound hd.sound hsensible h.sound
  obtain ⟨hquiet, hslots⟩ := h.slots_next hd hd' hcall hcall' hleft hright hsound
    hagrees fun hdrains => hanswers.settled hd.settled hdrains h.quiet
  refine ⟨u', s', v', ⟨⟨hsensible', (call_monotone hd'.monotone c).returns hcall'⟩, ?_⟩,
    ⟨hexecuting, hslots, hleft, hright, hsound, hagrees,
      hleft.interrupts.symm.trans hquiet⟩⟩
  intro duetime hc
  rw [System.offTimerq_timeout_iff h.right, ← h.agrees.now, ← h.agrees.current,
    ← h.agrees.timerq, ← System.offTimerq_timeout_iff h.left]
  exact hoff duetime hc

omit [DecidableEq F] in
theorem init_twins (atomicRunqBuf : Nat) (eventq : F → Messageq) :
    Twins (init atomicRunqBuf eventq) (init atomicRunqBuf eventq)
      (.init eventq) (.init eventq) where
  executing := rfl
  slots := ⟨rfl, rfl⟩
  left := System.init_represents atomicRunqBuf eventq
  right := System.init_represents atomicRunqBuf eventq
  sound := Sched.init_sound eventq
  agrees := rfl
  quiet := rfl

end Twins

end Session

/-- The two memories differ at most in the states recorded in the fibres and in
the tails of empty lists. -/
structure World.SameButStates (w w' : World F) : Prop where
  current : w.kernel.current = w'.kernel.current
  state : w.kernel.state = w'.kernel.state
  now : w.kernel.now = w'.kernel.now
  link : w.kernel.lists.link = w'.kernel.lists.link
  tail : ∀ list, w.kernel.lists.link (.head list) ≠ none →
    w.kernel.lists.tail list = w'.kernel.lists.tail list
  atomicRunq : w.kernel.atomicRunq = w'.kernel.atomicRunq
  atomicRunqBuf : w.kernel.atomicRunqBuf = w'.kernel.atomicRunqBuf
  taintFlags : w.kernel.taintFlags = w'.kernel.taintFlags
  fibre : ∀ f, { w.fibre f with state := .yielded } =
    { w'.fibre f with state := .yielded }
  eventq : w.eventq = w'.eventq

omit [DecidableEq F] in
theorem World.SameButStates.symm {w w' : World F} (h : w.SameButStates w') :
    w'.SameButStates w where
  current := h.current.symm
  state := h.state.symm
  now := h.now.symm
  link := h.link.symm
  tail := fun list hne => (h.tail list (h.link ▸ hne)).symm
  atomicRunq := h.atomicRunq.symm
  atomicRunqBuf := h.atomicRunqBuf.symm
  taintFlags := h.taintFlags.symm
  fibre := fun f => (h.fibre f).symm
  eventq := h.eventq.symm

namespace Session

variable {d d' : Nat → BitVec 32 → Prog (World F) (Option F)}
  {P P' : BitVec 32 → Sched F → Sched F → Prop} {t u : Session F} {s v : Sched F}

omit [DecidableEq F] in
theorem Twins.same (h : Twins t u s v) : t.world.SameButStates u.world := by
  have hagrees := h.agrees
  have hseq : s.seq = v.seq := by
    funext list
    cases list with
    | runq => exact hagrees.runq
    | timerq => exact hagrees.timerq
  obtain ⟨hcurrent, hstate, hnow, hfibre, -⟩ := h.left.scalars
  obtain ⟨hcurrent', hstate', hnow', hfibre', -⟩ := h.right.scalars
  have hlists : t.world.kernel.lists.Represents s.seq := by
    obtain ⟨lists, mq, buf, m, hw, hlists, -⟩ := h.left
    rwa [hw]
  have hlists' : u.world.kernel.lists.Represents s.seq := by
    obtain ⟨lists, mq, buf, m, hw, hlists, -⟩ := h.right
    rwa [hw, hseq]
  refine ⟨?_, ?_, ?_, hlists.link_eq hlists', ?_, h.slots.atomicRunq,
    h.slots.atomicRunqBuf, ?_, ?_, ?_⟩
  · rw [hcurrent, hcurrent', hagrees.current]
  · rw [hstate, hstate', hagrees.state]
  · rw [hnow, hnow', hagrees.now]
  · intro list hne
    rw [hlists.link_head, Ne, firstPtr_none_eq_none] at hne
    rw [hlists.tail list hne, hlists'.tail list hne]
  · rw [h.left.taintFlags, h.right.taintFlags]
    exact hagrees.eq fun _ => rfl
  · intro f
    rw [hfibre, hfibre']
    exact congrFun (hagrees.eq (g := fun u => Sched.blankStates u.fibre) fun _ => rfl) f
  · rw [h.left.eventq, h.right.eventq, hagrees.eventq]

/-- A run with one beginning of `fibre_scheduler_next` is a run with the
other. -/
theorem run_twins (hd : Drains d P) (hd' : Drains d' P')
    (hP : ∀ {time s s' v v'}, P time s s' → P' time v v' → s.interrupts = [] →
      s.Agrees v → s'.Agrees v') {atomicRunqBuf : Nat} {eventq : F → Messageq}
    {trace : List (ApiCall F × Reply F)}
    (hrun : Run (FreeNext d) (init atomicRunqBuf eventq) trace t) :
    ∃ u s v, Run (FreeNext d') (init atomicRunqBuf eventq) trace u ∧ Twins t u s v := by
  have hstep : ∀ t step t' u, (∃ s v, Twins t u s v) → FreeNext d t step t' →
      ∃ u', FreeNext d' u step u' ∧ ∃ s v, Twins t' u' s v := by
    rintro t ⟨c, reply⟩ t' u ⟨s, v, htwins⟩ hnext
    obtain ⟨u', s', v', hnext', htwins'⟩ := htwins.next hd hd'
      (fun hp hp' => hP hp hp' htwins.quiet htwins.agrees) hnext
    exact ⟨u', hnext', s', v', htwins'⟩
  obtain ⟨u, hrun', s, v, htwins⟩ := hrun.simulation
    (R := fun t u => ∃ s v, Twins t u s v)
    ⟨_, _, init_twins atomicRunqBuf eventq⟩ hstep
  exact ⟨u, s, v, hrun', htwins⟩

/-- A run in which no fibre is put on the timer queue twice is the same with and
without the fast path: the same calls give the same replies, and leave memories
that differ at most in the states recorded in the fibres and in the tails of
empty lists. -/
theorem fast_path_exact (atomicRunqBuf : Nat) (eventq : F → Messageq)
    (trace : List (ApiCall F × Reply F)) :
    (∀ t, Run (FreeNext schedulerDispatch) (init atomicRunqBuf eventq) trace t →
      ∃ u, Run (FreeNext schedulerDispatchSlow) (init atomicRunqBuf eventq) trace u ∧
        t.executing = u.executing ∧ t.world.SameButStates u.world) ∧
    ∀ u, Run (FreeNext schedulerDispatchSlow) (init atomicRunqBuf eventq) trace u →
      ∃ t, Run (FreeNext schedulerDispatch) (init atomicRunqBuf eventq) trace t ∧
        t.executing = u.executing ∧ t.world.SameButStates u.world := by
  constructor
  · intro t hrun
    obtain ⟨u, s, v, hrun', htwins⟩ := run_twins drains_schedulerDispatch
      drains_schedulerDispatchSlow (fun hpass hslow hquiet hagrees =>
        hpass.agrees_slow hslow (hagrees.interrupts ▸ hquiet) hagrees) hrun
    exact ⟨u, hrun', htwins.executing, htwins.same⟩
  · intro u hrun
    obtain ⟨t, s, v, hrun', htwins⟩ := run_twins drains_schedulerDispatchSlow
      drains_schedulerDispatch (fun hslow hpass hquiet hagrees =>
        (hpass.agrees_slow hslow hquiet hagrees.symm).symm) hrun
    exact ⟨t, hrun', htwins.executing.symm, htwins.same.symm⟩

/-- A fibre that is alone resumes where it has stored that it is to resume. -/
theorem fast_path_exact_alone : ∃ t u : Session Bool,
    Run (FreeNext schedulerDispatch) (init 64 fun _ => messageqInit 0 32 4)
      [(.run true, .done), (.schedulerNext 0, .dispatched true 0),
        (.setPriv 5, .done), (.ret .yielded, .wakeup 0),
        (.schedulerNext 1, .dispatched true 5)] t ∧
    Run (FreeNext schedulerDispatchSlow) (init 64 fun _ => messageqInit 0 32 4)
      [(.run true, .done), (.schedulerNext 0, .dispatched true 0),
        (.setPriv 5, .done), (.ret .yielded, .wakeup 0),
        (.schedulerNext 1, .dispatched true 5)] u ∧
    t.executing = u.executing ∧ t.world.SameButStates u.world := by
  have hsome : (follow (F := Bool) schedulerDispatch 9
      [(.run true, .done), (.schedulerNext 0, .dispatched true 0),
        (.setPriv 5, .done), (.ret .yielded, .wakeup 0),
        (.schedulerNext 1, .dispatched true 5)]
      (init 64 fun _ => messageqInit 0 32 4)).isSome = true := by
    decide +kernel
  obtain ⟨t, ht⟩ := Option.isSome_iff_exists.mp hsome
  have hrun := follow_run (fun time fuel => schedulerDispatch_le fuel time) ht
  have hfree : Run (FreeNext schedulerDispatch) _ _ t :=
    hrun.mono fun _ step _ hmem hstep => ⟨hstep, fun duetime hc => by
      revert hmem
      simp [Prod.ext_iff, hc]⟩
  obtain ⟨u, hrun', hsame⟩ := (fast_path_exact 64 _ _).1 t hfree
  exact ⟨t, u, hfree, hrun', hsame⟩

end Session

/-! ## A fibre that only the fast path can run -/

/-- The current fibre has yielded and is alone, but its link is not `NULL`. -/
structure World.Linked (w : World F) (f : F) : Prop where
  quiet : w.interrupts = []
  empty : messageqEmpty w.kernel.atomicRunq = true
  current : w.kernel.current = some f
  state : w.kernel.state = .yielded
  runq : w.kernel.lists.link (.head .runq) = none
  timerq : w.kernel.lists.link (.head .timerq) = none
  link : w.kernel.lists.link (.next f) ≠ none

instance (w : World F) (f : F) : Decidable (w.Linked f) :=
  decidable_of_iff (w.interrupts = [] ∧ messageqEmpty w.kernel.atomicRunq = true ∧
    w.kernel.current = some f ∧ w.kernel.state = .yielded ∧
    w.kernel.lists.link (.head .runq) = none ∧
    w.kernel.lists.link (.head .timerq) = none ∧
    w.kernel.lists.link (.next f) ≠ none)
    ⟨fun ⟨hquiet, hempty, hcurrent, hstate, hrunq, htimerq, hlink⟩ =>
      ⟨hquiet, hempty, hcurrent, hstate, hrunq, htimerq, hlink⟩,
    fun h => ⟨h.quiet, h.empty, h.current, h.state, h.runq, h.timerq, h.link⟩⟩

section Linked

variable {w w' : World F} {f : F} {fuel : Nat}

theorem messageqReceive_empty {mq : Messageq} (h : messageqEmpty mq = true) :
    messageqReceive mq = .ok (none, mq.clearFull) ∧
      messageqEmpty mq.clearFull = true := by
  have hflag : mq.fullFlags &&& flag 32 mq.receivep = 0 := of_decide_eq_true h
  constructor
  · have hwp : Prog.wp messageqReceive (fun entry mq' =>
        entry = none ∧ mq' = mq.clearFull) mq := by
      simp only [messageqReceive, Prog.wp_bind, Prog.wp_get, Prog.wp_modify,
        Prog.wp_ite, hflag, if_true, Prog.wp_pure, and_self]
    obtain ⟨_, _, heq, rfl, rfl⟩ := Prog.wp_iff_exists.mp hwp
    exact heq
  · refine decide_eq_true ?_
    change mq.fullFlags &&& ~~~flag 32 mq.receivep &&& flag 32 mq.receivep = 0
    rw [BitVec.and_assoc, BitVec.and_comm (~~~_), ← BitVec.and_assoc, hflag]
    exact BitVec.zero_and

theorem World.Linked.interrupt (h : w.Linked f) {r : Unit × World F}
    (hint : Librfn.interrupt w = .ok r) : r = ((), w) := by
  obtain ⟨_, _, hget, hint⟩ := Prog.bind_eq_ok hint
  cases hget
  rw [h.quiet] at hint
  cases hint
  rfl

theorem World.Linked.drain (h : w.Linked f)
    (hdrain : handleAtomicRunq fuel w = .ok ((), w')) : w'.Linked f := by
  cases fuel with
  | zero => cases hdrain
  | succ fuel =>
      obtain ⟨_, w₁, hint, hdrain⟩ := Prog.bind_eq_ok hdrain
      cases h.interrupt hint
      obtain ⟨entry, w₂, hreceive, hdrain⟩ := Prog.bind_eq_ok hdrain
      obtain ⟨mq, hmq, rfl⟩ := onAtomicRunq_eq_ok hreceive
      obtain ⟨hnone, hempty⟩ := messageqReceive_empty h.empty
      rw [hnone] at hmq
      cases hmq
      cases hdrain
      exact ⟨h.quiet, hempty, h.current, h.state, h.runq, h.timerq, h.link⟩

omit [DecidableEq F] in
theorem World.Linked.storeState (h : w.Linked f) (fibre : F → Fibre) :
    World.Linked { w with fibre } f :=
  ⟨h.quiet, h.empty, h.current, h.state, h.runq, h.timerq, h.link⟩

theorem listContains_of_empty {mem mem' : ListMem KernelList F} {list : KernelList}
    (h : mem.link (.head list) = none) {res : Bool} {iter : ListIterator KernelList F}
    (hcontains : listContains fuel list f mem = .ok ((res, iter), mem')) :
    res = false ∧ mem' = mem := by
  obtain ⟨⟨curr, iter'⟩, _, hiterate, hloop⟩ := Prog.bind_eq_ok hcontains
  obtain ⟨_, _, hload, hiterate⟩ := Prog.bind_eq_ok hiterate
  cases hload
  cases hiterate
  cases fuel with
  | zero => cases hloop
  | succ fuel =>
      rw [h] at hloop
      cases hloop
      exact ⟨rfl, rfl⟩

theorem listInsert_linked {mem : ListMem KernelList F} {list : KernelList}
    (h : mem.link (.next f) ≠ none) (r : Unit × ListMem KernelList F) :
    listInsert list f mem ≠ .ok r := by
  intro hinsert
  obtain ⟨_, _, hload, hinsert⟩ := Prog.bind_eq_ok hinsert
  cases hload
  obtain ⟨_, _, hassert, -⟩ := Prog.bind_eq_ok hinsert
  rw [Prog.assert, if_neg h] at hassert
  cases hassert

theorem World.Linked.run (h : w.Linked f) (r : Unit × World F) :
    fibreRun fuel f w ≠ .ok r := by
  intro hrun
  obtain ⟨_, w₁, hdrain, hrun⟩ := Prog.bind_eq_ok hrun
  have h₁ := h.drain hdrain
  obtain ⟨⟨queued, iter⟩, w₂, hcontains, hrun⟩ := Prog.bind_eq_ok hrun
  obtain ⟨lists, hlists, rfl⟩ := onLists_eq_ok hcontains
  obtain ⟨rfl, rfl⟩ := listContains_of_empty h₁.runq hlists
  obtain ⟨_, w₃, hremove, hrun⟩ := Prog.bind_eq_ok hrun
  obtain ⟨lists, hlists, rfl⟩ := onLists_eq_ok hremove
  obtain ⟨⟨found, iter⟩, lists', hlists', hlists⟩ := Prog.bind_eq_ok hlists
  obtain ⟨rfl, rfl⟩ := listContains_of_empty h₁.timerq hlists'
  cases hlists
  obtain ⟨_, w₄, hinsert, -⟩ := Prog.bind_eq_ok hrun
  obtain ⟨lists, hlists, -⟩ := onLists_eq_ok hinsert
  exact listInsert_linked h₁.link _ hlists

theorem World.Linked.dispatchSlow (h : w.Linked f) (time : BitVec 32)
    (r : Option F × World F) : schedulerDispatchSlow fuel time w ≠ .ok r := by
  intro hdispatch
  obtain ⟨_, w₁, hnow, hdispatch⟩ := Prog.bind_eq_ok hdispatch
  obtain ⟨k, hnow, rfl⟩ := Prog.zoom_eq_ok hnow
  cases hnow
  have h₁ : World.Linked { w with kernel := { w.kernel with now := time } } f :=
    ⟨h.quiet, h.empty, h.current, h.state, h.runq, h.timerq, h.link⟩
  obtain ⟨_, w₂, hint, hdispatch⟩ := Prog.bind_eq_ok hdispatch
  cases h₁.interrupt hint
  obtain ⟨_, w₃, hupdate, -⟩ := Prog.bind_eq_ok hdispatch
  obtain ⟨_, w₄, hdrain, hupdate⟩ := Prog.bind_eq_ok hupdate
  have h₄ := h₁.drain hdrain
  obtain ⟨_, w₅, hint, hupdate⟩ := Prog.bind_eq_ok hupdate
  cases h₄.interrupt hint
  obtain ⟨_, _, hget, hupdate⟩ := Prog.bind_eq_ok hupdate
  cases hget
  rw [if_pos (h₄.current ▸ Option.some_ne_none f)] at hupdate
  obtain ⟨_, w₆, hupdate, -⟩ := Prog.bind_eq_ok hupdate
  obtain ⟨_, _, hget, hupdate⟩ := Prog.bind_eq_ok hupdate
  cases hget
  dsimp only at hupdate
  rw [h₄.current, h₄.state] at hupdate
  obtain ⟨_, w₇, hstore, hupdate⟩ := Prog.bind_eq_ok hupdate
  cases hstore
  exact (h₄.storeState _).run _ hupdate

end Linked

namespace Session

/-- Fibre 2 waits for the same time twice in one dispatch, which links it to
itself. -/
def armedTwice : List (ApiCall (Fin 3) × Reply (Fin 3)) :=
  [(.run 2, .done), (.run 0, .done), (.run 1, .done),
    (.schedulerNext 0, .dispatched 2 0), (.timeout 1, .answer false),
    (.timeout 1, .answer false), (.ret .waiting, .wakeup 0),
    (.schedulerNext 1, .dispatched 0 0), (.kill 2, .answer true),
    (.ret .exited, .wakeup 1), (.schedulerNext 1, .dispatched 1 0),
    (.ret .yielded, .wakeup 1), (.run 0, .done), (.kill 2, .answer true)]

/-- Then the fast path dispatches fibre 1 once more, where the updates that it
skips fail an assertion of `list_insert`. -/
theorem fast_path_differs : ∃ t : Session (Fin 3),
    Run (Next schedulerDispatch) (init 64 fun _ => messageqInit 0 32 4)
      (armedTwice ++ [(.schedulerNext 1, .dispatched 1 0)]) t ∧
      ¬ ∃ u, Run (Next schedulerDispatchSlow) (init 64 fun _ => messageqInit 0 32 4)
        (armedTwice ++ [(.schedulerNext 1, .dispatched 1 0)]) u := by
  have hfast : (follow schedulerDispatch 9
      (armedTwice ++ [(.schedulerNext 1, .dispatched 1 0)])
      (init 64 fun _ => messageqInit 0 32 4)).isSome = true := by
    decide +kernel
  have hslow : (follow schedulerDispatchSlow 9 armedTwice
      (init 64 fun _ => messageqInit 0 32 4)).any (fun u => u.world.Linked 1) =
        true := by
    decide +kernel
  obtain ⟨t, ht⟩ := Option.isSome_iff_exists.mp hfast
  obtain ⟨u, hu, hlinked⟩ := (Option.any_eq_true _ _).mp hslow
  refine ⟨t, follow_run (fun time fuel => schedulerDispatch_le fuel time) ht, ?_⟩
  rintro ⟨u', hrun⟩
  obtain ⟨u₁, hrun, -, enough, hret⟩ := hrun.of_snoc
  have hunique := hrun.unique
    (follow_run (fun time fuel => schedulerDispatchSlow_le fuel time) hu)
    fun _ _ _ _ h h' => (Prod.mk.inj (h.2.unique h'.2)).2
  subst hunique
  obtain ⟨_, _, hget, hcall⟩ := Prog.bind_eq_ok (hret enough (Nat.le_refl _))
  cases hget
  obtain ⟨_, _, hdispatch, -⟩ := Prog.bind_eq_ok hcall
  obtain ⟨_, hdispatch, -⟩ := Prog.zoom_eq_ok hdispatch
  exact (of_decide_eq_true hlinked).dispatchSlow 1 _ hdispatch

end Session

end Librfn
