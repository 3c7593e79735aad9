import Librfn.Fibre.Timers

/-!
# The timer queue

A fibre that has armed a timer is on the timer queue until it is run or killed
or its time comes, and nothing else is there.
-/

namespace Librfn

open Librfn.Logic

variable {F : Type} [DecidableEq F]

namespace Sched

/-! ## Leaving the timer queue -/

def Runs (s s' : Sched F) : Prop :=
  ∃ new, s'.log = new ++ s.log ∧ (∀ f, .expired f ∉ new) ∧
    ∀ f, f ∈ s'.timerq ↔ f ∈ s.timerq ∧ .run f ∉ new

def Leaves (s s' : Sched F) : Prop :=
  ∃ new, s'.log = new ++ s.log ∧
    ∀ f, f ∈ s'.timerq ↔ f ∈ s.timerq ∧ .run f ∉ new ∧ .expired f ∉ new

variable {s s' s'' : Sched F} {f : F}

omit [DecidableEq F] in
theorem Runs.of_eq (hlog : s'.log = s.log) (htimerq : s'.timerq = s.timerq) : Runs s s' :=
  ⟨[], hlog, by simp, by simp [htimerq]⟩

omit [DecidableEq F] in
theorem Runs.trans (h : Runs s s') (h' : Runs s' s'') : Runs s s'' := by
  obtain ⟨new, hlog, hnew, htimerq⟩ := h
  obtain ⟨new', hlog', hnew', htimerq'⟩ := h'
  refine ⟨new' ++ new, by rw [hlog', hlog, List.append_assoc], ?_, ?_⟩
  · simp [hnew, hnew']
  · intro f
    rw [htimerq', htimerq]
    simp only [List.mem_append]
    tauto

omit [DecidableEq F] in
theorem Runs.leaves (h : Runs s s') : Leaves s s' := by
  obtain ⟨new, hlog, hnew, htimerq⟩ := h
  exact ⟨new, hlog, by simpa [hnew] using htimerq⟩

omit [DecidableEq F] in
theorem Leaves.trans (h : Leaves s s') (h' : Leaves s' s'') : Leaves s s'' := by
  obtain ⟨new, hlog, htimerq⟩ := h
  obtain ⟨new', hlog', htimerq'⟩ := h'
  refine ⟨new' ++ new, by rw [hlog', hlog, List.append_assoc], ?_⟩
  intro f
  rw [htimerq', htimerq]
  simp only [List.mem_append]
  tauto

omit [DecidableEq F] in
theorem runAtomic_runs (s : Sched F) (f : F) : Runs s (s.runAtomic f) := by
  unfold runAtomic
  split
  · exact ⟨[.runAtomic f true], rfl, by simp, by simp⟩
  · exact ⟨[.runAtomic f false], rfl, by simp, by simp⟩

theorem handlerCall_runs (s : Sched F) (call : HandlerCall F) : Runs s (s.handlerCall call) := by
  cases call with
  | runAtomic f => exact s.runAtomic_runs f
  | eventqClaim f =>
      change Runs s (s.produceClaim f)
      unfold produceClaim
      split <;> exact .of_eq rfl rfl
  | eventqSend f event =>
      change Runs s (s.produceSend f event)
      unfold produceSend
      split
      · rename_i evtp _
        obtain ⟨new, hlog, hnew, htimerq⟩ := (s.sendEvent f evtp).runAtomic_runs f
        exact ⟨new, hlog, hnew, htimerq⟩
      · exact .of_eq rfl rfl

theorem interrupt_runs (s : Sched F) : Runs s s.interrupt := by
  refine interrupt_invariant (I := Runs s) (.of_eq rfl rfl) ?_ ?_
  · rintro s' _ ⟨new, hlog, hnew, htimerq⟩
    exact ⟨new, hlog, hnew, htimerq⟩
  · exact fun s' call h => h.trans (s'.handlerCall_runs call)

theorem enqueue_runs (f : F) (h : Distinct s) : Runs s (s.enqueue f) := by
  refine ⟨[.run f], ?_, by simp, ?_⟩
  · unfold enqueue
    split <;> rfl
  · intro g
    have hrun : .run g ∉ [FibreEvent.run f] ↔ g ≠ f := by simp
    rw [hrun]
    unfold enqueue
    split
    · rename_i hf
      refine ⟨fun hg => ⟨hg, ?_⟩, And.left⟩
      rintro rfl
      exact h.not_mem hf hg
    · change g ∈ s.timerq.erase f ↔ _
      rw [(List.nodup_append.mp h).2.1.mem_erase_iff, and_comm]

theorem Drain.runs (h : Drain s s') (hd : Distinct s) : Runs s s' := by
  refine (h.invariant (I := fun u => Distinct u ∧ Runs s u) ⟨hd, .of_eq rfl rfl⟩ ?_ ?_ ?_).2
  · exact fun u hu => ⟨(interrupt_same u).distinct hu.1, hu.2.trans (interrupt_runs u)⟩
  · exact fun u g gs hu _ => ⟨hu.1, hu.2.trans (.of_eq rfl rfl)⟩
  · intro u g gs hu _
    refine ⟨(interrupt_same _).distinct (enqueue_distinct g hu.1), ?_⟩
    have hrun := (hu.2.trans (enqueue_runs g hu.1)).trans (interrupt_runs _)
    exact hrun.trans (.of_eq rfl rfl)

theorem UpdateCurrent.runs (h : UpdateCurrent f s s') (hd : Distinct s) : Runs s s' := by
  cases h with
  | yielded _ hdrain =>
      have hstored : Runs s (s.storeState f) := .of_eq rfl rfl
      exact (hstored.trans (hdrain.runs hd)).trans (enqueue_runs f (hdrain.distinct hd))
  | waiting _ => exact .of_eq rfl rfl
  | exited _ => exact .of_eq rfl rfl
  | failed _ => exact .of_eq rfl rfl

theorem Update.runs (h : Update s s') (hd : Distinct s) : Runs s s' := by
  cases h with
  | idle hdrain _ =>
      exact ((hdrain.runs hd).trans (interrupt_runs _)).trans (interrupt_runs _)
  | current hdrain _ hupdate =>
      have hd' := (interrupt_same _).distinct (hdrain.distinct hd)
      exact (((hdrain.runs hd).trans (interrupt_runs _)).trans (hupdate.runs hd')).trans
        (interrupt_runs _)

omit [DecidableEq F] in
theorem expire_leaves (hd : Distinct s) : Leaves s s.expire := by
  refine ⟨((s.timerq.takeWhile s.Due).map .expired).reverse, rfl, ?_⟩
  intro f
  have hrun : .run f ∉ ((s.timerq.takeWhile s.Due).map FibreEvent.expired).reverse := by simp
  have hexpired : .expired f ∉ ((s.timerq.takeWhile s.Due).map FibreEvent.expired).reverse ↔
      f ∉ s.timerq.takeWhile s.Due := by simp
  have hsplit := List.takeWhile_append_dropWhile (p := fun g => decide (s.Due g)) (l := s.timerq)
  have hnodup := (List.nodup_append.mp hd).2.1
  rw [hexpired, and_iff_right hrun]
  change f ∈ s.timerq.dropWhile s.Due ↔ _
  rw [← hsplit] at hnodup
  have hdisjoint := (List.nodup_append.mp hnodup).2.2
  constructor
  · intro hf
    refine ⟨(List.dropWhile_sublist _).subset hf, fun htake => ?_⟩
    exact hdisjoint f htake f hf rfl
  · rintro ⟨hf, htake⟩
    rw [← hsplit] at hf
    exact (List.mem_append.mp hf).resolve_left htake

omit [DecidableEq F] in
theorem dispatch_runs (s : Sched F) : Runs s s.dispatch := by
  unfold dispatch
  split
  · exact .of_eq rfl rfl
  · rename_i g _
    exact ⟨[.dispatched g], rfl, by simp, by simp⟩

theorem Pass.leaves {time : BitVec 32} (h : Pass time s s') (hd : Distinct s) : Leaves s s' := by
  have hnow : Runs s ({ s with now := time }).interrupt :=
    Runs.trans (.of_eq rfl rfl) (interrupt_runs _)
  cases h with
  | fast _ => exact ((hnow.trans (interrupt_runs _)).trans (dispatch_runs _)).leaves
  | @slow s₁ _ hupdate =>
      have hd₀ : Distinct ({ s with now := time }).interrupt := (interrupt_same _).distinct hd
      have hexpired := (hnow.trans (hupdate.runs hd₀)).leaves.trans
        (expire_leaves (hupdate.distinct hd₀))
      have hnext : Runs s₁.expire.interrupt s₁.expire.interrupt.nextTask := .of_eq rfl rfl
      have hrest := (((interrupt_runs s₁.expire).trans hnext).trans (interrupt_runs _)).trans
        (dispatch_runs _)
      exact hexpired.trans hrest.leaves

/-- A `fibre_timeout` has returned false, and `f`, for which it was called, goes
onto the timer queue. -/
def Arms (action : Action F) (frames frames' : List (Frame F)) (s : Sched F) (f : F) : Prop :=
  (∃ duetime, action = .timeout duetime) ∧ frames' ≠ frames ∧
    (∃ frame, frames.head? = some frame ∧ frame.fibre = f) ∧ f ∉ s.runq

theorem Does.mem_timerq {action : Action F} {frames frames' : List (Frame F)}
    (h : Does action frames s frames' s') (hd : Distinct s)
    (hrule : System.Follows frames s.now action) :
    ∃ new, s'.log = new ++ s.log ∧ ∀ f, f ∈ s'.timerq ↔
      (f ∈ s.timerq ∧ .run f ∉ new ∧ .expired f ∉ new ∧ action ≠ .kill f) ∨
        Arms action frames frames' s f := by
  have hleaves : ∀ {s'}, Leaves s s' → (∀ f, action ≠ .kill f) →
      (∀ f, ¬ Arms action frames frames' s f) → ∃ new, s'.log = new ++ s.log ∧
        ∀ f, f ∈ s'.timerq ↔ (f ∈ s.timerq ∧ .run f ∉ new ∧ .expired f ∉ new ∧
          action ≠ .kill f) ∨ Arms action frames frames' s f := by
    rintro s' ⟨new, hlog, htimerq⟩ hkill harms
    refine ⟨new, hlog, fun f => ?_⟩
    rw [htimerq]
    simp [hkill, harms]
  cases h with
  | run hdrain =>
      refine hleaves ?_ nofun nofun
      exact ((hdrain.runs hd).trans (enqueue_runs _ (hdrain.distinct hd))).leaves
  | call => exact hleaves (handlerCall_runs _ _).leaves nofun nofun
  | @kill _ _ s₁ g hdrain =>
      obtain ⟨new, hlog, hnew, htimerq⟩ := (hdrain.runs hd).trans (interrupt_runs s₁)
      have hd₁ := (interrupt_same s₁).distinct (hdrain.distinct hd)
      refine ⟨new, hlog, fun f => ?_⟩
      change f ∈ s₁.interrupt.timerq.erase g ↔ _
      rw [(List.nodup_append.mp hd₁).2.1.mem_erase_iff, htimerq]
      have harms : ¬ Arms (.kill g) frames frames s f := nofun
      have hkill : Action.kill g ≠ .kill f ↔ f ≠ g := by simp [eq_comm]
      rw [hkill]
      simp only [harms, hnew]
      tauto
  | past _ => exact hleaves (Runs.of_eq rfl rfl).leaves nofun fun f h => h.2.1 rfl
  | @arm frame frames _ duetime hfuture =>
      obtain ⟨top, htop, harmed⟩ := hrule
      cases htop
      refine ⟨[], rfl, fun f => ?_⟩
      have hne : { frame with armed := true } :: frames ≠ frame :: frames := by
        intro heq
        rw [← (List.cons.inj heq).1] at harmed
        cases harmed
      have harms : Arms (.timeout duetime) (frame :: frames)
          ({ frame with armed := true } :: frames) s f ↔ frame.fibre = f ∧ f ∉ s.runq := by
        simp [Arms, hne]
      rw [harms]
      unfold Sched.arm
      dsimp only
      split
      · rename_i hf
        simp only [List.not_mem_nil, not_false_eq_true, ne_eq, reduceCtorEq, and_true]
        refine ⟨.inl, fun h => h.resolve_right ?_⟩
        rintro ⟨rfl, hnot⟩
        exact hnot hf
      · rename_i hf
        rw [(insertSorted_perm _ _ _).mem_iff, List.mem_cons]
        simp only [List.not_mem_nil, not_false_eq_true, ne_eq, reduceCtorEq, and_true]
        constructor
        · rintro (rfl | hold)
          · exact .inr ⟨rfl, hf⟩
          · exact .inl hold
        · rintro (hold | ⟨rfl, -⟩)
          · exact .inr hold
          · exact .inl rfl
  | @idle _ _ s₁ _ hpass _ =>
      exact hleaves ((hpass.leaves hd).trans (interrupt_runs s₁).leaves) nofun nofun
  | dispatch hpass _ => exact hleaves (hpass.leaves hd) nofun nofun
  | @yield frame _ _ =>
      have hreturned : Runs s (s.returned frame.fibre .yielded) :=
        ⟨[.returned frame.fibre .yielded], rfl, by simp, by simp [Sched.returned]⟩
      exact hleaves hreturned.leaves nofun nofun
  | @ret frame _ _ state _ =>
      have hreturned : Runs s (s.returned frame.fibre state) :=
        ⟨[.returned frame.fibre state], rfl, by simp, by simp [Sched.returned]⟩
      exact hleaves (hreturned.trans (interrupt_runs _)).leaves nofun nofun

end Sched

/-! ## One call of `handle_timerq` -/

/-- `fibre_scheduler_next` in front of its call of `handle_timerq`; whether it
gets there. -/
def beforeTimerq (fuel : Nat) (time : BitVec 32) : Prog (World F) Bool := do
  onKernel (modify fun k => { k with now := time })
  interrupt
  if ← fastPath then
    return false
  schedulerUpdate fuel
  return true

theorem schedulerDispatch_eq (fuel : Nat) (time : BitVec 32) :
    schedulerDispatch (F := F) fuel time = (do
      if ← beforeTimerq fuel time then
        handleTimerq fuel
        interrupt
        switchTask
      interrupt
      dispatched) := by
  simp only [schedulerDispatch, beforeTimerq, bind_assoc]
  congr 1
  funext _
  congr 1
  funext _
  congr 1
  funext fast
  cases fast <;> simp

theorem beforeTimerq_le (fuel : Nat) (time : BitVec 32) :
    Prog.Le (beforeTimerq (F := F) fuel time) (beforeTimerq (fuel + 1) time) := by
  unfold beforeTimerq
  refine .bind (.refl _) fun _ => .bind (.refl _) fun _ => ?_
  refine .bind (.refl _) fun fast => .ite (.refl _) ?_
  exact .bind (schedulerUpdate_le fuel) fun _ => .refl _

theorem beforeTimerq_spec {w : World F} {s : Sched F} (h : w.Represents s)
    (time : BitVec 32) (hd : s.Distinct) (hstate : s.state.Returned) {fuel : Nat}
    (hfuel : s.weight < fuel) :
    Prog.wp (beforeTimerq fuel time) (fun handles w' => ∃ s',
      w'.Represents s' ∧ Sched.Runs s s' ∧
        if handles then Sched.Update ({ s with now := time }).interrupt s'
        else s'.FastPath) w := by
  obtain ⟨hweight, hstate₁⟩ := s.interrupted time hstate
  have hruns : Sched.Runs s ({ s with now := time }).interrupt :=
    Sched.Runs.trans (.of_eq rfl rfl) (Sched.interrupt_runs _)
  have hd₁ : ({ s with now := time } : Sched F).interrupt.Distinct :=
    (Sched.interrupt_same _).distinct hd
  simp only [beforeTimerq, Prog.wp_bind, wp_onKernel, Prog.wp_modify]
  refine Prog.wp_mono (interrupt_spec (h.withNow time)) ?_
  intro _ w₁ h₁
  refine Prog.wp_mono (fastPath_spec h₁) ?_
  rintro _ _ ⟨rfl, rfl⟩
  by_cases hfast : ({ s with now := time } : Sched F).interrupt.FastPath
  · rw [if_pos (decide_eq_true hfast)]
    exact ⟨_, h₁, hruns, hfast⟩
  · rw [if_neg (fun hdec => hfast (of_decide_eq_true hdec)), Prog.wp_bind]
    refine Prog.wp_mono (schedulerUpdate_spec h₁ hstate₁ (by omega)) ?_
    rintro _ w₂ ⟨s₂, hs₂, h₂⟩
    exact ⟨s₂, h₂, hruns.trans (hs₂.runs hd₁), hs₂⟩

/-! ## Timers that are armed -/

namespace Timed

/-- In this run `fibre_timeout` has returned false to `f`, which was not asked
to run already, for the true time `due`, and `f` has not been run or killed
since then, nor has its time come. -/
inductive Awaits (t₀ : Timed F) (f : F) (due : Nat) : List (Step F) → Timed F → Prop
  | armed {steps t interrupts t' frame last runq timerq} : Run Next t₀ steps t →
      Next t { action := .timeout (BitVec.ofNat 32 due), interrupts } t' →
      t'.sys.frames ≠ t.sys.frames → t.sys.frames.head? = some frame → frame.fibre = f →
      t.clock.time = some last → last < due → due < last + 2 ^ 31 →
      t.sys.world.Queues runq timerq → f ∉ runq →
      Awaits t₀ f due (steps ++ [{ action := .timeout (BitVec.ofNat 32 due), interrupts }]) t'
  | since {steps t step t' new} : Awaits t₀ f due steps t → Next t step t' →
      step.action ≠ .kill f → t'.sys.world.log = new ++ t.sys.world.log →
      .run f ∉ new → .expired f ∉ new → Awaits t₀ f due (steps ++ [step]) t'

variable {t t' : Timed F} {s s' : Sched F} {f : F} {due : Nat} {step : Step F}

theorem ofNat_inj_of_window {last due due' : Nat}
    (h : BitVec.ofNat 32 due = BitVec.ofNat 32 due') (hlo : last < due)
    (hhi : due < last + 2 ^ 31) (hlo' : last < due') (hhi' : due' < last + 2 ^ 31) :
    due = due' := by
  have hmod := congrArg BitVec.toNat h
  rw [BitVec.toNat_ofNat, BitVec.toNat_ofNat] at hmod
  omega

theorem Valid.due_next (h : t.Valid s) (hnext : Next t step t') (hf : f ∈ s.timerq)
    (hdoes : Sched.Does step.action t.sys.frames { s with interrupts := step.interrupts }
      t'.sys.frames s') : t'.clock.due f = t.clock.due f := by
  obtain ⟨hsys, hclock⟩ := hnext
  have hrule := hsys.1
  rw [h.sys.represents.scalars.2.2.1] at hrule
  have hinv := h.sys.inv
  obtain ⟨action, interrupts⟩ := step
  generalize hframes : t.sys.frames = frames at *
  generalize hframes' : t'.sys.frames = frames' at *
  generalize t.clock = c at *
  generalize t'.clock = c' at *
  cases hclock with
  | @timeoutFalse _ frame _ _ hne htop =>
      rw [hframes, hframes'] at hne
      rw [hframes] at htop
      have hfree : frame.fibre ∉ s.timerq := by
        cases hdoes with
        | past _ => exact absurd rfl hne
        | arm hfuture =>
            obtain ⟨⟨_, htop', harmed⟩, hnested⟩ := hrule
            cases htop
            cases htop'
            exact (hinv.top frame rfl ((hnested frame rfl).resolve_left hfuture)).2 harmed
      have hf' : f ≠ frame.fibre := by
        rintro rfl
        exact hfree hf
      exact Clock.arm_due_of_ne hf' _
  | _ => rfl

theorem arms_next (hnext : Next t step t')
    (harms : Sched.Arms step.action t.sys.frames t'.sys.frames
      { s with interrupts := step.interrupts } f) :
    ∃ last, t.clock.time = some last ∧ last < t'.clock.due f ∧
      t'.clock.due f < last + 2 ^ 31 ∧
      step.action = .timeout (BitVec.ofNat 32 (t'.clock.due f)) := by
  obtain ⟨-, hclock⟩ := hnext
  obtain ⟨⟨duetime, haction⟩, hne, ⟨frame, htop, rfl⟩, -⟩ := harms
  obtain ⟨action, interrupts⟩ := step
  cases haction
  generalize t.clock = c at *
  generalize t'.clock = c' at *
  cases hclock with
  | timeoutTrue hsame => exact absurd hsame hne
  | @timeoutFalse _ frame' last due _ htop' hlast hlo hhi =>
      cases htop.symm.trans htop'
      have hdue : (c.arm frame.fibre due).due frame.fibre = due := Function.update_self _ _ _
      rw [hdue]
      exact ⟨last, hlast, hlo, hhi, rfl⟩
  | other _ htimeout => exact absurd rfl (htimeout _)

theorem Valid.next_timerq (h : t.Valid s) (hnext : Next t step t') : ∃ s' new, t'.Valid s' ∧
    Sched.Does step.action t.sys.frames { s with interrupts := step.interrupts }
      t'.sys.frames s' ∧ t'.sys.world.log = new ++ t.sys.world.log ∧
    ∀ f, f ∈ s'.timerq ↔
      (f ∈ s.timerq ∧ .run f ∉ new ∧ .expired f ∉ new ∧ step.action ≠ .kill f) ∨
        Sched.Arms step.action t.sys.frames t'.sys.frames
          { s with interrupts := step.interrupts } f := by
  obtain ⟨s', h', hdoes⟩ := h.next_does hnext
  have hrule := hnext.1.1.1
  rw [h.sys.represents.scalars.2.2.1] at hrule
  obtain ⟨new, hlog, htimerq⟩ := hdoes.mem_timerq h.sys.inv.distinct hrule
  refine ⟨s', new, h', hdoes, ?_, htimerq⟩
  rw [h'.sys.represents.scalars.2.2.2.2, h.sys.represents.scalars.2.2.2.2, hlog]

section Runs

variable {atomicRunqBuf : Nat} {eventq : F → Messageq} {steps : List (Step F)}

theorem run_awaits (hrun : Run Next (init atomicRunqBuf eventq) steps t) :
    ∃ s, t.Valid s ∧
      ∀ f ∈ s.timerq, Awaits (init atomicRunqBuf eventq) f (t.clock.due f) steps t := by
  induction hrun with
  | nil => exact ⟨_, init_valid atomicRunqBuf eventq, nofun⟩
  | @snoc steps t step t' hrun hnext ih =>
      obtain ⟨s, h, hawaits⟩ := ih
      obtain ⟨s', new, h', hdoes, hlog, htimerq⟩ := h.next_timerq hnext
      refine ⟨s', h', fun f hf => ?_⟩
      rcases (htimerq f).mp hf with ⟨hold, hran, hexpired, hkill⟩ | harms
      · rw [h.due_next hnext hold hdoes]
        exact .since (hawaits f hold) hnext hkill hlog hran hexpired
      · obtain ⟨last, hlast, hlo, hhi, haction⟩ := arms_next hnext harms
        obtain ⟨-, hne, ⟨frame, htop, hframe⟩, hrunq⟩ := harms
        obtain ⟨action, interrupts⟩ := step
        cases haction
        exact .armed hrun hnext hne htop hframe hlast hlo hhi h.sys.represents.queues hrunq

theorem Awaits.mem (h : Awaits (init atomicRunqBuf eventq) f due steps t) :
    Run Next (init atomicRunqBuf eventq) steps t ∧
      ∃ s, t.Valid s ∧ f ∈ s.timerq ∧ t.clock.due f = due := by
  induction h with
  | @armed steps t interrupts t' frame last runq timerq hrun hnext hne htop hframe hlast hlo hhi
      hqueues hrunq =>
      obtain ⟨s, hs⟩ := run_valid hrun
      obtain ⟨s', new, h', hdoes, -, htimerq⟩ := hs.next_timerq hnext
      obtain ⟨hsame, -⟩ := hs.sys.represents.queues.unique hqueues
      have harms : Sched.Arms (.timeout (BitVec.ofNat 32 due)) t.sys.frames t'.sys.frames
          { s with interrupts } f := ⟨⟨_, rfl⟩, hne, ⟨frame, htop, hframe⟩, hsame ▸ hrunq⟩
      obtain ⟨last', hlast', hlo', hhi', haction⟩ := arms_next hnext harms
      cases hlast.symm.trans hlast'
      refine ⟨hrun.snoc hnext, s', h', (htimerq f).mpr (.inr harms), ?_⟩
      exact (ofNat_inj_of_window (Action.timeout.inj haction) hlo hhi hlo' hhi').symm
  | @since steps t step t' new _ hnext hkill hlog hran hexpired ih =>
      obtain ⟨hrun, s, hs, hf, hdue⟩ := ih
      obtain ⟨s', new', h', hdoes, hlog', htimerq⟩ := hs.next_timerq hnext
      have hnew : new = new' := List.append_cancel_right (hlog.symm.trans hlog')
      subst hnew
      refine ⟨hrun.snoc hnext, s', h', (htimerq f).mpr (.inl ⟨hf, hran, hexpired, hkill⟩), ?_⟩
      rw [hs.due_next hnext hf hdoes, hdue]

/-- The timer queue has the fibres that have armed a timer and were neither run
nor killed since, sorted by true due time, and none of them was due at the last
scheduler pass.  A pass that calls `handle_timerq` moves those that are due, and
that it has not run before, to the end of the run queue in this order; the
others stay.  When it does not call `handle_timerq` there is no timer. -/
theorem timerq_refines (hrun : Run Next (init atomicRunqBuf eventq) steps t) :
    (∃ runq timerq, t.sys.world.Queues runq timerq ∧
      timerq.Pairwise t.clock.Before ∧
      (∀ f due, f ∈ timerq ∧ t.clock.due f = due ↔
        Awaits (init atomicRunqBuf eventq) f due steps t) ∧
      ∀ last, t.clock.time = some last →
        ∀ f ∈ timerq, last < t.clock.due f) ∧
    ∀ (time : Nat) (interrupts : List (List (HandlerCall F))),
      t.clock.Reaches time →
      ∃ handles w₁ runq timerq new,
        Prog.Returns (fun fuel => beforeTimerq fuel (BitVec.ofNat 32 time))
          { t.sys.world with interrupts } (handles, w₁) ∧
        w₁.log = new ++ t.sys.world.log ∧
        w₁.Queues runq timerq ∧ timerq.Pairwise t.clock.Before ∧
        (∀ f, f ∈ timerq ↔
          (∃ due, Awaits (init atomicRunqBuf eventq) f due steps t) ∧ .run f ∉ new) ∧
        if handles then ∃ w₂, Prog.Returns handleTimerq w₁ ((), w₂) ∧
          w₂.Queues (runq ++ timerq.filter (t.clock.due · ≤ time))
            (timerq.filter (time < t.clock.due ·))
        else timerq = [] := by
  obtain ⟨s, hs, hsound⟩ := run_awaits hrun
  have hawaits : ∀ f due, f ∈ s.timerq ∧ t.clock.due f = due ↔
      Awaits (init atomicRunqBuf eventq) f due steps t := by
    intro f due
    constructor
    · rintro ⟨hf, rfl⟩
      exact hsound f hf
    · intro h
      obtain ⟨-, u, hu, hf, hdue⟩ := h.mem
      obtain ⟨-, hsame⟩ := hs.sys.represents.queues.unique hu.sys.represents.queues
      exact ⟨hsame ▸ hf, hdue⟩
  refine ⟨⟨s.runq, s.timerq, hs.sys.represents.queues, hs.follows.sorted, hawaits, ?_⟩, ?_⟩
  · exact fun last hlast f hf => ((hs.follows.orders last hlast).window f hf).1
  · intro time interrupts htime
    obtain ⟨last, hle, hlt, horders⟩ := hs.follows.reaches htime
    have hw := hs.sys.represents.withInterrupts interrupts
    obtain ⟨handles, w₁, hreturns, s₁, h₁, hruns, hs₁⟩ := Prog.exists_returns
      (fun fuel => beforeTimerq_le fuel (BitVec.ofNat 32 time))
      (beforeTimerq_spec hw _ hs.sys.inv.distinct hs.sys.inv.state (Nat.lt_succ_self _))
    obtain ⟨new, hlog, -, htimerq⟩ := hruns
    have hlog₁ : w₁.log = new ++ t.sys.world.log := by
      rw [h₁.scalars.2.2.2.2, hs.sys.represents.scalars.2.2.2.2, hlog]
    have hmem : ∀ f, f ∈ s₁.timerq ↔
        (∃ due, Awaits (init atomicRunqBuf eventq) f due steps t) ∧ .run f ∉ new := by
      intro f
      rw [htimerq]
      simp [← hawaits]
    refine ⟨handles, w₁, s₁.runq, s₁.timerq, new, hreturns, hlog₁, h₁.queues, ?_⟩
    cases handles with
    | false =>
        rw [if_neg Bool.false_ne_true] at hs₁ ⊢
        obtain ⟨-, -, hnil, -⟩ := hs₁
        refine ⟨?_, hmem, hnil⟩
        rw [hnil]
        exact .nil
    | true =>
        rw [if_pos rfl] at hs₁ ⊢
        have hdrained := (Sched.interrupt_same _).drained.trans hs₁.drained
        have horders₁ := horders.sublist hdrained.timerq hdrained.duetime
        obtain ⟨_, w₂, hhandled, h₂⟩ := Prog.exists_returns handleTimerq_le
          (handleTimerq_spec h₁ (Nat.lt_succ_self _))
        obtain ⟨hexpired, hleft⟩ := horders₁.expire hdrained.now hle hlt
        refine ⟨horders₁.sorted, hmem, w₂, hhandled, ?_⟩
        rw [← hexpired, ← hleft]
        exact h₂.queues

/-- Two fibres sleep while the 32-bit time wraps, and then one of them is due. -/
theorem timerq_refines_wrap : ∃ t : Timed Bool, ∃ steps,
    Run Next (init 64 fun _ => messageqInit 0 32 4) steps t ∧
      t.sys.world.Queues [] [true, false] ∧
      Awaits (init 64 fun _ => messageqInit 0 32 4) true (2 ^ 32 + 4) steps t ∧
      Awaits (init 64 fun _ => messageqInit 0 32 4) false (2 ^ 32 + 40) steps t ∧
      t.clock.Reaches (2 ^ 32 + 8) ∧
      ∃ handles w₁ runq timerq new,
        Prog.Returns (fun fuel => beforeTimerq fuel (BitVec.ofNat 32 (2 ^ 32 + 8)))
          { t.sys.world with interrupts := [] } (handles, w₁) ∧
        w₁.log = new ++ t.sys.world.log ∧
        w₁.Queues runq timerq ∧ timerq.Pairwise t.clock.Before ∧
        (∀ f, f ∈ timerq ↔
          (∃ due, Awaits (init 64 fun _ => messageqInit 0 32 4) f due steps t) ∧
            .run f ∉ new) ∧
        if handles then ∃ w₂, Prog.Returns handleTimerq w₁ ((), w₂) ∧
          w₂.Queues (runq ++ timerq.filter (t.clock.due · ≤ 2 ^ 32 + 8))
            (timerq.filter (2 ^ 32 + 8 < t.clock.due ·))
        else timerq = [] := by
  have hvalues : (follow (F := Bool) 9 [({ action := .run true }, 0),
      ({ action := .run false }, 0),
      ({ action := .schedulerNext (BitVec.ofNat 32 (2 ^ 32 - 16)) }, 2 ^ 32 - 16),
      ({ action := .timeout (BitVec.ofNat 32 (2 ^ 32 + 4)) }, 2 ^ 32 + 4),
      ({ action := .ret .waiting }, 0),
      ({ action := .schedulerNext (BitVec.ofNat 32 (2 ^ 32 - 15)) }, 2 ^ 32 - 15),
      ({ action := .timeout (BitVec.ofNat 32 (2 ^ 32 + 40)) }, 2 ^ 32 + 40),
      ({ action := .ret .waiting }, 0)]
      (init 64 fun _ => messageqInit 0 32 4)).map (fun t => decide
        (t.sys.world.kernel.lists.link (.head .runq) = none ∧
          t.sys.world.kernel.lists.link (.head .timerq) = some (.next true) ∧
          t.sys.world.kernel.lists.link (.next true) = some (.next false) ∧
          t.sys.world.kernel.lists.link (.next false) = none ∧
          t.clock.due true = 2 ^ 32 + 4 ∧ t.clock.due false = 2 ^ 32 + 40 ∧
          t.clock.time = some (2 ^ 32 - 15))) = some true := by
    decide +kernel
  obtain ⟨t, ht, hvalue⟩ := Option.map_eq_some_iff.mp hvalues
  obtain ⟨hrunq, htimerq, htrue, hfalse, hduetrue, hduefalse, htime⟩ := of_decide_eq_true hvalue
  have hrun := follow_run ht
  obtain ⟨⟨runq, timerq, hqueues, -, hawaits, -⟩, hpass⟩ := timerq_refines hrun
  have hrunq' : runq = [] := (hqueues.chain .runq).unique hrunq
  have htimerq' : timerq = [true, false] :=
    (hqueues.chain .timerq).unique ⟨htimerq, htrue, hfalse⟩
  subst hrunq' htimerq'
  have hreaches : t.clock.Reaches (2 ^ 32 + 8) := by
    intro last hlast
    cases htime.symm.trans hlast
    omega
  exact ⟨t, _, hrun, hqueues, (hawaits _ _).mp ⟨by simp, hduetrue⟩,
    (hawaits _ _).mp ⟨by simp, hduefalse⟩, hreaches, hpass _ [] hreaches⟩

end Runs

end Timed

end Librfn
