import Librfn.Fibre.Sleep

/-!
# The main loop on POSIX

`fibre_scheduler_main_loop` reads the time twice, for the scheduler and for the
time it sleeps.  An interval of a millisecond or more becomes 50 milliseconds,
also if it was shorter.
-/

namespace Librfn

open Librfn.Logic

/-- `sleep_interval` when it is compared with 0. -/
def sleepInterval (sleepUntil now : BitVec 32) : Int :=
  let sleepInterval := cyclecmp32 sleepUntil now
  if sleepInterval < 1000 then sleepInterval else 50000

/-- Too long an interval is put for one of 1 to 50 milliseconds. -/
theorem sleepInterval_le_iff {sleepUntil now : BitVec 32} :
    sleepInterval sleepUntil now ≤ cyclecmp32 sleepUntil now ↔
      ¬ (1000 ≤ cyclecmp32 sleepUntil now ∧ cyclecmp32 sleepUntil now < 50000) := by
  unfold sleepInterval
  dsimp only
  split <;> omega

/-- The program in true time, in microseconds.  What `fibre_scheduler_next` has
returned to the main loop stays in `sleepUntil` until the loop has slept. -/
structure MainLoop (F : Type) where
  timed : Timed F
  now : Nat
  sleepUntil : Option (BitVec 32)

inductive LoopLabel (F : Type) where
  | passes
  | steps (step : Step F)
  | sleeps

namespace MainLoop

variable {F : Type}

def init (atomicRunqBuf : Nat) (eventq : F → Messageq) (now : Nat) : MainLoop F :=
  { timed := .init atomicRunqBuf eventq, now, sleepUntil := none }

def returned (m : MainLoop F) (timed : Timed F) : Reply F → MainLoop F
  | .wakeup wake =>
      { m with timed, sleepUntil := if timed.sys.frames = [] then some wake else m.sleepUntil }
  | _ => { m with timed }

variable [DecidableEq F]

/-- Time passes; the program takes a step, where between the return of
`fibre_scheduler_next` and the sleep there are only interrupt handlers; the
main loop reads the time again and sleeps. -/
inductive Next : MainLoop F → LoopLabel F → MainLoop F → Prop
  | passes {m time} : m.now ≤ time → Next m .passes { m with now := time }
  | steps {m timed step reply} :
      (m.sleepUntil ≠ none → ∃ call, step.action = .call call) →
      Timed.Next m.timed step timed →
      (∀ time, step.action = .schedulerNext time → timed.clock.time = some m.now) →
      Prog.Returns (fun fuel => System.perform fuel step.action)
        { m.timed.sys with
          world := { m.timed.sys.world with interrupts := step.interrupts } }
        (reply, timed.sys) →
      Next m (.steps step) (m.returned timed reply)
  | sleeps {m sleepUntil} : m.sleepUntil = some sleepUntil →
      Next m .sleeps { m with
        now := m.now + (sleepInterval sleepUntil (BitVec.ofNat 32 m.now)).toNat
        sleepUntil := none }

/-- A time to sleep until, which is not after a timer that is armed. -/
def Sleeping (t : Timed F) (sleepUntil : BitVec 32) : Prop :=
  ∃ last time runq timerq, t.clock.time = some last ∧
    t.sys.world.Queues runq timerq ∧ sleepUntil = BitVec.ofNat 32 time ∧
    last ≤ time ∧ time < last + 2 ^ 31 ∧ ∀ f ∈ timerq, time ≤ t.clock.due f

omit [DecidableEq F] in
theorem sleeping_of_wakesAt {t : Timed F} {yielded : Prop} {sleepUntil : BitVec 32}
    (h : t.WakesAt yielded sleepUntil) : Sleeping t sleepUntil := by
  obtain ⟨now, runq, timerq, htime, hqueues, hready, hidle, time, -, hle, hlate⟩ := h
  by_cases hnow : yielded ∨ runq ≠ [] ∨ t.sys.world.Deliverable
  · exact ⟨now, now, runq, timerq, htime, hqueues, hready.mpr hnow, Nat.le_refl now,
      by omega, fun f hf => Nat.le_trans hle (hlate f hf)⟩
  · have hwake := hidle hnow
    split at hwake
    · next hempty =>
        refine ⟨now, now + (2 ^ 31 - 1), runq, timerq, htime, hqueues, ?_, by omega,
          by omega, by simp [hempty]⟩
        rw [hwake, BitVec.ofNat_add]
        rfl
    · obtain ⟨f, -, -, hdue, hlo, hhi, hfirst⟩ := hwake
      exact ⟨now, t.clock.due f, runq, timerq, htime, hqueues, hdue, Nat.le_of_lt hlo,
        hhi, hfirst⟩

/-- What is true in every state of a run. -/
structure Valid (m : MainLoop F) : Prop where
  timed : ∃ s, m.timed.Valid s
  past : ∀ last, m.timed.clock.time = some last → last ≤ m.now
  sleeping : ∀ sleepUntil, m.sleepUntil = some sleepUntil → Sleeping m.timed sleepUntil

omit [DecidableEq F] in
theorem init_valid (atomicRunqBuf : Nat) (eventq : F → Messageq) (now : Nat) :
    (init atomicRunqBuf eventq now).Valid where
  timed := ⟨_, Timed.init_valid atomicRunqBuf eventq⟩
  past := nofun
  sleeping := nofun

/-- Interrupt handlers neither arm nor remove a timer. -/
theorem Sleeping.call {t t' : Timed F} {s : Sched F} {step : Step F}
    {call : HandlerCall F} {sleepUntil : BitVec 32} (hs : t.Valid s)
    (h : Sleeping t sleepUntil) (hnext : Timed.Next t step t')
    (haction : step.action = .call call) : Sleeping t' sleepUntil := by
  obtain ⟨last, time, runq, timerq, htime, hqueues, hrest⟩ := h
  obtain ⟨s', hs', hdoes⟩ := hs.next_does hnext
  obtain ⟨-, hclock⟩ := hnext
  rw [haction] at hdoes hclock
  have hsame : t'.clock = t.clock := by
    generalize t.clock = c at *
    generalize t'.clock = c' at *
    cases hclock
    rfl
  have htimerq : s'.timerq = s.timerq := by
    generalize t.sys.frames = frames at *
    generalize t'.sys.frames = frames' at *
    cases hdoes
    exact (Sched.handlerCall_same _ call).timerq
  obtain ⟨-, rfl⟩ := hqueues.unique hs.sys.represents.queues
  refine ⟨last, time, s'.runq, s'.timerq, hsame ▸ htime,
    hs'.sys.represents.queues, ?_⟩
  rw [htimerq, hsame]
  exact hrest

omit [DecidableEq F] in
theorem returned_timed (m : MainLoop F) (timed : Timed F) (reply : Reply F) :
    (m.returned timed reply).timed = timed := by
  cases reply <;> rfl

omit [DecidableEq F] in
theorem returned_now (m : MainLoop F) (timed : Timed F) (reply : Reply F) :
    (m.returned timed reply).now = m.now := by
  cases reply <;> rfl

omit [DecidableEq F] in
theorem returned_sleepUntil {m : MainLoop F} {timed : Timed F} {reply : Reply F}
    {sleepUntil : BitVec 32}
    (h : (m.returned timed reply).sleepUntil = some sleepUntil) :
    reply = .wakeup sleepUntil ∨ m.sleepUntil = some sleepUntil := by
  cases reply with
  | wakeup wake =>
      by_cases hframes : timed.sys.frames = []
      · simp only [returned, hframes, if_true, Option.some.injEq] at h
        exact .inl (congrArg Reply.wakeup h)
      · simp only [returned, hframes, if_false] at h
        exact .inr h
  | _ => exact .inr h

theorem Valid.next {m m' : MainLoop F} {l : LoopLabel F} (h : m.Valid)
    (hnext : Next m l m') : m'.Valid := by
  obtain ⟨s, hs⟩ := h.timed
  cases hnext with
  | passes hle =>
      exact ⟨h.timed, fun last hlast => Nat.le_trans (h.past last hlast) hle, h.sleeping⟩
  | @steps timed step reply hbusy hstep hread hret =>
      refine ⟨?_, ?_, ?_⟩
      · rw [returned_timed]
        exact hs.next hstep
      · rw [returned_timed, returned_now]
        intro last hlast
        obtain ⟨-, hclock⟩ := hstep
        have hpast := h.past
        generalize haction : step.action = action at *
        generalize m.timed.clock = c at *
        generalize timed.clock = c' at *
        cases hclock with
        | @schedulerNext time _ =>
            rw [hread _ rfl] at hlast
            cases hlast
            exact Nat.le_refl _
        | timeoutTrue _ => exact hpast last hlast
        | timeoutFalse _ _ _ _ _ => exact hpast last hlast
        | other _ _ => exact hpast last hlast
      · rw [returned_timed]
        intro sleepUntil hsleep
        rcases returned_sleepUntil hsleep with rfl | hsleep
        · exact sleeping_of_wakesAt (hs.wakesAt hstep hret)
        · obtain ⟨call, haction⟩ := hbusy (by simp [hsleep])
          exact (h.sleeping sleepUntil hsleep).call hs hstep haction
  | sleeps hsleep =>
      refine ⟨h.timed, fun last hlast => ?_, nofun⟩
      exact Nat.le_trans (h.past last hlast) (Nat.le_add_right _ _)

theorem run_valid {atomicRunqBuf : Nat} {eventq : F → Messageq} {now : Nat}
    {ls : List (LoopLabel F)} {m : MainLoop F}
    (hrun : Run Next (init atomicRunqBuf eventq now) ls m) : m.Valid :=
  hrun.invariant (init_valid atomicRunqBuf eventq now) fun _ _ _ => Valid.next

omit [DecidableEq F] in
theorem Sleeping.distance {t : Timed F} {sleepUntil : BitVec 32} {now : Nat}
    (h : Sleeping t sleepUntil) (hreach : t.clock.Reaches now) {runq timerq : List F}
    (hqueues : t.sys.world.Queues runq timerq) :
    ∀ f ∈ timerq, cyclecmp32 sleepUntil (BitVec.ofNat 32 now) ≤ t.clock.due f - now := by
  obtain ⟨last, time, runq', timerq', htime, hqueues', rfl, hle, hlt, hfirst⟩ := h
  obtain ⟨-, rfl⟩ := hqueues.unique hqueues'
  obtain ⟨hpast, hnear⟩ := hreach last htime
  intro f hf
  have hdistance : (BitVec.ofNat 32 time - BitVec.ofNat 32 now).toInt = time - now :=
    toInt_ofNat_sub (by omega) (by omega)
  have hdue := hfirst f hf
  unfold cyclecmp32
  omega

/-! ## Following a run by computation -/

/-- Let time pass up to a time, or take a step at a true time as in
`Timed.follow`. -/
def follow (fuel : Nat) :
    List (Nat ⊕ Step F × Nat) → MainLoop F → Option (MainLoop F)
  | [], m => some m
  | .inl time :: acts, m =>
      if m.now ≤ time then follow fuel acts { m with now := time } else none
  | .inr (step, time) :: acts, m =>
      match Timed.follow fuel [(step, time)] m.timed, System.perform fuel step.action
        { m.timed.sys with
          world := { m.timed.sys.world with interrupts := step.interrupts } } with
      | some timed, .ok (reply, _) =>
          if m.sleepUntil = none ∧ timed.clock.time.all (· = m.now) then
            follow fuel acts (m.returned timed reply)
          else none
      | _, _ => none

theorem follow_run {fuel : Nat} {acts : List (Nat ⊕ Step F × Nat)} {m m' : MainLoop F}
    (h : follow fuel acts m = some m') : ∃ ls, Run Next m ls m' := by
  induction acts generalizing m with
  | nil =>
      cases h
      exact ⟨[], .nil⟩
  | cons act acts ih =>
      cases act with
      | inl time =>
          rw [follow] at h
          split at h
          · next hle =>
              obtain ⟨ls, hrun⟩ := ih h
              exact ⟨_, .cons (.passes hle) hrun⟩
          · cases h
      | inr act =>
          obtain ⟨step, time⟩ := act
          rw [follow] at h
          split at h
          · next timed reply sys hfollow hperform =>
              split at h
              · next hcond =>
                  obtain ⟨hidle, hread⟩ := hcond
                  obtain ⟨ls, hrun⟩ := ih h
                  have hnext := (Timed.follow_run hfollow).of_single
                  have hret := (System.perform_monotone _).returns hperform
                  have hsys : sys = timed.sys := by
                    have hexec := System.exec_returns_iff.mpr ⟨_, hret⟩
                    cases hexec.unique hnext.1.2
                    rfl
                  rw [hsys] at hret
                  refine ⟨_, .cons (.steps (fun hbusy => absurd hidle hbusy) hnext ?_
                    hret) hrun⟩
                  intro now haction
                  have hclock := hnext.2
                  rw [haction] at hclock
                  generalize timed.clock = c' at *
                  cases hclock with
                  | schedulerNext => simpa using hread
                  | other hne _ => exact absurd rfl (hne _)
              · cases h
          · cases h

/-- The main loop sleeps no longer than to the time that it was given, and so
past no timer, exactly if that time is not 1 to 50 milliseconds away. -/
theorem main_loop_sleep_iff :
    (∀ sleepUntil now : BitVec 32,
      sleepInterval sleepUntil now ≤ cyclecmp32 sleepUntil now ↔
        ¬ (1000 ≤ cyclecmp32 sleepUntil now ∧ cyclecmp32 sleepUntil now < 50000)) ∧
    ∀ (atomicRunqBuf : Nat) (eventq : F → Messageq) (start : Nat)
      (ls : List (LoopLabel F)) (m : MainLoop F) (sleepUntil : BitVec 32)
      (runq timerq : List F),
      Run Next (init atomicRunqBuf eventq start) ls m →
      m.sleepUntil = some sleepUntil → m.timed.clock.Reaches m.now →
      m.timed.sys.world.Queues runq timerq →
      0 < sleepInterval sleepUntil (BitVec.ofNat 32 m.now) →
      let interval := sleepInterval sleepUntil (BitVec.ofNat 32 m.now)
      let distance := cyclecmp32 sleepUntil (BitVec.ofNat 32 m.now)
      (interval ≤ distance ∧ ∀ f ∈ timerq, m.now + interval ≤ m.timed.clock.due f) ↔
        ¬ (1000 ≤ distance ∧ distance < 50000) := by
  refine ⟨fun _ _ => sleepInterval_le_iff, ?_⟩
  intro atomicRunqBuf eventq start ls m sleepUntil runq timerq hrun hsleep hreach hqueues _
  have hdistance := ((run_valid hrun).sleeping sleepUntil hsleep).distance hreach hqueues
  dsimp only
  rw [← sleepInterval_le_iff]
  constructor
  · exact fun h => h.1
  · intro hle
    refine ⟨hle, fun f hf => ?_⟩
    have := hdistance f hf
    omega

omit [DecidableEq F] in
theorem reaches_of_time {m : MainLoop F} {last : Nat} (h : m.timed.clock.time = some last)
    (hle : last ≤ m.now) (hlt : m.now - last < 2 ^ 31) : m.timed.clock.Reaches m.now := by
  intro time htime
  rw [h] at htime
  cases htime
  exact ⟨hle, hlt⟩

/-- A fibre waits for 500 microseconds. -/
theorem main_loop_sleep_iff_short : ∃ ls m,
    Run Next (init 64 (fun _ : Bool => messageqInit 0 32 4) 0) ls m ∧
    m.sleepUntil = some 500 ∧ m.now = 100 ∧ ∃ runq timerq,
      m.timed.sys.world.Queues runq timerq ∧
      sleepInterval 500 100 = 400 ∧
      ∀ f ∈ timerq, 100 + sleepInterval 500 100 ≤ m.timed.clock.due f := by
  have hsome : (follow (F := Bool) 9 [.inr ({ action := .run true }, 0),
      .inr ({ action := .schedulerNext 0 }, 0), .inr ({ action := .timeout 500 }, 500),
      .inr ({ action := .ret .waiting }, 0), .inl 100]
      (init 64 (fun _ => messageqInit 0 32 4) 0)).any (fun m =>
        m.sleepUntil = some 500 ∧ m.now = 100 ∧ m.timed.clock.time = some 0) = true := by
    decide +kernel
  obtain ⟨m, hfollow, hpost⟩ := (Option.any_eq_true _ _).mp hsome
  obtain ⟨hsleep, hnow, htime⟩ := of_decide_eq_true hpost
  obtain ⟨ls, hrun⟩ := follow_run hfollow
  obtain ⟨-, -, runq, timerq, -, hqueues, -⟩ := (run_valid hrun).sleeping _ hsleep
  have hreach := reaches_of_time htime (by omega) (by omega)
  have hinterval : sleepInterval 500 (BitVec.ofNat 32 m.now) = 400 := by
    rw [hnow]
    decide
  have hiff := main_loop_sleep_iff.2 64 _ 0 ls m 500 runq timerq hrun hsleep hreach
    hqueues (by rw [hinterval]; decide)
  refine ⟨ls, m, hrun, hsleep, hnow, runq, timerq, hqueues, by decide, ?_⟩
  have hshort := (hiff.mpr (by rw [hnow]; decide)).2
  rwa [hnow] at hshort

/-- A fibre waits for two milliseconds; the main loop sleeps for fifty. -/
theorem main_loop_oversleeps : ∃ ls m,
    Run Next (init 64 (fun _ : Bool => messageqInit 0 32 4) 0) ls m ∧
    m.sleepUntil = some 2000 ∧ m.now = 0 ∧ m.timed.clock.Reaches m.now ∧
    cyclecmp32 2000 0 = 2000 ∧ sleepInterval 2000 0 = 50000 ∧
    ∃ runq timerq, m.timed.sys.world.Queues runq timerq ∧
      ∃ f ∈ timerq, m.timed.clock.due f < m.now + sleepInterval 2000 0 := by
  have hsome : (follow (F := Bool) 9 [.inr ({ action := .run true }, 0),
      .inr ({ action := .schedulerNext 0 }, 0), .inr ({ action := .timeout 2000 }, 2000),
      .inr ({ action := .ret .waiting }, 0)]
      (init 64 (fun _ => messageqInit 0 32 4) 0)).any (fun m =>
        m.sleepUntil = some 2000 ∧ m.now = 0 ∧ m.timed.clock.time = some 0 ∧
          m.timed.clock.due true = 2000 ∧
          m.timed.sys.world.kernel.lists.link (.head .timerq) = some (.next true)) =
            true := by
    decide +kernel
  obtain ⟨m, hfollow, hpost⟩ := (Option.any_eq_true _ _).mp hsome
  obtain ⟨hsleep, hnow, htime, hdue, hhead⟩ := of_decide_eq_true hpost
  obtain ⟨ls, hrun⟩ := follow_run hfollow
  obtain ⟨-, -, runq, timerq, -, hqueues, -⟩ := (run_valid hrun).sleeping _ hsleep
  have hreach := reaches_of_time htime (by omega) (by omega)
  have hmem : true ∈ timerq := by
    have hfirst := hqueues.link_head KernelList.timerq
    rw [hhead] at hfirst
    cases timerq with
    | nil => cases hfirst
    | cons f fs =>
        cases hfirst
        exact List.mem_cons_self
  refine ⟨ls, m, hrun, hsleep, hnow, hreach, by decide, by decide, runq, timerq,
    hqueues, true, hmem, ?_⟩
  rw [hnow, hdue]
  decide

end MainLoop

end Librfn
