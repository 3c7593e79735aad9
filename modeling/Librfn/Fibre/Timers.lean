import Librfn.Fibre.Safety

/-!
# Timers

`fibre_timeout` and `handle_timerq` compare 32-bit times that wrap.  Against a
clock that does not wrap they do what a timer queue should: no timer fires
early, none is skipped, and the order is that of the true due times.
-/

namespace Librfn

open Librfn.Logic

/-- Time as it really is. -/
structure Clock (F : Type) where
  /-- When `fibre_scheduler_next` was last called. -/
  time : Option Nat
  /-- When the timer that a fibre armed last is due. -/
  due : F → Nat
  /-- How many timers had been armed before it. -/
  order : F → Nat
  armings : Nat

namespace Clock

variable {F : Type}

def init (F : Type) : Clock F :=
  { time := none, due := fun _ => 0, order := fun _ => 0, armings := 0 }

/-- Timers go by due time, then by the order in which they were armed. -/
def Before (c : Clock F) (f g : F) : Prop :=
  c.due f < c.due g ∨ c.due f = c.due g ∧ c.order f < c.order g

/-- Times passed to `fibre_scheduler_next` do not decrease, and the next one is
not too far away. -/
def Reaches (c : Clock F) (time : Nat) : Prop :=
  ∀ last ∈ c.time, last ≤ time ∧ time - last < 2 ^ 31

variable [DecidableEq F]

def arm (c : Clock F) (f : F) (due : Nat) : Clock F :=
  { c with
    due := Function.update c.due f due
    order := Function.update c.order f c.armings
    armings := c.armings + 1 }

/-- What an action means in true time.  A call of `fibre_timeout` has returned
false if it has marked the frame. -/
inductive Next (sys sys' : System F) : Action F → Clock F → Clock F → Prop
  | schedulerNext {c : Clock F} {time : Nat} : c.Reaches time →
      Next sys sys' (.schedulerNext (BitVec.ofNat 32 time)) c
        { c with time := some time }
  | timeoutTrue {c : Clock F} {duetime : BitVec 32} :
      sys'.frames = sys.frames → Next sys sys' (.timeout duetime) c c
  | timeoutFalse {c : Clock F} {frame : Frame F} {last due : Nat} :
      sys'.frames ≠ sys.frames → sys.frames.head? = some frame →
      c.time = some last → last < due → due < last + 2 ^ 31 →
      Next sys sys' (.timeout (BitVec.ofNat 32 due)) c (c.arm frame.fibre due)
  | other {c : Clock F} {action : Action F} :
      (∀ time, action ≠ .schedulerNext time) →
      (∀ duetime, action ≠ .timeout duetime) → Next sys sys' action c c

/-! ## The timer queue against the clock -/

/-- The timers of `s` since the scheduler was last called. -/
structure Orders (c : Clock F) (last : Nat) (s : Sched F) : Prop where
  duetime : ∀ f ∈ s.timerq, (s.fibre f).duetime = BitVec.ofNat 32 (c.due f)
  window : ∀ f ∈ s.timerq, last < c.due f ∧ c.due f < last + 2 ^ 31
  sorted : s.timerq.Pairwise c.Before
  order : ∀ f ∈ s.timerq, c.order f < c.armings

structure Follows (c : Clock F) (s : Sched F) : Prop where
  now : ∀ last, c.time = some last → s.now = BitVec.ofNat 32 last
  orders : ∀ last, c.time = some last → c.Orders last s
  unstarted : c.time = none → s.timerq = []

section

variable {c : Clock F} {s s' : Sched F} {last time : Nat}

omit [DecidableEq F] in
theorem Before.trans {f g h : F} (hfg : c.Before f g) (hgh : c.Before g h) :
    c.Before f h := by
  unfold Before at *
  omega

omit [DecidableEq F] in
theorem Orders.of_nil (h : s.timerq = []) : c.Orders last s where
  duetime := by simp [h]
  window := by simp [h]
  sorted := by simp [h]
  order := by simp [h]

omit [DecidableEq F] in
theorem Orders.sublist (h : c.Orders last s)
    (hsub : s'.timerq.Sublist s.timerq)
    (hdue : ∀ f, (s'.fibre f).duetime = (s.fibre f).duetime) :
    c.Orders last s' where
  duetime := fun f hf => (hdue f).trans (h.duetime f (hsub.subset hf))
  window := fun f hf => h.window f (hsub.subset hf)
  sorted := h.sorted.sublist hsub
  order := fun f hf => h.order f (hsub.subset hf)

omit [DecidableEq F] in
theorem Follows.sublist (h : c.Follows s)
    (hsub : s'.timerq.Sublist s.timerq) (hnow : s'.now = s.now)
    (hdue : ∀ f, (s'.fibre f).duetime = (s.fibre f).duetime) :
    c.Follows s' where
  now := fun last hlast => hnow.trans (h.now last hlast)
  orders := fun last hlast => (h.orders last hlast).sublist hsub hdue
  unstarted := fun htime => List.sublist_nil.mp (h.unstarted htime ▸ hsub)

omit [DecidableEq F] in
theorem Follows.drained (h : c.Follows s) (hd : Sched.Drained s s') :
    c.Follows s' :=
  h.sublist hd.timerq hd.now hd.duetime

omit [DecidableEq F] in
theorem Follows.reaches (h : c.Follows s) (htime : c.Reaches time) :
    ∃ last, last ≤ time ∧ time - last < 2 ^ 31 ∧ c.Orders last s := by
  cases hlast : c.time with
  | none => exact ⟨time, Nat.le_refl _, by omega, .of_nil (h.unstarted hlast)⟩
  | some last =>
      obtain ⟨hle, hlt⟩ := htime last hlast
      exact ⟨last, hle, hlt, h.orders last hlast⟩

omit [DecidableEq F] in
theorem Follows.sorted (h : c.Follows s) : s.timerq.Pairwise c.Before := by
  cases hlast : c.time with
  | none =>
      rw [h.unstarted hlast]
      exact .nil
  | some last => exact (h.orders last hlast).sorted

omit [DecidableEq F] in
theorem Orders.due_iff (h : c.Orders last s) (hnow : s.now = BitVec.ofNat 32 time)
    (hle : last ≤ time) (hlt : time - last < 2 ^ 31) {f : F}
    (hf : f ∈ s.timerq) : s.Due f ↔ c.due f ≤ time := by
  obtain ⟨hlo, hhi⟩ := h.window f hf
  unfold Sched.Due cyclecmp32
  rw [h.duetime f hf, hnow, toInt_ofNat_sub (by omega) (by omega)]
  omega

omit [DecidableEq F] in
/-- What `handle_timerq` moves is a prefix of the timer queue, because that is
sorted, and it is what is due. -/
theorem Orders.expire (h : c.Orders last s) (hnow : s.now = BitVec.ofNat 32 time)
    (hle : last ≤ time) (hlt : time - last < 2 ^ 31) :
    s.expire.runq = s.runq ++ s.timerq.filter (c.due · ≤ time) ∧
      s.expire.timerq = s.timerq.filter (time < c.due ·) := by
  have hdown : ∀ f ∈ s.timerq, ∀ g ∈ s.timerq, c.Before f g →
      decide (s.Due g) = true → decide (s.Due f) = true := by
    intro f hf g hg hfg
    rw [decide_eq_true_eq, decide_eq_true_eq, h.due_iff hnow hle hlt hf,
      h.due_iff hnow hle hlt hg]
    unfold Before at hfg
    omega
  unfold Sched.expire
  dsimp only
  rw [takeWhile_eq_filter h.sorted hdown, dropWhile_eq_filter h.sorted hdown]
  constructor
  · congr 1
    refine List.filter_congr ?_
    exact fun f hf => decide_eq_decide.mpr (h.due_iff hnow hle hlt hf)
  · refine List.filter_congr ?_
    intro f hf
    rw [← decide_not, decide_eq_decide, h.due_iff hnow hle hlt hf, Nat.not_le]

theorem arm_due_of_ne {f g : F} (h : g ≠ f) (due : Nat) :
    (c.arm f due).due g = c.due g := Function.update_of_ne h _ _

theorem arm_order_of_ne {f g : F} (h : g ≠ f) (due : Nat) :
    (c.arm f due).order g = c.order g := Function.update_of_ne h _ _

theorem Orders.arm (h : c.Orders last s) {f : F} (hf : f ∉ s.timerq)
    {due : Nat} (hlo : last < due) (hhi : due < last + 2 ^ 31) :
    (c.arm f due).Orders last (s.arm f (BitVec.ofNat 32 due)) := by
  have hne : ∀ g ∈ s.timerq, g ≠ f := fun g hg heq => hf (heq ▸ hg)
  have hdue : (c.arm f due).due f = due := Function.update_self _ _ _
  have horder : (c.arm f due).order f = c.armings := Function.update_self _ _ _
  have hsorted : s.timerq.Pairwise (c.arm f due).Before := by
    refine h.sorted.imp_of_mem ?_
    intro g g' hg hg' hbefore
    unfold Before at hbefore ⊢
    rwa [arm_due_of_ne (hne g hg), arm_due_of_ne (hne g' hg'),
      arm_order_of_ne (hne g hg), arm_order_of_ne (hne g' hg')]
  have hmem : ∀ g ∈ (s.arm f (BitVec.ofNat 32 due)).timerq,
      g = f ∨ g ∈ s.timerq := by
    intro g hg
    simp only [Sched.arm] at hg
    split at hg
    · exact .inr hg
    · exact List.mem_cons.mp ((insertSorted_perm _ _ _).mem_iff.mp hg)
  have hfibre : ∀ g, ((s.arm f (BitVec.ofNat 32 due)).fibre g).duetime =
      if g = f then BitVec.ofNat 32 due else (s.fibre g).duetime := by
    intro g
    simp only [Sched.arm, Function.update_apply]
    split <;> rfl
  refine ⟨?_, ?_, ?_, ?_⟩
  · intro g hg
    rw [hfibre]
    rcases hmem g hg with rfl | hold
    · rw [if_pos rfl, hdue]
    · rw [if_neg (hne g hold), arm_due_of_ne (hne g hold), h.duetime g hold]
  · intro g hg
    rcases hmem g hg with rfl | hold
    · rw [hdue]
      exact ⟨hlo, hhi⟩
    · rw [arm_due_of_ne (hne g hold)]
      exact h.window g hold
  · unfold Sched.arm
    dsimp only
    split
    · exact hsorted
    · refine insertSorted_pairwise hsorted (fun _ _ _ => Before.trans) ?_
      intro g hg
      obtain ⟨hglo, hghi⟩ := h.window g hg
      have hcmp : duetimeCmp (s.arm f (BitVec.ofNat 32 due)).fibre f g =
          (due : Int) - c.due g := by
        unfold duetimeCmp
        rw [hfibre, hfibre, if_pos rfl, if_neg (hne g hg), h.duetime g hg]
        exact toInt_ofNat_sub (by omega) (by omega)
      have hlt := h.order g hg
      change if duetimeCmp (s.arm f (BitVec.ofNat 32 due)).fibre f g ≥ 0 then _
        else _
      unfold Before
      rw [hcmp, hdue, horder, arm_due_of_ne (hne g hg),
        arm_order_of_ne (hne g hg)]
      split <;> omega
  · intro g hg
    rcases hmem g hg with rfl | hold
    · rw [horder]
      exact Nat.lt_succ_self _
    · rw [arm_order_of_ne (hne g hold)]
      exact Nat.lt_succ_of_lt (h.order g hold)

theorem Follows.pass (h : c.Follows s) (htime : c.Reaches time)
    (hpass : Sched.Pass (BitVec.ofNat 32 time) s s') :
    Follows { c with time := some time } s' := by
  obtain ⟨last, hle, hlt, horders⟩ := h.reaches htime
  have hsame := Sched.interrupt_same { s with now := BitVec.ofNat 32 time }
  cases hpass with
  | fast hfast =>
      have hsame' := (Sched.interrupt_same _).trans (Sched.dispatch_same
        (({ s with now := BitVec.ofNat 32 time } : Sched F).interrupt.interrupt))
      obtain ⟨-, -, htimerq, -⟩ := hfast
      have hnil := hsame'.timerq.trans htimerq
      refine ⟨?_, fun _ _ => .of_nil hnil, nofun⟩
      rintro _ ⟨⟩
      exact hsame'.now.trans hsame.now
  | @slow s₁ _ hupdate =>
      have hdrained := hsame.drained.trans hupdate.drained
      have hnow : s₁.now = BitVec.ofNat 32 time := hdrained.now
      have horders₁ := horders.sublist hdrained.timerq hdrained.duetime
      obtain ⟨-, htimerq⟩ := horders₁.expire hnow hle hlt
      have hsame' := (Sched.interrupt_same s₁.expire.interrupt.nextTask).trans
        (Sched.dispatch_same _)
      have hq := hsame'.timerq.trans
        ((Sched.interrupt_same s₁.expire).timerq.trans htimerq)
      have hsub := hq ▸ List.filter_sublist
      have hfibre : s₁.expire.interrupt.nextTask.interrupt.dispatch.fibre =
          s₁.fibre := hsame'.fibre.trans (Sched.interrupt_same s₁.expire).fibre
      have horders₂ := horders₁.sublist hsub (fun f => by rw [hfibre])
      refine ⟨?_, ?_, nofun⟩
      · rintro _ ⟨⟩
        exact hsame'.now.trans ((Sched.interrupt_same s₁.expire).now.trans hnow)
      · rintro _ ⟨⟩
        refine ⟨horders₂.duetime, ?_, horders₂.sorted, horders₂.order⟩
        intro f hf
        have hhi := (horders₂.window f hf).2
        rw [hq, List.mem_filter, decide_eq_true_eq] at hf
        exact ⟨hf.2, Nat.lt_of_lt_of_le hhi (Nat.add_le_add_right hle _)⟩

theorem Follows.does {c' : Clock F} {sys sys' : System F} {action : Action F}
    (h : c.Follows s) (hinv : s.Inv sys.frames)
    (hrule : System.TimesOutFirst sys.frames s.now action)
    (hdoes : Sched.Does action sys.frames s sys'.frames s')
    (hclock : Next sys sys' action c c') : c'.Follows s' := by
  generalize hframes : sys.frames = frames at *
  generalize hframes' : sys'.frames = frames' at *
  cases hclock with
  | schedulerNext htime =>
      cases hdoes with
      | idle hpass _ =>
          exact (h.pass htime hpass).drained (Sched.interrupt_same _).drained
      | dispatch hpass _ => exact h.pass htime hpass
  | timeoutTrue hsame =>
      rw [hframes, hframes'] at hsame
      cases hdoes with
      | past _ => exact h
      | arm _ =>
          obtain ⟨⟨_, htop, harmed⟩, -⟩ := hrule
          cases htop
          rw [List.cons.injEq] at hsame
          rw [← hsame.1] at harmed
          cases harmed
  | @timeoutFalse _ frame last due hne htop hlast hlo hhi =>
      rw [hframes, hframes'] at hne
      rw [hframes] at htop
      cases hdoes with
      | past _ => exact absurd rfl hne
      | @arm frame frames _ _ hfuture =>
          cases htop
          obtain ⟨⟨_, htop, harmed⟩, hnested⟩ := hrule
          cases htop
          obtain ⟨-, hfree⟩ := hinv.top frame rfl
            ((hnested frame rfl).resolve_left hfuture)
          refine ⟨h.now, ?_, ?_⟩
          · intro last' hlast'
            cases hlast.symm.trans hlast'
            exact (h.orders last hlast).arm (hfree harmed) hlo hhi
          · intro hnone
            cases hlast.symm.trans hnone
  | other hnext htimeout =>
      cases hdoes with
      | run hdrain =>
          exact h.drained (hdrain.drained.trans (Sched.enqueue_drained _ _))
      | call => exact h.drained (Sched.handlerCall_same _ _).drained
      | @kill _ _ s₁ f hdrain =>
          have hdrained := hdrain.drained.trans (Sched.interrupt_same s₁).drained
          exact (h.drained hdrained).sublist List.erase_sublist rfl fun _ => rfl
      | past _ => exact absurd rfl (htimeout _)
      | arm _ => exact absurd rfl (htimeout _)
      | idle _ _ => exact absurd rfl (hnext _)
      | dispatch _ _ => exact absurd rfl (hnext _)
      | yield => exact h.sublist (.refl _) rfl fun _ => rfl
      | @ret frame _ _ state _ =>
          have hreturned : c.Follows (s.returned frame.fibre state) :=
            h.sublist (.refl _) rfl fun _ => rfl
          exact hreturned.drained (Sched.interrupt_same _).drained

end

end Clock

/-! ## Runs in true time -/

structure Timed (F : Type) where
  sys : System F
  clock : Clock F

namespace Timed

variable {F : Type}

def init (atomicRunqBuf : Nat) (eventq : F → Messageq) : Timed F :=
  { sys := .init atomicRunqBuf eventq, clock := .init F }

variable [DecidableEq F]

def Next (t : Timed F) (step : Step F) (t' : Timed F) : Prop :=
  System.Next System.TimesOutFirst t.sys step t'.sys ∧
    Clock.Next t.sys t'.sys step.action t.clock t'.clock

structure Valid (t : Timed F) (s : Sched F) : Prop where
  sys : t.sys.Valid s
  follows : t.clock.Follows s
  started : t.clock.time = none → t.sys.frames = []

omit [DecidableEq F] in
theorem init_valid (atomicRunqBuf : Nat) (eventq : F → Messageq) :
    (init atomicRunqBuf eventq).Valid (.init eventq) where
  sys := ⟨System.init_represents atomicRunqBuf eventq, Sched.init_inv eventq⟩
  follows := ⟨nofun, nofun, fun _ => rfl⟩
  started := fun _ => rfl

theorem Valid.started_next {t t' : Timed F} {s u u' : Sched F} {step : Step F}
    (h : t.Valid s) (hnext : Next t step t')
    (hdoes : Sched.Does step.action t.sys.frames u t'.sys.frames u')
    (htime : t'.clock.time = none) : t'.sys.frames = [] := by
  obtain ⟨hsys, hclock⟩ := hnext
  obtain ⟨action, interrupts⟩ := step
  have hrule := hsys.1
  have hstarted := h.started
  generalize hframes : t.sys.frames = frames at *
  generalize hframes' : t'.sys.frames = frames' at *
  generalize t.clock = c at *
  generalize t'.clock = c' at *
  cases hclock with
  | schedulerNext => cases htime
  | timeoutTrue hsame =>
      rw [hframes, hframes'] at hsame
      rw [hsame]
      exact hstarted htime
  | timeoutFalse _ _ hlast _ _ =>
      have hnone := htime
      rw [Clock.arm, hlast] at hnone
      cases hnone
  | other hnext htimeout =>
      cases hdoes with
      | past _ => exact absurd rfl (htimeout _)
      | arm _ => exact absurd rfl (htimeout _)
      | idle _ _ => exact absurd rfl (hnext _)
      | dispatch _ _ => exact absurd rfl (hnext _)
      | yield => cases hstarted htime
      | ret _ => cases hstarted htime
      | _ => exact hstarted htime

theorem Valid.next_does {t t' : Timed F} {s : Sched F} {step : Step F}
    (h : t.Valid s) (hnext : Next t step t') : ∃ s', t'.Valid s' ∧
      Sched.Does step.action t.sys.frames { s with interrupts := step.interrupts }
        t'.sys.frames s' := by
  obtain ⟨s', hdoes, hsys⟩ := h.sys.next (fun _ _ _ => id) hnext.1
  have hfollows : t.clock.Follows { s with interrupts := step.interrupts } :=
    h.follows.sublist (.refl _) rfl fun _ => rfl
  have hrule := hnext.1.1
  rw [h.sys.represents.scalars.2.2.1] at hrule
  exact ⟨s', ⟨hsys, hfollows.does (h.sys.inv.withInterrupts step.interrupts)
    hrule hdoes hnext.2, h.started_next hnext hdoes⟩, hdoes⟩

theorem Valid.next {t t' : Timed F} {s : Sched F} {step : Step F}
    (h : t.Valid s) (hnext : Next t step t') : ∃ s', t'.Valid s' := by
  obtain ⟨s', hs', -⟩ := h.next_does hnext
  exact ⟨s', hs'⟩

theorem run_valid {atomicRunqBuf : Nat} {eventq : F → Messageq}
    {steps : List (Step F)} {t : Timed F}
    (hrun : Run Next (init atomicRunqBuf eventq) steps t) : ∃ s, t.Valid s :=
  hrun.invariant (I := fun t => ∃ s, t.Valid s)
    ⟨_, init_valid atomicRunqBuf eventq⟩ fun _ _ _ ⟨_, hs⟩ hnext => hs.next hnext

omit [DecidableEq F] in
/-- A time in the future is that of exactly one true time within reach. -/
theorem exists_due {duetime now : BitVec 32} {last : Nat}
    (hnow : now = BitVec.ofNat 32 last) (hfuture : ¬ cyclecmp32 duetime now ≤ 0) :
    ∃ due, last < due ∧ due < last + 2 ^ 31 ∧ duetime = BitVec.ofNat 32 due := by
  subst hnow
  have hpos : 0 < (duetime - BitVec.ofNat 32 last).toInt := Int.not_le.mp hfuture
  have hcond := BitVec.toInt_eq_toNat_cond (duetime - BitVec.ofNat 32 last)
  have hlt := (duetime - BitVec.ofNat 32 last).isLt
  rw [hcond] at hpos
  refine ⟨last + (duetime - BitVec.ofNat 32 last).toNat, ?_, ?_, ?_⟩
  · split at hpos <;> omega
  · split at hpos <;> omega
  · rw [BitVec.ofNat_add, BitVec.ofNat_toNat, BitVec.setWidth_eq, BitVec.add_comm,
      BitVec.sub_add_cancel]

/-- The clock restricts nothing but the times of the scheduler passes. -/
theorem Valid.exists_next {t : Timed F} {s : Sched F} {step : Step F}
    {sys' : System F} (h : t.Valid s)
    (hnext : System.Next System.TimesOutFirst t.sys step sys')
    (htime : ∀ time, step.action = .schedulerNext time →
      ∃ time', t.clock.Reaches time' ∧ time = BitVec.ofNat 32 time') :
    ∃ clock', Next t step ⟨sys', clock'⟩ := by
  obtain ⟨s', hdoes, -⟩ := h.sys.next (fun _ _ _ => id) hnext
  have key : ∃ clock', Clock.Next t.sys sys' step.action t.clock clock' := by
    have hstarted := h.started
    have hnow := h.follows.now
    obtain ⟨action, interrupts⟩ := step
    cases action with
    | schedulerNext time =>
        obtain ⟨time', hreaches, rfl⟩ := htime time rfl
        exact ⟨_, .schedulerNext hreaches⟩
    | timeout duetime =>
        generalize hframes : t.sys.frames = frames at *
        generalize hframes' : sys'.frames = frames' at *
        cases hdoes with
        | past _ => exact ⟨_, .timeoutTrue (hframes'.trans hframes.symm)⟩
        | @arm frame frames _ _ hfuture =>
            cases hlast : t.clock.time with
            | none => cases hstarted hlast
            | some last =>
                obtain ⟨due, hlo, hhi, rfl⟩ := exists_due (hnow last hlast) hfuture
                have htop : t.sys.frames.head? = some frame := by
                  rw [hframes]
                  rfl
                refine ⟨_, .timeoutFalse ?_ htop hlast hlo hhi⟩
                obtain ⟨⟨⟨_, htop', harmed⟩, -⟩, -⟩ := hnext
                cases htop.symm.trans htop'
                rw [hframes, hframes']
                intro heq
                rw [← (List.cons.inj heq).1] at harmed
                cases harmed
    | run f => exact ⟨_, .other nofun nofun⟩
    | call call => exact ⟨_, .other nofun nofun⟩
    | kill f => exact ⟨_, .other nofun nofun⟩
    | ret state => exact ⟨_, .other nofun nofun⟩
  obtain ⟨clock', hclock⟩ := key
  exact ⟨clock', hnext, hclock⟩

/-! ## Following a run in true time by computation -/

/-- The clock after a step at a true time: that of a scheduler pass, or the due
time of a timeout. -/
def tick (sys sys' : System F) (c : Clock F) (action : Action F) (time : Nat) :
    Option (Clock F) :=
  match action with
  | .schedulerNext now =>
      if now = BitVec.ofNat 32 time ∧ ∀ last ∈ c.time, last ≤ time ∧ time - last < 2 ^ 31 then
        some { c with time := some time }
      else none
  | .timeout duetime =>
      if sys'.frames = sys.frames then some c
      else
        match sys.frames, c.time with
        | frame :: _, some last =>
            if duetime = BitVec.ofNat 32 time ∧ last < time ∧ time < last + 2 ^ 31 then
              some (c.arm frame.fibre time)
            else none
        | _, _ => none
  | _ => some c

theorem tick_next {sys sys' : System F} {c c' : Clock F} {action : Action F} {time : Nat}
    (h : tick sys sys' c action time = some c') : Clock.Next sys sys' action c c' := by
  unfold tick at h
  split at h
  · split at h
    · rename_i hcond
      obtain ⟨rfl, hreaches⟩ := hcond
      cases h
      exact .schedulerNext hreaches
    · cases h
  · split at h
    · rename_i hsame
      cases h
      exact .timeoutTrue hsame
    · rename_i hne
      split at h
      · rename_i frame frames last hframes hlast
        split at h
        · rename_i hcond
          obtain ⟨rfl, hlo, hhi⟩ := hcond
          cases h
          exact .timeoutFalse hne (by rw [hframes]; rfl) hlast hlo hhi
        · cases h
      · cases h
  · rename_i hnext htimeout
    cases h
    exact .other hnext htimeout

def follow (fuel : Nat) : List (Step F × Nat) → Timed F → Option (Timed F)
  | [], t => some t
  | (step, time) :: steps, t =>
      match System.follow System.TimesOutFirst fuel [step] t.sys with
      | none => none
      | some sys =>
          match tick t.sys sys t.clock step.action time with
          | none => none
          | some clock => follow fuel steps ⟨sys, clock⟩

theorem follow_run {fuel : Nat} {steps : List (Step F × Nat)} {t t' : Timed F}
    (h : follow fuel steps t = some t') : Run Next t (steps.map Prod.fst) t' := by
  induction steps generalizing t with
  | nil =>
      cases h
      exact .nil
  | cons step steps ih =>
      obtain ⟨step, time⟩ := step
      unfold follow at h
      split at h
      · cases h
      · rename_i sys hsys
        split at h
        · cases h
        · rename_i clock hclock
          have hnext : Next t step ⟨sys, clock⟩ :=
            ⟨(System.follow_run hsys).of_single, tick_next hclock⟩
          exact .cons hnext (ih h)

end Timed

end Librfn
