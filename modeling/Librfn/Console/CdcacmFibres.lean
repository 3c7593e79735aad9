import Librfn.Console.CdcacmRuns
import Librfn.Fibre.Marks

/-!
# The USB console under the scheduler

`Cdcacm` keeps in flags what the scheduler knows of the output fibre.  Here every
step makes its calls of the scheduler as well, and the flags are what the queues
say.  No other fibre waits for a time.
-/

namespace Librfn

open Librfn.Logic Protothread

variable {F : Type} [DecidableEq F]

def PtState.fibreState : PtState → FibreState
  | .yielded => .yielded
  | .waiting => .waiting
  | .exited => .exited
  | .failed => .failed

abbrev System.Calls (sys : System F) (action : Action F) (sys' : System F) : Prop :=
  System.Next System.WithoutKill sys { action } sys'

/-- The scheduler, and the console with its flags. -/
structure CdcFibres (F : Type) where
  sys : System F
  usb : Cdcacm

namespace CdcFibres

/-- `console_putchar` for every byte of a packet, and `fibre_run_atomic(&output_task.fibre)`. -/
def requests (output console : F) (buf : List UInt8) : List (Step F) :=
  (buf.map fun _ => { action := .call (.runAtomic console) }) ++
    [{ action := .call (.runAtomic output) }]

inductive Next (output console : F) : CdcFibres F → Option Cdcacm.Label → CdcFibres F → Prop
  /-- A pass that calls another fibre or none. -/
  | pass {w : CdcFibres F} {sys : System F} {time : Nat} : w.usb.output.time ≤ time →
      w.sys.Calls (.schedulerNext (BitVec.ofNat 32 time)) sys →
      (∀ frame ∈ sys.frames, frame.fibre ≠ output) →
      Next output console w (some (.pass time)) ⟨sys, w.usb.pass time⟩
  /-- Another fibre returns. -/
  | ret {w : CdcFibres F} {sys : System F} {state : FibreState} : w.sys.Calls (.ret state) sys →
      Next output console w none ⟨sys, w.usb⟩
  /-- A `fibre_timeout` that returns true leaves the scheduler alone. -/
  | call {w : CdcFibres F} {sys₁ sys₂ sys₃ : System F} {time room : Nat} {res : PtState}
      {a : Instance CdcOutput} : w.usb.output.time ≤ time →
      w.sys.Calls (.schedulerNext (BitVec.ofNat 32 time)) sys₁ →
      (∃ frame ∈ sys₁.frames, frame.fibre = output) →
      outputFibre.Returns ⟨w.usb.pt, { (w.usb.pass time).output with room }⟩ (res, a) →
      (if a.vars.armed = true then sys₁.Calls (.timeout (BitVec.ofNat 32 settleTime)) sys₂
        else sys₂ = sys₁) →
      sys₂.Calls (.ret res.fibreState) sys₃ →
      Next output console w (some (.call time room)) ⟨sys₃, (w.usb.pass time).returned res a⟩
  | write {w : CdcFibres F} {sys : System F} {usb : Cdcacm} {fd r : Int} {ptr : List UInt8} :
      Cdcacm.write fd ptr w.usb = .ok (r, usb) →
      (if fd = 1 ∨ fd = 2 then w.sys.Calls (.run output) sys else sys = w.sys) →
      Next output console w (some (.write fd ptr)) ⟨sys, usb⟩
  | receive {w : CdcFibres F} {sys : System F} {usb : Cdcacm} {buf : List UInt8} :
      Cdcacm.cdcacmDataRxCb buf w.usb = .ok ((), usb) →
      Run (System.Next System.WithoutKill) w.sys (requests output console buf) sys →
      Next output console w (some (.receive buf)) ⟨sys, usb⟩

end CdcFibres

namespace Cdcacm

/-! ## The flags -/

def flags (t : Cdcacm) : Bool × Bool × Nat × Bool := (t.queued, t.output.armed, t.free, t.tainted)

/-- The flags are what the queues say, while the output fibre is not being executed. -/
structure Reflects (output : F) (frames : List (Frame F)) (s : Sched F) (t : Cdcacm) : Prop where
  single : Sched.Single frames
  other : ∀ frame ∈ frames, frame.fibre ≠ output
  queued : t.queued = true ↔ s.Queued output ∨ s.idle frames = some output
  armed : t.output.armed = true ↔ output ∈ s.timerq
  alone : ∀ g ∈ s.timerq, g = output
  duetime : output ∈ s.timerq → (s.fibre output).duetime = BitVec.ofNat 32 settleTime
  free : t.free + s.pending.length = 8
  tainted : t.tainted = s.taintFlags.getLsbD 0

section Reflects

variable {output : F} {frames frames' : List (Frame F)} {s s' : Sched F} {t t' : Cdcacm}

omit [DecidableEq F] in
theorem Reflects.congr (h : Reflects output frames s t) (hflags : t'.flags = t.flags) :
    Reflects output frames s t' := by
  simp only [flags, Prod.mk.injEq] at hflags
  obtain ⟨hqueued, harmed, hfree, htainted⟩ := hflags
  exact ⟨h.single, h.other, hqueued ▸ h.queued, harmed ▸ h.armed, h.alone, h.duetime,
    hfree ▸ h.free, htainted ▸ h.tainted⟩

omit [DecidableEq F] in
theorem Reflects.withoutInterrupts (h : Reflects output frames s t) :
    Reflects output frames { s with interrupts := [] } t := by
  refine ⟨h.single, h.other, h.queued.trans ?_, h.armed, h.alone, h.duetime, h.free, h.tainted⟩
  cases frames <;> rfl

omit [DecidableEq F] in
theorem init_reflects (eventq : F → Messageq) : Reflects output [] (Sched.init eventq) init where
  single := List.forall_mem_nil _
  other := List.forall_mem_nil _
  queued := by simp [init, Sched.init, Sched.Queued, Sched.idle, Sched.justYielded]
  armed := by simp [init, Sched.init]
  alone := List.forall_mem_nil _
  duetime := fun h => absurd h List.not_mem_nil
  free := rfl
  tainted := by simp [init, Sched.init]

omit [DecidableEq F] in
theorem Reflects.runAtomic (h : Reflects output frames s t) (hheld : s.held = []) (f : F) :
    Prog.wp Cdcacm.runAtomic (fun ok t' =>
      (f ≠ output → Reflects output frames (s.runAtomic f) t') ∧
      (f = output → Reflects output frames (s.runAtomic f)
        (if ok then { t' with queued := true } else t'))) t := by
  have hroom : s.Room ↔ t.free ≠ 0 := by
    have hfree := h.free
    rw [Sched.Room, hheld, List.length_nil]
    omega
  rw [Cdcacm.runAtomic, Prog.wp_bind, Prog.wp_get, Prog.wp_ite]
  by_cases hfree : t.free = 0
  · have hfull : ¬ s.Room := fun hr => hroom.mp hr hfree
    have hreflects : Reflects output frames (s.runAtomic f) { t with tainted := true } := by
      rw [Sched.runAtomic, if_neg hfull]
      refine ⟨h.single, h.other, h.queued.trans ?_, h.armed, h.alone, h.duetime, h.free, ?_⟩
      · cases frames <;> rfl
      · rw [getLsbD_or_flag _ (by decide)]
        simp
    rw [if_pos hfree]
    exact ⟨fun _ => hreflects, fun _ => hreflects⟩
  · have hr : s.Room := hroom.mpr hfree
    have hidle : (s.runAtomic f).idle frames = s.idle frames := by
      rw [Sched.runAtomic, if_pos hr]
      cases frames <;> rfl
    have hqueued : (s.runAtomic f).Queued output ↔ s.Queued output ∨ f = output := by
      rw [Sched.runAtomic, if_pos hr]
      simp only [Sched.Queued, List.mem_append, List.mem_singleton]
      tauto
    have hfree' : t.free - 1 + (s.runAtomic f).pending.length = 8 := by
      have hold := h.free
      rw [Sched.runAtomic, if_pos hr]
      simp only [List.length_append, List.length_singleton]
      omega
    have hsame := s.runAtomic_same f
    have htaint : (s.runAtomic f).taintFlags = s.taintFlags := by rw [Sched.runAtomic, if_pos hr]
    have hreflects (queued : Bool) (hq : queued = true ↔ t.queued = true ∨ f = output) :
        Reflects output frames (s.runAtomic f) { t with free := t.free - 1, queued } := by
      refine ⟨h.single, h.other, ?_, ?_, ?_, ?_, hfree', htaint ▸ h.tainted⟩
      · change queued = true ↔ _
        rw [hq, h.queued, hqueued, hidle, or_right_comm]
      · rw [hsame.timerq]
        exact h.armed
      · rw [hsame.timerq]
        exact h.alone
      · rw [hsame.timerq, hsame.fibre]
        exact h.duetime
    rw [if_neg hfree]
    refine ⟨fun hne => ?_, fun heq => ?_⟩
    · exact hreflects t.queued (by simp [hne])
    · exact hreflects true (by simp [heq])

/-! ## The calls of the other fibres -/

theorem Reflects.run (h : Reflects output frames s t) (hheld : s.held = []) (hd : s.Distinct)
    (hquiet : s.interrupts = []) (hdoes : Sched.Does (.run output) frames s frames' s')
    (hflags : t'.flags = (true, false, 8, t.tainted)) : Reflects output frames' s' t' := by
  cases hdoes with
  | @run _ _ s₁ _ hdrain =>
      have hs₁ := hdrain.settled hquiet
      have hjoins := (hdrain.joins hquiet hheld hd output).trans
        (hs₁.enqueue_joins (hdrain.held.trans hheld) (hdrain.distinct hd) output)
      have hdrained := hdrain.drained.trans (Sched.enqueue_drained s₁ output)
      have hqueued : (s₁.enqueue output).Queued output :=
        hjoins.queued.mpr (.inr (.inr rfl))
      have hnot : output ∉ (s₁.enqueue output).timerq := fun hf =>
        (hjoins.timerq.mp hf).2 hqueued
      simp only [flags, Prod.mk.injEq] at hflags
      obtain ⟨hq, harmed, hfree, htainted⟩ := hflags
      refine ⟨h.single, h.other, by simp [hq, hqueued], by simp [harmed, hnot],
        fun g hg => h.alone g (hdrained.timerq.subset hg), fun hf => absurd hf hnot, ?_, ?_⟩
      · rw [hfree, (hs₁.enqueue output).pending]
        rfl
      · rw [htainted, hjoins.tainted, h.tainted]

theorem Reflects.ret (h : Reflects output frames s t) (hinv : s.Inv frames)
    (hquiet : s.interrupts = []) {state : FibreState}
    (hdoes : Sched.Does (.ret state) frames s frames' s') : Reflects output frames' s' t := by
  have hreturned {frame : Frame F} {frames' : List (Frame F)} (hframes : frames = frame :: frames')
      (state : FibreState) : Reflects output frames' (s.returned frame.fibre state) t := by
    subst hframes
    obtain ⟨hnested, rfl⟩ := h.single.cons
    obtain ⟨hcurrent, -⟩ := hinv.top frame rfl hnested
    have hne : frame.fibre ≠ output := h.other frame List.mem_cons_self
    refine ⟨List.forall_mem_nil _, List.forall_mem_nil _, h.queued.trans ?_, h.armed, h.alone,
      h.duetime, h.free, h.tainted⟩
    have hidle : (s.returned frame.fibre state).idle [] ≠ some output := by
      simp [Sched.idle, Sched.justYielded, Sched.returned, hcurrent, hne]
    have hbusy : s.idle [frame] ≠ some output := (Option.some_ne_none output).symm
    exact or_congr_right (iff_of_false hbusy hidle)
  cases hdoes with
  | yield => exact hreturned rfl _
  | ret _ =>
      rw [Sched.interrupt_of_quiet (s := s.returned _ _) hquiet]
      exact hreturned rfl _

/-! ## A pass -/

theorem pass_flags (t : Cdcacm) (time : Nat) {asked : Prop}
    (hasked : t.queued = true ∨ t.output.armed = true ∧
      cyclecmp32 (BitVec.ofNat 32 settleTime) (BitVec.ofNat 32 time) ≤ 0 ↔ asked) :
    ((t.pass time).queued = true ↔ asked) ∧
      ((t.pass time).output.armed = true ↔ t.output.armed = true ∧ ¬ asked) := by
  rw [← hasked]
  constructor
  · simp [Cdcacm.pass]
  · simp only [Cdcacm.pass]
    split <;> simp_all

omit [DecidableEq F] in
theorem Reflects.asked (h : Reflects output [] s t) (time : Nat) :
    t.queued = true ∨ t.output.armed = true ∧
        cyclecmp32 (BitVec.ofNat 32 settleTime) (BitVec.ofNat 32 time) ≤ 0 ↔
      Sched.Asked (BitVec.ofNat 32 time) s output := by
  have hdue : output ∈ s.timerq →
      (cyclecmp32 (s.fibre output).duetime (BitVec.ofNat 32 time) ≤ 0 ↔
        cyclecmp32 (BitVec.ofNat 32 settleTime) (BitVec.ofNat 32 time) ≤ 0) :=
    fun hf => by rw [h.duetime hf]
  rw [h.queued, h.armed, Sched.Asked, or_assoc, and_congr_right_iff.mpr hdue]
  rfl

omit [DecidableEq F] in
theorem Reflects.pass (h : Reflects output [] s t) {time : Nat}
    (hpassed : Sched.Passed (BitVec.ofNat 32 time) s s')
    (hmarks : Sched.Pass.Marks (BitVec.ofNat 32 time) output s s')
    (hcurrent : s'.current ≠ some output) (hsingle : Sched.Single frames')
    (hother : ∀ frame ∈ frames', frame.fibre ≠ output) (hidle : s'.idle frames' = none) :
    Reflects output frames' s' (t.pass time) := by
  obtain ⟨hqueued, harmed⟩ := t.pass_flags time (h.asked time)
  refine ⟨hsingle, hother, ?_, ?_, fun g hg => h.alone g (hpassed.timerq.subset hg), ?_, ?_, ?_⟩
  · rw [hqueued, hmarks.queued, hidle]
    simp [hcurrent]
  · rw [harmed, hmarks.timerq, h.armed]
  · rw [hmarks.duetime]
    exact fun hf => h.duetime (hmarks.timerq.mp hf).1
  · rw [hmarks.settled.pending]
    rfl
  · rw [hmarks.tainted]
    exact h.tainted

/-! ## A call of the output fibre -/

/-- The output fibre is being executed, and has asked to be called at its time or not. -/
structure Executes (output : F) (s : Sched F) (armed tainted : Bool) : Prop where
  current : s.current = some output
  queued : ¬ s.Queued output
  timerq : s.timerq = if armed then [output] else []
  duetime : armed = true → (s.fibre output).duetime = BitVec.ofNat 32 settleTime
  pending : s.pending = []
  tainted : s.taintFlags.getLsbD 0 = tainted

omit [DecidableEq F] in
theorem Reflects.dispatch (h : Reflects output [] s t) {time : Nat}
    (hpassed : Sched.Passed (BitVec.ofNat 32 time) s s')
    (hmarks : Sched.Pass.Marks (BitVec.ofNat 32 time) output s s')
    (hcurrent : s'.current = some output) :
    Executes output s' false t.tainted ∧ (t.pass time).queued = true ∧
      (t.pass time).output.armed = false := by
  have hasked := hmarks.called hcurrent
  obtain ⟨hqueued, harmed⟩ := t.pass_flags time (h.asked time)
  have hempty : s'.timerq = [] := by
    refine List.eq_nil_iff_forall_not_mem.mpr fun g hg => ?_
    have hg' := h.alone g (hpassed.timerq.subset hg)
    exact (hmarks.timerq.mp (hg' ▸ hg)).2 hasked
  refine ⟨⟨hcurrent, by simp [hmarks.queued, hcurrent], hempty, fun h => absurd h (by simp),
    hmarks.settled.pending, hmarks.tainted.trans h.tainted.symm⟩, hqueued.mpr hasked, ?_⟩
  exact Bool.eq_false_iff.mpr fun htrue => (harmed.mp htrue).2 hasked

theorem Executes.arm {tainted : Bool} (h : Executes output s false tainted) :
    Executes output (s.arm output (BitVec.ofNat 32 settleTime)) true tainted := by
  obtain ⟨hcurrent, hqueued, htimerq, -, hpending, htainted⟩ := h
  have hrunq : output ∉ s.runq := fun hf => hqueued (.inl hf)
  refine ⟨hcurrent, hqueued, ?_, fun _ => ?_, hpending, htainted⟩
  · simp [Sched.arm, hrunq, htimerq, insertSorted]
  · simp [Sched.arm]

omit [DecidableEq F] in
theorem Executes.returned {armed tainted : Bool} (h : Executes output s armed tainted)
    (res : PtState)
    (hflags : t.flags = (decide (res = .yielded), armed, 8, tainted)) :
    Reflects output [] (s.returned output res.fibreState) t := by
  simp only [flags, Prod.mk.injEq] at hflags
  obtain ⟨hq, harmed, hfree, htainted⟩ := hflags
  have hmem : output ∈ s.timerq ↔ armed = true := by
    rw [h.timerq]
    cases armed <;> simp
  have hidle : (s.returned output res.fibreState).idle [] = some output ↔ res = .yielded := by
    cases res <;> simp [Sched.idle, Sched.justYielded, Sched.returned, PtState.fibreState,
      h.current]
  have hnot : ¬ (s.returned output res.fibreState).Queued output := h.queued
  refine ⟨List.forall_mem_nil _, List.forall_mem_nil _, by simp [hq, hidle, hnot],
    harmed ▸ hmem.symm, ?_, ?_, ?_, ?_⟩
  · intro g hg
    have hg : g ∈ s.timerq := hg
    rw [h.timerq] at hg
    cases armed <;> simp_all
  · exact fun hf => h.duetime (hmem.mp hf)
  · rw [hfree]
    change 8 + s.pending.length = 8
    rw [h.pending]
    rfl
  · exact htainted.trans h.tainted.symm

/-! ## What is printed -/

theorem wp_put_flags (d : UInt8) (t : Cdcacm) :
    Prog.wp (onOut (outringPut d)) (fun _ t' => t'.flags = t.flags) t := by
  simp [onOut, outringPut, onOutring, ringbufPut, flags]

theorem wp_writeLoop_flags (ptr : List UInt8) (t : Cdcacm) :
    Prog.wp (writeLoop ptr) (fun _ t' => t'.flags = t.flags) t := by
  induction ptr generalizing t with
  | nil => rfl
  | cons b ptr ih =>
      have hrest : ∀ t', t'.flags = t.flags →
          Prog.wp (do onOut (outringPut b); writeLoop ptr) (fun _ t'' => t''.flags = t.flags)
            t' := by
        intro t' ht'
        rw [Prog.wp_bind]
        refine Prog.wp_mono (wp_put_flags b t') fun _ t₁ h₁ => ?_
        exact Prog.wp_mono (ih t₁) fun _ _ h₂ => (h₂.trans h₁).trans ht'
      rw [writeLoop]
      by_cases hb : b = 10
      · subst hb
        rw [if_pos rfl, Prog.wp_bind]
        exact Prog.wp_mono (wp_put_flags 13 t) fun _ t₁ h₁ => hrest t₁ h₁
      · rw [if_neg hb]
        exact hrest t rfl

variable {sys sys' : System F} {console : F}

theorem Calls.does {action : Action F} (hvalid : sys.Valid s) (hcall : sys.Calls action sys') :
    ∃ s', Sched.Does action sys.frames { s with interrupts := [] } sys'.frames s' ∧
      sys'.Valid s' :=
  hvalid.next (fun _ _ _ h => h.1.1) hcall

theorem Reflects.request (hvalid : sys.Valid s) (h : Reflects output sys.frames s t) {f : F}
    (hcall : sys.Calls (.call (.runAtomic f)) sys') :
    Prog.wp Cdcacm.runAtomic (fun ok t' => ∃ s', sys'.Valid s' ∧
      (f ≠ output → Reflects output sys'.frames s' t') ∧
      (f = output → Reflects output sys'.frames s'
        (if ok then { t' with queued := true } else t'))) t := by
  obtain ⟨s', hdoes, hvalid'⟩ := Calls.does hvalid hcall
  generalize hframes : sys'.frames = frames' at hdoes ⊢
  cases hdoes with
  | call =>
      refine Prog.wp_mono (h.withoutInterrupts.runAtomic hvalid.inv.held f) ?_
      exact fun _ _ hreflects => ⟨_, hvalid', hreflects⟩

theorem Reflects.putchar (hne : console ≠ output) (d : UInt8) (hvalid : sys.Valid s)
    (h : Reflects output sys.frames s t) (hcall : sys.Calls (.call (.runAtomic console)) sys') :
    Prog.wp (Cdcacm.putchar d) (fun _ t' => ∃ s', sys'.Valid s' ∧ Reflects output sys'.frames s' t')
      t := by
  have hput : ∀ rb, Prog.wp (ringbufPut d) (fun _ _ => True) rb := by
    intro rb
    simp [ringbufPut]
  rw [Cdcacm.putchar, Prog.wp_bind, Prog.wp_zoom]
  refine Prog.wp_mono (hput t.ring) fun _ ring _ => ?_
  have hring : Reflects output sys.frames s { t with ring } := h.congr rfl
  rw [Prog.wp_bind]
  refine Prog.wp_mono (Reflects.request hvalid hring hcall) ?_
  rintro _ t' ⟨s', hvalid', hother, -⟩
  exact ⟨s', hvalid', hother hne⟩

theorem Reflects.receiveLoop (hne : console ≠ output) (buf : List UInt8) (hvalid : sys.Valid s)
    (h : Reflects output sys.frames s t)
    (hrun : Run (System.Next System.WithoutKill) sys
      (buf.map fun _ => { action := .call (.runAtomic console) }) sys') :
    Prog.wp (Cdcacm.receiveLoop buf)
      (fun _ t' => ∃ s', sys'.Valid s' ∧ Reflects output sys'.frames s' t') t := by
  induction buf generalizing sys s t with
  | nil =>
      obtain rfl := hrun.of_nil
      exact ⟨s, hvalid, h⟩
  | cons b buf ih =>
      obtain ⟨sys₁, hcall, hrest⟩ := hrun.of_cons
      rw [Cdcacm.receiveLoop, Prog.wp_bind]
      refine Prog.wp_mono (wp_put_flags b t) fun _ t₁ h₁ => ?_
      have hechoed : ∀ d t₂, t₂.flags = t.flags →
          Prog.wp (do Cdcacm.putchar d; Cdcacm.receiveLoop buf)
            (fun _ t' => ∃ s', sys'.Valid s' ∧ Reflects output sys'.frames s' t') t₂ := by
        intro d t₂ h₂
        rw [Prog.wp_bind]
        refine Prog.wp_mono ((h.congr h₂).putchar hne d hvalid hcall) ?_
        rintro _ t₃ ⟨s₁, hvalid₁, hreflects₁⟩
        exact ih hvalid₁ hreflects₁ hrest
      by_cases hb : b = 13
      · subst hb
        rw [if_pos rfl, Prog.wp_bind]
        exact Prog.wp_mono (wp_put_flags 10 t₁) fun _ t₂ h₂ => hechoed 10 t₂ (h₂.trans h₁)
      · rw [if_neg hb]
        exact hechoed b t₁ h₁

theorem Reflects.receive (hne : console ≠ output) {buf : List UInt8} (hvalid : sys.Valid s)
    (h : Reflects output sys.frames s t)
    (hrun : Run (System.Next System.WithoutKill) sys (CdcFibres.requests output console buf) sys') :
    Prog.wp (cdcacmDataRxCb buf)
      (fun _ t' => ∃ s', sys'.Valid s' ∧ Reflects output sys'.frames s' t') t := by
  obtain ⟨sys₁, hrun₁, hlast⟩ := hrun.of_snoc
  rw [cdcacmDataRxCb, Prog.wp_bind]
  refine Prog.wp_mono (h.receiveLoop hne buf hvalid hrun₁) ?_
  rintro _ t₁ ⟨s₁, hvalid₁, hreflects₁⟩
  rw [Prog.wp_bind]
  refine Prog.wp_mono (Reflects.request hvalid₁ hreflects₁ hlast) ?_
  rintro ok t₂ ⟨s₂, hvalid₂, -, hreflects₂⟩
  have hreflects := hreflects₂ rfl
  cases ok with
  | false => exact ⟨s₂, hvalid₂, hreflects⟩
  | true => exact ⟨s₂, hvalid₂, hreflects⟩

theorem Reflects.write {fd r : Int} {ptr : List UInt8} (hvalid : sys.Valid s)
    (h : Reflects output sys.frames s t) (hwrite : Cdcacm.write fd ptr t = .ok (r, t'))
    (hcalls : if fd = 1 ∨ fd = 2 then sys.Calls (.run output) sys' else sys' = sys) :
    ∃ s', sys'.Valid s' ∧ Reflects output sys'.frames s' t' := by
  by_cases hfd : fd = 1 ∨ fd = 2
  · rw [if_pos hfd] at hcalls
    have hflags : t'.flags = (true, false, 8, t.tainted) := by
      have hprinted : Prog.wp (Cdcacm.write fd ptr)
          (fun _ t' => t'.flags = (true, false, 8, t.tainted)) t := by
        rw [Cdcacm.write, if_pos hfd, Prog.wp_bind]
        refine Prog.wp_mono (wp_writeLoop_flags ptr t) fun _ t₁ h₁ => ?_
        simp only [flags, Prod.mk.injEq] at h₁
        change (true, false, 8, t₁.tainted) = _
        rw [h₁.2.2.2]
      exact (Prog.wp_iff_of_eq hwrite).mp hprinted
    obtain ⟨s', hdoes, hvalid'⟩ := Calls.does hvalid hcalls
    exact ⟨s', hvalid', h.withoutInterrupts.run hvalid.inv.held hvalid.inv.distinct rfl hdoes
      hflags⟩
  · rw [if_neg hfd] at hcalls
    rw [Cdcacm.write, if_neg hfd] at hwrite
    cases hwrite
    exact ⟨s, hcalls ▸ hvalid, hcalls ▸ h⟩

/-! ## A step of everybody -/

theorem does_pass {time : BitVec 32} (hdoes : Sched.Does (.schedulerNext time) [] s frames' s')
    (hquiet : s.interrupts = []) : Sched.Pass time s s' ∧
      (frames' = [] ∧ s'.current = none ∨ ∃ g, frames' = [⟨g, false, false⟩] ∧
        s'.current = some g) := by
  cases hdoes with
  | idle hpass hcurrent =>
      rw [Sched.interrupt_of_quiet (hpass.settled hquiet).quiet]
      exact ⟨hpass, .inl ⟨rfl, hcurrent⟩⟩
  | dispatch hpass hcurrent => exact ⟨hpass, .inr ⟨_, rfl, hcurrent⟩⟩

theorem Reflects.passes {time : Nat} (hvalid : sys.Valid s) (h : Reflects output sys.frames s t)
    (hcall : sys.Calls (.schedulerNext (BitVec.ofNat 32 time)) sys')
    (hother : ∀ frame ∈ sys'.frames, frame.fibre ≠ output) :
    ∃ s', sys'.Valid s' ∧ Reflects output sys'.frames s' (t.pass time) := by
  obtain ⟨s', hdoes, hvalid'⟩ := Calls.does hvalid hcall
  have hinv := hvalid.inv
  rw [hcall.1.1.2] at h hdoes hinv
  obtain ⟨hpass, hframes⟩ := does_pass hdoes rfl
  have hpassed := hpass.passed hinv.distinct
  have hmarks := hpass.marks rfl hinv.held hinv.distinct h.alone
  refine ⟨s', hvalid', ?_⟩
  rcases hframes with ⟨hframes, hcurrent⟩ | ⟨g, hframes, hcurrent⟩
  · rw [hframes] at hother ⊢
    refine h.withoutInterrupts.pass hpassed hmarks (by simp [hcurrent])
      (List.forall_mem_nil _) hother ?_
    exact Sched.justYielded_none hcurrent
  · rw [hframes] at hother ⊢
    refine h.withoutInterrupts.pass hpassed hmarks ?_ ?_ hother rfl
    · rw [hcurrent]
      exact fun heq => hother _ List.mem_cons_self (Option.some.inj heq)
    · intro frame hframe
      rw [List.mem_singleton.mp hframe]
      exact ⟨rfl, rfl⟩

theorem Reflects.dispatches {time : Nat} (hvalid : sys.Valid s) (h : Reflects output sys.frames s t)
    (hcall : sys.Calls (.schedulerNext (BitVec.ofNat 32 time)) sys')
    (hcalled : ∃ frame ∈ sys'.frames, frame.fibre = output) :
    (∃ s', sys'.Valid s' ∧ sys'.frames = [⟨output, false, false⟩] ∧
        s'.now = BitVec.ofNat 32 time ∧ Executes output s' false t.tainted) ∧
      (t.pass time).queued = true ∧ (t.pass time).output.armed = false := by
  obtain ⟨s', hdoes, hvalid'⟩ := Calls.does hvalid hcall
  have hinv := hvalid.inv
  rw [hcall.1.1.2] at h hdoes hinv
  obtain ⟨hpass, hframes⟩ := does_pass hdoes rfl
  have hpassed := hpass.passed hinv.distinct
  rcases hframes with ⟨hframes, -⟩ | ⟨g, hframes, hcurrent⟩
  · simp [hframes] at hcalled
  · obtain rfl : g = output := by simpa [hframes] using hcalled
    obtain ⟨hexecutes, hflags⟩ := h.withoutInterrupts.dispatch hpassed
      (hpass.marks rfl hinv.held hinv.distinct h.alone) hcurrent
    exact ⟨⟨s', hvalid', hframes, hpassed.now, hexecutes⟩, hflags⟩

omit [DecidableEq F] in
theorem Executes.withoutInterrupts {armed tainted : Bool}
    (h : Executes output s armed tainted) :
    Executes output { s with interrupts := [] } armed tainted :=
  ⟨h.current, h.queued, h.timerq, h.duetime, h.pending, h.tainted⟩

theorem Executes.timesOut {armed tainted : Bool} {time : Nat} (hvalid : sys.Valid s)
    (hframes : sys.frames = [⟨output, false, false⟩]) (hnow : s.now = BitVec.ofNat 32 time)
    (h : Executes output s false tainted)
    (hearly : armed = true →
      ¬ cyclecmp32 (BitVec.ofNat 32 settleTime) (BitVec.ofNat 32 time) ≤ 0)
    (hcalls : if armed = true then sys.Calls (.timeout (BitVec.ofNat 32 settleTime)) sys'
      else sys' = sys) :
    ∃ s', sys'.Valid s' ∧ sys'.frames = [⟨output, armed, false⟩] ∧
      Executes output s' armed tainted := by
  cases armed with
  | false =>
      obtain rfl : sys' = sys := hcalls
      exact ⟨s, hvalid, hframes, h⟩
  | true =>
      obtain ⟨s', hdoes, hvalid'⟩ := Calls.does hvalid hcalls
      generalize hframes' : sys'.frames = frames' at hdoes
      rw [hframes] at hdoes
      cases hdoes with
      | past hpast => exact absurd (hnow ▸ hpast) (hearly rfl)
      | arm _ => exact ⟨_, hvalid', hframes'.symm ▸ rfl, h.withoutInterrupts.arm⟩

theorem Executes.returns {armed tainted : Bool} {res : PtState} (hvalid : sys.Valid s)
    (hframes : sys.frames = [⟨output, armed, false⟩]) (h : Executes output s armed tainted)
    (hcall : sys.Calls (.ret res.fibreState) sys')
    (hflags : t.flags = (decide (res = .yielded), armed, 8, tainted)) :
    ∃ s', sys'.Valid s' ∧ Reflects output sys'.frames s' t := by
  obtain ⟨s', hdoes, hvalid'⟩ := Calls.does hvalid hcall
  refine ⟨s', hvalid', ?_⟩
  have hreflects := h.withoutInterrupts.returned res hflags
  generalize sys'.frames = frames' at hdoes ⊢
  generalize hstate : res.fibreState = state at hdoes hreflects
  rw [hframes] at hdoes
  cases hdoes with
  | yield => exact hreflects
  | ret _ =>
      rw [Sched.interrupt_of_quiet (s := Sched.returned _ _ _) rfl]
      exact hreflects

theorem Reflects.next {content : List UInt8} {w w' : CdcFibres F} {l : Option Label}
    (hne : console ≠ output) (hvalid : w.sys.Valid s) (h : Reflects output w.sys.frames s w.usb)
    (hstream : w.usb.Stream content) (hnext : CdcFibres.Next output console w l w') :
    (∃ s', w'.sys.Valid s' ∧ Reflects output w'.sys.frames s' w'.usb) ∧
      Run Cdcacm.Next w.usb l.toList w'.usb := by
  cases hnext with
  | pass htime hcall hother => exact ⟨h.passes hvalid hcall hother, .single (.pass htime)⟩
  | ret hcall =>
      obtain ⟨s', hdoes, hvalid'⟩ := Calls.does hvalid hcall
      exact ⟨⟨s', hvalid', h.withoutInterrupts.ret (hvalid.inv.withInterrupts []) rfl hdoes⟩, .nil⟩
  | @call sys₁ sys₂ sys₃ time room res a htime hpass hcalled hreturns htimeout hret =>
      obtain ⟨⟨s₁, hvalid₁, hframes₁, hnow, hexecutes₁⟩, hqueued, harmed⟩ :=
        h.dispatches hvalid hpass hcalled
      obtain ⟨-, -, -, hearly⟩ :=
        Prog.Returns.of_wp outputFibre.mono (hstream.call time room) hreturns
      obtain ⟨s₂, hvalid₂, hframes₂, hexecutes₂⟩ := hexecutes₁.timesOut hvalid₁ hframes₁ hnow
        (fun ha => ((hearly ha).resolve_left (by simp [harmed])).2) htimeout
      refine ⟨hexecutes₂.returns hvalid₂ hframes₂ hret rfl, ?_⟩
      exact .single (.call htime hqueued hreturns)
  | write hwrite hcalls => exact ⟨h.write hvalid hwrite hcalls, .single (.write hwrite)⟩
  | receive hreceive hrun =>
      have hreceived := (Prog.wp_iff_of_eq hreceive).mp (h.receive hne hvalid hrun)
      exact ⟨hreceived, .single (.receive hreceive)⟩

/-- A call of the output fibre returns, and so does every call it makes. -/
theorem Reflects.calls {content : List UInt8} {w : CdcFibres F} (hvalid : w.sys.Valid s)
    (h : Reflects output w.sys.frames s w.usb) (hstream : w.usb.Stream content) {time : Nat}
    (htime : w.usb.output.time ≤ time)
    (hpass : w.sys.Calls (.schedulerNext (BitVec.ofNat 32 time)) sys)
    (hcalled : ∃ frame ∈ sys.frames, frame.fibre = output) (room : Nat) :
    ∃ w', CdcFibres.Next output console w (some (.call time room)) w' := by
  obtain ⟨⟨s₁, hvalid₁, hframes₁, hnow, hexecutes₁⟩, -, harmed⟩ :=
    h.dispatches hvalid hpass hcalled
  obtain ⟨res, a, hreturns, -, -, -, hearly⟩ :=
    Prog.exists_returns outputFibre.mono (hstream.call time room)
  have hwaits : a.vars.armed = true → res = .waiting ∧
      ¬ cyclecmp32 (BitVec.ofNat 32 settleTime) (BitVec.ofNat 32 time) ≤ 0 :=
    fun ha => (hearly ha).resolve_left (by simp [harmed])
  have hrule : ∀ frames now action, System.WithoutKill (F := F) frames now action →
      System.TimesOutFirst frames now action := fun _ _ _ h => h.1.1
  obtain ⟨sys₂, htimeout⟩ : ∃ sys₂, if a.vars.armed = true then
      sys.Calls (.timeout (BitVec.ofNat 32 settleTime)) sys₂ else sys₂ = sys := by
    split
    · refine hvalid₁.returns hrule ⟨⟨⟨⟨⟨output, false, false⟩, ?_, rfl⟩, ?_⟩, trivial⟩, nofun⟩ <;>
        simp [hframes₁]
    · exact ⟨sys, rfl⟩
  obtain ⟨s₂, hvalid₂, hframes₂, -⟩ := hexecutes₁.timesOut hvalid₁ hframes₁ hnow
    (fun ha => (hwaits ha).2) htimeout
  obtain ⟨sys₃, hret⟩ : ∃ sys₃, sys₂.Calls (.ret res.fibreState) sys₃ := by
    refine hvalid₂.returns hrule ⟨⟨⟨⟨⟨output, a.vars.armed, false⟩, ?_, ?_, ?_⟩, trivial⟩,
      trivial⟩, nofun⟩
    · simp [hframes₂]
    · cases res <;> simp [PtState.fibreState, FibreState.Returned]
    · intro ha
      rw [(hwaits ha).1]
      rfl
  exact ⟨_, .call htime hpass hcalled hreturns htimeout hret⟩

end Reflects

end Cdcacm

namespace CdcFibres

open Cdcacm

/-- What is known of every reachable state. -/
structure Tracked (output : F) (w : CdcFibres F) (s : Sched F) (content : List UInt8) :
    Prop where
  valid : w.sys.Valid s
  flags : Reflects output w.sys.frames s w.usb
  stream : w.usb.Stream content

theorem run_tracked {output console : F} (hne : console ≠ output) {atomicRunqBuf : Nat}
    {eventq : F → Messageq} {ls : List (Option Label)} {w : CdcFibres F}
    (hrun : Run (Next output console) ⟨.init atomicRunqBuf eventq, .init⟩ ls w) :
    Run Cdcacm.Next .init (ls.filterMap id) w.usb ∧ ∃ s content, Tracked output w s content := by
  refine hrun.traceInvariant (I := fun ls w => Run Cdcacm.Next .init (ls.filterMap id) w.usb ∧
    ∃ s content, Tracked output w s content) ⟨.nil, _, [], ?_, init_reflects eventq, init_stream⟩ ?_
  · exact ⟨System.init_represents atomicRunqBuf eventq, Sched.init_inv eventq⟩
  · rintro ls u l v ⟨husb, s, content, hvalid, hreflects, hstream⟩ hnext
    obtain ⟨⟨s', hvalid', hreflects'⟩, hstep⟩ := hreflects.next hne hvalid hstream hnext
    have husb' := husb.append hstep
    obtain ⟨⟨content', hstream'⟩, -⟩ := run_stream husb'
    refine ⟨?_, s', content', hvalid', hreflects', hstream'⟩
    rw [List.filterMap_append]
    cases l <;> exact husb'

/-- The flags of the USB console are what the queues of the scheduler say.  What the
host has not received yet will be sent, unless there was no room for the request:
the output fibre is to run or waits for its time, and when it is called it returns. -/
theorem usb_scheduled {output console : F} (hne : console ≠ output) {atomicRunqBuf : Nat}
    {eventq : F → Messageq} {ls : List (Option Label)} {w : CdcFibres F}
    (hrun : Run (Next output console) ⟨.init atomicRunqBuf eventq, .init⟩ ls w) :
    Run Cdcacm.Next .init (ls.filterMap id) w.usb ∧
    (∃ runq timerq pending content, w.sys.world.Queues runq timerq ∧
      w.sys.world.AtomicRunq pending ∧ w.usb.output.out.outring.Contains content ∧
      (w.usb.queued = true ↔ w.sys.ToRun runq pending output) ∧
      (w.usb.output.armed = true ↔ output ∈ timerq) ∧
      w.usb.free + pending.length = 8 ∧
      w.usb.tainted = w.sys.world.kernel.taintFlags.getLsbD 0 ∧
      (w.usb.held ++ content ≠ [] → w.sys.ToRun runq pending output ∨ output ∈ timerq ∨
        w.sys.world.kernel.taintFlags.getLsbD 0 = true)) ∧
    ∀ time room sys, w.usb.output.time ≤ time →
      w.sys.Calls (.schedulerNext (BitVec.ofNat 32 time)) sys →
      (∃ frame ∈ sys.frames, frame.fibre = output) →
      ∃ w', Next output console w (some (.call time room)) w' := by
  obtain ⟨husb, s, content, hvalid, hreflects, hstream⟩ := run_tracked hne hrun
  have hqueued := hreflects.queued.trans (hvalid.toRun_iff output).symm
  have htainted := hvalid.represents.taintFlags ▸ hreflects.tainted
  refine ⟨husb, ⟨s.runq, s.timerq, s.pending, content, hvalid.represents.queues,
    hvalid.represents.atomicRunq hvalid.inv.held, hstream.carries.contains, hqueued,
    hreflects.armed, hreflects.free, htainted, fun hleft => ?_⟩, ?_⟩
  · exact (hstream.asked hleft).imp hqueued.mp (Or.imp hreflects.armed.mp htainted.symm.trans)
  · intro time room sys htime hpass hcalled
    exact hreflects.calls hvalid hstream htime hpass hcalled room

end CdcFibres

end Librfn
