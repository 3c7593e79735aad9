import Librfn.Fibre.Slots

/-!
# Draining, step by step

`handle_atomic_runq` and `fibre_run` call each other, so draining the atomic
run queue makes a stack of activations.  Every activation but the innermost
holds an entry that it has received and not released, and there are eight.
-/

namespace Librfn

open Librfn.Logic Prog

/-- Where an activation of `handle_atomic_runq` is. -/
inductive Activation (F : Type) where
  /-- At `messageq_receive`. -/
  | receiving
  /-- At `fibre_run(*f)`. -/
  | reading (entry : Nat)
  /-- In `fibre_run(f)`, behind its call of `handle_atomic_runq`. -/
  | inserting (entry : Nat) (f : F)
  /-- At `messageq_release`. -/
  | releasing (entry : Nat)
  deriving DecidableEq, Repr

structure Drainer (F : Type) where
  world : World F
  /-- Innermost first. -/
  stack : List (Activation F)
  /-- The fibres that were accepted by `fibre_run_atomic`. -/
  accepted : List F
  /-- The fibres that `fibre_run` was called for. -/
  passed : List F

inductive DrainStep (F : Type) where
  /-- The whole of a call from an interrupt handler. -/
  | runAtomic (f : F) (queued : Bool)
  /-- The rest of the program, which leaves the atomic run queue alone. -/
  | elsewhere
  /-- `handle_atomic_runq` is called. -/
  | call
  /-- A step of the innermost activation. -/
  | code

namespace Drainer

variable {F : Type}

def init (atomicRunqBuf : Nat) (eventq : F → Messageq) : Drainer F :=
  { world := .init atomicRunqBuf eventq, stack := [], accepted := [], passed := [] }

inductive Next [DecidableEq F] : Drainer F → DrainStep F → Drainer F → Prop
  | runAtomic {d : Drainer F} {f : F} {queued : Bool} {world : World F} :
      fibreRunAtomic f d.world = .ok (queued, world) →
      Next d (.runAtomic f queued)
        { d with world, accepted := if queued then d.accepted ++ [f] else d.accepted }
  | elsewhere {d : Drainer F} {world : World F} {seq : KernelList → List F} :
      world.kernel.atomicRunq = d.world.kernel.atomicRunq →
      world.kernel.atomicRunqBuf = d.world.kernel.atomicRunqBuf →
      world.kernel.lists.Represents seq →
      Next d .elsewhere { d with world }
  | call {d : Drainer F} : d.stack = [] → Next d .call { d with stack := [.receiving] }
  | empty {d : Drainer F} {callers : List (Activation F)} {world : World F} :
      d.stack = .receiving :: callers →
      onAtomicRunq messageqReceive d.world = .ok (none, world) →
      Next d .code { d with world, stack := callers }
  | receive {d : Drainer F} {callers : List (Activation F)} {entry : Nat} {world : World F} :
      d.stack = .receiving :: callers →
      onAtomicRunq messageqReceive d.world = .ok (some entry, world) →
      Next d .code { d with world, stack := .reading entry :: callers }
  | run {d : Drainer F} {callers : List (Activation F)} {entry : Nat} {f : F}
      {world : World F} :
      d.stack = .reading entry :: callers →
      readEntry entry d.world = .ok (f, world) →
      Next d .code
        { d with
          world
          stack := .receiving :: .inserting entry f :: callers
          passed := d.passed ++ [f] }
  | insert {d : Drainer F} {callers : List (Activation F)} {entry : Nat} {f : F}
      {world : World F} :
      d.stack = .inserting entry f :: callers →
      Returns (fun fuel => fibreRunWith (pure ()) fuel f) d.world ((), world) →
      Next d .code { d with world, stack := .releasing entry :: callers }
  | release {d : Drainer F} {callers : List (Activation F)} {entry : Nat}
      {world : World F} :
      d.stack = .releasing entry :: callers →
      onAtomicRunq (messageqRelease entry) d.world = .ok ((), world) →
      Next d .code { d with world, stack := .receiving :: callers }

/-! ## The entries that are held -/

/-- Activations that wait for the one they called. -/
inductive Suspended : List (Activation F) → List F → Prop
  | nil : Suspended [] []
  | cons {callers : List (Activation F)} {held : List F} (entry : Nat) (f : F) :
      Suspended callers held → Suspended (.inserting entry f :: callers) (f :: held)

/-- The fibres held by a stack, and which entry is about to be read. -/
inductive Holds : List (Activation F) → List F → Option (Nat × F) → Prop
  | idle : Holds [] [] none
  | receiving {callers : List (Activation F)} {held : List F} :
      Suspended callers held → Holds (.receiving :: callers) held none
  | reading {callers : List (Activation F)} {held : List F} (entry : Nat) (f : F) :
      Suspended callers held →
      Holds (.reading entry :: callers) (f :: held) (some (entry, f))
  | inserting {callers : List (Activation F)} {held : List F} (entry : Nat) (f : F) :
      Suspended callers held → Holds (.inserting entry f :: callers) (f :: held) none
  | releasing {callers : List (Activation F)} {held : List F} (entry : Nat) (f : F) :
      Suspended callers held → Holds (.releasing entry :: callers) (f :: held) none

theorem Suspended.length {callers : List (Activation F)} {held : List F}
    (h : Suspended callers held) : callers.length = held.length := by
  induction h with
  | nil => rfl
  | cons _ _ _ ih => simp [ih]

theorem Suspended.holds {callers : List (Activation F)} {held : List F}
    (h : Suspended callers held) : Holds callers held none := by
  cases h with
  | nil => exact .idle
  | cons entry f h => exact .inserting entry f h

theorem Holds.length_le {stack : List (Activation F)} {held : List F}
    {reading : Option (Nat × F)} (h : Holds stack held reading) :
    stack.length ≤ held.length + 1 := by
  cases h with
  | idle => exact Nat.zero_le _
  | receiving h => simp [h.length]
  | reading _ _ h => simp [h.length]
  | inserting _ _ h => simp [h.length]
  | releasing _ _ h => simp [h.length]

/-- The entries that `fibre_run` was not called for yet, oldest first, are the one about to be
read and the pending ones. -/
structure Tracks (d : Drainer F) (s : Sched F) (reading : Option (Nat × F)) : Prop where
  represents : d.world.Represents s reading
  holds : Holds d.stack s.held reading
  accepted : d.accepted = d.passed ++ (reading.toList.map Prod.snd ++ s.pending)

def weight : Activation F → Nat
  | .receiving => 1
  | .releasing _ => 2
  | .inserting _ _ => 3
  | .reading _ => 5

def measure (d : Drainer F) (s : Sched F) : Nat :=
  5 * s.pending.length + (d.stack.map weight).sum

theorem init_tracks (atomicRunqBuf : Nat) (eventq : F → Messageq) :
    (init atomicRunqBuf eventq).Tracks (.init eventq) none where
  represents := System.init_represents atomicRunqBuf eventq
  holds := .idle
  accepted := rfl

theorem length_le_eight {w : World F} {s : Sched F} {reading : Option (Nat × F)}
    (h : w.Represents s reading) : s.pending.length + s.held.length ≤ 8 := by
  obtain ⟨_, _, _, m, _, _, hentries⟩ := h
  have hclaimed := hentries.claimed_eq
  have hle := m.claimed_le
  have hlen := hentries.queueLen
  omega

theorem fibreRunWith_monotone [DecidableEq F] (f : F) :
    Monotone (fun fuel => fibreRunWith (F := F) (pure ()) fuel f) :=
  fun fuel => fibreRunWith_le (Le.refl _) fuel f

def ofWorld (w : World F) (seq : KernelList → List F) (pending held : List F) : Sched F where
  runq := seq .runq
  timerq := seq .timerq
  pending := pending
  held := held
  current := w.kernel.current
  state := w.kernel.state
  now := w.kernel.now
  taintFlags := w.kernel.taintFlags
  fibre := w.fibre
  eventq := w.eventq
  claims := w.claims
  interrupts := w.interrupts
  log := w.log

section Steps

variable {d d' : Drainer F} {s : Sched F} {reading : Option (Nat × F)}

theorem Tracks.runAtomic (h : d.Tracks s reading) {f : F} {queued : Bool} {world : World F}
    (hcall : fibreRunAtomic f d.world = .ok (queued, world)) :
    Tracks { d with world, accepted := if queued then d.accepted ++ [f] else d.accepted }
      (s.runAtomic f) reading := by
  obtain ⟨rfl, hworld⟩ := (wp_iff_of_eq hcall).mp (fibreRunAtomic_spec h.represents f)
  have hheld := (s.runAtomic_same f).held
  refine ⟨hworld, hheld ▸ h.holds, ?_⟩
  by_cases hroom : s.Room
  · simp [hroom, Sched.runAtomic, h.accepted]
  · simp [hroom, Sched.runAtomic, h.accepted]

theorem Tracks.elsewhere (h : d.Tracks s reading) {world : World F} {seq : KernelList → List F}
    (hqueue : world.kernel.atomicRunq = d.world.kernel.atomicRunq)
    (hbuf : world.kernel.atomicRunqBuf = d.world.kernel.atomicRunqBuf)
    (hlists : world.kernel.lists.Represents seq) :
    ∃ s', Tracks { d with world } s' reading := by
  obtain ⟨⟨_, mq, buf, m, hworld, _, hentries⟩, hholds, haccepted⟩ := h
  have hmq : mq = world.kernel.atomicRunq := by rw [hqueue, hworld]
  have hmqBuf : buf = world.kernel.atomicRunqBuf := by rw [hbuf, hworld]
  have hseq : (ofWorld world seq s.pending s.held).seq = seq := by
    funext list
    cases list <;> rfl
  subst hmq hmqBuf
  refine ⟨ofWorld world seq s.pending s.held, ⟨_, _, _, m, rfl, ?_, hentries⟩, hholds, haccepted⟩
  rw [hseq]
  exact hlists

theorem Tracks.finished (h : d.Tracks s reading) (hstack : d.stack = [])
    (hpending : s.pending = []) :
    messageqEmpty d.world.kernel.atomicRunq = true ∧ d.passed = d.accepted := by
  obtain ⟨hworld, hholds, haccepted⟩ := h
  rw [hstack] at hholds
  generalize hheld : s.held = held at hholds
  cases hholds with
  | idle =>
      rw [hpending] at haccepted
      rw [hworld.messageqEmpty_eq, hpending]
      exact ⟨rfl, by simpa using haccepted.symm⟩

/-! Each step of the innermost activation, in turn. -/

variable {callers : List (Activation F)}

theorem Tracks.empty_spec (h : d.Tracks s reading) (hstack : d.stack = .receiving :: callers)
    (hpending : s.pending = []) :
    wp (onAtomicRunq messageqReceive) (fun entry world => entry = none ∧
      Tracks { d with world, stack := callers } s none) d.world := by
  obtain ⟨hworld, hholds, haccepted⟩ := h
  rw [hstack] at hholds
  cases hholds with
  | receiving hcallers =>
      refine wp_mono (receive_none hworld hpending) ?_
      rintro _ world ⟨rfl, hworld'⟩
      exact ⟨rfl, hworld', hcallers.holds, haccepted⟩

theorem Tracks.receive_spec (h : d.Tracks s reading) (hstack : d.stack = .receiving :: callers)
    {f : F} {fs : List F} (hpending : s.pending = f :: fs) :
    wp (onAtomicRunq messageqReceive) (fun entry world => ∃ addr, entry = some addr ∧
      Tracks { d with world, stack := .reading addr :: callers } (s.receive f fs)
        (some (addr, f))) d.world := by
  obtain ⟨hworld, hholds, haccepted⟩ := h
  rw [hstack] at hholds
  cases hholds with
  | receiving hcallers =>
      refine wp_mono (receive_some hworld hpending) ?_
      rintro _ world ⟨addr, rfl, hworld'⟩
      rw [hpending] at haccepted
      exact ⟨addr, rfl, hworld', .reading addr f hcallers, haccepted⟩

theorem Tracks.run_spec (h : d.Tracks s reading) {entry : Nat}
    (hstack : d.stack = .reading entry :: callers) :
    wp (readEntry entry) (fun f world =>
      Tracks
        { d with
          world
          stack := .receiving :: .inserting entry f :: callers
          passed := d.passed ++ [f] } s none) d.world := by
  obtain ⟨hworld, hholds, haccepted⟩ := h
  rw [hstack] at hholds
  generalize hheld : s.held = held at hholds
  cases hholds with
  | reading _ f hcallers =>
      refine wp_mono (readEntry_spec hworld) ?_
      rintro _ _ ⟨rfl, rfl, hworld'⟩
      refine ⟨hworld', ?_, ?_⟩
      · rw [hheld]
        exact .receiving (.cons entry _ hcallers)
      · rw [haccepted]
        simp

theorem Tracks.insert_spec [DecidableEq F] (h : d.Tracks s reading) {entry : Nat} {f : F}
    (hstack : d.stack = .inserting entry f :: callers) {fuel : Nat} (hfuel : s.weight < fuel) :
    wp (fibreRunWith (pure ()) fuel f) (fun _ world =>
      Tracks { d with world, stack := .releasing entry :: callers } (s.enqueue f) none)
      d.world := by
  obtain ⟨hworld, hholds, haccepted⟩ := h
  rw [hstack] at hholds
  generalize hheld : s.held = held at hholds
  cases hholds with
  | inserting _ _ hcallers =>
      refine wp_mono (enqueue_spec hworld f hfuel) ?_
      intro _ world hworld'
      refine ⟨hworld', ?_, ?_⟩
      · rw [Sched.enqueue_held, hheld]
        exact .releasing entry f hcallers
      · rw [Sched.enqueue_pending]
        exact haccepted

theorem Tracks.release_spec (h : d.Tracks s reading) {entry : Nat}
    (hstack : d.stack = .releasing entry :: callers) :
    wp (onAtomicRunq (messageqRelease entry)) (fun _ world =>
      Tracks { d with world, stack := .receiving :: callers } s.release none) d.world := by
  obtain ⟨hworld, hholds, haccepted⟩ := h
  rw [hstack] at hholds
  generalize hheld : s.held = held at hholds
  cases hholds with
  | releasing _ f hcallers =>
      refine wp_mono (release_spec hworld hheld entry) ?_
      intro _ world hworld'
      refine ⟨hworld', ?_, haccepted⟩
      rw [Sched.release, hheld]
      exact .receiving hcallers

variable [DecidableEq F]

/-- A step of the code keeps the account and leaves less to do.  If it was the last one there is
nothing pending. -/
theorem Tracks.code (h : d.Tracks s reading) (hstep : Next d .code d') :
    ∃ s' reading', d'.Tracks s' reading' ∧ d'.measure s' < d.measure s ∧
      (d'.stack = [] → s'.pending = []) := by
  cases hstep with
  | empty hstack hreceive =>
      cases hpending : s.pending with
      | nil =>
          obtain ⟨_, h'⟩ := (wp_iff_of_eq hreceive).mp (h.empty_spec hstack hpending)
          refine ⟨s, none, h', ?_, fun _ => hpending⟩
          simp [measure, hstack, weight]
      | cons f fs =>
          obtain ⟨_, hsome, _⟩ := (wp_iff_of_eq hreceive).mp (h.receive_spec hstack hpending)
          cases hsome
  | receive hstack hreceive =>
      cases hpending : s.pending with
      | nil =>
          have hnone := ((wp_iff_of_eq hreceive).mp (h.empty_spec hstack hpending)).1
          cases hnone
      | cons f fs =>
          obtain ⟨_, hsome, h'⟩ := (wp_iff_of_eq hreceive).mp (h.receive_spec hstack hpending)
          cases hsome
          refine ⟨s.receive f fs, _, h', ?_, by simp⟩
          simp [measure, hstack, weight, Sched.receive, hpending]
          omega
  | run hstack hread =>
      refine ⟨s, none, (wp_iff_of_eq hread).mp (h.run_spec hstack), ?_, by simp⟩
      simp [measure, hstack, weight]
      omega
  | @insert _ _ f _ hstack hinsert =>
      obtain ⟨enough, hinsert⟩ := hinsert
      have heq := hinsert (max enough (s.weight + 1)) (Nat.le_max_left _ _)
      have h' := (wp_iff_of_eq heq).mp
        (h.insert_spec hstack (Nat.lt_of_succ_le (Nat.le_max_right _ _)))
      refine ⟨s.enqueue f, none, h', ?_, by simp⟩
      simp [measure, hstack, weight, Sched.enqueue_pending]
  | release hstack hrelease =>
      refine ⟨s.release, none, (wp_iff_of_eq hrelease).mp (h.release_spec hstack), ?_, by simp⟩
      simp [measure, hstack, weight, Sched.release]

/-- An activation can always go on. -/
theorem Tracks.progress (h : d.Tracks s reading) (hstack : d.stack ≠ []) :
    ∃ d', Next d .code d' := by
  obtain ⟨top, callers, hstack⟩ := List.exists_cons_of_ne_nil hstack
  cases top with
  | receiving =>
      cases hpending : s.pending with
      | nil =>
          obtain ⟨_, _, heq, rfl, _⟩ := wp_iff_exists.mp (h.empty_spec hstack hpending)
          exact ⟨_, .empty hstack heq⟩
      | cons f fs =>
          obtain ⟨_, _, heq, _, rfl, _⟩ := wp_iff_exists.mp (h.receive_spec hstack hpending)
          exact ⟨_, .receive hstack heq⟩
  | reading entry =>
      obtain ⟨_, _, heq, _⟩ := wp_iff_exists.mp (h.run_spec hstack)
      exact ⟨_, .run hstack heq⟩
  | inserting entry f =>
      obtain ⟨_, _, hreturns, _⟩ := exists_returns (fibreRunWith_monotone f)
        (h.insert_spec hstack (Nat.lt_succ_self _))
      exact ⟨_, .insert hstack hreturns⟩
  | releasing entry =>
      obtain ⟨_, _, heq, _⟩ := wp_iff_exists.mp (h.release_spec hstack)
      exact ⟨_, .release hstack heq⟩

theorem Tracks.next (h : d.Tracks s reading) {step : DrainStep F} (hstep : Next d step d') :
    ∃ s' reading', d'.Tracks s' reading' := by
  cases step with
  | runAtomic f queued =>
      cases hstep with
      | runAtomic hcall => exact ⟨_, _, h.runAtomic hcall⟩
  | elsewhere =>
      cases hstep with
      | elsewhere hqueue hbuf hlists =>
          obtain ⟨s', h'⟩ := h.elsewhere hqueue hbuf hlists
          exact ⟨s', _, h'⟩
  | call =>
      cases hstep with
      | call hstack =>
          obtain ⟨hworld, hholds, haccepted⟩ := h
          rw [hstack] at hholds
          generalize hheld : s.held = held at hholds
          cases hholds with
          | idle =>
              refine ⟨s, none, hworld, ?_, haccepted⟩
              rw [hheld]
              exact .receiving .nil
  | code =>
      obtain ⟨s', reading', h', _⟩ := h.code hstep
      exact ⟨s', reading', h'⟩

theorem Next.accepted (h : Next d .code d') : d'.accepted = d.accepted := by
  cases h <;> rfl

theorem Tracks.codes (h : d.Tracks s reading) (hstack : d.stack ≠ []) {n : Nat}
    (hrun : Run Next d (List.replicate n .code) d') :
    ∃ s' reading', d'.Tracks s' reading' ∧ d'.measure s' + n ≤ d.measure s ∧
      (d'.stack = [] → s'.pending = []) ∧ d'.accepted = d.accepted := by
  induction n generalizing d' with
  | zero =>
      obtain rfl := hrun.of_nil
      exact ⟨s, reading, h, Nat.le_refl _, fun hnil => absurd hnil hstack, rfl⟩
  | succ n ih =>
      rw [List.replicate_succ'] at hrun
      obtain ⟨t, hrun, hstep⟩ := hrun.of_snoc
      obtain ⟨u, _, htracks, hmeasure, _, haccepted⟩ := ih hrun
      obtain ⟨s', reading', h', hless, hlast⟩ := htracks.code hstep
      exact ⟨s', reading', h', by omega, hlast, hstep.accepted.trans haccepted⟩

theorem run_tracks {atomicRunqBuf : Nat} {eventq : F → Messageq} {steps : List (DrainStep F)}
    (hrun : Run Next (init atomicRunqBuf eventq) steps d) : ∃ s reading, d.Tracks s reading :=
  hrun.invariant (I := fun d => ∃ s reading, d.Tracks s reading)
    ⟨_, _, init_tracks atomicRunqBuf eventq⟩
    fun _ _ _ ⟨_, _, h⟩ hstep => h.next hstep

end Steps

/-! ## The recursion as it is written -/

section Recursion

variable [DecidableEq F]

def Goes (d d' : Drainer F) : Prop := ∃ n, Run Next d (List.replicate n .code) d'

theorem Goes.cons {d d' d'' : Drainer F} (hstep : Next d .code d') (h : Goes d' d'') :
    Goes d d'' := by
  obtain ⟨n, hrun⟩ := h
  exact ⟨n + 1, hrun.cons hstep⟩

theorem Goes.trans {d d' d'' : Drainer F} (h : Goes d d') (h' : Goes d' d'') : Goes d d'' := by
  obtain ⟨m, hrun⟩ := h
  obtain ⟨n, hrun'⟩ := h'
  refine ⟨m + n, ?_⟩
  rw [List.replicate_add]
  exact hrun.append hrun'

theorem interrupt_quiet {w w' : World F} (hquiet : w.interrupts = [])
    (h : interrupt w = .ok ((), w')) : w' = w := by
  obtain ⟨_, _, hget, h⟩ := bind_eq_ok h
  cases hget
  rw [hquiet] at h
  cases h
  rfl

/-- Without interrupt handlers the recursive functions do what the activations do. -/
theorem handleAtomicRunq_goes (fuel : Nat) {w w' : World F} (hquiet : w.interrupts = [])
    (h : handleAtomicRunq fuel w = .ok ((), w')) (callers : List (Activation F))
    (accepted passed : List F) :
    ∃ passed', Goes ⟨w, .receiving :: callers, accepted, passed⟩
      ⟨w', callers, accepted, passed'⟩ := by
  induction fuel generalizing w w' callers passed with
  | zero => cases h
  | succ fuel ih =>
      rw [handleAtomicRunq] at h
      obtain ⟨_, _, hint, hrest⟩ := bind_eq_ok h
      rw [interrupt_quiet hquiet hint] at hrest
      obtain ⟨entry, w₁, hreceive, hrest⟩ := bind_eq_ok hrest
      have hquiet₁ := (onAtomicRunq_keeps messageqReceive_keeps _ _ _ hreceive hquiet).1
      cases entry with
      | none =>
          cases hrest
          exact ⟨passed, 1, .single (.empty rfl hreceive)⟩
      | some entry =>
          obtain ⟨_, _, hint, hrest⟩ := bind_eq_ok hrest
          rw [interrupt_quiet hquiet₁ hint] at hrest
          obtain ⟨f, w₂, hread, hrest⟩ := bind_eq_ok hrest
          have hquiet₂ := (readEntry_keeps entry _ _ _ hread hquiet₁).1
          obtain ⟨_, w₄, hinsert, hrest⟩ := bind_eq_ok hrest
          rw [fibreRunWith_eq] at hinsert
          obtain ⟨_, w₃, hdrain, hinsert⟩ := bind_eq_ok hinsert
          have hquiet₃ := (handleAtomicRunq_keeps fuel _ _ _ hdrain hquiet₂).1
          have hquiet₄ := (fibreRunWith_keeps (.pure World.KeepsRequests.refl ()) fuel f _ _ _
            hinsert hquiet₃).1
          obtain ⟨_, _, hint, hrest⟩ := bind_eq_ok hrest
          rw [interrupt_quiet hquiet₄ hint] at hrest
          obtain ⟨_, w₅, hrelease, hrest⟩ := bind_eq_ok hrest
          have hquiet₅ := (onAtomicRunq_keeps (messageqRelease_keeps entry) _ _ _ hrelease
            hquiet₄).1
          obtain ⟨passed₃, hinner⟩ := ih hquiet₂ hdrain (.inserting entry f :: callers)
            (passed ++ [f])
          obtain ⟨passed', houter⟩ := ih hquiet₅ hrest callers passed₃
          have hreturns := (fibreRunWith_monotone f).returns hinsert
          exact ⟨passed', .cons (.receive rfl hreceive) (.cons (.run rfl hread)
            (hinner.trans (.cons (.insert rfl hreturns) (.cons (.release rfl hrelease) houter))))⟩

end Recursion

section Results

variable [DecidableEq F] {d : Drainer F} {s : Sched F} {reading : Option (Nat × F)}

/-- A drain without interrupt handlers, both ways. -/
theorem Tracks.drains (h : d.Tracks s reading) (hstack : d.stack = [])
    (hquiet : d.world.interrupts = []) :
    ∃ world, Returns handleAtomicRunq d.world ((), world) ∧
      messageqEmpty world.kernel.atomicRunq = true ∧
      Goes { d with stack := [.receiving] }
        { d with world, stack := [], passed := d.accepted } := by
  obtain ⟨s₁, reading₁, h₁⟩ := h.next (.call hstack)
  have hworld : d.world.Represents s := by
    obtain ⟨hworld, hholds, _⟩ := h
    rw [hstack] at hholds
    generalize hheld : s.held = held at hholds
    cases hholds with
    | idle => exact hworld
  obtain ⟨_, world, hreturns, _⟩ := exists_returns handleAtomicRunq_le
    (handleAtomicRunq_spec _ hworld (Nat.lt_succ_self _))
  have hfuel := hreturns
  obtain ⟨fuel, hfuel⟩ := hfuel
  obtain ⟨passed', n, hgoes⟩ := handleAtomicRunq_goes fuel hquiet (hfuel fuel (Nat.le_refl _)) []
    d.accepted d.passed
  obtain ⟨s', reading', h', _, hlast, _⟩ := h₁.codes (by simp) hgoes
  obtain ⟨hempty, hpassed⟩ := h'.finished rfl (hlast rfl)
  exact ⟨world, hreturns, hempty, n, hpassed ▸ hgoes⟩

end Results

/-- There are never more than nine activations.  Undisturbed, the innermost goes on until all of
them have returned; then the queue is empty and `fibre_run` was called once for every entry.  So
it is for a drain from the start, which `handle_atomic_runq` returns from. -/
theorem drain_bounded [DecidableEq F] {atomicRunqBuf : Nat} {eventq : F → Messageq}
    {steps : List (DrainStep F)} {d : Drainer F}
    (hrun : Run Next (init atomicRunqBuf eventq) steps d) :
    d.stack.length ≤ 9 ∧
      (d.stack ≠ [] → ∃ bound, ∀ n d', Run Next d (List.replicate n .code) d' →
        n ≤ bound ∧ (d'.stack ≠ [] → ∃ d'', Next d' .code d'') ∧
          (d'.stack = [] → messageqEmpty d'.world.kernel.atomicRunq = true ∧
            d'.passed = d.accepted)) ∧
      (d.stack = [] → d.world.interrupts = [] →
        ∃ world, Returns handleAtomicRunq d.world ((), world) ∧
          messageqEmpty world.kernel.atomicRunq = true ∧
          Goes { d with stack := [.receiving] }
            { d with world, stack := [], passed := d.accepted }) := by
  obtain ⟨s, reading, h⟩ := run_tracks hrun
  refine ⟨?_, fun hstack => ⟨d.measure s, fun n d' hcode => ?_⟩, h.drains⟩
  · have hheld := h.holds.length_le
    have height := length_le_eight h.represents
    omega
  · obtain ⟨s', reading', h', hmeasure, hlast, haccepted⟩ := h.codes hstack hcode
    refine ⟨by omega, h'.progress, fun hnil => ?_⟩
    obtain ⟨hempty, hpassed⟩ := h'.finished hnil (hlast hnil)
    exact ⟨hempty, hpassed.trans haccepted⟩

theorem drain_bounded_two :
    ∃ d : Drainer Bool, (∃ world, Returns handleAtomicRunq d.world ((), world)) ∧
      ∃ bound, ∀ n d', Run Next { d with stack := [.receiving] } (List.replicate n .code) d' →
        n ≤ bound ∧ d'.stack.length ≤ 9 ∧ (d'.stack = [] → d'.passed = [true, false]) := by
  obtain ⟨queued, w₁, heq₁, rfl, h₁⟩ := wp_iff_exists.mp (fibreRunAtomic_spec
    (System.init_represents 0 fun _ : Bool => messageqInit 0 8 1) true)
  obtain ⟨queued, w₂, heq₂, rfl, _, _, _, _, rfl, _⟩ :=
    wp_iff_exists.mp (fibreRunAtomic_spec h₁ false)
  have hqueued : Run Next (init 0 fun _ : Bool => messageqInit 0 8 1)
      [.runAtomic true true, .runAtomic false true] _ :=
    .snoc (.single (.runAtomic heq₁)) (.runAtomic heq₂)
  obtain ⟨_, _, hreturns⟩ := drain_bounded hqueued
  obtain ⟨world, hreturns, _⟩ := hreturns rfl rfl
  refine ⟨_, ⟨world, hreturns⟩, ?_⟩
  have hcalled := hqueued.snoc (.call rfl)
  obtain ⟨_, hdrain, _⟩ := drain_bounded hcalled
  obtain ⟨bound, hbound⟩ := hdrain (by simp)
  refine ⟨bound, fun n d' hcode => ?_⟩
  obtain ⟨hn, _, hend⟩ := hbound n d' hcode
  exact ⟨hn, (drain_bounded (hcalled.append hcode)).1, fun hnil => (hend hnil).2⟩

end Drainer

end Librfn
