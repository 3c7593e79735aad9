import Librfn.Fibre.Safety

/-!
# The order of atomic requests

`handle_atomic_runq` calls `fibre_run`, which calls `handle_atomic_runq` before
it inserts its fibre.  So the entry that is received first is inserted last,
and a drain reverses the requests it finds.
-/

namespace Librfn

open Librfn.Logic

variable {F : Type} [DecidableEq F]

/-- `fibre_run_atomic` for each of the fibres; whether all calls returned
true. -/
def runAtomicEach : List F → Prog (World F) Bool
  | [] => return true
  | f :: fs => do
      let queued ← fibreRunAtomic f
      let rest ← runAtomicEach fs
      return queued && rest

def runEach (fuel : Nat) : List F → Prog (World F) Unit
  | [] => return ()
  | f :: fs => do
      fibreRun fuel f
      runEach fuel fs

namespace Sched

/-- The requests are appended to the run queue the other way round. -/
theorem Drain.reverse {s s' : Sched F} (h : Drain s s')
    (hquiet : s.interrupts = []) (hnodup : s.pending.Nodup)
    (hfree : ∀ f ∈ s.pending, f ∉ s.runq) :
    s'.interrupts = [] ∧ s'.runq = s.runq ++ s.pending.reverse ∧
      s'.timerq = s.timerq.diff s.pending := by
  have hidle : ∀ u : Sched F, u.interrupts = [] → u.interrupt = u := by
    intro u hu
    simp [interrupt, hu]
  induction h with
  | @empty s hpending =>
      rw [hidle s hquiet] at hpending ⊢
      simp [hquiet, hpending]
  | @entry s s₁ s₂ f fs hpending hinner houter ihinner ihouter =>
      have hreceive := hidle (s.receive f fs) hquiet
      rw [hidle s hquiet] at hpending hinner ihinner
      rw [hreceive] at hinner ihinner
      rw [hpending, List.nodup_cons] at hnodup
      have hrest : ∀ g ∈ fs, g ∉ s.runq := fun g hg =>
        hfree g (hpending ▸ List.mem_cons_of_mem f hg)
      obtain ⟨hint₁, hrunq₁, htimerq₁⟩ := ihinner hquiet hnodup.2 hrest
      simp only [receive] at hrunq₁ htimerq₁
      have hf : f ∉ s₁.runq := by
        rw [hrunq₁, List.mem_append, List.mem_reverse, not_or]
        exact ⟨hfree f (hpending ▸ List.mem_cons_self), hnodup.1⟩
      have henqueue : s₁.enqueue f = { s₁ with
          runq := s₁.runq ++ [f]
          timerq := s₁.timerq.erase f
          log := .run f :: s₁.log } := if_neg hf
      have hint₂ : (s₁.enqueue f).interrupts = [] := henqueue ▸ hint₁
      rw [hidle _ hint₂] at houter ihouter
      have hdone : (s₁.enqueue f).release.pending = [] := by
        rw [henqueue]
        exact hinner.pending
      obtain ⟨hint, hrunq, htimerq⟩ := ihouter hint₂
        (hdone ▸ List.nodup_nil) (by simp [hdone])
      rw [hdone, henqueue] at hrunq htimerq
      refine ⟨hint, ?_, ?_⟩
      · rw [hrunq, hpending]
        simp [release, hrunq₁]
      · rw [htimerq, hpending, List.diff_cons_right, ← htimerq₁]
        simp [release]

omit [DecidableEq F] in
theorem runAtomic_eq {s : Sched F} (h : s.Room) (f : F) :
    s.runAtomic f = { s with
      pending := s.pending ++ [f]
      log := .runAtomic f true :: s.log } := if_pos h

end Sched

section Specs

variable {s : Sched F} {w : World F}

omit [DecidableEq F] in
theorem runAtomicEach_spec (fs : List F) {s : Sched F} {w : World F}
    (h : w.Represents s)
    (hroom : s.pending.length + s.held.length + fs.length ≤ 8) :
    Prog.wp (runAtomicEach fs) (fun queued w' => queued = true ∧ ∃ log,
      w'.Represents { s with pending := s.pending ++ fs, log }) w := by
  induction fs generalizing s w with
  | nil =>
      refine ⟨rfl, s.log, ?_⟩
      rwa [List.append_nil]
  | cons f fs ih =>
      rw [List.length_cons] at hroom
      have hf : s.Room := by
        unfold Sched.Room
        omega
      simp only [runAtomicEach, Prog.wp_bind]
      refine Prog.wp_mono (fibreRunAtomic_spec h f) ?_
      rintro _ w₁ ⟨rfl, h₁⟩
      rw [Sched.runAtomic_eq hf] at h₁
      refine Prog.wp_mono (ih h₁ ?_) ?_
      · simp only [List.length_append, List.length_cons, List.length_nil]
        omega
      · rintro _ w₂ ⟨rfl, log, h₂⟩
        refine ⟨by simp [hf], log, ?_⟩
        rwa [List.append_assoc, List.singleton_append] at h₂

theorem runEach_spec (fs : List F) {s : Sched F} {w : World F}
    (h : w.Represents s) (hquiet : s.interrupts = []) (hpending : s.pending = [])
    (hnodup : fs.Nodup) (hfree : ∀ f ∈ fs, f ∉ s.runq) {fuel : Nat}
    (hfuel : s.weight + fs.length < fuel) :
    Prog.wp (runEach fuel fs) (fun _ w' => ∃ s', w'.Represents s' ∧
      s'.runq = s.runq ++ fs ∧ s'.timerq = s.timerq.diff fs) w := by
  induction fs generalizing s w with
  | nil => exact ⟨s, h, (List.append_nil _).symm, rfl⟩
  | cons f fs ih =>
      rw [List.nodup_cons] at hnodup
      rw [List.length_cons] at hfuel
      have hweight : s.weight < fuel := by omega
      simp only [runEach, Prog.wp_bind]
      refine Prog.wp_mono (fibreRun_spec h f hweight) ?_
      rintro _ w₁ ⟨s₁, hdrain, h₁⟩
      obtain ⟨hint₁, hrunq₁, htimerq₁⟩ := hdrain.reverse hquiet
        (hpending ▸ List.nodup_nil) (by simp [hpending])
      rw [hpending, List.reverse_nil, List.append_nil] at hrunq₁
      rw [hpending, List.diff_nil] at htimerq₁
      have hf : f ∉ s₁.runq := hrunq₁ ▸ hfree f List.mem_cons_self
      have hweight₁ := hdrain.weight_le
      have hweight₂ := s₁.enqueue_weight_le f
      rw [Sched.enqueue, if_neg hf] at h₁ hweight₂
      have hrest := ih h₁ hint₁ hdrain.pending hnodup.2 ?_ (by omega)
      · refine Prog.wp_mono hrest ?_
        rintro _ w₂ ⟨s₂, h₂, hrunq₂, htimerq₂⟩
        refine ⟨s₂, h₂, ?_, ?_⟩
        · rw [hrunq₂, hrunq₁, List.append_assoc, List.singleton_append]
        · rw [htimerq₂, htimerq₁, List.diff_cons]
      · intro g hg
        simp only [hrunq₁, List.mem_append, List.mem_singleton, not_or]
        refine ⟨hfree g (List.mem_cons_of_mem f hg), ?_⟩
        rintro rfl
        exact hnodup.1 hg

theorem runEach_le (fuel : Nat) (fs : List F) :
    Prog.Le (runEach fuel fs) (runEach (fuel + 1) fs) := by
  induction fs with
  | nil => exact .refl _
  | cons f fs ih => exact .bind (fibreRun_le fuel f) fun _ => ih

end Specs

omit [DecidableEq F] in
theorem length_le_one_of_reverse_eq {fs : List F} (hnodup : fs.Nodup)
    (h : fs.reverse = fs) : fs.length ≤ 1 := by
  match fs with
  | [] => exact Nat.zero_le 1
  | [_] => exact Nat.le_refl 1
  | f :: g :: fs =>
      have hlast := congrArg List.head? h
      rw [List.head?_reverse, List.getLast?_cons_cons, List.head?_cons] at hlast
      exact absurd (List.mem_of_getLast? hlast) (List.nodup_cons.mp hnodup).1

namespace System

/-- From a state with an empty atomic run queue, a drain of up to eight atomic
requests for fibres that are not queued leaves the queues that `fibre_run`
would leave if and only if there was one request. -/
theorem drain_in_order_iff {atomicRunqBuf : Nat} {eventq : F → Messageq}
    {steps : List (Step F)} {sys : System F}
    (hrun : Run (Next TimesOutFirst) (init atomicRunqBuf eventq) steps sys)
    (hempty : messageqEmpty sys.world.kernel.atomicRunq = true)
    {runq timerq : List F} (hqueues : sys.world.Queues runq timerq)
    {fs : List F} (hpos : 1 ≤ fs.length) (hlen : fs.length ≤ 8)
    (hnodup : fs.Nodup) (hfree : ∀ f ∈ fs, f ∉ runq) :
    ∃ w₁ w₂ w₃,
      runAtomicEach fs { sys.world with interrupts := [] } =
        .ok (true, w₁) ∧
      Prog.Returns handleAtomicRunq w₁ ((), w₂) ∧
      Prog.Returns (fun fuel => runEach fuel fs)
        { sys.world with interrupts := [] } ((), w₃) ∧
      ((∃ runq' timerq', w₂.Queues runq' timerq' ∧ w₃.Queues runq' timerq') ↔
        fs.length = 1) := by
  obtain ⟨s, hs⟩ := run_valid (fun _ _ _ => id) hrun
  obtain ⟨rfl, rfl⟩ := hqueues.unique hs.represents.queues
  have hpending : s.pending = [] := by
    rw [hs.represents.messageqEmpty_eq] at hempty
    exact of_decide_eq_true hempty
  have hw := hs.represents.withInterrupts []
  obtain ⟨_, w₁, hatomic, rfl, log, h₁⟩ := Prog.wp_iff_exists.mp
    (runAtomicEach_spec fs hw (by simpa [hpending, hs.inv.held] using hlen))
  rw [show ({ s with interrupts := [] } : Sched F).pending = [] from hpending,
    List.nil_append] at h₁
  obtain ⟨_, w₂, hdrained, s₂, hdrain, h₂⟩ := Prog.exists_returns
    handleAtomicRunq_le (handleAtomicRunq_spec _ h₁ (Nat.lt_succ_self _))
  obtain ⟨-, hrunq₂, htimerq₂⟩ := hdrain.reverse rfl hnodup hfree
  obtain ⟨_, w₃, hruns, s₃, h₃, hrunq₃, htimerq₃⟩ := Prog.exists_returns
    (fun fuel => runEach_le fuel fs)
    (runEach_spec fs hw rfl hpending hnodup hfree (Nat.lt_succ_self _))
  refine ⟨w₁, w₂, w₃, hatomic, hdrained, hruns, ?_, ?_⟩
  · rintro ⟨runq', timerq', hq₂, hq₃⟩
    have heq := (hq₂.unique h₂.queues).1.symm.trans (hq₃.unique h₃.queues).1
    rw [hrunq₂, hrunq₃] at heq
    have := length_le_one_of_reverse_eq hnodup (List.append_cancel_left heq)
    omega
  · intro hone
    obtain ⟨f, rfl⟩ := List.length_eq_one_iff.mp hone
    refine ⟨s₂.runq, s₂.timerq, h₂.queues, ?_⟩
    rw [hrunq₂, htimerq₂, List.reverse_singleton, ← hrunq₃, ← htimerq₃]
    exact h₃.queues

theorem drain_in_order_iff_one : ∃ w₁ w₂ w₃ : World Bool,
    runAtomicEach [true] (init 64 fun _ => messageqInit 0 32 4).world =
      .ok (true, w₁) ∧
    Prog.Returns handleAtomicRunq w₁ ((), w₂) ∧
    Prog.Returns (fun fuel => runEach fuel [true])
      (init 64 fun _ => messageqInit 0 32 4).world ((), w₃) ∧
    ((∃ runq timerq, w₂.Queues runq timerq ∧ w₃.Queues runq timerq) ↔
      [true].length = 1) :=
  drain_in_order_iff .nil (by decide +kernel)
    (init_represents 64 fun _ => messageqInit 0 32 4).queues (by decide)
    (by decide) (by decide) (by decide)

/-- Of two requests the second one is served first. -/
theorem atomic_reverses_two : ∃ w₁ w₂ w₃ : World Bool,
    runAtomicEach [false, true] (init 64 fun _ => messageqInit 0 32 4).world =
      .ok (true, w₁) ∧
    Prog.Returns handleAtomicRunq w₁ ((), w₂) ∧
    Prog.Returns (fun fuel => runEach fuel [false, true])
      (init 64 fun _ => messageqInit 0 32 4).world ((), w₃) ∧
    ¬ ∃ runq timerq, w₂.Queues runq timerq ∧ w₃.Queues runq timerq := by
  have hdrain : Prog.wp (runAtomicEach [false, true]) (fun queued w₁ =>
      queued = true ∧ Prog.wp (handleAtomicRunq 9) (fun _ w₂ =>
        w₂.kernel.lists.link (.head .runq) = some (.next true)) w₁)
      (init 64 fun _ => messageqInit 0 32 4).world := by
    decide +kernel
  have hruns : Prog.wp (runEach 9 [false, true]) (fun _ w₃ =>
      w₃.kernel.lists.link (.head .runq) = some (.next false))
      (init 64 fun _ => messageqInit 0 32 4).world := by
    decide +kernel
  obtain ⟨_, w₁, hatomic, rfl, hdrain⟩ := Prog.wp_iff_exists.mp hdrain
  obtain ⟨_, w₂, hdrained, hhead₂⟩ :=
    Prog.exists_returns handleAtomicRunq_le hdrain
  obtain ⟨_, w₃, hruns, hhead₃⟩ := Prog.exists_returns
    (m := fun fuel => runEach fuel [false, true])
    (fun fuel => runEach_le fuel _) hruns
  refine ⟨w₁, w₂, w₃, hatomic, hdrained, hruns, ?_⟩
  rintro ⟨runq, timerq, hq₂, hq₃⟩
  have heq := (ListMem.Represents.link_head hq₂ .runq).trans
    (ListMem.Represents.link_head hq₃ .runq).symm
  rw [hhead₂, hhead₃] at heq
  cases heq

end System

end Librfn
