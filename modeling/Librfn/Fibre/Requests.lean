import Librfn.Fibre.Queues

/-!
# Requests

Every operation that makes a fibre runnable puts it where the next dispatch
will find it, so the fibres that were asked to run and the fibres that are
queued grow together until one of them is dispatched.
-/

namespace Librfn

open Librfn.Logic

variable {F : Type}

def FibreEvent.Wakes (event : FibreEvent F) (f : F) : Prop :=
  event = .run f ∨ event = .runAtomic f true ∨ event = .expired f ∨
    event = .returned f .yielded

/-- The fibre was made runnable after it was last dispatched. -/
def Pending : List (FibreEvent F) → F → Prop
  | [], _ => False
  | event :: log, f => event ≠ .dispatched f ∧ (event.Wakes f ∨ Pending log f)

/-- Every dispatch answers a request that was made since the one before it. -/
def Caused (log : List (FibreEvent F)) : Prop :=
  ∀ later earlier f, log = later ++ .dispatched f :: earlier → Pending earlier f

def Undisturbed (log log' : List (FibreEvent F)) : Prop :=
  ∀ new, log' = new ++ log → ∀ f queued, .runAtomic f queued ∉ new

theorem pending_append {new log : List (FibreEvent F)}
    (hnew : ∀ f, .dispatched f ∉ new) (f : F) :
    Pending (new ++ log) f ↔ Pending log f ∨ ∃ event ∈ new, event.Wakes f := by
  induction new with
  | nil => simp
  | cons event new ih =>
      have hne : event ≠ .dispatched f := fun heq =>
        hnew f (heq ▸ List.mem_cons_self)
      have ih' := ih fun g hg => hnew g (List.mem_cons_of_mem event hg)
      change event ≠ .dispatched f ∧ (event.Wakes f ∨ Pending (new ++ log) f) ↔ _
      rw [ih', List.exists_mem_cons_iff, and_iff_right hne]
      exact or_left_comm

theorem pending_dispatched {log : List (FibreEvent F)} {f g : F} :
    Pending (.dispatched f :: log) g ↔ f ≠ g ∧ Pending log g := by
  simp [Pending, FibreEvent.Wakes]

theorem Caused.cons {log : List (FibreEvent F)} {event : FibreEvent F}
    (h : Caused log) (hevent : ∀ f, event = .dispatched f → Pending log f) :
    Caused (event :: log) := by
  intro later earlier f heq
  cases later with
  | nil =>
      cases heq
      exact hevent f rfl
  | cons event later =>
      cases heq
      exact h later earlier f rfl

theorem Caused.append {log new : List (FibreEvent F)} (h : Caused log)
    (hnew : ∀ f, .dispatched f ∉ new) : Caused (new ++ log) := by
  induction new with
  | nil => exact h
  | cons event new ih =>
      refine (ih fun f hf => hnew f (List.mem_cons_of_mem event hf)).cons ?_
      rintro f rfl
      exact absurd List.mem_cons_self (hnew f)

namespace Sched

def Queued (s : Sched F) (f : F) : Prop :=
  f ∈ s.runq ∨ f ∈ s.pending ∨ f ∈ s.held

/-! ## Requests -/

/-- From `s` to `s'` fibres were made runnable and none was dispatched. -/
def Requests (s s' : Sched F) : Prop :=
  ∃ new, s'.log = new ++ s.log ∧ (∀ f, .dispatched f ∉ new) ∧
    (∀ f, s'.Queued f ↔ s.Queued f ∨ ∃ event ∈ new, event.Wakes f) ∧
    ∀ f ∈ s'.pending, f ∈ s.pending ∨ .runAtomic f true ∈ new

namespace Requests

variable {s s' s'' : Sched F}

theorem of_eq (hrunq : s'.runq = s.runq) (hpending : s'.pending = s.pending)
    (hheld : s'.held = s.held) (hlog : s'.log = s.log) : Requests s s' := by
  refine ⟨[], hlog, fun _ => List.not_mem_nil, ?_, ?_⟩
  · simp [Queued, hrunq, hpending, hheld]
  · intro f hf
    exact .inl (hpending ▸ hf)

theorem refl (s : Sched F) : Requests s s := of_eq rfl rfl rfl rfl

theorem trans (h : Requests s s') (h' : Requests s' s'') : Requests s s'' := by
  obtain ⟨new, hlog, hnew, hqueued, hpending⟩ := h
  obtain ⟨new', hlog', hnew', hqueued', hpending'⟩ := h'
  refine ⟨new' ++ new, ?_, ?_, ?_, ?_⟩
  · rw [hlog', hlog, List.append_assoc]
  · intro f hf
    rcases List.mem_append.mp hf with hf | hf
    · exact hnew' f hf
    · exact hnew f hf
  · intro f
    rw [hqueued', hqueued]
    simp only [List.mem_append, or_and_right, exists_or]
    rw [or_assoc]
    exact or_congr_right or_comm
  · intro f hf
    rcases hpending' f hf with hf | hf
    · rcases hpending f hf with hf | hf
      · exact .inl hf
      · exact .inr (List.mem_append_right _ hf)
    · exact .inr (List.mem_append_left _ hf)

theorem pending_iff (h : Requests s s') : ∃ Asked : F → Prop, ∀ f,
    (s'.Queued f ↔ s.Queued f ∨ Asked f) ∧
      (Pending s'.log f ↔ Pending s.log f ∨ Asked f) := by
  obtain ⟨new, hlog, hnew, hqueued, -⟩ := h
  refine ⟨fun f => ∃ event ∈ new, event.Wakes f, fun f => ⟨hqueued f, ?_⟩⟩
  rw [hlog]
  exact pending_append hnew f

theorem caused (h : Requests s s') (hcaused : Caused s.log) :
    Caused s'.log := by
  obtain ⟨new, hlog, hnew, -⟩ := h
  rw [hlog]
  exact hcaused.append hnew

end Requests

theorem runAtomic_requests (s : Sched F) (f : F) :
    Requests s (s.runAtomic f) := by
  unfold runAtomic
  split
  · refine ⟨[.runAtomic f true], rfl, by simp, ?_, ?_⟩
    · intro g
      simp only [Queued, FibreEvent.Wakes, List.mem_append, List.mem_singleton,
        exists_eq_left, FibreEvent.runAtomic.injEq, reduceCtorEq, and_true,
        false_or, or_false]
      tauto
    · simp
  · refine ⟨[.runAtomic f false], rfl, by simp, ?_, fun g hg => .inl hg⟩
    intro g
    simp [Queued, FibreEvent.Wakes]

variable [DecidableEq F]

theorem handlerCall_requests (s : Sched F) (call : HandlerCall F) :
    Requests s (s.handlerCall call) := by
  cases call with
  | runAtomic f => exact s.runAtomic_requests f
  | eventqClaim f =>
      change Requests s (s.produceClaim f)
      unfold produceClaim
      split <;> exact .of_eq rfl rfl rfl rfl
  | eventqSend f event =>
      change Requests s (s.produceSend f event)
      unfold produceSend
      split
      · rename_i evtp _
        have hsend : Requests s (s.sendEvent f evtp) := .of_eq rfl rfl rfl rfl
        exact (hsend.trans ((s.sendEvent f evtp).runAtomic_requests f)).trans
          (.of_eq rfl rfl rfl rfl)
      · exact .refl s

theorem interrupt_requests (s : Sched F) : Requests s s.interrupt := by
  refine interrupt_invariant (I := Requests s) (.refl s) ?_ ?_
  · intro u interrupts hu
    exact hu.trans (.of_eq rfl rfl rfl rfl)
  · intro u call hu
    exact hu.trans (u.handlerCall_requests call)

theorem enqueue_requests (s : Sched F) (f : F) : Requests s (s.enqueue f) := by
  have hwakes : ∀ g, (∃ event ∈ [FibreEvent.run f], event.Wakes g) ↔ f = g := by
    intro g
    simp [FibreEvent.Wakes]
  unfold enqueue
  split
  · rename_i hf
    refine ⟨[.run f], rfl, by simp, ?_, fun g hg => .inl hg⟩
    intro g
    rw [hwakes]
    constructor
    · exact .inl
    · rintro (hg | rfl)
      · exact hg
      · exact .inl hf
  · refine ⟨[.run f], rfl, by simp, ?_, fun g hg => .inl hg⟩
    intro g
    rw [hwakes]
    simp only [Queued, List.mem_append, List.mem_singleton]
    tauto

omit [DecidableEq F] in
theorem receive_requests {s : Sched F} {f : F} {fs : List F}
    (h : s.pending = f :: fs) : Requests s (s.receive f fs) := by
  refine ⟨[], rfl, fun _ => List.not_mem_nil, ?_, ?_⟩
  · intro g
    simp only [Queued, receive, h, List.mem_cons, List.not_mem_nil, false_and,
      exists_false, or_false]
    tauto
  · intro g hg
    exact .inl (h ▸ List.mem_cons_of_mem f hg)

omit [DecidableEq F] in
theorem release_requests {s : Sched F} {f : F} {fs : List F}
    (h : s.held = f :: fs) (hf : f ∈ s.runq) : Requests s s.release := by
  refine ⟨[], rfl, fun _ => List.not_mem_nil, ?_, fun g hg => .inl hg⟩
  intro g
  simp only [Queued, release, h, List.tail_cons, List.mem_cons,
    List.not_mem_nil, false_and, exists_false, or_false]
  constructor
  · tauto
  · rintro (hg | hg | rfl | hg)
    · exact .inl hg
    · exact .inr (.inl hg)
    · exact .inl hf
    · exact .inr (.inr hg)

theorem mem_enqueue_runq (s : Sched F) (f : F) : f ∈ (s.enqueue f).runq := by
  unfold enqueue
  split
  · assumption
  · exact List.mem_append_right _ List.mem_cons_self

theorem Drain.requests {s s' : Sched F} (h : Drain s s') : Requests s s' := by
  refine h.invariant (I := Requests s) (.refl s) ?_ ?_ ?_
  · exact fun u hu => hu.trans u.interrupt_requests
  · exact fun u f fs hu hpending => hu.trans (receive_requests hpending)
  · intro u f fs hu hheld
    have hsame := (u.enqueue f).interrupt_same
    have hheld' : (u.enqueue f).interrupt.held = f :: fs := by
      rw [hsame.held, enqueue_held, hheld]
    have hmem : f ∈ (u.enqueue f).interrupt.runq := by
      rw [hsame.runq]
      exact u.mem_enqueue_runq f
    exact (hu.trans ((u.enqueue_requests f).trans
      (u.enqueue f).interrupt_requests)).trans (release_requests hheld' hmem)

omit [DecidableEq F] in
theorem expire_requests (s : Sched F) : Requests s s.expire := by
  refine ⟨((s.timerq.takeWhile s.Due).map .expired).reverse, rfl, ?_, ?_,
    fun f hf => .inl hf⟩
  · intro f hf
    simp only [List.mem_reverse, List.mem_map, reduceCtorEq, and_false,
      exists_false] at hf
  · intro f
    have hwakes : (∃ event ∈ ((s.timerq.takeWhile s.Due).map FibreEvent.expired).reverse,
        event.Wakes f) ↔ f ∈ s.timerq.takeWhile s.Due := by
      simp [FibreEvent.Wakes]
    rw [hwakes]
    simp only [Queued, expire, List.mem_append]
    tauto

/-! ## Up to the next dispatch -/

omit [DecidableEq F] in
def Woken (s : Sched F) (idle : Option F) : Prop :=
  ∀ f, Pending s.log f → s.Queued f ∨ idle = some f

omit [DecidableEq F] in
def Justified (s : Sched F) (idle : Option F) : Prop :=
  ∀ f, s.Queued f ∨ idle = some f → Pending s.log f

section

variable {s s' : Sched F} {idle : Option F}

omit [DecidableEq F]

theorem Woken.requests (h : s.Woken idle) (hr : Requests s s') :
    s'.Woken idle := by
  obtain ⟨Asked, hasked⟩ := hr.pending_iff
  intro f hf
  rw [(hasked f).2] at hf
  rw [(hasked f).1]
  rcases hf with hf | hf
  · exact (h f hf).imp_left .inl
  · exact .inl (.inr hf)

theorem Justified.requests (h : s.Justified idle) (hr : Requests s s') :
    s'.Justified idle := by
  obtain ⟨Asked, hasked⟩ := hr.pending_iff
  intro f hf
  rw [(hasked f).1] at hf
  rw [(hasked f).2]
  rcases hf with (hf | hf) | hf
  · exact .inl (h f (.inl hf))
  · exact .inr hf
  · exact .inl (h f (.inr hf))

theorem Woken.absorb {f : F} (h : s.Woken (some f)) (hf : s.Queued f) :
    s.Woken none := by
  intro g hg
  rcases h g hg with hg | hg
  · exact .inl hg
  · cases hg
    exact .inl hf

theorem Justified.absorb (h : s.Justified idle) : s.Justified none :=
  fun f hf => h f (.inl (hf.resolve_right nofun))

theorem Woken.nextTask (h : s.Woken none) :
    s.nextTask.Woken s.nextTask.current := by
  intro f hf
  rcases (h f hf).resolve_right nofun with hrunq | hrest
  · cases hs : s.runq with
    | nil =>
        rw [hs] at hrunq
        cases hrunq
    | cons g fs =>
        rw [hs] at hrunq
        rcases List.mem_cons.mp hrunq with rfl | hmem
        · exact .inr (by simp [Sched.nextTask, hs])
        · exact .inl (.inl (by simpa [Sched.nextTask, hs] using hmem))
  · exact .inl (.inr hrest)

theorem Justified.nextTask (h : s.Justified none) :
    s.nextTask.Justified s.nextTask.current := by
  rintro f ((hrunq | hrest) | hcurrent)
  · exact h f (.inl (.inl (List.mem_of_mem_tail hrunq)))
  · exact h f (.inl (.inr hrest))
  · exact h f (.inl (.inl (List.mem_of_head? hcurrent)))

theorem Woken.dispatch (h : s.Woken s.current) : s.dispatch.Woken none := by
  unfold Sched.dispatch
  split
  · rename_i hcurrent
    rwa [hcurrent] at h
  · rename_i f hcurrent
    intro g hg
    obtain ⟨hne, hg⟩ := pending_dispatched.mp hg
    refine .inl ((h g hg).resolve_right ?_)
    rw [hcurrent]
    rintro ⟨⟩
    exact hne rfl

/-- A fibre with a second request when it is dispatched will be dispatched once
more than was asked for. -/
theorem Justified.dispatch (h : s.Justified s.current) (hcaused : Caused s.log)
    (hfree : ∀ f, s.current = some f → ¬ s.Queued f) :
    s.dispatch.Justified none ∧ Caused s.dispatch.log := by
  unfold Sched.dispatch
  split
  · rename_i hcurrent
    rw [hcurrent] at h
    exact ⟨h, hcaused⟩
  · rename_i f hcurrent
    refine ⟨?_, hcaused.cons ?_⟩
    · intro g hg
      have hg := hg.resolve_right nofun
      refine pending_dispatched.mpr ⟨?_, h g (.inl hg)⟩
      rintro rfl
      exact hfree f hcurrent hg
    · rintro g ⟨⟩
      exact h f (.inr hcurrent)

end

/-! ## A whole pass -/

/-- The fibre that is on no queue because it has just yielded. -/
def justYielded (s : Sched F) : Option F :=
  if s.state = .yielded then s.current else none

omit [DecidableEq F] in
theorem justYielded_eq {s s' : Sched F} (h : Drained s s') :
    s'.justYielded = s.justYielded := by
  unfold justYielded
  rw [h.state, h.current]

theorem storeState_requests (s : Sched F) (f : F) :
    Requests s (s.storeState f) := .of_eq rfl rfl rfl rfl

theorem UpdateCurrent.requests {f : F} {s s' : Sched F}
    (h : UpdateCurrent f s s') : Requests s s' := by
  cases h with
  | yielded _ hdrain =>
      exact ((storeState_requests s f).trans hdrain.requests).trans
        (enqueue_requests _ f)
  | waiting _ => exact .of_eq rfl rfl rfl rfl
  | exited _ => exact .of_eq rfl rfl rfl rfl
  | failed _ => exact .of_eq rfl rfl rfl rfl

theorem Update.requests {s s' : Sched F} (h : Update s s') : Requests s s' := by
  cases h with
  | idle hdrain _ =>
      exact (hdrain.requests.trans (interrupt_requests _)).trans
        (interrupt_requests _)
  | current hdrain _ hupdate =>
      exact ((hdrain.requests.trans (interrupt_requests _)).trans
        hupdate.requests).trans (interrupt_requests _)

theorem Update.woken {s s' : Sched F} (h : Update s s')
    (hw : s.Woken s.justYielded) : s'.Woken none := by
  cases h with
  | @idle s₁ hdrain hnone =>
      have hw₁ := hw.requests (hdrain.requests.trans (interrupt_requests _))
      rw [← justYielded_eq (hdrain.drained.trans (interrupt_same _).drained),
        justYielded, hnone, ite_self] at hw₁
      exact hw₁.requests (interrupt_requests _)
  | @current s₁ s₂ f hdrain hcurrent hupdate =>
      have hw₁ := hw.requests (hdrain.requests.trans (interrupt_requests _))
      rw [← justYielded_eq (hdrain.drained.trans (interrupt_same _).drained)] at hw₁
      have hw₂ := hw₁.requests hupdate.requests
      refine Woken.requests ?_ (interrupt_requests _)
      unfold justYielded at hw₂
      cases hupdate with
      | yielded hstate _ =>
          rw [if_pos hstate, hcurrent] at hw₂
          exact hw₂.absorb (.inl (mem_enqueue_runq _ f))
      | waiting hstate => rwa [if_neg (by simp [hstate])] at hw₂
      | exited hstate => rwa [if_neg (by simp [hstate])] at hw₂
      | failed hstate => rwa [if_neg (by simp [hstate])] at hw₂

theorem Pass.woken {time : BitVec 32} {s s' : Sched F} (h : Pass time s s')
    (hw : s.Woken s.justYielded) : s'.Woken none := by
  have hnow : Requests s ({ s with now := time }).interrupt :=
    Requests.trans (.of_eq rfl rfl rfl rfl) (interrupt_requests _)
  have hsame := interrupt_same { s with now := time }
  have hw₁ := hw.requests hnow
  cases h with
  | fast hfast =>
      have hidle : s.justYielded = ({ s with now := time }).interrupt.interrupt.current := by
        have hstate : s.state = .yielded := hsame.state.symm.trans hfast.1
        rw [justYielded, if_pos hstate, (interrupt_same _).current, hsame.current]
      rw [hidle] at hw₁
      exact (hw₁.requests (interrupt_requests _)).dispatch
  | @slow s₁ _ hupdate =>
      have hidle : ({ s with now := time }).interrupt.justYielded = s.justYielded := by
        rw [justYielded, hsame.state, hsame.current]
        rfl
      rw [← hidle] at hw₁
      have hw₂ := (hupdate.woken hw₁).requests
        ((expire_requests s₁).trans (interrupt_requests _))
      have hw₃ := hw₂.nextTask.requests (interrupt_requests _)
      rw [← (interrupt_same s₁.expire.interrupt.nextTask).current] at hw₃
      exact hw₃.dispatch

/-- The log grows, and entries do not come from nowhere. -/
def Logged (s s' : Sched F) : Prop :=
  ∃ new, s'.log = new ++ s.log ∧
    ∀ f ∈ s'.pending, f ∈ s.pending ∨ .runAtomic f true ∈ new

section

variable {s s' s'' : Sched F}

omit [DecidableEq F]

theorem Requests.logged (h : Requests s s') : Logged s s' := by
  obtain ⟨new, hlog, -, -, hpending⟩ := h
  exact ⟨new, hlog, hpending⟩

theorem nextTask_logged (s : Sched F) : Logged s s.nextTask :=
  ⟨[], rfl, fun _ hf => .inl hf⟩

theorem dispatch_logged (s : Sched F) : Logged s s.dispatch := by
  unfold Sched.dispatch
  split
  · exact ⟨[], rfl, fun _ hf => .inl hf⟩
  · rename_i f _
    exact ⟨[.dispatched f], rfl, fun _ hf => .inl hf⟩

theorem Logged.trans (h : Logged s s') (h' : Logged s' s'') : Logged s s'' := by
  obtain ⟨new, hlog, hpending⟩ := h
  obtain ⟨new', hlog', hpending'⟩ := h'
  refine ⟨new' ++ new, by rw [hlog', hlog, List.append_assoc], ?_⟩
  intro f hf
  rcases hpending' f hf with hf | hf
  · exact (hpending f hf).imp_right (List.mem_append_right _)
  · exact .inr (List.mem_append_left _ hf)

theorem Logged.undisturbed (h : Logged s s') (h' : Logged s' s'')
    (hpending : s'.pending = []) (hquiet : Undisturbed s.log s''.log) :
    s''.pending = [] := by
  obtain ⟨new, hlog, -⟩ := h
  obtain ⟨new', hlog', hpending'⟩ := h'
  refine List.eq_nil_iff_forall_not_mem.mpr ?_
  intro f hf
  rcases hpending' f hf with hf | hf
  · rw [hpending] at hf
    cases hf
  · refine hquiet (new' ++ new) ?_ f true (List.mem_append_left _ hf)
    rw [hlog', hlog, List.append_assoc]

end

theorem Update.drained_first {s s' : Sched F} (h : Update s s') :
    ∃ s₀, Requests s s₀ ∧ s₀.pending = [] ∧ Requests s₀ s' := by
  cases h with
  | @idle s₁ hdrain _ =>
      exact ⟨s₁, hdrain.requests, hdrain.pending,
        (interrupt_requests _).trans (interrupt_requests _)⟩
  | @current s₁ _ _ hdrain _ hupdate =>
      exact ⟨s₁, hdrain.requests, hdrain.pending,
        ((interrupt_requests _).trans hupdate.requests).trans
          (interrupt_requests _)⟩

theorem Pass.justified {time : BitVec 32} {s s' : Sched F} (h : Pass time s s')
    (hd : Distinct s) (hheld : s.held = [])
    (hquiet : s'.current ≠ none → Undisturbed s.log s'.log)
    (hj : s.Justified s.justYielded) (hcaused : Caused s.log) :
    s'.Justified none ∧ Caused s'.log := by
  have hpassed := h.passed hd
  have hnow : Requests s ({ s with now := time }).interrupt :=
    Requests.trans (.of_eq rfl rfl rfl rfl) (interrupt_requests _)
  have hsame := interrupt_same { s with now := time }
  have hdispatch : ∀ u : Sched F, u.dispatch = s' →
      (s'.current ≠ none → s'.pending = []) →
      ∀ f, u.current = some f → ¬ u.Queued f := by
    intro u hu hpending f hcurrent hqueued
    have hsame' := dispatch_same u
    rw [hu] at hsame'
    rw [dispatch_some hcurrent] at hu
    have hpending := hpending (by simp [hsame'.current, hcurrent])
    obtain ⟨hrunq, -⟩ := hpassed.free f (hsame'.current.trans hcurrent)
    rcases hqueued with hf | hf | hf
    · rw [hsame'.runq] at hrunq
      exact hrunq hf
    · rw [← hu] at hpending
      change u.pending = [] at hpending
      rw [hpending] at hf
      cases hf
    · rw [← hsame'.held, hpassed.held, hheld] at hf
      cases hf
  cases h with
  | fast hfast =>
      have hall := hnow.trans (interrupt_requests _)
      have hidle : s.justYielded = ({ s with now := time }).interrupt.interrupt.current := by
        have hstate : s.state = .yielded := hsame.state.symm.trans hfast.1
        rw [justYielded, if_pos hstate, (interrupt_same _).current, hsame.current]
      have hpending := fun hne => hnow.logged.undisturbed
        ((interrupt_requests _).logged.trans (dispatch_logged _)) hfast.2.2.2
        (hquiet hne)
      have hj₁ := hj.requests hall
      rw [hidle] at hj₁
      exact hj₁.dispatch (hall.caused hcaused) (hdispatch _ rfl hpending)
  | @slow s₁ _ hupdate =>
      obtain ⟨s₀, h₀, hdrained, h₁⟩ := hupdate.drained_first
      have h₂ : Requests s₁ s₁.expire.interrupt :=
        (expire_requests s₁).trans (interrupt_requests _)
      have h₃ := interrupt_requests s₁.expire.interrupt.nextTask
      have hpending := fun hne => (hnow.trans h₀).logged.undisturbed
        (((h₁.trans h₂).logged.trans (nextTask_logged _)).trans
          (h₃.logged.trans (dispatch_logged _))) hdrained (hquiet hne)
      have hall := (hnow.trans hupdate.requests).trans h₂
      have hj₃ := ((hj.requests hall).absorb.nextTask).requests h₃
      rw [← (interrupt_same s₁.expire.interrupt.nextTask).current] at hj₃
      exact hj₃.dispatch (h₃.caused (hall.caused hcaused))
        (hdispatch _ rfl hpending)

end Sched

end Librfn
