import Librfn.Logic.Relational
import Librfn.Logic.Transition

/-!
# Functions that are called again and again

A resumable function keeps a point of control between its calls.  Its caller
may start it over, change the variables between two calls, and does not call it
again once it has ended.  Two such functions whose calls do the same thing have
the same histories.
-/

namespace Librfn.Logic

structure Resumable (κ σ ρ : Type) where
  start : κ
  ended : ρ → Bool
  call : Code (κ × σ) ρ

/-- What the caller does and sees. -/
inductive CallEvent (σ ρ : Type) where
  | init
  | changed (vars : σ)
  | returned (res : ρ) (vars : σ)
  | fault (e : Fault)

/-- `idle none` is a function that has ended and was not started over. -/
inductive CallStatus (κ σ : Type) where
  | idle (control : Option κ) (vars : σ)
  | faulted

namespace Resumable

variable {κ κ' σ ρ : Type}

inductive Step (f : Resumable κ σ ρ) :
    CallStatus κ σ → CallEvent σ ρ → CallStatus κ σ → Prop
  | init {control : Option κ} {s : σ} :
      Step f (.idle control s) .init (.idle (some f.start) s)
  | changed {control : Option κ} {s : σ} (s' : σ) :
      Step f (.idle control s) (.changed s') (.idle control s')
  | returned {k k' : κ} {s s' : σ} {res : ρ} :
      f.call.Returns (k, s) (res, k', s') →
      Step f (.idle (some k) s) (.returned res s')
        (.idle (if f.ended res then none else some k') s')
  | fault {k : κ} {s : σ} {e : Fault} {fuel : Nat} :
      f.call.run fuel (k, s) = .error e → e ≠ .outOfFuel →
      Step f (.idle (some k) s) (.fault e) .faulted

abbrev History (f : Resumable κ σ ρ) (s : σ) (events : List (CallEvent σ ρ)) : Prop :=
  ∃ t, Run f.Step (.idle (some f.start) s) events t

/-- The calls from related points do the same and end at related points. -/
def Alike (f : Resumable κ σ ρ) (g : Resumable κ' σ ρ) (R : κ → κ' → Prop) : Prop :=
  ∀ k k' s fuel, R k k' →
    Prog.Coupled (f.call.run fuel) (g.call.run fuel)
      (fun res t res' t' => res = res' ∧ t.2 = t'.2 ∧ (f.ended res = false → R t.1 t'.1))
      (k, s) (k', s)

inductive Related (R : κ → κ' → Prop) : CallStatus κ σ → CallStatus κ' σ → Prop
  | idle {k : κ} {k' : κ'} (s : σ) : R k k' → Related R (.idle (some k) s) (.idle (some k') s)
  | finished (s : σ) : Related R (.idle none s) (.idle none s)
  | faulted : Related R .faulted .faulted

theorem Alike.step {f : Resumable κ σ ρ} {g : Resumable κ' σ ρ} {R : κ → κ' → Prop}
    (h : Alike f g R) (hended : f.ended = g.ended) (hstart : R f.start g.start)
    {s t : CallStatus κ σ} {s' : CallStatus κ' σ} {event : CallEvent σ ρ}
    (hrel : Related R s s') (hstep : f.Step s event t) :
    ∃ t', g.Step s' event t' ∧ Related R t t' := by
  cases hstep with
  | init =>
      cases hrel with
      | idle _ _ => exact ⟨_, .init, .idle _ hstart⟩
      | finished _ => exact ⟨_, .init, .idle _ hstart⟩
  | changed s' =>
      cases hrel with
      | idle _ hk => exact ⟨_, .changed s', .idle s' hk⟩
      | finished _ => exact ⟨_, .changed s', .finished s'⟩
  | @returned k k₁ s s₁ res hcall =>
      cases hrel with
      | @idle _ k' _ hk =>
          obtain ⟨fuel, hfuel⟩ := Code.returns_iff.mp hcall
          obtain ⟨res', ⟨k₁', s₁'⟩, hg, rfl, hs, hR⟩ := (h k k' s fuel hk).ok hfuel
          cases hs
          refine ⟨_, .returned (Code.returns_iff.mpr ⟨fuel, hg⟩), ?_⟩
          rw [← hended]
          cases hend : f.ended res with
          | true => exact .finished s₁
          | false => exact .idle s₁ (hR hend)
  | @fault k s e fuel hcall hne =>
      cases hrel with
      | @idle _ k' _ hk => exact ⟨_, .fault ((h k k' s fuel hk).error hcall) hne, .faulted⟩

theorem Alike.history {f : Resumable κ σ ρ} {g : Resumable κ' σ ρ} {R : κ → κ' → Prop}
    (h : Alike f g R) (hended : f.ended = g.ended) (hstart : R f.start g.start) {s : σ}
    {events : List (CallEvent σ ρ)} (hist : f.History s events) : g.History s events := by
  obtain ⟨t, hrun⟩ := hist
  obtain ⟨t', hrun', -⟩ := hrun.simulation (.idle s hstart)
    fun _ _ _ _ hrel hstep => h.step hended hstart hrel hstep
  exact ⟨t', hrun'⟩

theorem Alike.symm {f : Resumable κ σ ρ} {g : Resumable κ' σ ρ} {R : κ → κ' → Prop}
    (h : Alike f g R) (hended : f.ended = g.ended) : Alike g f fun k' k => R k k' := by
  intro k' k s fuel hk
  refine (h k k' s fuel hk).symm.mono fun res t res' t' => ?_
  rintro ⟨rfl, hvars, hR⟩
  exact ⟨rfl, hvars.symm, by rwa [← hended]⟩

theorem Alike.history_iff {f : Resumable κ σ ρ} {g : Resumable κ' σ ρ} {R : κ → κ' → Prop}
    (h : Alike f g R) (hended : f.ended = g.ended) (hstart : R f.start g.start) {s : σ}
    {events : List (CallEvent σ ρ)} : f.History s events ↔ g.History s events :=
  ⟨h.history hended hstart, (h.symm hended).history hended.symm hstart⟩

end Resumable

end Librfn.Logic
