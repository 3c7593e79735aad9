import Librfn.Logic.Transition

/-!
# Systems that wait for inputs

A state either goes on by itself, in one way, or waits for an input, and what
an input does is determined.  Then only the inputs matter, not when they come.
-/

namespace Librfn.Logic

variable {σ β γ : Type}

/-- The label of a step is its input, if it takes one, and its output. -/
structure InputDriven (step : σ → Option β × List γ → σ → Prop) : Prop where
  unique : ∀ {s t t' i o o'}, step s (i, o) t → step s (i, o') t' → o = o' ∧ t = t'
  waits : ∀ {s t t' b o o'}, step s (none, o) t → ¬ step s (some b, o') t'

def Waiting (step : σ → Option β × List γ → σ → Prop) (s : σ) : Prop :=
  ∀ o t, ¬ step s (none, o) t

def inputs (ls : List (Option β × List γ)) : List β := ls.filterMap Prod.fst

def outputs (ls : List (Option β × List γ)) : List γ := ls.flatMap Prod.snd

section

variable {step : σ → Option β × List γ → σ → Prop} {s t t' : σ}
  {ls ls' : List (Option β × List γ)}

/-- A run that has stopped at `s` is the whole of any run with no more inputs. -/
theorem InputDriven.stopped (hwait : Waiting step s) (hrun : Run step s ls t)
    (hin : inputs ls = []) : t = s ∧ outputs ls = [] := by
  cases ls with
  | nil => exact ⟨hrun.of_nil, rfl⟩
  | cons l ls =>
      obtain ⟨u, hfirst, -⟩ := hrun.of_cons
      obtain ⟨_ | b, o⟩ := l
      · exact absurd hfirst (hwait o u)
      · exact absurd hin (List.cons_ne_nil _ _)

/-- Two runs that took the same inputs and then wait have done the same. -/
theorem InputDriven.confluent (h : InputDriven step) (hrun : Run step s ls t)
    (hrun' : Run step s ls' t') (hin : inputs ls = inputs ls') (ht : Waiting step t)
    (ht' : Waiting step t') : t = t' ∧ outputs ls = outputs ls' := by
  induction ls generalizing s ls' with
  | nil =>
      have hs := hrun.of_nil
      subst hs
      obtain ⟨rfl, hout⟩ := InputDriven.stopped ht hrun' hin.symm
      exact ⟨rfl, hout.symm⟩
  | cons l ls ih =>
      cases ls' with
      | nil =>
          have hs := hrun'.of_nil
          subst hs
          exact InputDriven.stopped ht' hrun hin
      | cons l' ls' =>
          obtain ⟨u, hfirst, hrest⟩ := hrun.of_cons
          obtain ⟨u', hfirst', hrest'⟩ := hrun'.of_cons
          have hstep : ∀ {i o o'}, l = (i, o) → l' = (i, o') → inputs ls = inputs ls' →
              t = t' ∧ outputs (l :: ls) = outputs (l' :: ls') := by
            rintro i o o' rfl rfl heq
            obtain ⟨rfl, rfl⟩ := h.unique hfirst hfirst'
            obtain ⟨rfl, hout⟩ := ih hrest hrest' heq
            exact ⟨rfl, congrArg (o ++ ·) hout⟩
          obtain ⟨_ | b, o⟩ := l <;> obtain ⟨_ | b', o'⟩ := l'
          · exact hstep rfl rfl hin
          · exact absurd hfirst' (h.waits hfirst)
          · exact absurd hfirst (h.waits hfirst')
          · obtain ⟨rfl, heq⟩ := List.cons.inj hin
            exact hstep rfl rfl heq

end

end Librfn.Logic
