import Mathlib.Tactic.Common

/-!
# Labelled transition systems

Finite runs of a labelled step relation, with the labels kept in order, and
the two rules used on them: an invariant is proved one step at a time, and a
simulation carries a run of one system over to another.
-/

namespace Librfn.Logic

variable {σ τ L : Type}

/-- `Run step s ls t`: the steps labelled `ls` lead from `s` to `t`. -/
inductive Run (step : σ → L → σ → Prop) (s : σ) : List L → σ → Prop
  | nil : Run step s [] s
  | snoc {ls : List L} {t : σ} {l : L} {u : σ} :
      Run step s ls t → step t l u → Run step s (ls ++ [l]) u

namespace Run

variable {step : σ → L → σ → Prop} {step' : τ → L → τ → Prop}

theorem single {s t : σ} {l : L} (h : step s l t) : Run step s [l] t :=
  Run.snoc (.nil : Run step s [] s) h

theorem append {s t u : σ} {ls ms : List L} (h : Run step s ls t)
    (h' : Run step t ms u) : Run step s (ls ++ ms) u := by
  induction h' with
  | nil => simpa using h
  | snoc _ hstep ih =>
      rw [← List.append_assoc]
      exact .snoc ih hstep

theorem cons {s t u : σ} {l : L} {ls : List L} (h : step s l t)
    (h' : Run step t ls u) : Run step s (l :: ls) u :=
  (single h).append h'

theorem of_nil {s t : σ} (h : Run step s [] t) : t = s := by
  generalize hls : ([] : List L) = ls at h
  cases h with
  | nil => rfl
  | snoc _ _ => simp at hls

theorem of_single {s t : σ} {l : L} (h : Run step s [l] t) : step s l t := by
  generalize hls : [l] = ls at h
  cases h with
  | nil => cases hls
  | @snoc ls u l' _ hrun hstep =>
      obtain ⟨rfl, rfl⟩ : ls = [] ∧ l' = l := by
        simpa [List.append_eq_cons_iff] using hls.symm
      rwa [of_nil hrun] at hstep

theorem of_snoc {s t : σ} {ls : List L} {l : L} (h : Run step s (ls ++ [l]) t) :
    ∃ u, Run step s ls u ∧ step u l t := by
  generalize hms : ls ++ [l] = ms at h
  cases h with
  | nil => simp at hms
  | @snoc ms u m _ hrun hstep =>
      obtain ⟨rfl, hlm⟩ := List.append_inj' hms rfl
      cases hlm
      exact ⟨u, hrun, hstep⟩

theorem of_cons {s t : σ} {l : L} {ls : List L} (h : Run step s (l :: ls) t) :
    ∃ u, step s l u ∧ Run step u ls t := by
  generalize hms : l :: ls = ms at h
  induction h generalizing ls with
  | nil => cases hms
  | @snoc ms t m u hrun hstep ih =>
      cases ms with
      | nil =>
          cases hms
          exact ⟨u, hrun.of_nil ▸ hstep, .nil⟩
      | cons m' ms =>
          cases hms
          obtain ⟨v, hfirst, hrest⟩ := ih rfl
          exact ⟨v, hfirst, .snoc hrest hstep⟩

theorem unique {s t t' : σ} {ls : List L} (h : Run step s ls t)
    (h' : Run step s ls t')
    (hstep : ∀ u l v v', step u l v → step u l v' → v = v') : t = t' := by
  induction h generalizing t' with
  | nil => exact h'.of_nil.symm
  | snoc _ hlast ih =>
      obtain ⟨u, hrun, hlast'⟩ := h'.of_snoc
      cases ih hrun
      exact hstep _ _ _ _ hlast hlast'

theorem mono {step step' : σ → L → σ → Prop} {s t : σ} {ls : List L}
    (hrun : Run step s ls t)
    (hstep : ∀ u l v, l ∈ ls → step u l v → step' u l v) : Run step' s ls t := by
  induction hrun with
  | nil => exact .nil
  | snoc _ h ih =>
      refine .snoc (ih fun u l v hl => hstep u l v (List.mem_append_left _ hl)) ?_
      exact hstep _ _ _ (List.mem_append_right _ List.mem_cons_self) h

/-- What holds at the start and is kept by every step holds after every run. -/
theorem invariant {I : σ → Prop} {s t : σ} {ls : List L}
    (hrun : Run step s ls t) (hinit : I s)
    (hstep : ∀ u l v, I u → step u l v → I v) : I t := by
  induction hrun with
  | nil => exact hinit
  | snoc _ h ih => exact hstep _ _ _ ih h

/-- The invariant rule for a property of the state and the labels so far. -/
theorem traceInvariant {I : List L → σ → Prop} {s t : σ} {ls : List L}
    (hrun : Run step s ls t) (hinit : I [] s)
    (hstep : ∀ ms u l v, I ms u → step u l v → I (ms ++ [l]) v) :
    I ls t := by
  induction hrun with
  | nil => exact hinit
  | snoc _ h ih => exact hstep _ _ _ _ ih h

/-- A forward simulation maps runs to runs. -/
theorem simulation {R : σ → τ → Prop} {s t : σ} {s' : τ} {ls : List L}
    (hrun : Run step s ls t) (hinit : R s s')
    (hstep : ∀ u l v u', R u u' → step u l v → ∃ v', step' u' l v' ∧ R v v') :
    ∃ t', Run step' s' ls t' ∧ R t t' := by
  induction hrun with
  | nil => exact ⟨s', .nil, hinit⟩
  | snoc _ h ih =>
      obtain ⟨u', hu, hR⟩ := ih
      obtain ⟨v', hv, hR'⟩ := hstep _ _ _ _ hR h
      exact ⟨v', .snoc hu hv, hR'⟩

end Run

end Librfn.Logic
