import Librfn.Logic.Relational
import Mathlib.Data.List.Nodup

/-!
# Jumping into a statement

C statements with `case` labels inside them.  A `switch` goes on at one of its
labels, however deep the label stands: `seek` is what is left to execute from
there.
-/

namespace Librfn.Logic

inductive Stmt (τ ρ : Type) where
  | skip
  | act (m : Code τ Unit)
  | seq (s t : Stmt τ ρ)
  | ite (c : Code τ Bool) (s t : Stmt τ ρ)
  | loop (c : Code τ Bool) (s : Stmt τ ρ)
  | label (l : Nat)
  | ret (r : Code τ ρ)

namespace Stmt

variable {τ ρ : Type}

/-- A statement ends with `none`, or it returns from its function. -/
def exec : Stmt τ ρ → Code τ (Option ρ)
  | skip => .pure none
  | act m => m.bind fun _ => .pure none
  | seq s t => s.exec.andThen t.exec
  | ite c s t => c.bind fun b => if b then s.exec else t.exec
  | loop c s => .whileLoop c s.exec
  | label _ => .pure none
  | ret r => r.bind fun a => .pure (some a)

def labels : Stmt τ ρ → List Nat
  | skip | act _ | ret _ => []
  | label l => [l]
  | seq s t | ite _ s t => s.labels ++ t.labels
  | loop _ s => s.labels

/-- What is executed from a label on. -/
def seek (l : Nat) : Stmt τ ρ → Option (Stmt τ ρ)
  | skip | act _ | ret _ => none
  | label l' => if l = l' then some skip else none
  | seq s t =>
      match s.seek l with
      | some k => some (seq k t)
      | none => t.seek l
  | ite _ s t =>
      match s.seek l with
      | some k => some k
      | none => t.seek l
  | loop c s => (s.seek l).map fun k => seq k (loop c s)

/-- `switch (l) { s; break; default: assert(0); }` -/
def switch (l : Nat) (s : Stmt τ ρ) : Code τ (Option ρ) :=
  match s.seek l with
  | some k => k.exec
  | none => .lift (throw .assertion)

theorem mem_labels_of_seek {l : Nat} {s k : Stmt τ ρ} (h : s.seek l = some k) :
    l ∈ s.labels := by
  induction s generalizing k with
  | skip => simp [seek] at h
  | act m => simp [seek] at h
  | ret r => simp [seek] at h
  | label l' =>
      simp only [seek] at h
      split at h
      · simp [labels, *]
      · cases h
  | seq s t ihs iht =>
      simp only [seek] at h
      simp only [labels, List.mem_append]
      cases hs : s.seek l with
      | some k' => exact .inl (ihs hs)
      | none =>
          rw [hs] at h
          exact .inr (iht h)
  | ite c s t ihs iht =>
      simp only [seek] at h
      simp only [labels, List.mem_append]
      cases hs : s.seek l with
      | some k' => exact .inl (ihs hs)
      | none =>
          rw [hs] at h
          exact .inr (iht h)
  | loop c s ih =>
      simp only [seek, Option.map_eq_some_iff] at h
      obtain ⟨k', hk, -⟩ := h
      exact ih hk

theorem seek_of_notMem {l : Nat} {s : Stmt τ ρ} (h : l ∉ s.labels) : s.seek l = none := by
  cases hs : s.seek l with
  | none => rfl
  | some k => exact absurd (mem_labels_of_seek hs) h

/-- `Tail s u`: `u` is what is left of `s` once a part of it is done. -/
inductive Tail : Stmt τ ρ → Stmt τ ρ → Prop
  | refl (s : Stmt τ ρ) : Tail s s
  | rest (s t : Stmt τ ρ) : Tail (seq s t) t
  | inner {s u : Stmt τ ρ} (t : Stmt τ ρ) : Tail s u → Tail (seq s t) (seq u t)

theorem seek_seq_right {l : Nat} {s t k : Stmt τ ρ} (hnodup : (seq s t).labels.Nodup)
    (h : t.seek l = some k) : (seq s t).seek l = some k := by
  have hdisj := (List.nodup_append'.mp hnodup).2.2
  have hnot : l ∉ s.labels := fun hmem => hdisj hmem (mem_labels_of_seek h)
  simp only [seek, seek_of_notMem hnot]
  exact h

theorem seek_ite_right {c : Code τ Bool} {l : Nat} {s t k : Stmt τ ρ}
    (hnodup : (ite c s t).labels.Nodup) (h : t.seek l = some k) :
    (ite c s t).seek l = some k := by
  have hdisj := (List.nodup_append'.mp hnodup).2.2
  have hnot : l ∉ s.labels := fun hmem => hdisj hmem (mem_labels_of_seek h)
  simp only [seek, seek_of_notMem hnot]
  exact h

/-- A jump out of what is left after a jump is a jump from the start: the labels
in it still stand for what they stood for. -/
theorem seek_tail {l l' : Nat} {s k u v : Stmt τ ρ} (hnodup : s.labels.Nodup)
    (h : s.seek l = some k) (htail : Tail k u) (h' : u.seek l' = some v) :
    s.seek l' = some v := by
  induction s generalizing k u v with
  | skip => simp [seek] at h
  | act m => simp [seek] at h
  | ret r => simp [seek] at h
  | label m =>
      simp only [seek] at h
      split at h
      · cases h
        cases htail
        simp [seek] at h'
      · cases h
  | seq s t ihs iht =>
      obtain ⟨hs, ht, -⟩ := List.nodup_append'.mp hnodup
      cases hj : s.seek l with
      | none =>
          simp only [seek, hj] at h
          exact seek_seq_right hnodup (iht ht h htail h')
      | some j =>
          simp only [seek, hj] at h
          cases h
          have hinner : ∀ x, Tail j x → (seq x t).seek l' = some v →
              (seq s t).seek l' = some v := by
            intro x hx hv
            cases hy : x.seek l' with
            | none =>
                simp only [seek, hy] at hv
                exact seek_seq_right hnodup hv
            | some y =>
                simp only [seek, hy] at hv
                simp only [seek, ihs hs hj hx hy]
                exact hv
          cases htail with
          | refl => exact hinner j (.refl j) h'
          | rest => exact seek_seq_right hnodup h'
          | inner _ hx => exact hinner _ hx h'
  | ite c s t ihs iht =>
      obtain ⟨hs, ht, -⟩ := List.nodup_append'.mp hnodup
      cases hj : s.seek l with
      | none =>
          simp only [seek, hj] at h
          exact seek_ite_right hnodup (iht ht h htail h')
      | some j =>
          simp only [seek, hj] at h
          cases h
          simp only [seek, ihs hs hj htail h']
  | loop c s ih =>
      simp only [seek, Option.map_eq_some_iff] at h
      obtain ⟨j, hj, rfl⟩ := h
      have hinner : ∀ x, Tail j x → (seq x (loop c s)).seek l' = some v →
          (loop c s).seek l' = some v := by
        intro x hx hv
        cases hy : x.seek l' with
        | none =>
            simp only [seek, hy] at hv
            exact hv
        | some y =>
            simp only [seek, hy] at hv
            simp only [seek, ih hnodup hj hx hy]
            exact hv
      cases htail with
      | refl => exact hinner j (.refl j) h'
      | rest => exact h'
      | inner _ hx => exact hinner _ hx h'

end Stmt

end Librfn.Logic
