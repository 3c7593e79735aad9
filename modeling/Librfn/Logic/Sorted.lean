import Mathlib.Data.List.TakeWhile

/-!
# Sorted lists

In a list sorted by a relation along which a property goes downwards, the
elements with the property are a prefix.  A stable sort is built one element
at a time, each going behind its equals.
-/

namespace Librfn.Logic

variable {α : Type} {r : α → α → Prop} {p : α → Bool} {xs : List α}

theorem not_of_mem_dropWhile (h : xs.Pairwise r)
    (hp : ∀ x ∈ xs, ∀ y ∈ xs, r x y → p y = true → p x = true) {x : α}
    (hx : x ∈ xs.dropWhile p) : ¬ p x = true := by
  induction xs with
  | nil => simp at hx
  | cons y ys ih =>
      rw [List.pairwise_cons] at h
      have htail : ∀ a ∈ ys, ∀ b ∈ ys, r a b → p b = true → p a = true :=
        fun a ha b hb => hp a (List.mem_cons_of_mem y ha) b
          (List.mem_cons_of_mem y hb)
      rw [List.dropWhile_cons] at hx
      split at hx
      · exact ih h.2 htail hx
      · next hy =>
          intro hpx
          rcases List.mem_cons.mp hx with rfl | hmem
          · exact hy hpx
          · exact hy (hp y List.mem_cons_self x hx (h.1 x hmem) hpx)

theorem takeWhile_eq_filter (h : xs.Pairwise r)
    (hp : ∀ x ∈ xs, ∀ y ∈ xs, r x y → p y = true → p x = true) :
    xs.takeWhile p = xs.filter p := by
  have hnone : (xs.dropWhile p).filter p = [] :=
    List.filter_eq_nil_iff.mpr fun x hx => not_of_mem_dropWhile h hp hx
  have hall : (xs.takeWhile p).filter p = xs.takeWhile p :=
    List.filter_eq_self.mpr fun x hx => List.mem_takeWhile_imp hx
  calc
    xs.takeWhile p = (xs.takeWhile p ++ xs.dropWhile p).filter p := by
      rw [List.filter_append, hall, hnone, List.append_nil]
    _ = xs.filter p := by rw [List.takeWhile_append_dropWhile]

theorem dropWhile_eq_filter (h : xs.Pairwise r)
    (hp : ∀ x ∈ xs, ∀ y ∈ xs, r x y → p y = true → p x = true) :
    xs.dropWhile p = xs.filter (fun x => !p x) := by
  have hnone : (xs.takeWhile p).filter (fun x => !p x) = [] :=
    List.filter_eq_nil_iff.mpr fun x hx => by simp [List.mem_takeWhile_imp hx]
  have hall : (xs.dropWhile p).filter (fun x => !p x) = xs.dropWhile p :=
    List.filter_eq_self.mpr fun x hx => by simp [not_of_mem_dropWhile h hp hx]
  calc
    xs.dropWhile p = (xs.takeWhile p ++ xs.dropWhile p).filter (fun x => !p x) := by
      rw [List.filter_append, hall, hnone, List.nil_append]
    _ = xs.filter (fun x => !p x) := by rw [List.takeWhile_append_dropWhile]

theorem pairwise_insert {ys : List α} {x : α}
    (h : (xs ++ ys).Pairwise r) (hxs : ∀ y ∈ xs, r y x) (hys : ∀ y ∈ ys, r x y) :
    (xs ++ x :: ys).Pairwise r := by
  rw [List.pairwise_append] at h ⊢
  refine ⟨h.1, List.pairwise_cons.mpr ⟨hys, h.2.1⟩, ?_⟩
  intro a ha b hb
  rcases List.mem_cons.mp hb with rfl | hmem
  · exact hxs a ha
  · exact h.2.2 a ha b hmem

theorem getElem?_insert (before after : List α) (x : α) (i : Nat) :
    (before ++ x :: after)[i]? = if i < before.length then (before ++ after)[i]?
      else if i = before.length then some x else (before ++ after)[i - 1]? := by
  induction before generalizing i with
  | nil => cases i <;> simp
  | cons b before ih =>
      cases i with
      | zero => simp
      | succ i =>
          simp only [List.cons_append, List.getElem?_cons_succ, ih, List.length_cons,
            Nat.add_lt_add_iff_right, Nat.add_right_cancel_iff]
          split
          · rfl
          split
          · rfl
          · obtain ⟨k, rfl⟩ : ∃ k, i = k + 1 := ⟨i - 1, by omega⟩
            simp

/-! ## Stable sorting -/

/-- `ys` is `xs` in the order of `le`, and elements that compare equal are in
the order they had. -/
structure IsStableSort (le : α → α → Prop) [DecidableRel le] (xs ys : List α) :
    Prop where
  perm : ys.Perm xs
  sorted : ys.Pairwise le
  ties : ∀ x, ys.filter (fun y => le x y ∧ le y x) =
    xs.filter (fun y => le x y ∧ le y x)

section StableSort

variable {le : α → α → Prop} [DecidableRel le]

theorem IsStableSort.of_sorted (h : xs.Pairwise le) : IsStableSort le xs xs where
  perm := List.Perm.refl xs
  sorted := h
  ties := fun _ => rfl

theorem IsStableSort.insert {before after : List α} {x : α}
    (htrans : ∀ x y z, le x y → le y z → le x z)
    (h : IsStableSort le xs (before ++ after)) (hbefore : ∀ y ∈ before, le y x)
    (hafter : ∀ y ∈ after, le x y ∧ ¬ le y x) :
    IsStableSort le (xs ++ [x]) (before ++ x :: after) where
  perm := List.perm_middle.trans
    ((List.Perm.cons x h.perm).trans (List.perm_append_singleton x xs).symm)
  sorted := pairwise_insert h.sorted hbefore fun y hy => (hafter y hy).1
  ties := by
    intro z
    have hold := h.ties z
    rw [List.filter_append] at hold
    rw [List.filter_append, List.filter_append, ← hold]
    by_cases hx : le z x ∧ le x z
    · have hnone : after.filter (fun y => le z y ∧ le y z) = [] := by
        apply List.filter_eq_nil_iff.mpr
        intro y hy hyz
        have hyz : le z y ∧ le y z := by simpa using hyz
        exact (hafter y hy).2 (htrans y z x hyz.2 hx.1)
      rw [hnone, List.filter_cons_of_pos (by simpa using hx), hnone]
      simp [hx]
    · simp [hx]

theorem IsStableSort.find? {ys : List α} (h : IsStableSort le xs ys)
    (hp : ∀ x ∈ xs, ∀ y ∈ xs, p x = true → (p y = true ↔ le x y ∧ le y x)) :
    ys.find? p = xs.find? p := by
  cases hxs : xs.find? p with
  | none =>
      have hnone := List.find?_eq_none.mp hxs
      exact List.find?_eq_none.mpr fun y hy => hnone y (h.perm.mem_iff.mp hy)
  | some x =>
      have hx := List.mem_of_find?_eq_some hxs
      have htie : ∀ y ∈ xs, p y = decide (le x y ∧ le y x) := by
        intro y hy
        rw [Bool.eq_iff_iff, hp x hx y hy (List.find?_some hxs), decide_eq_true_iff]
      have hys : ys.filter p = xs.filter p := by
        rw [List.filter_congr htie, ← h.ties x]
        exact List.filter_congr fun y hy => htie y (h.perm.mem_iff.mp hy)
      rw [← List.head?_filter, hys, List.head?_filter, hxs]

end StableSort

end Librfn.Logic
