import Librfn.LinkedList
import Mathlib.Data.List.Nodup
import Mathlib.Data.List.TakeWhile

/-!
# Lists as sequences

A memory of linked lists represents one finite sequence of nodes for each
list.  All operations are an insertion or a removal at a place of one
sequence, so two lemmas about memories carry every specification.
-/

namespace Librfn

open Librfn.Logic

variable {L N : Type}

def firstPtr : List N → NodePtr L N → NodePtr L N
  | [], ptr => ptr
  | x :: _, _ => some (.next x)

/-- The address of the link behind the last of `xs`, starting from `loc`. -/
def lastLoc : Loc L N → List N → Loc L N
  | loc, [] => loc
  | _, x :: xs => lastLoc (.next x) xs

/-- The chain of links from `loc` visits `xs` and ends in `ptr`. -/
def ListMem.Seg (mem : ListMem L N) : Loc L N → List N → NodePtr L N → Prop
  | loc, [], ptr => mem.link loc = ptr
  | loc, x :: xs, ptr => mem.link loc = some (.next x) ∧ mem.Seg (.next x) xs ptr

def segLocs (loc : Loc L N) (xs : List N) : List (Loc L N) :=
  loc :: xs.map .next

theorem lastLoc_append (loc : Loc L N) (xs ys : List N) :
    lastLoc loc (xs ++ ys) = lastLoc (lastLoc loc xs) ys := by
  induction xs generalizing loc with
  | nil => rfl
  | cons x xs ih => exact ih (.next x)

theorem lastLoc_mem (loc : Loc L N) (xs : List N) :
    lastLoc loc xs ∈ segLocs loc xs := by
  induction xs generalizing loc with
  | nil => exact List.mem_singleton_self loc
  | cons x xs ih => exact List.mem_cons_of_mem _ (ih (.next x))

theorem lastLoc_snoc (loc : Loc L N) (xs : List N) (x : N) :
    lastLoc loc (xs ++ [x]) = .next x := lastLoc_append loc xs [x]

theorem segLocs_append (loc : Loc L N) (xs ys : List N) :
    segLocs loc (xs ++ ys) = segLocs loc xs ++ ys.map .next := by
  simp [segLocs]

@[simp] theorem firstPtr_nil (ptr : NodePtr L N) : firstPtr [] ptr = ptr := rfl

@[simp] theorem firstPtr_cons (x : N) (xs : List N) (ptr : NodePtr L N) :
    firstPtr (x :: xs) ptr = some (.next x) := rfl

@[simp] theorem lastLoc_nil (loc : Loc L N) : lastLoc loc [] = loc := rfl

theorem firstPtr_none_eq_none {xs : List N} :
    firstPtr xs (none : NodePtr L N) = none ↔ xs = [] := by
  cases xs <;> simp [firstPtr]

namespace ListMem

variable {mem mem' : ListMem L N} {loc : Loc L N} {xs ys : List N}
  {ptr : NodePtr L N}

theorem seg_append : mem.Seg loc (xs ++ ys) ptr ↔
    mem.Seg loc xs (firstPtr ys ptr) ∧ mem.Seg (lastLoc loc xs) ys ptr := by
  induction xs generalizing loc with
  | nil =>
      cases ys with
      | nil => exact (and_self_iff).symm
      | cons y ys =>
          constructor
          · intro h
            exact ⟨h.1, h⟩
          · exact And.right
  | cons x xs ih =>
      change _ ∧ mem.Seg (.next x) (xs ++ ys) ptr ↔ (_ ∧ _) ∧ _
      rw [ih, and_assoc]
      rfl

theorem Seg.link_last (h : mem.Seg loc xs ptr) :
    mem.link (lastLoc loc xs) = ptr := by
  induction xs generalizing loc with
  | nil => exact h
  | cons x xs ih => exact ih h.2

theorem Seg.link_first (h : mem.Seg loc xs ptr) :
    mem.link loc = firstPtr xs ptr := by
  cases xs with
  | nil => exact h
  | cons x xs => exact h.1

theorem Seg.congr (h : mem.Seg loc xs ptr)
    (hsame : ∀ l ∈ segLocs loc xs, mem'.link l = mem.link l) :
    mem'.Seg loc xs ptr := by
  induction xs generalizing loc with
  | nil => exact (hsame loc (List.mem_singleton_self loc)).trans h
  | cons x xs ih =>
      refine ⟨(hsame loc List.mem_cons_self).trans h.1, ih h.2 ?_⟩
      intro l hl
      exact hsame l (List.mem_cons_of_mem _ hl)

theorem Seg.redirect {ptr' : NodePtr L N} (h : mem.Seg loc xs ptr)
    (hnodup : (segLocs loc xs).Nodup)
    (hlast : mem'.link (lastLoc loc xs) = ptr')
    (hsame : ∀ l ∈ segLocs loc xs, l ≠ lastLoc loc xs →
      mem'.link l = mem.link l) : mem'.Seg loc xs ptr' := by
  induction xs generalizing loc with
  | nil => exact hlast
  | cons x xs ih =>
      have hne : loc ≠ lastLoc (.next x) xs := by
        intro heq
        exact (List.nodup_cons.mp hnodup).1 (heq ▸ lastLoc_mem (.next x) xs)
      refine ⟨(hsame loc List.mem_cons_self hne).trans h.1,
        ih h.2 (List.nodup_cons.mp hnodup).2 hlast ?_⟩
      intro l hl hl'
      exact hsame l (List.mem_cons_of_mem _ hl) hl'

/-- `seq list` is what the list holds: the chain of links from its head
visits it and ends in `NULL`, the tail is its last node unless it is empty,
no node is in two places, and a node that is nowhere has no successor. -/
structure Represents (mem : ListMem L N) (seq : L → List N) : Prop where
  chain : ∀ list, mem.Seg (.head list) (seq list) none
  tail : ∀ list, seq list ≠ [] →
    mem.tail list = some (lastLoc (.head list) (seq list))
  nodup : ∀ list, (seq list).Nodup
  disjoint : ∀ list list', list ≠ list' → List.Disjoint (seq list) (seq list')
  outside : ∀ node, (∀ list, node ∉ seq list) → mem.link (.next node) = none

theorem init_represents : (ListMem.init L N).Represents fun _ => [] where
  chain := fun _ => rfl
  tail := fun _ h => absurd rfl h
  nodup := fun _ => List.nodup_nil
  disjoint := fun _ _ _ => List.disjoint_nil_left _
  outside := fun _ _ => rfl

theorem Seg.unique (h : mem.Seg loc xs none) (h' : mem.Seg loc ys none) :
    xs = ys := by
  induction xs generalizing loc ys with
  | nil =>
      have hys := h'.link_first
      rw [show mem.link loc = none from h] at hys
      exact (firstPtr_none_eq_none.mp hys.symm).symm
  | cons x xs ih =>
      cases ys with
      | nil =>
          have hnone : mem.link loc = none := h'
          rw [h.1] at hnone
          cases hnone
      | cons y ys =>
          have heq := h.1.symm.trans h'.1
          cases heq
          rw [ih h.2 h'.2]

theorem Represents.unique {seq seq' : L → List N} (h : mem.Represents seq)
    (h' : mem.Represents seq') : seq = seq' :=
  funext fun list => (h.chain list).unique (h'.chain list)

theorem segLocs_nodup (list : L) (h : xs.Nodup) :
    (segLocs (.head list) xs).Nodup := by
  refine List.nodup_cons.mpr ⟨by simp, ?_⟩
  exact h.map fun _ _ heq => Loc.next.inj heq

variable {seq : L → List N} {list : L} {node : N}

theorem Represents.segLocs_disjoint (h : mem.Represents seq) {list' : L}
    (hne : list' ≠ list) {l : Loc L N}
    (hl : l ∈ segLocs (.head list') (seq list')) :
    l ∉ segLocs (.head list) (seq list) := by
  intro hl'
  simp only [segLocs, List.mem_cons, List.mem_map] at hl hl'
  rcases hl with rfl | ⟨x, hx, rfl⟩
  · rcases hl' with heq | ⟨y, -, heq⟩
    · exact hne (Loc.head.inj heq)
    · cases heq
  · rcases hl' with heq | ⟨y, hy, heq⟩
    · cases heq
    · cases heq
      exact h.disjoint _ _ hne hx hy

theorem node_not_mem_segLocs (hnode : ∀ list, node ∉ seq list) (list' : L) :
    Loc.next node ∉ segLocs (.head list') (seq list') := by
  intro hl
  simp only [segLocs, List.mem_cons, List.mem_map] at hl
  rcases hl with heq | ⟨x, hx, heq⟩
  · cases heq
  · cases heq
    exact hnode _ hx

theorem Represents.link_head (h : mem.Represents seq) (list : L) :
    mem.link (.head list) = firstPtr (seq list) none :=
  (h.chain list).link_first

theorem Represents.link_at (h : mem.Represents seq)
    (hseq : seq list = xs ++ ys) :
    mem.link (lastLoc (.head list) xs) = firstPtr ys none :=
  (seg_append.mp (hseq ▸ h.chain list)).1.link_last

theorem Represents.link_node (h : mem.Represents seq)
    (hseq : seq list = xs ++ node :: ys) :
    mem.link (.next node) = firstPtr ys none := by
  have hchain := h.chain list
  rw [hseq, seg_append] at hchain
  exact hchain.2.2.link_first

theorem Represents.link_eq (h : mem.Represents seq) (h' : mem'.Represents seq) :
    mem.link = mem'.link := by
  funext loc
  cases loc with
  | head list => rw [h.link_head, h'.link_head]
  | next node =>
      by_cases hnode : ∃ list, node ∈ seq list
      · obtain ⟨list, hmem⟩ := hnode
        obtain ⟨xs, ys, hseq⟩ := List.append_of_mem hmem
        rw [h.link_node hseq, h'.link_node hseq]
      · rw [h.outside node (not_exists.mp hnode), h'.outside node (not_exists.mp hnode)]

theorem Represents.link_ne_self (h : mem.Represents seq) (node : N) :
    mem.link (.next node) ≠ some (.next node) := by
  intro hself
  by_cases hnode : ∃ list, node ∈ seq list
  · obtain ⟨list, hmem⟩ := hnode
    obtain ⟨xs, ys, hseq⟩ := List.append_of_mem hmem
    have hnodup := h.nodup list
    rw [h.link_node hseq] at hself
    rw [hseq, List.nodup_append, List.nodup_cons] at hnodup
    cases ys with
    | nil => cases hself
    | cons y ys =>
        cases hself
        exact hnodup.2.1.1 List.mem_cons_self
  · rw [h.outside node (not_exists.mp hnode)] at hself
    cases hself

theorem lastLoc_ne_next (hnode : ∀ list, node ∉ seq list)
    (hseq : seq list = xs ++ ys) : lastLoc (.head list) xs ≠ .next node := by
  intro heq
  refine node_not_mem_segLocs hnode list ?_
  rw [hseq, segLocs_append, ← heq]
  exact List.mem_append_left _ (lastLoc_mem _ _)

theorem Represents.relink [DecidableEq L] (h : mem.Represents seq)
    (hchain : mem'.Seg (.head list) xs none)
    (htail : xs ≠ [] → mem'.tail list = some (lastLoc (.head list) xs))
    (hnodup : xs.Nodup)
    (hdisjoint : ∀ list', list' ≠ list → List.Disjoint (seq list') xs)
    (houtside : ∀ x ∈ seq list, x ∉ xs → mem'.link (.next x) = none)
    (hframe : ∀ l, l ∉ segLocs (.head list) (seq list) →
      l ∉ segLocs (.head list) xs → mem'.link l = mem.link l)
    (htails : ∀ list', list' ≠ list → mem'.tail list' = mem.tail list') :
    mem'.Represents (Function.update seq list xs) := by
  refine ⟨?_, ?_, ?_, ?_, ?_⟩
  · intro list'
    by_cases hl : list' = list
    · subst hl
      rwa [Function.update_self]
    · rw [Function.update_of_ne hl]
      refine (h.chain list').congr ?_
      intro l hin
      refine hframe l (h.segLocs_disjoint hl hin) ?_
      intro hin'
      simp only [segLocs, List.mem_cons, List.mem_map] at hin hin'
      rcases hin with rfl | ⟨x, hx, rfl⟩
      · rcases hin' with heq | ⟨y, -, heq⟩
        · exact hl (Loc.head.inj heq)
        · cases heq
      · rcases hin' with heq | ⟨y, hy, heq⟩
        · cases heq
        · cases heq
          exact hdisjoint list' hl hx hy
  · intro list' hne
    by_cases hl : list' = list
    · subst hl
      rw [Function.update_self] at hne ⊢
      exact htail hne
    · rw [Function.update_of_ne hl] at hne ⊢
      rw [htails list' hl]
      exact h.tail list' hne
  · intro list'
    by_cases hl : list' = list
    · subst hl
      rwa [Function.update_self]
    · rw [Function.update_of_ne hl]
      exact h.nodup list'
  · intro l l' hne
    by_cases hl : l = list
    · subst hl
      rw [Function.update_self, Function.update_of_ne (Ne.symm hne)]
      exact fun x hx hx' => hdisjoint l' (Ne.symm hne) hx' hx
    · rw [Function.update_of_ne hl]
      by_cases hl' : l' = list
      · subst hl'
        rw [Function.update_self]
        exact hdisjoint l hl
      · rw [Function.update_of_ne hl']
        exact h.disjoint l l' hne
  · intro x hx
    have hxs : x ∉ xs := by
      have := hx list
      rwa [Function.update_self] at this
    by_cases hold : x ∈ seq list
    · exact houtside x hold hxs
    · rw [hframe (.next x)]
      · refine h.outside x fun l hin => ?_
        by_cases hl : l = list
        · exact hold (hl ▸ hin)
        · exact hx l (by rwa [Function.update_of_ne hl])
      · simpa [segLocs] using hold
      · simpa [segLocs] using hxs

variable [DecidableEq L]

theorem Represents.insert (h : mem.Represents seq)
    (hseq : seq list = xs ++ ys) (hnode : ∀ list, node ∉ seq list)
    (hprev : mem'.link (lastLoc (.head list) xs) = some (.next node))
    (hnext : mem'.link (.next node) = firstPtr ys none)
    (hframe : ∀ l, l ≠ lastLoc (.head list) xs → l ≠ .next node →
      mem'.link l = mem.link l)
    (htail : ∀ l, mem'.tail l =
      if l = list ∧ ys = [] then some (.next node) else mem.tail l) :
    mem'.Represents (Function.update seq list (xs ++ node :: ys)) := by
  have hnodup := h.nodup list
  have hchain := h.chain list
  rw [hseq] at hnodup hchain
  obtain ⟨hxs, hys⟩ := seg_append.mp hchain
  have hlocs := segLocs_nodup list hnodup
  rw [segLocs_append, List.nodup_append] at hlocs
  have hmem : lastLoc (.head list) xs ∈ segLocs (.head list) xs :=
    lastLoc_mem _ _
  have hfresh : Loc.next node ∉ segLocs (Loc.head list) (xs ++ ys) :=
    hseq ▸ node_not_mem_segLocs hnode list
  rw [segLocs_append, List.mem_append, not_or] at hfresh
  have hperm : (xs ++ node :: ys).Perm (node :: (xs ++ ys)) := List.perm_middle
  refine h.relink ?_ ?_ ?_ ?_ ?_ ?_ ?_
  · refine seg_append.mpr ⟨?_, hprev, ?_⟩
    · refine hxs.redirect hlocs.1 hprev ?_
      intro l hl hne
      exact hframe l hne fun heq => hfresh.1 (heq ▸ hl)
    · cases ys with
      | nil => exact hnext
      | cons y ys =>
          refine ⟨hnext, hys.2.congr ?_⟩
          intro l hl
          refine hframe l ?_ fun heq => hfresh.2 (heq ▸ hl)
          intro heq
          exact hlocs.2.2 _ hmem _ hl heq.symm
  · intro _
    rw [htail list, lastLoc_append]
    cases ys with
    | nil => simp [lastLoc]
    | cons y ys =>
        rw [if_neg (by simp), h.tail _ (by rw [hseq]; simp), hseq,
          lastLoc_append]
        rfl
  · rw [hperm.nodup_iff, List.nodup_cons]
    exact ⟨hseq ▸ hnode list, hnodup⟩
  · intro list' hl x hx hx'
    rcases List.mem_cons.mp (hperm.subset hx') with rfl | hold
    · exact hnode list' hx
    · exact h.disjoint list' list hl hx (hseq ▸ hold)
  · intro x hx hx'
    rw [hseq] at hx
    exact absurd (hperm.symm.subset (List.mem_cons_of_mem _ hx)) hx'
  · intro l hl hl'
    rw [hseq, segLocs_append] at hl
    refine hframe l ?_ ?_
    · rintro rfl
      exact hl (List.mem_append_left _ hmem)
    · rintro rfl
      exact hl' (by simp [segLocs])
  · intro list' hl
    rw [htail list', if_neg fun hc => hl hc.1]

theorem Represents.remove (h : mem.Represents seq)
    (hseq : seq list = xs ++ node :: ys)
    (hprev : mem'.link (lastLoc (.head list) xs) = firstPtr ys none)
    (hnext : mem'.link (.next node) = none)
    (hframe : ∀ l, l ≠ lastLoc (.head list) xs → l ≠ .next node →
      mem'.link l = mem.link l)
    (htail : xs ++ ys ≠ [] → mem'.tail list = if ys = [] then
      some (lastLoc (.head list) xs) else mem.tail list)
    (htails : ∀ l, l ≠ list → mem'.tail l = mem.tail l) :
    mem'.Represents (Function.update seq list (xs ++ ys)) := by
  have hnodup := h.nodup list
  have hchain := h.chain list
  rw [hseq] at hnodup hchain
  obtain ⟨hxs, -, hys⟩ := seg_append.mp hchain
  have hlocs := segLocs_nodup list hnodup
  rw [segLocs_append, List.nodup_append] at hlocs
  have hmem : lastLoc (.head list) xs ∈ segLocs (.head list) xs :=
    lastLoc_mem _ _
  have hperm : (xs ++ node :: ys).Perm (node :: (xs ++ ys)) := List.perm_middle
  have hnodup' := hperm.nodup_iff.mp hnodup
  refine h.relink ?_ ?_ ?_ ?_ ?_ ?_ ?_
  · refine seg_append.mpr ⟨?_, ?_⟩
    · refine hxs.redirect hlocs.1 hprev ?_
      intro l hl hne
      refine hframe l hne ?_
      rintro rfl
      exact hlocs.2.2 _ hl _ List.mem_cons_self rfl
    · cases ys with
      | nil => exact hprev
      | cons y ys =>
          refine ⟨hprev, hys.2.congr ?_⟩
          intro l hl
          refine hframe l ?_ ?_
          · intro heq
            exact hlocs.2.2 _ hmem _ (List.mem_cons_of_mem _ hl) heq.symm
          · rintro rfl
            have htl := hlocs.2.1
            rw [List.map_cons, List.nodup_cons] at htl
            exact htl.1 hl
  · intro hne
    rw [htail hne]
    cases ys with
    | nil => simp
    | cons y ys =>
        rw [if_neg (by simp), h.tail _ (by rw [hseq]; simp), hseq,
          lastLoc_append, lastLoc_append]
        rfl
  · exact (List.nodup_cons.mp hnodup').2
  · intro list' hl x hx hx'
    refine h.disjoint list' list hl hx ?_
    rw [hseq]
    exact hperm.symm.subset (List.mem_cons_of_mem _ hx')
  · intro x hx hx'
    rw [hseq] at hx
    rcases List.mem_cons.mp (hperm.subset hx) with rfl | hold
    · exact hnext
    · exact absurd hold hx'
  · intro l hl _
    rw [hseq, segLocs_append] at hl
    refine hframe l ?_ ?_
    · rintro rfl
      exact hl (List.mem_append_left _ hmem)
    · rintro rfl
      exact hl (by simp [segLocs])
  · exact htails

end ListMem

end Librfn
