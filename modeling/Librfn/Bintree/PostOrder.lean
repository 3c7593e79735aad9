import Librfn.Bintree.Iteration

/-!
# Post-order iteration

The nodes that are still to be visited carry a tag in their left pointer.
Each call searches from the root for the first of them.
-/

namespace Librfn

open Librfn.Logic BinaryTree

/-! ## Tagged pointers -/

theorem misalign_eq {ptr : Nat} (h : ptr % 2 = 0) : misalign ptr = ptr + 1 := by
  obtain ⟨k, rfl⟩ : ∃ k, ptr = 2 * k := ⟨ptr / 2, by omega⟩
  have hor := Nat.two_pow_add_eq_or_of_lt (i := 1) (b := 1) (by omega) k
  exact hor.symm

theorem align_misalign {ptr : Nat} (h : ptr % 2 = 0) :
    align (misalign ptr) = ptr := by
  rw [misalign_eq h, align]
  omega

theorem misalign_mod {ptr : Nat} (h : ptr % 2 = 0) : misalign ptr % 2 ≠ 0 := by
  rw [misalign_eq h]
  omega

/-- The tree is in memory, the nodes in `ys` with a tag. -/
def Heap.Tagged (heap : Heap) (ys : List Nat) : BinaryTree Nat → Prop
  | nil => True
  | node a l r =>
      heap a = some {
        left := if a ∈ ys then misalign (rootPtr 0 l) else rootPtr 0 l
        right := rootPtr 0 r } ∧
        heap.Tagged ys l ∧ heap.Tagged ys r

section Tagged

variable {heap heap' : Heap} {t : BinaryTree Nat} {ys ys' : List Nat}

theorem Heap.Tagged.congr (h : heap.Tagged ys t)
    (hheap : ∀ a ∈ inOrder t, heap' a = heap a)
    (hys : ∀ a ∈ inOrder t, a ∈ ys' ↔ a ∈ ys) : heap'.Tagged ys' t := by
  induction t with
  | nil => trivial
  | node a l r ihl ihr =>
      obtain ⟨ha, hl, hr⟩ := h
      have hroot : a ∈ inOrder (node a l r) := mem_inOrder.mpr (.inr (.inl rfl))
      refine ⟨?_, ihl hl ?_ ?_, ihr hr ?_ ?_⟩
      · simp only [hheap a hroot, ha, hys a hroot]
      · exact fun b hb => hheap b (mem_inOrder.mpr (.inl hb))
      · exact fun b hb => hys b (mem_inOrder.mpr (.inl hb))
      · exact fun b hb => hheap b (mem_inOrder.mpr (.inr (.inr hb)))
      · exact fun b hb => hys b (mem_inOrder.mpr (.inr (.inr hb)))

theorem Heap.Tagged.of_holds (h : heap.Holds t 0) (ys : List Nat) :
    (heap.modify (mapLeft misalign ys)).Tagged ys t := by
  induction t with
  | nil => trivial
  | node a l r ihl ihr =>
      obtain ⟨ha, hl, hr⟩ := h
      refine ⟨?_, ihl hl, ihr hr⟩
      rw [Heap.modify_some ha, mapLeft]
      split <;> rfl

def pending (ys : List Nat) : BinaryTree Nat → Bool
  | nil => false
  | node a _ _ => a ∈ ys

theorem wp_isVisited {a : Nat} {n : BintreeNode} (hne : a ≠ 0)
    (hn : heap a = some n) (Q : Bool → Heap → Prop) :
    Prog.wp (isVisited a) Q heap ↔ Q (decide (n.left % 2 = 0)) heap := by
  simp only [isVisited, Prog.wp_bind, Prog.wp_pure, wp_loadNode hne hn,
    Nat.and_one_is_mod]

theorem wp_notVisited (h : heap.Tagged ys t) (hp : Proper t) (ha : Aligned t)
    (Q : Bool → Heap → Prop) :
    Prog.wp (if rootPtr 0 t = 0 then pure false
      else return !(← isVisited (rootPtr 0 t))) Q heap ↔
      Q (pending ys t) heap := by
  cases t with
  | nil => exact Iff.rfl
  | node a l r =>
      obtain ⟨hroot, -, -⟩ := h
      have hl := ha.left.root
      rw [if_neg (rootPtr_ne_zero hp)]
      simp only [rootPtr_node, Prog.wp_bind, Prog.wp_pure,
        wp_isVisited hp.ne hroot, pending]
      by_cases hmem : a ∈ ys
      · simp [hmem, misalign_mod hl]
      · simp [hmem, hl]

theorem wp_postOrderLoop {a : Nat} {l r : BinaryTree Nat}
    (h : heap.Tagged ys (node a l r)) (hp : Proper (node a l r))
    (hal : Aligned (node a l r)) (ha : a ∈ ys) (iter : BintreeIterator)
    (fuel prev : Nat) (Q : Nat × BintreeIterator → Heap → Prop) :
    Prog.wp (postOrderLoop iter (fuel + 1) a prev) Q heap ↔
      if pending ys l then
        Prog.wp (postOrderLoop iter fuel (rootPtr 0 l) a) Q heap
      else if pending ys r then
        Prog.wp (postOrderLoop iter fuel (rootPtr 0 r) a) Q heap
      else
        Q (a, { iter with
          curr := if a = iter.curr then 0 else iter.curr
          parent := prev }) (heap.modify (mapLeft align [a])) := by
  obtain ⟨hroot, hl, hr⟩ := h
  rw [if_pos ha] at hroot
  have hne := hp.ne
  have htag : ¬decide (misalign (rootPtr 0 l) % 2 = 0) = true := by
    simpa using misalign_mod hal.left.root
  simp only [postOrderLoop, if_neg hne, Prog.wp_bind, wp_isVisited hne hroot,
    if_neg htag, wp_loadNode hne hroot, align_misalign hal.left.root,
    wp_notVisited hl hp.left hal.left]
  rw [Prog.wp_ite]
  simp only [Prog.wp_bind, wp_loadNode hne hroot,
    wp_notVisited hr hp.right hal.right]
  rw [Prog.wp_ite]
  simp only [Prog.wp_bind, wp_loadNode hne hroot, Prog.wp_pure,
    wp_storeLeft align hne hroot rfl]

end Tagged

/-! ## The nodes to come -/

/-- A visit: the subtree at the node and the parent of the node. -/
structure PostVisit where
  tree : BinaryTree Nat
  parent : Nat

def PostVisit.node (visit : PostVisit) : Nat := rootPtr 0 visit.tree

def postVisits (parent : Nat) : BinaryTree Nat → List PostVisit
  | nil => []
  | node a l r =>
      postVisits a l ++ postVisits a r ++ [{ tree := node a l r, parent }]

section Visits

variable {parent a : Nat} {l r t : BinaryTree Nat} {vs : List PostVisit}

theorem postVisits_perm (parent : Nat) (t : BinaryTree Nat) :
    ((postVisits parent t).map PostVisit.node).Perm (inOrder t) := by
  induction t generalizing parent with
  | nil => exact .refl []
  | node a l r ihl ihr =>
      simp only [postVisits, List.map_append, inOrder]
      have hperm := (ihl a).append (ihr a)
      exact (hperm.append_right [a]).trans (by
        rw [List.append_assoc]
        exact (List.perm_append_singleton a _).append_left _)

theorem mem_postVisits {b : Nat} :
    b ∈ (postVisits parent t).map PostVisit.node ↔ b ∈ inOrder t :=
  (postVisits_perm parent t).mem_iff

theorem postVisits_nodup (hp : Proper t) :
    ((postVisits parent t).map PostVisit.node).Nodup :=
  (postVisits_perm parent t).nodup_iff.mpr hp.nodup

theorem root_mem_postVisits (ht : t ≠ nil) :
    { tree := t, parent } ∈ postVisits parent t := by
  cases t with
  | nil => exact absurd rfl ht
  | node a l r => simp [postVisits]

/-- What can remain of a tree: only its root and something of its right
subtree, or all of the right subtree and something of the left. -/
theorem postVisits_suffix (h : vs <:+ postVisits parent (node a l r))
    (hvs : vs ≠ []) :
    (∃ us, us ≠ [] ∧ us <:+ postVisits a l ∧
      vs = us ++ postVisits a r ++ [{ tree := node a l r, parent }]) ∨
    ∃ us, us <:+ postVisits a r ∧
      vs = us ++ [{ tree := node a l r, parent }] := by
  rcases List.suffix_concat_iff.mp h with rfl | ⟨us, rfl, hus⟩
  · exact absurd rfl hvs
  obtain ⟨xs, hxs⟩ := hus
  rcases List.append_eq_append_iff.mp hxs with ⟨ys, hys, rfl⟩ | ⟨ys, rfl, hys⟩
  · by_cases hnil : ys = []
    · subst hnil
      exact .inr ⟨postVisits a r, List.suffix_rfl, rfl⟩
    · exact .inl ⟨ys, hnil, ⟨xs, hys.symm⟩, rfl⟩
  · exact .inr ⟨us, ⟨ys, hys.symm⟩, rfl⟩

theorem root_mem_suffix (h : vs <:+ postVisits parent t) (hvs : vs ≠ []) :
    { tree := t, parent } ∈ vs := by
  cases t with
  | nil => exact absurd (List.suffix_nil.mp h) hvs
  | node a l r =>
      rcases postVisits_suffix h hvs with ⟨us, -, -, rfl⟩ | ⟨us, -, rfl⟩ <;>
        simp

end Visits

/-! ## The search -/

section Search

variable {heap : Heap} {ys : List Nat} {t : BinaryTree Nat} {parent : Nat}

theorem pending_eq_false (h : ∀ b ∈ inOrder t, b ∉ ys) : pending ys t = false := by
  cases t with
  | nil => rfl
  | node a l r => exact decide_eq_false (h a (mem_inOrder.mpr (.inr (.inl rfl))))

theorem pending_eq_true (ht : t ≠ nil) (h : rootPtr 0 t ∈ ys) :
    pending ys t = true := by
  cases t with
  | nil => exact absurd rfl ht
  | node a l r => exact decide_eq_true h

/-- The tags of a tree are those of the visits to come. -/
def TagsOf (ys : List Nat) (t : BinaryTree Nat) (vs : List PostVisit) : Prop :=
  ∀ b ∈ inOrder t, b ∈ ys ↔ b ∈ vs.map PostVisit.node

theorem TagsOf.pending {vs : List PostVisit} (h : TagsOf ys t vs)
    (hsuffix : vs <:+ postVisits parent t) (hvs : vs ≠ []) :
    pending ys t = true := by
  have ht : t ≠ nil := by
    rintro rfl
    exact hvs (List.suffix_nil.mp hsuffix)
  have hroot := List.mem_map_of_mem (f := PostVisit.node)
    (root_mem_suffix hsuffix hvs)
  exact pending_eq_true ht ((h _ (rootPtr_mem ht)).mpr hroot)

theorem postOrderLoop_returns {v : PostVisit} {vs : List PostVisit}
    (h : heap.Tagged ys t) (hp : Proper t) (hal : Aligned t)
    (hsuffix : v :: vs <:+ postVisits parent t) (hys : TagsOf ys t (v :: vs))
    (iter : BintreeIterator) :
    Prog.Returns (fun fuel => postOrderLoop iter fuel (rootPtr 0 t) parent) heap
      ((v.node, { iter with
        curr := if v.node = iter.curr then 0 else iter.curr
        parent := v.parent }), heap.modify (mapLeft align [v.node])) := by
  induction t generalizing parent v vs with
  | nil => exact absurd (List.suffix_nil.mp hsuffix) (List.cons_ne_nil v vs)
  | node a l r ihl ihr =>
      have hmem : a ∈ ys := by
        refine (hys a (mem_inOrder.mpr (.inr (.inl rfl)))).mpr ?_
        exact List.mem_map_of_mem (f := PostVisit.node)
          (root_mem_suffix hsuffix (List.cons_ne_nil v vs))
      have hleft : ∀ b ∈ inOrder l, b ≠ a ∧
          b ∉ (postVisits a r).map PostVisit.node := fun b hb =>
        ⟨fun heq => hp.not_mem_left (heq ▸ hb),
          fun hr => hp.disjoint hb (mem_postVisits.mp hr)⟩
      rcases postVisits_suffix hsuffix (List.cons_ne_nil v vs) with
        ⟨us, hus, hsuf, heq⟩ | ⟨us, hsuf, heq⟩
      · -- something of the left subtree remains
        have htags : TagsOf ys l us := fun b hb => by
          obtain ⟨hba, hbr⟩ := hleft b hb
          rw [hys b (mem_inOrder.mpr (.inl hb)), heq, List.map_append,
            List.map_append, List.mem_append, List.mem_append]
          simp [hbr, PostVisit.node, hba]
        obtain ⟨u, us, rfl⟩ := List.exists_cons_of_ne_nil hus
        cases heq
        obtain ⟨enough, hrec⟩ := ihl h.2.1 hp.left hal.left hsuf htags
        refine .of_succ (.of_forall_wp ⟨enough, fun fuel hle => ?_⟩)
        rw [rootPtr_node, wp_postOrderLoop h hp hal hmem,
          if_pos (htags.pending hsuf hus)]
        exact Prog.wp_of_eq (hrec fuel hle) ⟨rfl, rfl⟩
      · have hvisits : (v :: vs).map PostVisit.node =
            us.map PostVisit.node ++ [a] := by
          rw [heq, List.map_append]
          rfl
        have hnone : pending ys l = false := pending_eq_false fun b hb hb' => by
          obtain ⟨hba, hbr⟩ := hleft b hb
          have hbv := (hys b (mem_inOrder.mpr (.inl hb))).mp hb'
          rw [hvisits, List.mem_append, List.mem_singleton] at hbv
          exact hbv.elim (fun hbu => hbr (List.map_subset _ hsuf.subset hbu)) hba
        have htags : TagsOf ys r us := fun b hb => by
          have hba : b ≠ a := fun heq => hp.not_mem_right (heq ▸ hb)
          rw [hys b (mem_inOrder.mpr (.inr (.inr hb))), hvisits]
          simp [hba]
        by_cases hus : us = []
        · -- only the root remains
          subst hus
          cases heq
          have hright : pending ys r = false := pending_eq_false fun b hb hb' => by
            cases (htags b hb).mp hb'
          refine .of_succ (.of_forall_wp ⟨0, fun fuel _ => ?_⟩)
          rw [rootPtr_node, wp_postOrderLoop h hp hal hmem, hnone, hright]
          exact ⟨rfl, rfl⟩
        · obtain ⟨u, us, rfl⟩ := List.exists_cons_of_ne_nil hus
          cases heq
          obtain ⟨enough, hrec⟩ := ihr h.2.2 hp.right hal.right hsuf htags
          refine .of_succ (.of_forall_wp ⟨enough, fun fuel hle => ?_⟩)
          rw [rootPtr_node, wp_postOrderLoop h hp hal hmem, hnone,
            if_neg Bool.false_ne_true, if_pos (htags.pending hsuf hus)]
          exact Prog.wp_of_eq (hrec fuel hle) ⟨rfl, rfl⟩

end Search

/-! ## Entering and leaving -/

section Iteration

variable {heap : Heap} {t : BinaryTree Nat}

theorem Iterated.misalignLoop {heap' : Heap} {curr : Nat} {ys : List Nat}
    (h : Iterated false misalign heap curr ys heap' 0) (iter : BintreeIterator) :
    ∃ a iter' heap₁,
      Prog.Returns (fun fuel => bintreeNext fuel (iter.resume false curr)) heap
        ((a, iter'), heap₁) ∧
      Prog.Returns (fun fuel => Librfn.misalignLoop fuel a iter') heap₁
        (iter.resume false 0, heap') := by
  induction ys generalizing heap curr with
  | nil =>
      exact ⟨0, _, heap', bintreeNext_returns iter h.finish,
        .of_succ (.pure (iter.resume false 0) heap')⟩
  | cons a ys ih =>
      obtain ⟨heap₁, curr', hne, ⟨n, hn⟩, hnext, hrest⟩ := h.next
      obtain ⟨b, iter', heap₂, hb, hloop⟩ := ih hrest
      obtain ⟨i, hb⟩ := hb
      obtain ⟨j, hloop⟩ := hloop
      refine ⟨a, _, heap₁, bintreeNext_returns iter hnext,
        .of_succ (.of_forall_wp ⟨max i j, fun fuel hle => ?_⟩)⟩
      simp only [Librfn.misalignLoop, if_neg hne, Prog.wp_bind,
        wp_loadNode hne hn, wp_storeLeft misalign hne hn rfl]
      rw [Prog.wp_iff_of_eq (hb fuel (by omega))]
      exact Prog.wp_of_eq (hloop fuel (by omega)) ⟨rfl, rfl⟩

end Iteration

/-! ## Subtrees -/

inductive Subtree : BinaryTree Nat → BinaryTree Nat → Prop
  | refl {t} : Subtree t t
  | left {s a l r} : Subtree s l → Subtree s (node a l r)
  | right {s a l r} : Subtree s r → Subtree s (node a l r)

section Subtree

variable {heap : Heap} {s t : BinaryTree Nat} {parent : Nat} {v : PostVisit}
  {vs : List PostVisit}

theorem Subtree.mem (h : Subtree s t) {b : Nat} (hb : b ∈ inOrder s) :
    b ∈ inOrder t := by
  induction h with
  | refl => exact hb
  | left _ ih => exact mem_inOrder.mpr (.inl ih)
  | right _ ih => exact mem_inOrder.mpr (.inr (.inr ih))

theorem Subtree.proper (h : Subtree s t) (hp : Proper t) : Proper s := by
  induction h with
  | refl => exact hp
  | left _ ih => exact ih hp.left
  | right _ ih => exact ih hp.right

theorem Subtree.aligned (h : Subtree s t) (hal : Aligned t) : Aligned s :=
  fun b hb => hal b (h.mem hb)

theorem Subtree.holds (h : Subtree s t) (hheap : heap.Holds t 0) :
    heap.Holds s 0 := by
  induction h with
  | refl => exact hheap
  | left _ ih => exact ih hheap.2.1
  | right _ ih => exact ih hheap.2.2

theorem visit_subtree (hv : v ∈ postVisits parent t) : Subtree v.tree t := by
  induction t generalizing parent with
  | nil => cases hv
  | node a l r ihl ihr =>
      rw [postVisits, List.mem_append, List.mem_append, List.mem_singleton] at hv
      rcases hv with (hv | hv) | rfl
      · exact (ihl hv).left
      · exact (ihr hv).right
      · exact .refl

theorem visit_parent (hv : v ∈ postVisits parent t) :
    (v.tree = t ∧ v.parent = parent) ∨
      ∃ l r, Subtree (node v.parent l r) t ∧ (v.tree = l ∨ v.tree = r) := by
  induction t generalizing parent with
  | nil => cases hv
  | node a l r ihl ihr =>
      rw [postVisits, List.mem_append, List.mem_append, List.mem_singleton] at hv
      rcases hv with (hv | hv) | rfl
      · rcases ihl hv with ⟨htree, hparent⟩ | ⟨l', r', hsub, hchild⟩
        · exact .inr ⟨l, r, hparent ▸ .refl, .inl htree⟩
        · exact .inr ⟨l', r', hsub.left, hchild⟩
      · rcases ihr hv with ⟨htree, hparent⟩ | ⟨l', r', hsub, hchild⟩
        · exact .inr ⟨l, r, hparent ▸ .refl, .inr htree⟩
        · exact .inr ⟨l', r', hsub.right, hchild⟩
      · exact .inl ⟨rfl, rfl⟩

theorem visit_finished (hp : Proper t) (h : v :: vs <:+ postVisits parent t)
    {b : Nat} (hb : b ∈ inOrder v.tree) : b ∉ vs.map PostVisit.node := by
  induction t generalizing parent v vs with
  | nil => exact absurd (List.suffix_nil.mp h) (List.cons_ne_nil v vs)
  | node a l r ihl ihr =>
      rcases postVisits_suffix h (List.cons_ne_nil v vs) with
        ⟨us, hus, hsuf, heq⟩ | ⟨us, hsuf, heq⟩
      · obtain ⟨u, us, rfl⟩ := List.exists_cons_of_ne_nil hus
        simp only [List.cons_append, List.cons.injEq] at heq
        obtain ⟨rfl, rfl⟩ := heq
        have hbl := (visit_subtree (hsuf.subset List.mem_cons_self)).mem hb
        have hba : b ≠ a := fun heq => hp.not_mem_left (heq ▸ hbl)
        have hbr : b ∉ (postVisits a r).map PostVisit.node := fun hr =>
          hp.disjoint hbl (mem_postVisits.mp hr)
        simp only [List.map_append, List.mem_append, not_or]
        exact ⟨⟨ihl hp.left hsuf hb, hbr⟩, by simpa [PostVisit.node] using hba⟩
      · cases us with
        | nil =>
            cases heq
            exact List.not_mem_nil
        | cons u us =>
            simp only [List.cons_append, List.cons.injEq] at heq
            obtain ⟨rfl, rfl⟩ := heq
            have hbr := (visit_subtree (hsuf.subset List.mem_cons_self)).mem hb
            have hba : b ≠ a := fun heq => hp.not_mem_right (heq ▸ hbr)
            simp only [List.map_append, List.mem_append, not_or]
            exact ⟨ihr hp.right hsuf hb, by simpa [PostVisit.node] using hba⟩

theorem visit_ne_zero (hp : Proper t) (hv : v ∈ postVisits parent t) :
    v.node ≠ 0 := fun h0 =>
  hp.ne_zero (h0 ▸ mem_postVisits.mp (List.mem_map_of_mem hv))

end Subtree

/-! ## Runs -/

section Iteration

variable {heap : Heap} {t : BinaryTree Nat} {iter : BintreeIterator}
  {v : PostVisit} {vs : List PostVisit}

/-- The memory while the visits `vs` are to come. -/
def Heap.pending (heap : Heap) (vs : List PostVisit) : Heap :=
  heap.modify (mapLeft misalign (vs.map PostVisit.node))

theorem Heap.Holds.left_even (h : heap.Holds t 0) (hal : Aligned t) {a : Nat}
    {n : BintreeNode} (ha : a ∈ inOrder t) (hn : heap a = some n) :
    n.left % 2 = 0 := by
  induction t with
  | nil => cases ha
  | node b l r ihl ihr =>
      rcases mem_inOrder.mp ha with ha | rfl | ha
      · exact ihl h.2.1 hal.left ha
      · cases hn.symm.trans h.1
        exact hal.left.root
      · exact ihr h.2.2 hal.right ha

theorem visits_nodup (hp : Proper t) (h : v :: vs <:+ postVisits 0 t) :
    v.node ∉ vs.map PostVisit.node :=
  have hnodup := (h.map PostVisit.node).sublist.nodup (postVisits_nodup hp)
  (List.nodup_cons.mp hnodup).1

theorem visit_eq_root (hp : Proper t) (h : v :: vs <:+ postVisits 0 t) :
    v.node = rootPtr 0 t ↔ vs = [] := by
  constructor
  · intro heq
    by_contra hvs
    have hroot := root_mem_suffix ((List.suffix_cons v vs).trans h) hvs
    exact visits_nodup hp h (heq ▸ List.mem_map_of_mem hroot)
  · rintro rfl
    cases List.mem_singleton.mp (root_mem_suffix h (List.cons_ne_nil v []))
    rfl

theorem Heap.Holds.visit (h : heap.Holds t 0) (hp : Proper t) (hal : Aligned t)
    (hsuffix : v :: vs <:+ postVisits 0 t) :
    (heap.pending (v :: vs)).modify (mapLeft align [v.node]) =
      heap.pending vs := by
  have hnew := visits_nodup hp hsuffix
  have hin : v.node ∈ (v :: vs).map PostVisit.node := List.mem_cons_self
  have hmem : v.node ∈ inOrder t := mem_postVisits.mp
    (List.mem_map_of_mem (hsuffix.subset List.mem_cons_self))
  unfold Heap.pending
  rw [Heap.modify_modify]
  refine Heap.modify_congr fun b n hn => ?_
  by_cases hb : b = v.node
  · subst hb
    rw [mapLeft_of_mem List.mem_cons_self, mapLeft_of_mem hin,
      mapLeft_of_not_mem hnew]
    simp only [align_misalign (h.left_even hal hmem hn)]
  · rw [mapLeft_of_not_mem (mt List.mem_singleton.mp hb)]
    simp only [mapLeft, List.map_cons, List.mem_cons, hb, false_or]

/-- The iterator while the visits `vs` are to come. -/
structure PostOrderState (t : BinaryTree Nat) (vs : List PostVisit)
    (iter : BintreeIterator) : Prop where
  next : iter.next = .postOrder
  curr : iter.curr = if vs = [] then 0 else rootPtr 0 t
  suffix : vs <:+ postVisits 0 t

theorem bintreeNext_postOrder (h : iter.next = .postOrder) (fuel : Nat) :
    bintreeNext fuel iter = postOrderIterator fuel iter := by
  rw [bintreeNext, h]

theorem PostOrderState.next_visit (h : PostOrderState t (v :: vs) iter)
    (hheap : heap.Holds t 0) (hp : Proper t) (hal : Aligned t) :
    ∃ iter', iter'.parent = v.parent ∧ PostOrderState t vs iter' ∧
      Prog.Returns (fun fuel => bintreeNext fuel iter)
        (heap.pending (v :: vs)) ((v.node, iter'), heap.pending vs) := by
  have hcurr : iter.curr = rootPtr 0 t := h.curr
  have hloop := postOrderLoop_returns (.of_holds hheap _) hp hal h.suffix
    (fun _ _ => Iff.rfl) iter
  rw [← hcurr, ← Heap.pending, hheap.visit hp hal h.suffix] at hloop
  simp only [bintreeNext_postOrder h.next]
  refine ⟨{ iter with
    curr := if v.node = iter.curr then 0 else iter.curr
    parent := v.parent }, rfl, ⟨h.next, ?_, ?_⟩, hloop⟩
  · simp only [hcurr, visit_eq_root hp h.suffix]
  · exact (List.suffix_cons v vs).trans h.suffix

theorem PostOrderState.next_end (h : PostOrderState t [] iter) (heap : Heap) :
    Prog.Returns (fun fuel => bintreeNext fuel iter) heap ((0, iter), heap) := by
  have hcurr : iter.curr = 0 := h.curr
  simp only [bintreeNext_postOrder h.next, postOrderIterator, hcurr]
  exact .of_succ (.pure (0, iter) heap)

theorem bintreeIteratePostOrder_returns (hheap : heap.Holds t 0)
    (hp : Proper t) (iter : BintreeIterator) :
    ∃ iter', PostOrderState t (postVisits 0 t) iter' ∧
      ∀ r, Prog.Returns (fun fuel => bintreeNext fuel iter')
        (heap.pending (postVisits 0 t)) r →
      Prog.Returns (fun fuel => bintreeIteratePostOrder fuel iter (rootPtr 0 t))
        heap r := by
  have hrun : Iterated false misalign heap _ (iteratorOrder false t) _ 0 :=
    iterated_tree nofun hheap hp
  have htags : heap.modify (mapLeft misalign (inOrder t)) =
      heap.pending (postVisits 0 t) :=
    Heap.modify_congr fun a n _ => by simp only [mapLeft, mem_postVisits]
  rw [htags] at hrun
  obtain ⟨a, iter₁, heap₁, hfirst, hloop⟩ := hrun.misalignLoop iter
  refine ⟨{ iter.resume false 0 with
    next := .postOrder, curr := rootPtr 0 t }, ⟨rfl, ?_, List.suffix_rfl⟩,
    fun r hr => hfirst.bind (hloop.bind hr)⟩
  cases t with
  | nil => rfl
  | node a l r => simp [postVisits]

theorem PostOrderState.iterateNodes (h : PostOrderState t vs iter)
    (hheap : heap.Holds t 0) (hp : Proper t) (hal : Aligned t) :
    ∃ a iter' heap₁ iter'',
      Prog.Returns (fun fuel => bintreeNext fuel iter) (heap.pending vs)
        ((a, iter'), heap₁) ∧
      Prog.Returns (fun fuel => Librfn.iterateNodes fuel a iter') heap₁
        ((vs.map PostVisit.node, iter''), heap) := by
  induction vs generalizing iter with
  | nil =>
      have hnone : heap.pending [] = heap := modify_mapLeft_nil misalign
      rw [hnone]
      exact ⟨0, iter, heap, iter, h.next_end heap, iterateNodes_zero iter heap⟩
  | cons v vs ih =>
      obtain ⟨iter', -, hstate, hnext⟩ := h.next_visit hheap hp hal
      obtain ⟨b, iter₁, heap₁, iter'', hb, hloop⟩ := ih hstate
      refine ⟨v.node, iter', _, iter'', hnext, .of_succ ?_⟩
      have hne := visit_ne_zero hp (h.suffix.subset List.mem_cons_self)
      simp only [iterateNodes_succ hne]
      exact hb.bind (hloop.bind (.pure _ heap))

theorem iterateTree_returns (order : IterationOrder) (hheap : heap.Holds t 0)
    (hp : Proper t) (hal : Aligned t) (iter : BintreeIterator) :
    ∃ r, Prog.Returns (fun fuel => iterateTree order fuel iter (rootPtr 0 t))
      heap (r, heap) := by
  cases order with
  | inOrder =>
      obtain ⟨_, _, _, hfirst, hloop⟩ :=
        (iterated_in_order hheap hp).iterateNodes iter
      exact ⟨_, hfirst.bind hloop⟩
  | preOrder =>
      obtain ⟨_, _, _, hfirst, hloop⟩ :=
        (iterated_pre_order hheap hp).iterateNodes iter
      exact ⟨_, hfirst.bind hloop⟩
  | postOrder =>
      obtain ⟨iter', hstate, hstart⟩ :=
        bintreeIteratePostOrder_returns hheap hp iter
      obtain ⟨_, _, _, _, hfirst, hloop⟩ := hstate.iterateNodes hheap hp hal
      exact ⟨_, (hstart _ hfirst).bind hloop⟩

end Iteration

/-! ## Iterations inside an iteration -/

def iterateTrees (fuel tree : Nat) :
    List (IterationOrder × BintreeIterator) → Prog Heap Unit
  | [] => return
  | (order, iter) :: rest => do
      let _ ← iterateTree order fuel iter tree
      iterateTrees fuel tree rest

/-- What the caller sees of a node: the iterator's `parent` and the memory. -/
structure PostOrderYield where
  node : Nat
  parent : Nat
  heap : Heap

/-- A loop that iterates over the subtree of each node that it is given. -/
def postOrderYields (nested : Nat → List (IterationOrder × BintreeIterator)) :
    Nat → Nat → BintreeIterator → Prog Heap (List PostOrderYield)
  | 0, _, _ => throw .outOfFuel
  | fuel + 1, curr, iter => do
      if curr = 0 then return []
      let heap ← get
      iterateTrees fuel curr (nested curr)
      let (next, iter') ← bintreeNext fuel iter
      let rest ← postOrderYields nested fuel next iter'
      return { node := curr, parent := iter.parent, heap } :: rest

section Nested

variable {heap : Heap} {t : BinaryTree Nat} {iter : BintreeIterator}
  {v : PostVisit} {vs : List PostVisit}

theorem iterateTrees_returns (hheap : heap.Holds t 0) (hp : Proper t)
    (hal : Aligned t) (nested : List (IterationOrder × BintreeIterator)) :
    Prog.Returns (fun fuel => iterateTrees fuel (rootPtr 0 t) nested) heap
      ((), heap) := by
  induction nested with
  | nil => exact .pure () heap
  | cons first rest ih =>
      obtain ⟨r, hr⟩ := iterateTree_returns first.1 hheap hp hal first.2
      exact hr.bind ih

theorem Heap.Holds.subtree (h : heap.Holds t 0) (hp : Proper t)
    (hsuffix : v :: vs <:+ postVisits 0 t) :
    (∀ a ∈ inOrder v.tree, heap.pending vs a = heap a) ∧
      (heap.pending vs).Holds v.tree 0 := by
  have hsub : Subtree v.tree t :=
    visit_subtree (hsuffix.subset List.mem_cons_self)
  have hsame : ∀ a ∈ inOrder v.tree, heap.pending vs a = heap a :=
    fun a ha => Heap.modify_eq fun n =>
      mapLeft_of_not_mem (visit_finished hp hsuffix ha) n
  exact ⟨hsame, (hsub.holds h).congr hsame⟩

/-- What the caller sees of the visits to come. -/
def yieldsOf (heap : Heap) : List PostVisit → List PostOrderYield
  | [] => []
  | v :: vs =>
      { node := v.node, parent := v.parent, heap := heap.pending vs } ::
        yieldsOf heap vs

theorem PostOrderState.postOrderYields (h : PostOrderState t vs iter)
    (nested : Nat → List (IterationOrder × BintreeIterator))
    (hheap : heap.Holds t 0) (hp : Proper t) (hal : Aligned t) :
    ∃ a iter' heap₁,
      Prog.Returns (fun fuel => bintreeNext fuel iter) (heap.pending vs)
        ((a, iter'), heap₁) ∧
      Prog.Returns (fun fuel => Librfn.postOrderYields nested fuel a iter') heap₁
        (yieldsOf heap vs, heap) := by
  induction vs generalizing iter with
  | nil =>
      have hnone : heap.pending [] = heap := modify_mapLeft_nil misalign
      rw [hnone]
      exact ⟨0, iter, heap, h.next_end heap, .of_succ (.pure [] heap)⟩
  | cons v vs ih =>
      obtain ⟨iter', hparent, hstate, hnext⟩ := h.next_visit hheap hp hal
      obtain ⟨b, iter₁, heap₁, hb, hloop⟩ := ih hstate
      refine ⟨v.node, iter', _, hnext, .of_succ ?_⟩
      have hmem : v ∈ postVisits 0 t := h.suffix.subset List.mem_cons_self
      have hsub := visit_subtree hmem
      have hnested := iterateTrees_returns (hheap.subtree hp h.suffix).2
        (hsub.proper hp) (hsub.aligned hal) (nested v.node)
      have hget : Prog.Returns (fun _ => (get : Prog Heap Heap))
          (heap.pending vs) (heap.pending vs, heap.pending vs) :=
        ⟨0, fun _ _ => rfl⟩
      simp only [Librfn.postOrderYields, if_neg (visit_ne_zero hp hmem)]
      rw [yieldsOf, ← hparent]
      exact hget.bind (hnested.bind (hb.bind (hloop.bind (.pure _ heap))))

end Nested

/-! ## Against the traversal -/

def visitedParents (visits : List BintreeVisit) : List (Nat × Nat) :=
  (visits.filter (·.tree ≠ 0)).map fun visit => (visit.tree, visit.parent)

theorem traversePostOrderDepth_returns {heap : Heap} {t : BinaryTree Nat}
    (h : heap.Holds t 0) (hp : Proper t) (parent depth : Nat) :
    ∃ visits, Prog.Returns (fun fuel =>
        bintreeTraversePostOrderDepth fuel (rootPtr 0 t) parent depth) heap
        (visits, heap) ∧
      visitedParents visits =
        (postVisits parent t).map fun v => (v.node, v.parent) := by
  refine ⟨depthVisits visitAfter parent depth t,
    traverseDepth_returns (fun _ => rfl) h hp parent depth, ?_⟩
  clear h
  induction t generalizing parent depth with
  | nil => rfl
  | node a l r ihl ihr =>
      rw [depthVisits, visitAfter, postVisits, List.map_append, List.map_append,
        ← ihl hp.left a (depth + 1), ← ihr hp.right a (depth + 1)]
      simp [visitedParents, hp.ne, PostVisit.node]

section PostOrder

variable {heap : Heap} {t : BinaryTree Nat}

theorem yieldsOf_map {β : Type} (f : Nat → Nat → β) (heap : Heap)
    (vs : List PostVisit) :
    (yieldsOf heap vs).map (fun y => f y.node y.parent) =
      vs.map fun v => f v.node v.parent := by
  induction vs with
  | nil => rfl
  | cons v vs ih => simp only [yieldsOf, List.map_cons, ih]

theorem yieldsOf_subtree (hheap : heap.Holds t 0) (hp : Proper t)
    {vs : List PostVisit} (hsuffix : vs <:+ postVisits 0 t)
    {y : PostOrderYield} (hy : y ∈ yieldsOf heap vs) :
    ∃ v ∈ postVisits 0 t, v.node = y.node ∧ v.parent = y.parent ∧
      ∀ a ∈ inOrder v.tree, y.heap a = heap a := by
  induction vs with
  | nil => cases hy
  | cons v vs ih =>
      rcases List.mem_cons.mp hy with rfl | hy
      · exact ⟨v, hsuffix.subset List.mem_cons_self, rfl, rfl,
          (hheap.subtree hp hsuffix).1⟩
      · exact ih ((List.suffix_cons v vs).trans hsuffix) hy

/-- Post-order iteration yields what the post-order traversal visits, with the
same parents, and restores the tree.  At each node the subtree is as it was,
and iterating over it changes nothing of what follows. -/
theorem post_order_iteration (hheap : heap.Holds t 0) (hp : Proper t)
    (hal : Aligned t) (iter : BintreeIterator) :
    ∃ visits yields,
      Prog.Returns (fun fuel => bintreeTraversePostOrder fuel (rootPtr 0 t)) heap
        (visits, heap) ∧
      (∀ nested, Prog.Returns (fun fuel => do
          let (curr, iter) ← bintreeIteratePostOrder fuel iter (rootPtr 0 t)
          postOrderYields nested fuel curr iter) heap (yields, heap)) ∧
      yields.map (fun y => (y.node, y.parent)) = visitedParents visits ∧
      (yields.map PostOrderYield.node).Nodup ∧
      (∀ a, a ∈ yields.map PostOrderYield.node ↔ a ∈ inOrder t) ∧
      ∀ y ∈ yields, ∃ s, Subtree s t ∧ rootPtr 0 s = y.node ∧
        (∀ a ∈ inOrder s, y.heap a = heap a) ∧
        ((s = t ∧ y.parent = 0) ∨
          ∃ l r, Subtree (node y.parent l r) t ∧ (s = l ∨ s = r)) := by
  obtain ⟨visits, htraverse, hvisits⟩ :=
    traversePostOrderDepth_returns hheap hp 0 0
  obtain ⟨iter', hstate, hstart⟩ :=
    bintreeIteratePostOrder_returns hheap hp iter
  have hnodes := yieldsOf_map (fun node _ => node) heap (postVisits 0 t)
  refine ⟨visits, yieldsOf heap (postVisits 0 t), htraverse, fun nested => ?_,
    ?_, ?_, fun a => ?_, fun y hy => ?_⟩
  · obtain ⟨a, iter₁, heap₁, hfirst, hloop⟩ :=
      hstate.postOrderYields nested hheap hp hal
    exact (hstart _ hfirst).bind hloop
  · rw [hvisits]
    exact yieldsOf_map Prod.mk heap (postVisits 0 t)
  · exact hnodes ▸ postVisits_nodup hp
  · exact hnodes ▸ mem_postVisits
  · obtain ⟨v, hv, hnode, hparent, hsame⟩ :=
      yieldsOf_subtree hheap hp List.suffix_rfl hy
    exact ⟨v.tree, visit_subtree hv, hnode, hsame, hparent ▸ visit_parent hv⟩

theorem post_order_iteration_small :
    ∃ yields, Prog.Returns (fun fuel => do
        let (curr, iter) ← bintreeIteratePostOrder fuel smallIterator 2
        postOrderYields (fun _ => [(.postOrder, smallIterator)]) fuel curr iter)
      smallHeap (yields, smallHeap) ∧
      ∀ a, a ∈ yields.map PostOrderYield.node ↔ a ∈ [4, 8, 2, 6] := by
  obtain ⟨visits, yields, -, hiterate, -, -, hnodes, -⟩ :=
    post_order_iteration smallHeap_holds smallTree_proper smallTree_aligned
      smallIterator
  exact ⟨yields, hiterate _, hnodes⟩

end PostOrder

end Librfn
