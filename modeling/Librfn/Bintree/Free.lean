import Librfn.Bintree.PostOrder

/-!
# Freeing a tree

`bintree_free` takes the tree apart while the iteration over it goes on: each
node that is freed is a leaf of what remains, and its parent forgets it.
-/

namespace Librfn

open Librfn.Logic BinaryTree

/-! ## Taking off the first leaf -/

/-- The leaf `n` with parent `q` is the first of a tree below `p`; the last
argument is the tree without it. -/
inductive FirstLeaf : Nat → BinaryTree Nat → Nat → Nat → BinaryTree Nat → Prop
  | root {p a} : FirstLeaf p (node a nil nil) a p nil
  | left {p a l r n q l'} : FirstLeaf a l n q l' →
      FirstLeaf p (node a l r) n q (node a l' r)
  | right {p a r n q r'} : FirstLeaf a r n q r' →
      FirstLeaf p (node a nil r) n q (node a nil r')

section FirstLeaf

variable {p n q : Nat} {t t' : BinaryTree Nat}

theorem exists_firstLeaf (p : Nat) (ht : t ≠ nil) :
    ∃ n q t', FirstLeaf p t n q t' := by
  induction t generalizing p with
  | nil => exact absurd rfl ht
  | node a l r ihl ihr =>
      by_cases hl : l = nil
      · subst hl
        by_cases hr : r = nil
        · subst hr
          exact ⟨_, _, _, .root⟩
        · obtain ⟨n, q, r', h⟩ := ihr a hr
          exact ⟨n, q, _, h.right⟩
      · obtain ⟨n, q, l', h⟩ := ihl a hl
        exact ⟨n, q, _, h.left⟩

theorem FirstLeaf.inOrder_perm (h : FirstLeaf p t n q t') :
    (inOrder t).Perm (n :: inOrder t') := by
  induction h with
  | root => exact .refl _
  | left _ ih => exact ih.append_right _
  | right _ ih => exact (ih.cons _).trans (.swap _ _ _)

theorem FirstLeaf.mem_iff (h : FirstLeaf p t n q t') {b : Nat} :
    b ∈ inOrder t ↔ b = n ∨ b ∈ inOrder t' :=
  h.inOrder_perm.mem_iff.trans List.mem_cons

theorem FirstLeaf.proper (h : FirstLeaf p t n q t') (hp : Proper t) :
    Proper t' ∧ n ∉ inOrder t' := by
  have hnodup := List.nodup_cons.mp (h.inOrder_perm.nodup_iff.mp hp.nodup)
  exact ⟨⟨hnodup.2, fun h0 => hp.ne_zero (h.mem_iff.mpr (.inr h0))⟩, hnodup.1⟩

theorem FirstLeaf.aligned (h : FirstLeaf p t n q t') (hal : Aligned t) :
    Aligned t' := fun b hb => hal b (h.mem_iff.mpr (.inr hb))

theorem FirstLeaf.parent (h : FirstLeaf p t n q t') :
    (t = node n nil nil ∧ q = p ∧ t' = nil) ∨
      (q ∈ inOrder t' ∧ ∀ ptr, rootPtr ptr t' = rootPtr ptr t) := by
  induction h with
  | root => exact .inl ⟨rfl, rfl, rfl⟩
  | left _ ih =>
      refine .inr ⟨?_, fun _ => rfl⟩
      rcases ih with ⟨-, rfl, -⟩ | ⟨hq, -⟩
      · exact mem_inOrder.mpr (.inr (.inl rfl))
      · exact mem_inOrder.mpr (.inl hq)
  | right _ ih =>
      refine .inr ⟨?_, fun _ => rfl⟩
      rcases ih with ⟨-, rfl, -⟩ | ⟨hq, -⟩
      · exact mem_inOrder.mpr (.inr (.inl rfl))
      · exact mem_inOrder.mpr (.inr (.inr hq))

theorem FirstLeaf.postVisits (h : FirstLeaf p t n q t') :
    (postVisits p t).map (fun v => (v.node, v.parent)) =
      (n, q) :: (postVisits p t').map (fun v => (v.node, v.parent)) := by
  induction h with
  | root => rfl
  | left _ ih | right _ ih =>
      simp only [Librfn.postVisits, List.map_append, ih]
      rfl

end FirstLeaf

/-! ## Freeing the first leaf -/

/-- What `bintree_free` does to the parent `q` of a node that it has freed. -/
def forget (q n : Nat) (a : Nat) (parent : BintreeNode) : BintreeNode :=
  if a = q ∧ q ≠ 0 then
    if parent.right = n then { parent with right := 0 }
    else { parent with left := 1 }
  else parent

def Heap.without (heap : Heap) (t : BinaryTree Nat) : Heap := fun a =>
  if a ∈ inOrder t then none else heap a

def Heap.freeLeaf (heap : Heap) (n q : Nat) : Heap :=
  Heap.modify (Function.update heap n none) (forget q n)

section Free

variable {heap : Heap} {p n q : Nat} {t t' : BinaryTree Nat} {ys : List Nat}
  {iter : BintreeIterator}

theorem forget_of_ne {q n a : Nat} (h : a ≠ q) (parent : BintreeNode) :
    forget q n a parent = parent := if_neg fun hq => h hq.1

theorem Heap.freeLeaf_of_ne {a : Nat} (hn : a ≠ n) (hq : a ≠ q) :
    heap.freeLeaf n q a = heap a := by
  rw [Heap.freeLeaf, Heap.modify_eq (forget_of_ne hq),
    Function.update_of_ne hn]

theorem Heap.freeLeaf_parent {parent : BintreeNode} (hne : q ≠ n) (h0 : q ≠ 0)
    (hq : heap q = some parent) :
    heap.freeLeaf n q q = some (if parent.right = n then
      { parent with right := 0 } else { parent with left := 1 }) := by
  have hq' : Function.update heap n none q = some parent := by
    rw [Function.update_of_ne hne, hq]
  rw [Heap.freeLeaf, Heap.modify_some hq', forget, if_pos ⟨rfl, h0⟩]

theorem FirstLeaf.tagged (h : FirstLeaf p t n q t') (hp : Proper t)
    (hys : ∀ a ∈ inOrder t, a ∈ ys) (hheap : heap.Tagged ys t) :
    (heap.freeLeaf n q).Tagged ys t' := by
  induction h with
  | root => trivial
  | @left p a l r n q l' hleaf ih =>
      obtain ⟨ha, hl, hr⟩ := hheap
      have hmem : a ∈ ys := hys a (mem_inOrder.mpr (.inr (.inl rfl)))
      have hn : n ∈ inOrder l := hleaf.mem_iff.mpr (.inl rfl)
      have hna : a ≠ n := fun heq => hp.not_mem_left (heq ▸ hn)
      have hrest := ih hp.left (fun b hb => hys b (mem_inOrder.mpr (.inl hb))) hl
      rw [if_pos hmem] at ha
      rcases hleaf.parent with ⟨rfl, rfl, rfl⟩ | ⟨hq, hroot⟩
      · refine ⟨?_, hrest, hr.congr (fun b hb => ?_) fun _ _ => Iff.rfl⟩
        · have hright : rootPtr 0 r ≠ n := fun heq => by
            by_cases hnil : r = nil
            · subst hnil
              exact hp.left.ne heq.symm
            · exact hp.disjoint hn (heq ▸ rootPtr_mem hnil)
          rw [Heap.freeLeaf_parent hna hp.ne ha, if_neg hright, if_pos hmem]
          rfl
        · exact Heap.freeLeaf_of_ne (fun heq => hp.disjoint hn (heq ▸ hb))
            fun heq => hp.not_mem_right (heq ▸ hb)
      · have hql : q ∈ inOrder l := hleaf.mem_iff.mpr (.inr hq)
        have hqa : a ≠ q := fun heq => hp.not_mem_left (heq ▸ hql)
        refine ⟨?_, hrest, hr.congr (fun b hb => ?_) fun _ _ => Iff.rfl⟩
        · rw [Heap.freeLeaf_of_ne hna hqa, ha, hroot, if_pos hmem]
        · exact Heap.freeLeaf_of_ne (fun heq => hp.disjoint hn (heq ▸ hb))
            fun heq => hp.disjoint hql (heq ▸ hb)
  | @right p a r n q r' hleaf ih =>
      obtain ⟨ha, -, hr⟩ := hheap
      have hn : n ∈ inOrder r := hleaf.mem_iff.mpr (.inl rfl)
      have hna : a ≠ n := fun heq => hp.not_mem_right (heq ▸ hn)
      have hrest := ih hp.right
        (fun b hb => hys b (mem_inOrder.mpr (.inr (.inr hb)))) hr
      rcases hleaf.parent with ⟨rfl, rfl, rfl⟩ | ⟨hq, hroot⟩
      · refine ⟨?_, trivial, hrest⟩
        rw [Heap.freeLeaf_parent hna hp.ne ha]
        exact congrArg some (if_pos rfl)
      · have hqr : q ∈ inOrder r := hleaf.mem_iff.mpr (.inr hq)
        have hqa : a ≠ q := fun heq => hp.not_mem_right (heq ▸ hqr)
        refine ⟨?_, trivial, hrest⟩
        rw [Heap.freeLeaf_of_ne hna hqa, ha, hroot]

/-! ## The loop -/

theorem wp_dealloc {node : BintreeNode} (hne : n ≠ 0) (hn : heap n = some node)
    (Q : Unit → Heap → Prop) :
    Prog.wp (dealloc n) Q heap ↔ Q () (Function.update heap n none) := by
  simp only [dealloc, Prog.wp_bind, wp_loadNode hne hn, Prog.wp_modify]

theorem forget_zero (heap : Heap) (n : Nat) :
    Heap.modify heap (forget 0 n) = heap :=
  Heap.modify_id fun _ _ _ => if_neg fun h => h.2 rfl

theorem wp_forget {α : Type} (hq : q ≠ 0 → ∃ parent, heap q = some parent)
    (rest : Prog Heap α) (Q : α → Heap → Prop) :
    Prog.wp (do
      if q ≠ 0 then
        if (← loadNode q).right = n then storeRight q 0 else storeLeft q 1
      rest) Q heap ↔ Prog.wp rest Q (heap.modify (forget q n)) := by
  by_cases h0 : q = 0
  · subst h0
    rw [if_neg (not_not_intro rfl), forget_zero]
  · obtain ⟨parent, hparent⟩ := hq h0
    simp only [ne_eq, h0, not_false_eq_true, if_true, Prog.wp_bind,
      wp_loadNode h0 hparent, Prog.wp_ite, wp_storeRight h0 hparent,
      wp_storeLeft (fun _ => 1) h0 hparent rfl]
    by_cases hright : parent.right = n
    · rw [if_pos hright, Heap.modify_congr fun a b hb => ?_]
      by_cases ha : a = q
      · subst ha
        cases hparent.symm.trans hb
        rw [setRight, if_pos rfl, forget, if_pos ⟨rfl, h0⟩, if_pos hright]
      · rw [setRight_of_ne ha, forget_of_ne ha]
    · rw [if_neg hright, Heap.modify_congr fun a b hb => ?_]
      by_cases ha : a = q
      · subst ha
        cases hparent.symm.trans hb
        rw [mapLeft_of_mem List.mem_cons_self, forget, if_pos ⟨rfl, h0⟩,
          if_neg hright]
      · rw [mapLeft_of_not_mem (mt List.mem_singleton.mp ha), forget_of_ne ha]

/-- The iterator while the tree `t` remains, all of it tagged. -/
structure FreeState (t : BinaryTree Nat) (heap : Heap) (iter : BintreeIterator) :
    Prop where
  next : iter.next = .postOrder
  curr : iter.curr = rootPtr 0 t
  proper : Proper t
  aligned : Aligned t
  tagged : heap.Tagged (inOrder t) t

theorem Heap.Tagged.exists_node (h : heap.Tagged ys t) {a : Nat}
    (ha : a ∈ inOrder t) : ∃ node, heap a = some node := by
  induction t with
  | nil => cases ha
  | node b l r ihl ihr =>
      rcases mem_inOrder.mp ha with ha | rfl | ha
      · exact ihl h.2.1 ha
      · exact ⟨_, h.1⟩
      · exact ihr h.2.2 ha

theorem freeLeaf_modify (heap : Heap) (n q : Nat) :
    Heap.modify (Function.update (heap.modify (mapLeft align [n])) n none)
      (forget q n) = heap.freeLeaf n q := by
  rw [Heap.freeLeaf]
  congr 1
  funext a
  by_cases ha : a = n
  · subst ha
    rw [Function.update_self, Function.update_self]
  · rw [Function.update_of_ne ha, Function.update_of_ne ha]
    exact Heap.modify_eq (mapLeft_of_not_mem (mt List.mem_singleton.mp ha))

theorem FirstLeaf.without (h : FirstLeaf 0 t n q t') (heap : Heap) :
    (heap.freeLeaf n q).without t' = heap.without t := by
  funext b
  unfold Heap.without
  by_cases hb : b ∈ inOrder t'
  · rw [if_pos hb, if_pos (h.mem_iff.mpr (.inr hb))]
  · rw [if_neg hb]
    by_cases hbn : b = n
    · subst hbn
      rw [if_pos (h.mem_iff.mpr (.inl rfl)), Heap.freeLeaf, Heap.modify,
        Function.update_self, Option.map_none]
    · rw [if_neg fun hbt => (h.mem_iff.mp hbt).elim hbn hb]
      rcases h.parent with ⟨-, rfl, -⟩ | ⟨hq, -⟩
      · rw [Heap.freeLeaf, forget_zero, Function.update_of_ne hbn]
      · exact Heap.freeLeaf_of_ne hbn fun heq => hb (heq ▸ hq)

theorem FreeState.next_leaf (h : FreeState t heap iter)
    (hleaf : FirstLeaf 0 t n q t') :
    ∃ iter', iter'.parent = q ∧ FreeState t' (heap.freeLeaf n q) iter' ∧
      Prog.Returns (fun fuel => bintreeNext fuel iter) heap
        ((n, iter'), heap.modify (mapLeft align [n])) := by
  have hvisits := hleaf.postVisits
  obtain ⟨v, vs, hv⟩ : ∃ v vs, postVisits 0 t = v :: vs :=
    List.exists_cons_of_ne_nil fun hnil => by simp [hnil] at hvisits
  simp only [hv, List.map_cons, List.cons.injEq, Prod.mk.injEq] at hvisits
  obtain ⟨⟨rfl, rfl⟩, -⟩ := hvisits
  have hsuffix : v :: vs <:+ postVisits 0 t := hv ▸ List.suffix_rfl
  have hloop := postOrderLoop_returns h.tagged h.proper h.aligned hsuffix
    (fun b _ => by rw [← hv, mem_postVisits]) iter
  rw [← h.curr] at hloop
  obtain ⟨hp', hn'⟩ := hleaf.proper h.proper
  refine ⟨{ iter with
    curr := if v.node = iter.curr then 0 else iter.curr
    parent := v.parent }, rfl, ?_, ?_⟩
  · refine ⟨h.next, ?_, hp', hleaf.aligned h.aligned, ?_⟩
    · simp only [h.curr]
      rcases hleaf.parent with ⟨rfl, -, rfl⟩ | ⟨hq, hroot⟩
      · exact if_pos rfl
      · rw [if_neg, hroot]
        intro heq
        refine hn' (heq ▸ hroot 0 ▸ rootPtr_mem fun hnil => ?_)
        subst hnil
        cases hq
    · refine (hleaf.tagged h.proper (fun _ ha => ha) h.tagged).congr
        (fun _ _ => rfl) fun a ha => ?_
      exact ⟨fun _ => hleaf.mem_iff.mpr (.inr ha), fun _ => ha⟩
  · simp only [bintreeNext_postOrder h.next]
    exact hloop

theorem FirstLeaf.nodes (h : FirstLeaf p t n q t') :
    (Librfn.postVisits p t).map PostVisit.node =
      n :: (Librfn.postVisits p t').map PostVisit.node := by
  have hfst := congrArg (List.map Prod.fst) h.postVisits
  rwa [List.map_map, List.map_cons, List.map_map] at hfst

theorem FreeState.freeLoop (h : FreeState t heap iter) :
    ∃ a iter' heap₁,
      Prog.Returns (fun fuel => bintreeNext fuel iter) heap
        ((a, iter'), heap₁) ∧
      Prog.Returns (fun fuel => Librfn.freeLoop fuel a iter') heap₁
        ((postVisits 0 t).map PostVisit.node, heap.without t) := by
  generalize hws : (postVisits 0 t).map PostVisit.node = ws
  induction ws generalizing t heap iter with
  | nil =>
      have ht : t = nil := by
        by_contra ht
        cases List.map_eq_nil_iff.mp hws ▸ root_mem_postVisits ht
      subst ht
      have hcurr : iter.curr = 0 := h.curr
      refine ⟨0, iter, heap, ?_, .of_succ (.pure [] heap)⟩
      simp only [bintreeNext_postOrder h.next, postOrderIterator, hcurr]
      exact .of_succ (.pure (0, iter) heap)
  | cons w ws ih =>
      obtain ⟨n, q, t', hleaf⟩ := exists_firstLeaf 0 (t := t) fun hnil => by
        subst hnil
        cases hws
      obtain ⟨rfl, hws'⟩ := List.cons.inj (hleaf.nodes.symm.trans hws)
      obtain ⟨iter', hparent, hstate, hnext⟩ := h.next_leaf hleaf
      obtain ⟨b, iter₁, heap₁, ⟨i, hb⟩, ⟨j, hloop⟩⟩ := ih hstate hws'
      rw [hleaf.without] at hloop
      refine ⟨n, iter', _, hnext,
        .of_succ (.of_forall_wp ⟨max i j, fun fuel hle => ?_⟩)⟩
      have hmem : n ∈ inOrder t := hleaf.mem_iff.mpr (.inl rfl)
      have hne : n ≠ 0 := fun h0 => h.proper.ne_zero (h0 ▸ hmem)
      obtain ⟨node, hnode⟩ := h.tagged.exists_node hmem
      have hrest : q ≠ 0 → ∃ parent, Function.update
          (heap.modify (mapLeft align [n])) n none q = some parent := fun h0 => by
        rcases hleaf.parent with ⟨-, hq, -⟩ | ⟨hq, -⟩
        · exact absurd hq h0
        · have hqn : q ≠ n := fun heq => (hleaf.proper h.proper).2 (heq ▸ hq)
          obtain ⟨parent, hq⟩ := h.tagged.exists_node (hleaf.mem_iff.mpr (.inr hq))
          exact ⟨_, (Function.update_of_ne hqn _ _).trans (Heap.modify_some hq)⟩
      simp only [Librfn.freeLoop, if_neg hne, Prog.wp_bind,
        wp_dealloc hne (Heap.modify_some hnode), hparent]
      rw [wp_forget hrest, freeLeaf_modify]
      simp only [Prog.wp_bind]
      rw [Prog.wp_iff_of_eq (hb fuel (by omega)),
        Prog.wp_iff_of_eq (hloop fuel (by omega))]
      exact ⟨rfl, rfl⟩

end Free

/-! ## Freeing -/

structure FreedOnce (t : BinaryTree Nat) (freed : List Nat) : Prop where
  nodup : freed.Nodup
  mem : ∀ a, a ∈ freed ↔ a ∈ inOrder t
  children : ∀ a l r, Subtree (node a l r) t → ∀ c,
    c ∈ inOrder l ∨ c ∈ inOrder r → [c, a].Sublist freed

section Calls

variable {heap : Heap} {a : Nat} {l r t : BinaryTree Nat}

theorem postVisits_sublist {s : BinaryTree Nat} (h : Subtree s t) (p : Nat) :
    ((postVisits p s).map PostVisit.node).Sublist
      ((postVisits p t).map PostVisit.node) := by
  have hnodes : ∀ q t, (postVisits q t).map PostVisit.node =
      (postVisits p t).map PostVisit.node := fun q t => by
    cases t with
    | nil => rfl
    | node a l r =>
        simp only [postVisits, List.map_append]
        rfl
  induction h with
  | refl => exact .refl _
  | left _ ih =>
      simp only [postVisits, List.map_append, hnodes _ _]
      exact (ih.trans (List.sublist_append_left _ _)).trans
        (List.sublist_append_left _ _)
  | right _ ih =>
      simp only [postVisits, List.map_append, hnodes _ _]
      exact (ih.trans (List.sublist_append_right _ _)).trans
        (List.sublist_append_left _ _)

theorem freedOnce_postVisits (hp : Proper t) :
    FreedOnce t ((postVisits 0 t).map PostVisit.node) where
  nodup := postVisits_nodup hp
  mem := fun _ => mem_postVisits
  children := fun a l r hsub c hc => by
    refine List.Sublist.trans ?_ (postVisits_sublist hsub 0)
    have hmem : c ∈ (postVisits a l ++ postVisits a r).map PostVisit.node := by
      rw [List.map_append, List.mem_append, mem_postVisits, mem_postVisits]
      exact hc
    rw [postVisits, List.map_append]
    exact (List.singleton_sublist.mpr hmem).append (.refl [a])

theorem bintreeFree_returns (h : heap.Holds t 0) (hp : Proper t)
    (hal : Aligned t) (iter : BintreeIterator) :
    Prog.Returns (fun fuel => bintreeFree fuel iter (rootPtr 0 t)) heap
      ((postVisits 0 t).map PostVisit.node, heap.without t) := by
  obtain ⟨iter', hstate, hstart⟩ := bintreeIteratePostOrder_returns h hp iter
  have hfree : FreeState t (heap.pending (postVisits 0 t)) iter' := {
    next := hstate.next
    curr := by
      rw [hstate.curr]
      cases t with
      | nil => rfl
      | node a l r => simp [postVisits]
    proper := hp
    aligned := hal
    tagged := (Heap.Tagged.of_holds h _).congr (fun _ _ => rfl)
      fun _ _ => mem_postVisits.symm }
  obtain ⟨b, iter₁, heap₁, hfirst, hloop⟩ := hfree.freeLoop
  have hwithout : (heap.pending (postVisits 0 t)).without t = heap.without t := by
    funext b
    unfold Heap.without
    by_cases hb : b ∈ inOrder t
    · rw [if_pos hb, if_pos hb]
    · rw [if_neg hb, if_neg hb, Heap.pending, Heap.modify_eq]
      exact mapLeft_of_not_mem (mt mem_postVisits.mp hb)
  rw [hwithout] at hloop
  exact (hstart _ hfirst).bind hloop

theorem without_of_not_mem {b : Nat} (hb : b ∉ inOrder t) :
    heap.without t b = heap b := if_neg hb

theorem bintreeFreeLeft_returns (h : heap.Holds (node a l r) 0)
    (hp : Proper (node a l r)) (hal : Aligned (node a l r))
    (iter : BintreeIterator) :
    Prog.Returns (fun fuel => bintreeFreeLeft fuel iter a) heap
      ((postVisits 0 l).map PostVisit.node,
        Function.update (heap.without l) a
          (some { left := 0, right := rootPtr 0 r })) := by
  obtain ⟨ha, hl, hr⟩ := h
  have hne := hp.ne
  obtain ⟨enough, hfree⟩ := bintreeFree_returns hl hp.left hal.left iter
  have ha' : heap.without l a = _ := (without_of_not_mem hp.not_mem_left).trans ha
  refine .of_forall_wp ⟨enough, fun fuel hle => ?_⟩
  simp only [bintreeFreeLeft, Prog.wp_bind, Prog.wp_ite, wp_loadNode hne ha]
  by_cases hnil : l = nil
  · subst hnil
    have hleaf : heap a = some { left := 0, right := rootPtr 0 r } := ha
    rw [if_neg (fun h0 => h0 rfl), ← hleaf]
    exact ⟨rfl, (Function.update_eq_self a heap).symm⟩
  · rw [if_pos (mt (rootPtr_eq_zero hp.left).mp hnil),
      Prog.wp_iff_of_eq (hfree fuel hle)]
    simp only [storeLeft, storeNode, Prog.wp_bind, wp_loadNode hne ha']
    exact ⟨rfl, rfl⟩

theorem bintreeFreeRight_returns (h : heap.Holds (node a l r) 0)
    (hp : Proper (node a l r)) (hal : Aligned (node a l r))
    (iter : BintreeIterator) :
    Prog.Returns (fun fuel => bintreeFreeRight fuel iter a) heap
      ((postVisits 0 r).map PostVisit.node,
        Function.update (heap.without r) a
          (some { left := rootPtr 0 l, right := 0 })) := by
  obtain ⟨ha, hl, hr⟩ := h
  have hne := hp.ne
  obtain ⟨enough, hfree⟩ := bintreeFree_returns hr hp.right hal.right iter
  have ha' : heap.without r a = _ :=
    (without_of_not_mem hp.not_mem_right).trans ha
  refine .of_forall_wp ⟨enough, fun fuel hle => ?_⟩
  simp only [bintreeFreeRight, Prog.wp_bind, Prog.wp_ite, wp_loadNode hne ha]
  by_cases hnil : r = nil
  · subst hnil
    have hleaf : heap a = some { left := rootPtr 0 l, right := 0 } := ha
    rw [if_neg (fun h0 => h0 rfl), ← hleaf]
    exact ⟨rfl, (Function.update_eq_self a heap).symm⟩
  · rw [if_pos (mt (rootPtr_eq_zero hp.right).mp hnil),
      Prog.wp_iff_of_eq (hfree fuel hle)]
    simp only [storeRight, storeNode, Prog.wp_bind, wp_loadNode hne ha']
    exact ⟨rfl, rfl⟩

/-- `bintree_free` frees every node of a tree and nothing else; its variants
free one subtree of the root and forget it. -/
theorem bintree_free_once (h : heap.Holds t 0) (hp : Proper t)
    (hal : Aligned t) (iter : BintreeIterator) :
    (∃ freed, FreedOnce t freed ∧
      Prog.Returns (fun fuel => bintreeFree fuel iter (rootPtr 0 t)) heap
        (freed, heap.without t)) ∧
    ∀ a l r, t = node a l r →
      (∃ freed, FreedOnce l freed ∧
        Prog.Returns (fun fuel => bintreeFreeLeft fuel iter a) heap
          (freed, Function.update (heap.without l) a
            (some { left := 0, right := rootPtr 0 r }))) ∧
      ∃ freed, FreedOnce r freed ∧
        Prog.Returns (fun fuel => bintreeFreeRight fuel iter a) heap
          (freed, Function.update (heap.without r) a
            (some { left := rootPtr 0 l, right := 0 })) := by
  refine ⟨⟨_, freedOnce_postVisits hp, bintreeFree_returns h hp hal iter⟩, ?_⟩
  rintro a l r rfl
  exact ⟨⟨_, freedOnce_postVisits hp.left,
      bintreeFreeLeft_returns h hp hal iter⟩,
    ⟨_, freedOnce_postVisits hp.right,
      bintreeFreeRight_returns h hp hal iter⟩⟩

theorem bintree_free_once_small :
    ∃ freed, FreedOnce smallTree freed ∧
      Prog.Returns (fun fuel => bintreeFree fuel smallIterator 2) smallHeap
        (freed, smallHeap.without smallTree) :=
  (bintree_free_once smallHeap_holds smallTree_proper smallTree_aligned
    smallIterator).1

end Calls

end Librfn
