import Librfn.Bintree.Morris

/-!
# In-order and pre-order iteration

The iterators against the recursive traversals: the same nodes in the same
order, the tree as it was before, at whichever node the caller stops.
-/

namespace Librfn

open Librfn.Logic BinaryTree

/-! ## Traversals -/

/-- The nodes that a visitor sees, without the calls for `NULL`. -/
def visitedNodes (visits : List BintreeVisit) : List Nat :=
  (visits.map BintreeVisit.tree).filter (· ≠ 0)

theorem visitedNodes_append (xs ys : List BintreeVisit) :
    visitedNodes (xs ++ ys) = visitedNodes xs ++ visitedNodes ys := by
  simp [visitedNodes]

/-- How a traversal puts the calls of one node between or beside those of its subtrees. -/
abbrev Arrangement := List BintreeVisit → BintreeVisit → List BintreeVisit → List BintreeVisit

def visitBetween : Arrangement := fun left visit right => left ++ visit :: right

def visitBefore : Arrangement := fun left visit right => visit :: (left ++ right)

def visitAfter : Arrangement := fun left visit right => left ++ right ++ [visit]

def traverseDepth (arrange : Arrangement) (below : Nat → Nat → Nat → Prog Heap (List BintreeVisit))
    (tree parent depth : Nat) : Prog Heap (List BintreeVisit) := do
  if tree ≠ 0 then
    let left ← below (← loadNode tree).left tree (depth + 1)
    let right ← below (← loadNode tree).right tree (depth + 1)
    return arrange left { tree, parent, depth } right
  else
    return [{ tree, parent, depth }]

def depthVisits (arrange : Arrangement) (parent depth : Nat) : BinaryTree Nat → List BintreeVisit
  | nil => [{ tree := 0, parent, depth }]
  | node a l r =>
      arrange (depthVisits arrange a (depth + 1) l) { tree := a, parent, depth }
        (depthVisits arrange a (depth + 1) r)

section Traversal

variable {heap : Heap} {t : BinaryTree Nat}

theorem traverseDepth_returns {arrange : Arrangement}
    {traverse : Nat → Nat → Nat → Nat → Prog Heap (List BintreeVisit)}
    (htraverse : ∀ fuel, traverse (fuel + 1) = traverseDepth arrange (traverse fuel))
    (h : heap.Holds t 0) (hp : Proper t) (parent depth : Nat) :
    Prog.Returns (fun fuel => traverse fuel (rootPtr 0 t) parent depth) heap
      (depthVisits arrange parent depth t, heap) := by
  induction t generalizing parent depth with
  | nil =>
      refine .of_succ (.of_forall_wp ⟨0, fun fuel _ => ?_⟩)
      rw [htraverse]
      exact ⟨rfl, rfl⟩
  | node a l r ihl ihr =>
      obtain ⟨ha, hl, hr⟩ := h
      have hne := hp.ne
      obtain ⟨i, hleft⟩ := ihl hl hp.left a (depth + 1)
      obtain ⟨j, hright⟩ := ihr hr hp.right a (depth + 1)
      refine .of_succ (.of_forall_wp ⟨max i j, fun fuel hle => ?_⟩)
      simp only [htraverse, rootPtr_node, traverseDepth, Prog.wp_bind, wp_loadNode hne ha,
        if_pos hne]
      rw [Prog.wp_iff_of_eq (hleft fuel (by omega)), wp_loadNode hne ha,
        Prog.wp_iff_of_eq (hright fuel (by omega))]
      exact ⟨rfl, rfl⟩

theorem traverseInOrderDepth_returns (h : heap.Holds t 0) (hp : Proper t)
    (parent depth : Nat) :
    ∃ visits, Prog.Returns (fun fuel =>
        bintreeTraverseInOrderDepth fuel (rootPtr 0 t) parent depth) heap
        (visits, heap) ∧ visitedNodes visits = inOrder t := by
  refine ⟨depthVisits visitBetween parent depth t,
    traverseDepth_returns (fun _ => rfl) h hp parent depth, ?_⟩
  clear h
  induction t generalizing parent depth with
  | nil => rfl
  | node a l r ihl ihr =>
      rw [depthVisits, visitBetween, visitedNodes_append, ihl hp.left, inOrder,
        ← ihr hp.right a (depth + 1)]
      simp [visitedNodes, hp.ne]

theorem traversePreOrderDepth_returns (h : heap.Holds t 0) (hp : Proper t)
    (parent depth : Nat) :
    ∃ visits, Prog.Returns (fun fuel =>
        bintreeTraversePreOrderDepth fuel (rootPtr 0 t) parent depth) heap
        (visits, heap) ∧ visitedNodes visits = preOrder t := by
  refine ⟨depthVisits visitBefore parent depth t,
    traverseDepth_returns (fun _ => rfl) h hp parent depth, ?_⟩
  clear h
  induction t generalizing parent depth with
  | nil => rfl
  | node a l r ihl ihr =>
      rw [depthVisits, visitBefore, preOrder, ← ihl hp.left a (depth + 1),
        ← ihr hp.right a (depth + 1), ← visitedNodes_append]
      simp [visitedNodes, hp.ne]

end Traversal

/-! ## Callers of the iterators -/

/-- `for (; curr; curr = bintree_next(iter))`, with the nodes that it sees. -/
def iterateNodes : Nat → Nat → BintreeIterator →
    Prog Heap (List Nat × BintreeIterator)
  | 0, _, _ => throw .outOfFuel
  | fuel + 1, curr, iter => do
      if curr = 0 then return ([], iter)
      let (next, iter) ← bintreeNext fuel iter
      let (nodes, iter) ← iterateNodes fuel next iter
      return (curr :: nodes, iter)

/-- What a number of calls of `bintree_next` return. -/
def nextNodes (fuel : Nat) : Nat → BintreeIterator →
    Prog Heap (List Nat × BintreeIterator)
  | 0, iter => return ([], iter)
  | count + 1, iter => do
      let (curr, iter) ← bintreeNext fuel iter
      let (nodes, iter) ← nextNodes fuel count iter
      return (curr :: nodes, iter)

def BintreeIterator.resume (iter : BintreeIterator) (pre : Bool) (curr : Nat) :
    BintreeIterator :=
  { iter with next := if pre then .preOrder else .inOrder, curr }

section Callers

variable {pre : Bool} {heap heap' : Heap} {curr : Nat} {ys : List Nat}

theorem bintreeNext_returns {a curr' : Nat} (iter : BintreeIterator)
    (h : Prog.Returns (fun fuel => iteratorLoop pre fuel curr) heap
      ((a, curr'), heap')) :
    Prog.Returns (fun fuel => bintreeNext fuel (iter.resume pre curr)) heap
      ((a, iter.resume pre curr'), heap') := by
  cases pre with
  | false => exact h.bind (.pure (a, iter.resume false curr') heap')
  | true => exact h.bind (.pure (a, iter.resume true curr') heap')

theorem iterateNodes_zero (iter : BintreeIterator) (heap : Heap) :
    Prog.Returns (fun fuel => iterateNodes fuel 0 iter) heap
      (([], iter), heap) :=
  .of_succ (.pure ([], iter) heap)

theorem iterateNodes_succ {a : Nat} (hne : a ≠ 0) (iter : BintreeIterator)
    (fuel : Nat) :
    iterateNodes (fuel + 1) a iter = (do
      let (next, iter) ← bintreeNext fuel iter
      let (nodes, iter) ← iterateNodes fuel next iter
      return (a :: nodes, iter)) := by
  simp only [iterateNodes, if_neg hne]

theorem bintreeIterateComplete_succ (iter : BintreeIterator) (fuel : Nat) :
    bintreeIterateComplete (fuel + 1) iter = (do
      let (curr, iter) ← bintreeNext fuel iter
      if curr ≠ 0 then bintreeIterateComplete fuel iter) := rfl

theorem Iterated.iterateNodes (h : Iterated pre id heap curr ys heap' 0)
    (iter : BintreeIterator) :
    ∃ a iter' heap₁,
      Prog.Returns (fun fuel => bintreeNext fuel (iter.resume pre curr)) heap
        ((a, iter'), heap₁) ∧
      Prog.Returns (fun fuel => Librfn.iterateNodes fuel a iter') heap₁
        ((ys, iter.resume pre 0), heap') := by
  induction ys generalizing heap curr with
  | nil =>
      exact ⟨0, _, heap', bintreeNext_returns iter h.finish,
        iterateNodes_zero _ heap'⟩
  | cons a ys ih =>
      obtain ⟨heap₁, curr', hne, -, hnext, hrest⟩ := h.next
      rw [mapLeft_id] at hrest
      obtain ⟨b, iter', heap₂, hb, hloop⟩ := ih hrest
      refine ⟨a, _, heap₁, bintreeNext_returns iter hnext, .of_succ ?_⟩
      simp only [iterateNodes_succ hne]
      exact hb.bind (hloop.bind (.pure (a :: ys, iter.resume pre 0) heap'))

theorem Iterated.iterateComplete (h : Iterated pre id heap curr ys heap' 0)
    (iter : BintreeIterator) :
    Prog.Returns (fun fuel => bintreeIterateComplete fuel (iter.resume pre curr))
      heap ((), heap') := by
  induction ys generalizing heap curr with
  | nil =>
      refine .of_succ ?_
      simp only [bintreeIterateComplete_succ]
      exact (bintreeNext_returns iter h.finish).bind (.pure () heap')
  | cons a ys ih =>
      obtain ⟨heap₁, curr', hne, -, hnext, hrest⟩ := h.next
      rw [mapLeft_id] at hrest
      refine .of_succ ?_
      simp only [bintreeIterateComplete_succ]
      refine (bintreeNext_returns iter hnext).bind ?_
      simp only [ne_eq, hne, not_false_eq_true, if_true]
      exact ih hrest

theorem Iterated.nextNodes (h : Iterated pre id heap curr ys heap' 0)
    (iter : BintreeIterator) (count : Nat) :
    ∃ iter' heap₁,
      Prog.Returns
        (fun fuel => Librfn.nextNodes fuel count (iter.resume pre curr)) heap
        ((ys.takeD count 0, iter'), heap₁) ∧
      Prog.Returns (fun fuel => bintreeIterateComplete fuel iter') heap₁
        ((), heap') := by
  induction count generalizing heap curr ys with
  | zero => exact ⟨_, heap, .pure ([], _) heap, h.iterateComplete iter⟩
  | succ count ih =>
      cases ys with
      | nil =>
          have hdone : Iterated pre id heap' 0 [] heap' 0 := .done
          obtain ⟨iter', heap₁, hnext, hcomplete⟩ := ih hdone
          exact ⟨iter', heap₁, (bintreeNext_returns iter h.finish).bind
            (hnext.bind (.pure (_, iter') heap₁)), hcomplete⟩
      | cons a ys =>
          obtain ⟨heap₁, curr', -, -, hfirst, hrest⟩ := h.next
          rw [mapLeft_id] at hrest
          obtain ⟨iter', heap₂, hnext, hcomplete⟩ := ih hrest
          exact ⟨iter', heap₂, (bintreeNext_returns iter hfirst).bind
            (hnext.bind (.pure (_, iter') heap₂)), hcomplete⟩

end Callers

/-! ## Whole trees -/

/-- The orders in which a tree can be iterated. -/
inductive IterationOrder where
  | inOrder
  | postOrder
  | preOrder
  deriving DecidableEq, Repr

def IterationOrder.iterate (order : IterationOrder) (fuel : Nat)
    (iter : BintreeIterator) (tree : Nat) : Prog Heap (Nat × BintreeIterator) :=
  match order with
  | .inOrder => bintreeIterateInOrder fuel iter tree
  | .postOrder => bintreeIteratePostOrder fuel iter tree
  | .preOrder => bintreeIteratePreOrder fuel iter tree

def iterateTree (order : IterationOrder) (fuel : Nat) (iter : BintreeIterator)
    (tree : Nat) : Prog Heap (List Nat × BintreeIterator) := do
  let (curr, iter) ← order.iterate fuel iter tree
  iterateNodes fuel curr iter

def iterateSome (order : IterationOrder) (count fuel : Nat)
    (iter : BintreeIterator) (tree : Nat) :
    Prog Heap (List Nat × BintreeIterator) := do
  let (curr, iter) ← order.iterate fuel iter tree
  let (nodes, iter) ← nextNodes fuel count iter
  return (curr :: nodes, iter)

section Iteration

variable {heap : Heap} {t : BinaryTree Nat}

theorem iterated_in_order (h : heap.Holds t 0) (hp : Proper t) :
    Iterated false id heap (rootPtr 0 t) (inOrder t) heap 0 := by
  have hrun : Iterated false id heap _ (iteratorOrder false t) _ 0 :=
    iterated_tree nofun h hp
  rwa [mapLeft_id] at hrun

theorem iterated_pre_order (h : heap.Holds t 0) (hp : Proper t) :
    Iterated true id heap (rootPtr 0 t) (preOrder t) heap 0 := by
  have hrun : Iterated true id heap _ (iteratorOrder true t) _ 0 :=
    iterated_tree (fun _ => rfl) h hp
  rwa [mapLeft_id] at hrun

theorem preOrder_perm : (preOrder t).Perm (inOrder t) := by
  induction t with
  | nil => exact .refl []
  | node a l r ihl ihr =>
      exact ((ihl.append ihr).cons a).trans List.perm_middle.symm

/-- In-order iteration yields what the in-order traversal visits, then `NULL`,
and restores the tree wherever it is stopped and completed. -/
theorem in_order_iteration (h : heap.Holds t 0) (hp : Proper t)
    (iter : BintreeIterator) :
    ∃ visits iter',
      Prog.Returns (fun fuel => bintreeTraverseInOrder fuel (rootPtr 0 t)) heap
        (visits, heap) ∧
      visitedNodes visits = inOrder t ∧ (visitedNodes visits).Nodup ∧
      Prog.Returns (fun fuel => iterateTree .inOrder fuel iter (rootPtr 0 t))
        heap ((visitedNodes visits, iter'), heap) ∧
      ∀ count, ∃ iter'' heap',
        Prog.Returns
          (fun fuel => iterateSome .inOrder count fuel iter (rootPtr 0 t)) heap
          (((visitedNodes visits).takeD (count + 1) 0, iter''), heap') ∧
        Prog.Returns (fun fuel => bintreeIterateComplete fuel iter'') heap'
          ((), heap) := by
  obtain ⟨visits, htraverse, hvisits⟩ := traverseInOrderDepth_returns h hp 0 0
  refine ⟨visits, iter.resume false 0, htraverse, hvisits, ?_⟩
  have hrun := iterated_in_order h hp
  obtain ⟨a, iter₁, heap₁, hfirst, hloop⟩ := hrun.iterateNodes iter
  rw [hvisits]
  exact ⟨hp.nodup,
    hfirst.bind hloop, fun count => hrun.nextNodes iter (count + 1)⟩

theorem in_order_iteration_small :
    ∃ iter', Prog.Returns (fun fuel => iterateTree .inOrder fuel smallIterator 2)
      smallHeap (([4, 8, 2, 6], iter'), smallHeap) := by
  obtain ⟨visits, iter', -, hvisits, -, hiterate, -⟩ :=
    in_order_iteration smallHeap_holds smallTree_proper smallIterator
  rw [hvisits] at hiterate
  exact ⟨iter', hiterate⟩

/-- Pre-order iteration yields what the pre-order traversal visits, then
`NULL`, and restores the tree wherever it is stopped and completed. -/
theorem pre_order_iteration (h : heap.Holds t 0) (hp : Proper t)
    (iter : BintreeIterator) :
    ∃ visits iter',
      Prog.Returns (fun fuel => bintreeTraversePreOrder fuel (rootPtr 0 t)) heap
        (visits, heap) ∧
      visitedNodes visits = preOrder t ∧ (visitedNodes visits).Nodup ∧
      Prog.Returns (fun fuel => iterateTree .preOrder fuel iter (rootPtr 0 t))
        heap ((visitedNodes visits, iter'), heap) ∧
      ∀ count, ∃ iter'' heap',
        Prog.Returns
          (fun fuel => iterateSome .preOrder count fuel iter (rootPtr 0 t)) heap
          (((visitedNodes visits).takeD (count + 1) 0, iter''), heap') ∧
        Prog.Returns (fun fuel => bintreeIterateComplete fuel iter'') heap'
          ((), heap) := by
  obtain ⟨visits, htraverse, hvisits⟩ := traversePreOrderDepth_returns h hp 0 0
  refine ⟨visits, iter.resume true 0, htraverse, hvisits, ?_⟩
  have hrun := iterated_pre_order h hp
  have hnodup : (preOrder t).Nodup := preOrder_perm.nodup_iff.mpr hp.nodup
  obtain ⟨a, iter₁, heap₁, hfirst, hloop⟩ := hrun.iterateNodes iter
  rw [hvisits]
  exact ⟨hnodup,
    hfirst.bind hloop, fun count => hrun.nextNodes iter (count + 1)⟩

theorem pre_order_iteration_small :
    ∃ iter', Prog.Returns (fun fuel => iterateTree .preOrder fuel smallIterator 2)
      smallHeap (([2, 4, 8, 6], iter'), smallHeap) := by
  obtain ⟨visits, iter', -, hvisits, -, hiterate, -⟩ :=
    pre_order_iteration smallHeap_holds smallTree_proper smallIterator
  rw [hvisits] at hiterate
  exact ⟨iter', hiterate⟩

end Iteration

end Librfn
