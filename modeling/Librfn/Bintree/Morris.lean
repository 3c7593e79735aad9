import Librfn.Bintree.Tree

/-!
# Iteration without a stack

The in-order and pre-order iterators thread the last node of a left subtree
back to the root of the tree and take the thread out when they come back
along it.  Their runs are described turn by turn; the caller may change the
left pointer of each node that it is given.
-/

namespace Librfn

open Librfn.Logic BinaryTree

section FindPrev

variable {heap : Heap} {curr e : Nat} {t : BinaryTree Nat}
  {f : Nat → BintreeNode → BintreeNode}

/-- The predecessor of the root is the last node of its left subtree.  The
search reads right pointers only. -/
theorem findPrev_returns (h : heap.Holds t e) (hp : Proper t) (ht : t ≠ nil)
    (hf : ∀ a n, (f a n).right = n.right) (he : e = 0 ∨ e = curr)
    (hcurr : curr ∉ inOrder t) :
    Prog.Returns (fun fuel => findPrev curr fuel (rootPtr 0 t)) (heap.modify f)
      (lastPtr 0 t, heap.modify f) := by
  induction t with
  | nil => exact absurd rfl ht
  | node a l r _ ihr =>
      obtain ⟨ha, -, hr⟩ := h
      have hne : a ≠ 0 := hp.ne
      have ha' := Heap.modify_some (f := f) ha
      by_cases hnil : r = nil
      · subst hnil
        refine Prog.Returns.of_succ (.of_forall_wp ⟨0, fun fuel _ => ?_⟩)
        simp only [findPrev, Prog.wp_bind, rootPtr_node, lastPtr_node,
          wp_loadNode hne ha', hf, Prog.wp_ite]
        have hend : ¬(rootPtr e nil ≠ 0 ∧ rootPtr e nil ≠ curr) := by
          rintro ⟨h0, hc⟩
          exact he.elim h0 hc
        rw [if_neg hend]
        exact ⟨rfl, rfl⟩
      · have hroot : rootPtr e r = rootPtr 0 r := rootPtr_eq hnil e 0
        have hlast : lastPtr a r = lastPtr 0 r := lastPtr_eq hnil a 0
        have hmem : rootPtr 0 r ∈ inOrder r := rootPtr_mem hnil
        obtain ⟨enough, hrec⟩ := ihr hr hp.right hnil
          fun hc => hcurr (mem_inOrder.mpr (.inr (.inr hc)))
        refine Prog.Returns.of_succ (.of_forall_wp ⟨enough, fun fuel hle => ?_⟩)
        simp only [findPrev, Prog.wp_bind, rootPtr_node, lastPtr_node,
          wp_loadNode hne ha', hf, Prog.wp_ite, hroot, hlast]
        have hmore : rootPtr 0 r ≠ 0 ∧ rootPtr 0 r ≠ curr := by
          refine ⟨fun h0 => hp.right.ne_zero (h0 ▸ hmem), fun hc => ?_⟩
          exact hcurr (mem_inOrder.mpr (.inr (.inr (hc ▸ hmem))))
        rw [if_pos hmore]
        exact Prog.wp_of_eq (hrec fuel hle) ⟨rfl, rfl⟩

end FindPrev

/-! ## Turns -/

/-- The loop of `in_order_iterator`, or of `pre_order_iterator`. -/
def iteratorLoop (pre : Bool) (fuel curr : Nat) : Prog Heap (Nat × Nat) :=
  if pre then preOrderLoop fuel curr else inOrderLoop fuel curr

/-- The predecessor `prev` of `curr` is found in its left subtree. -/
structure FoundPrev (heap : Heap) (curr prev : Nat) (node last : BintreeNode) :
    Prop where
  curr_ne_zero : curr ≠ 0
  left_ne_zero : node.left ≠ 0
  prev_ne_zero : prev ≠ 0
  curr_ne_prev : curr ≠ prev
  curr_node : heap curr = some node
  prev_node : heap prev = some last
  returns : Prog.Returns (fun fuel => findPrev curr fuel node.left) heap
    (prev, heap)

/-- One turn of the loop, with the node that it returns, if it does. -/
inductive Turn (pre : Bool) (heap : Heap) (curr : Nat) :
    Option Nat → Heap → Nat → Prop
  | leaf {right} : curr ≠ 0 → heap curr = some { left := 0, right } →
      Turn pre heap curr (some curr) heap right
  | thread {prev node last} : FoundPrev heap curr prev node last →
      last.right = 0 →
      Turn pre heap curr (if pre then some curr else none)
        (heap.modify (setRight prev curr)) node.left
  | unthread {prev node last} : FoundPrev heap curr prev node last →
      last.right = curr →
      Turn pre heap curr (if pre then none else some curr)
        (heap.modify (setRight prev 0)) node.right

section Turn

variable {pre : Bool} {heap heap' : Heap} {curr curr' prev : Nat}
  {node last : BintreeNode}

theorem FoundPrev.curr_modify (h : FoundPrev heap curr prev node last)
    (ptr : Nat) : heap.modify (setRight prev ptr) curr = some node := by
  rw [Heap.modify_some h.curr_node, setRight_of_ne h.curr_ne_prev]

theorem FoundPrev.wp_inOrderLoop (h : FoundPrev heap curr prev node last)
    {fuel : Nat} (hfind : findPrev curr fuel node.left heap = .ok (prev, heap))
    (Q : Nat × Nat → Heap → Prop) :
    Prog.wp (inOrderLoop (fuel + 1) curr) Q heap ↔
      if last.right = 0 then
        Prog.wp (inOrderLoop fuel node.left) Q
          (heap.modify (setRight prev curr))
      else Q (curr, node.right) (heap.modify (setRight prev 0)) := by
  simp only [inOrderLoop, Prog.wp_bind, Prog.wp_ite, if_neg h.curr_ne_zero,
    wp_loadNode h.curr_ne_zero h.curr_node, if_neg h.left_ne_zero]
  rw [Prog.wp_iff_of_eq hfind, wp_loadNode h.prev_ne_zero h.prev_node]
  simp only [wp_storeRight h.prev_ne_zero h.prev_node,
    wp_loadNode h.curr_ne_zero (h.curr_modify _), Prog.wp_pure]

theorem FoundPrev.wp_preOrderLoop (h : FoundPrev heap curr prev node last)
    {fuel : Nat} (hfind : findPrev curr fuel node.left heap = .ok (prev, heap))
    (Q : Nat × Nat → Heap → Prop) :
    Prog.wp (preOrderLoop (fuel + 1) curr) Q heap ↔
      if last.right = curr then
        Prog.wp (preOrderLoop fuel node.right) Q
          (heap.modify (setRight prev 0))
      else Q (curr, node.left) (heap.modify (setRight prev curr)) := by
  simp only [preOrderLoop, Prog.wp_bind, Prog.wp_ite, if_neg h.curr_ne_zero,
    wp_loadNode h.curr_ne_zero h.curr_node, if_neg h.left_ne_zero]
  rw [Prog.wp_iff_of_eq hfind, wp_loadNode h.prev_ne_zero h.prev_node]
  simp only [wp_storeRight h.prev_ne_zero h.prev_node,
    wp_loadNode h.curr_ne_zero (h.curr_modify _), Prog.wp_pure]

theorem Turn.node_ne_zero {a : Nat}
    (h : Turn pre heap curr (some a) heap' curr') : a ≠ 0 := by
  generalize hout : some a = out at h
  cases h with
  | leaf hne _ =>
      cases hout
      exact hne
  | thread hprev _ | unthread hprev _ =>
      cases pre <;> cases hout
      exact hprev.curr_ne_zero

theorem Turn.exists_node {a : Nat}
    (h : Turn pre heap curr (some a) heap' curr') : ∃ n, heap' a = some n := by
  generalize hout : some a = out at h
  cases h with
  | leaf _ hn =>
      cases hout
      exact ⟨_, hn⟩
  | thread hprev _ | unthread hprev _ =>
      cases pre <;> cases hout
      exact ⟨_, hprev.curr_modify _⟩

theorem Turn.returns {a : Nat} (h : Turn pre heap curr (some a) heap' curr') :
    Prog.Returns (fun fuel => iteratorLoop pre fuel curr) heap
      ((a, curr'), heap') := by
  generalize hout : some a = out at h
  cases h with
  | leaf hne hn =>
      cases hout
      refine .of_succ (.of_forall_wp ⟨0, fun fuel _ => ?_⟩)
      cases pre <;>
        simp [iteratorLoop, inOrderLoop, preOrderLoop, hne, wp_loadNode hne hn]
  | thread hprev hright =>
      obtain ⟨enough, hfind⟩ := hprev.returns
      refine .of_succ (.of_forall_wp ⟨enough, fun fuel hle => ?_⟩)
      cases pre with
      | false => cases hout
      | true =>
          cases hout
          rw [iteratorLoop, if_pos rfl, hprev.wp_preOrderLoop (hfind fuel hle),
            if_neg (hright.trans_ne hprev.curr_ne_zero.symm)]
          exact ⟨rfl, rfl⟩
  | unthread hprev hright =>
      obtain ⟨enough, hfind⟩ := hprev.returns
      refine .of_succ (.of_forall_wp ⟨enough, fun fuel hle => ?_⟩)
      cases pre with
      | true => cases hout
      | false =>
          cases hout
          rw [iteratorLoop, if_neg Bool.false_ne_true,
            hprev.wp_inOrderLoop (hfind fuel hle),
            if_neg (hright.trans_ne hprev.curr_ne_zero)]
          exact ⟨rfl, rfl⟩

theorem Turn.continues (h : Turn pre heap curr none heap' curr')
    {r : Nat × Nat} {heap'' : Heap}
    (hrest : Prog.Returns (fun fuel => iteratorLoop pre fuel curr') heap'
      (r, heap'')) :
    Prog.Returns (fun fuel => iteratorLoop pre fuel curr) heap (r, heap'') := by
  obtain ⟨more, hrest⟩ := hrest
  generalize hout : none = out at h
  cases h with
  | leaf hne hn => cases hout
  | thread hprev hright =>
      obtain ⟨enough, hfind⟩ := hprev.returns
      refine .of_succ (.of_forall_wp ⟨max enough more, fun fuel hle => ?_⟩)
      cases pre with
      | true => cases hout
      | false =>
          have hstep := hrest fuel (by omega)
          simp only [iteratorLoop, Bool.false_eq_true, if_false] at hstep ⊢
          rw [hprev.wp_inOrderLoop (hfind fuel (by omega)), if_pos hright]
          exact Prog.wp_of_eq hstep ⟨rfl, rfl⟩
  | unthread hprev hright =>
      obtain ⟨enough, hfind⟩ := hprev.returns
      refine .of_succ (.of_forall_wp ⟨max enough more, fun fuel hle => ?_⟩)
      cases pre with
      | false => cases hout
      | true =>
          have hstep := hrest fuel (by omega)
          simp only [iteratorLoop, if_true] at hstep ⊢
          rw [hprev.wp_preOrderLoop (hfind fuel (by omega)), if_pos hright]
          exact Prog.wp_of_eq hstep ⟨rfl, rfl⟩

end Turn

/-! ## Runs -/

/-- Turns one after another, with the nodes returned on the way.  The caller
applies `mark` to the left pointer of each of them. -/
inductive Iterated (pre : Bool) (mark : Nat → Nat) :
    Heap → Nat → List Nat → Heap → Nat → Prop
  | done {heap curr} : Iterated pre mark heap curr [] heap curr
  | quiet {heap curr heap' curr' ys heap'' curr''} :
      Turn pre heap curr none heap' curr' →
      Iterated pre mark heap' curr' ys heap'' curr'' →
      Iterated pre mark heap curr ys heap'' curr''
  | yield {heap curr a heap' curr' ys heap'' curr''} :
      Turn pre heap curr (some a) heap' curr' →
      Iterated pre mark (heap'.modify (mapLeft mark [a])) curr' ys heap''
        curr'' →
      Iterated pre mark heap curr (a :: ys) heap'' curr''

section Iterated

variable {pre : Bool} {mark : Nat → Nat} {heap heap' heap'' : Heap}
  {curr curr' curr'' : Nat} {xs ys : List Nat}

theorem Iterated.append (h : Iterated pre mark heap curr xs heap' curr')
    (h' : Iterated pre mark heap' curr' ys heap'' curr'') :
    Iterated pre mark heap curr (xs ++ ys) heap'' curr'' := by
  induction h with
  | done => exact h'
  | quiet turn _ ih => exact .quiet turn (ih h')
  | yield turn _ ih => exact .yield turn (ih h')

theorem Iterated.next {a : Nat}
    (h : Iterated pre mark heap curr (a :: ys) heap'' curr'') :
    ∃ heap' curr', a ≠ 0 ∧ (∃ n, heap' a = some n) ∧
      Prog.Returns (fun fuel => iteratorLoop pre fuel curr) heap
        ((a, curr'), heap') ∧
      Iterated pre mark (heap'.modify (mapLeft mark [a])) curr' ys heap''
        curr'' := by
  generalize hout : a :: ys = out at h
  induction h with
  | done => cases hout
  | quiet turn _ ih =>
      obtain ⟨heap', curr', hne, hnode, hreturns, hrest⟩ := ih hout
      exact ⟨heap', curr', hne, hnode, turn.continues hreturns, hrest⟩
  | yield turn hrest _ =>
      cases hout
      exact ⟨_, _, turn.node_ne_zero, turn.exists_node, turn.returns, hrest⟩

theorem Iterated.finish (h : Iterated pre mark heap curr [] heap' 0) :
    Prog.Returns (fun fuel => iteratorLoop pre fuel curr) heap
      ((0, 0), heap') := by
  generalize hout : [] = out at h
  generalize hend : 0 = curr' at h
  induction h with
  | done =>
      subst hend
      refine .of_succ (.of_forall_wp ⟨0, fun fuel _ => ?_⟩)
      cases pre <;> simp [iteratorLoop, inOrderLoop, preOrderLoop]
  | quiet turn _ ih => exact turn.continues (ih hout hend)
  | yield => cases hout

end Iterated

/-! ## Iterating over a tree -/

def iteratorOrder (pre : Bool) (t : BinaryTree Nat) : List Nat :=
  if pre then preOrder t else inOrder t

section Tree

variable {pre : Bool} {mark : Nat → Nat} {heap : Heap} {a e right : Nat}
  {l r t : BinaryTree Nat} {f : Nat → BintreeNode → BintreeNode}

theorem exists_foundPrev (hl : heap.Holds l e) (hp : Proper (node a l r))
    (hnil : l ≠ nil) (hf : ∀ b n, (f b n).right = n.right)
    (he : e = 0 ∨ e = a)
    (ha : heap.modify f a = some { left := rootPtr 0 l, right }) :
    ∃ last, FoundPrev (heap.modify f) a (lastPtr 0 l)
      { left := rootPtr 0 l, right } last ∧ last.right = e := by
  obtain ⟨left, hlast⟩ := hl.last hnil 0
  have hmem : lastPtr 0 l ∈ inOrder l := lastPtr_mem hnil
  refine ⟨f (lastPtr 0 l) { left, right := e }, ?_, hf _ _⟩
  exact {
    curr_ne_zero := hp.ne
    left_ne_zero := fun h0 => hnil ((rootPtr_eq_zero hp.left).mp h0)
    prev_ne_zero := fun h0 => hp.left.ne_zero (h0 ▸ hmem)
    curr_ne_prev := fun heq => hp.not_mem_left (heq ▸ hmem)
    curr_node := ha
    prev_node := Heap.modify_some hlast
    returns := findPrev_returns hl hp.left hnil hf he hp.not_mem_left }

theorem unthread_eq (hl : heap.Holds l 0) (hnil : l ≠ nil) (ptr : Nat)
    (as : List Nat) :
    ((heap.modify (setRight (lastPtr 0 l) ptr)).modify
      (mapLeft mark as)).modify (setRight (lastPtr 0 l) 0) =
      heap.modify (mapLeft mark as) := by
  obtain ⟨left, hlast⟩ := hl.last hnil 0
  rw [Heap.modify_modify, Heap.modify_modify]
  refine Heap.modify_congr fun b n hb => ?_
  by_cases hprev : b = lastPtr 0 l
  · subst hprev
    cases hlast.symm.trans hb
    simp only [setRight, if_true, mapLeft]
    split <;> rfl
  · rw [setRight_of_ne hprev, setRight_of_ne hprev]

theorem modify_mapLeft_node (mark : Nat → Nat) (hp : Proper (node a l r)) :
    ((heap.modify (mapLeft mark (inOrder l))).modify
      (mapLeft mark [a])).modify (mapLeft mark (inOrder r)) =
      heap.modify (mapLeft mark (inOrder (node a l r))) := by
  have hroot : ∀ b ∈ inOrder l, b ∉ [a] := fun b hb hba => by
    cases List.mem_singleton.mp hba
    exact hp.not_mem_left hb
  have hright : ∀ b ∈ inOrder l ++ [a], b ∉ inOrder r := fun b hb => by
    rcases List.mem_append.mp hb with hb | hb
    · exact hp.disjoint hb
    · cases List.mem_singleton.mp hb
      exact hp.not_mem_right
  rw [modify_mapLeft_append mark hroot, modify_mapLeft_append mark hright,
    List.append_assoc]
  rfl

/-- The iterator runs through a tree and ends at the pointer behind it. -/
theorem iterated_tree (hmark : pre = true → mark = id) (h : heap.Holds t e)
    (hp : Proper t) :
    Iterated pre mark heap (rootPtr e t) (iteratorOrder pre t)
      (heap.modify (mapLeft mark (inOrder t))) e := by
  induction t generalizing heap e with
  | nil =>
      have hnil : iteratorOrder pre nil = [] := by cases pre <;> rfl
      rw [hnil, inOrder, modify_mapLeft_nil]
      exact .done
  | node a l r ihl ihr =>
      obtain ⟨ha, hl, hr⟩ := h
      have hright : ((heap.modify (mapLeft mark (inOrder l))).modify
          (mapLeft mark [a])).Holds r e := by
        refine (hr.marked mark fun b hb hbl => hp.disjoint hbl hb).marked mark
          fun b hb hba => ?_
        cases List.mem_singleton.mp hba
        exact hp.not_mem_right hb
      have hrest := ihr hright hp.right
      rw [modify_mapLeft_node mark hp] at hrest
      by_cases hnil : l = nil
      · subst hnil
        rw [inOrder, modify_mapLeft_nil] at hrest
        have hleaf : Turn pre heap a (some a) heap (rootPtr e r) :=
          .leaf hp.ne ha
        cases pre with
        | false => exact .yield hleaf hrest
        | true => exact .yield hleaf hrest
      · -- down the thread of the left subtree and back
        obtain ⟨last, hprev, hlast⟩ := exists_foundPrev (f := mapLeft mark [])
          hl hp hnil (mapLeft_right mark []) (.inl rfl)
          (by rw [modify_mapLeft_nil]; exact ha)
        rw [modify_mapLeft_nil] at hprev
        have hthread := hl.threaded hp.left a 0
        obtain ⟨last', hprev', hlast'⟩ := exists_foundPrev
          (f := mapLeft mark (inOrder l)) hthread hp hnil
          (mapLeft_right mark _) (.inr rfl)
          (by
            rw [Heap.modify_some (hprev.curr_modify a),
              mapLeft_of_not_mem hp.not_mem_left])
        have hdown : Turn pre heap a _ _ _ := .thread hprev hlast
        have hrun := ihl hthread hp.left
        have hup : Turn pre _ a _ _ _ := .unthread hprev' hlast'
        rw [unthread_eq hl hnil] at hup
        rw [rootPtr_eq hnil a 0] at hrun
        cases pre with
        | false => exact .quiet hdown (hrun.append (.yield hup hrest))
        | true =>
            have hid := hmark rfl
            subst hid
            simp only [mapLeft_id] at hrun hup hrest
            refine .yield hdown ?_
            rw [mapLeft_id, mapLeft_id]
            exact hrun.append (.quiet hup hrest)

end Tree

end Librfn
