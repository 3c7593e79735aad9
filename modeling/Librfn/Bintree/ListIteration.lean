import Librfn.Bintree.Iteration

/-!
# List iteration

The list iterators walk one spine of a tree and hand out the children beside
it.  They agree with the recursive traversal as long as those children are not
lists themselves.
-/

namespace Librfn

open Librfn.Logic BinaryTree

def listNodes (isList : Nat → Bool) : BinaryTree Nat → List Nat
  | nil => []
  | node a l r => if isList a then listNodes isList l ++ listNodes isList r else [a]

def leftNodes (isList : Nat → Bool) : BinaryTree Nat → List Nat
  | nil => []
  | node a l r => if isList a then leftNodes isList l ++ [rootPtr 0 r] else [a]

def rightNodes (isList : Nat → Bool) : BinaryTree Nat → List Nat
  | nil => []
  | node a l r => if isList a then rootPtr 0 l :: rightNodes isList r else [a]

def IsListRoot (isList : Nat → Bool) : BinaryTree Nat → Prop
  | nil => False
  | node a _ _ => isList a

/-- Every list has both children. -/
def ListTree (isList : Nat → Bool) : BinaryTree Nat → Prop
  | nil => True
  | node a l r =>
      (isList a → l ≠ nil ∧ r ≠ nil) ∧ ListTree isList l ∧ ListTree isList r

/-- No list on the left spine has a list on its right. -/
def LeftStraight (isList : Nat → Bool) : BinaryTree Nat → Prop
  | nil => True
  | node a l r => isList a → ¬IsListRoot isList r ∧ LeftStraight isList l

/-- No list on the right spine has a list on its left. -/
def RightStraight (isList : Nat → Bool) : BinaryTree Nat → Prop
  | nil => True
  | node a l r => isList a → ¬IsListRoot isList l ∧ RightStraight isList r

def LeftLeaning (isList : Nat → Bool) : BinaryTree Nat → Prop
  | nil => False
  | node a l _ => isList a ∧ IsListRoot isList l

instance (isList : Nat → Bool) (t : BinaryTree Nat) :
    Decidable (IsListRoot isList t) :=
  match t with
  | nil => .isFalse id
  | node a _ _ => inferInstanceAs (Decidable (isList a = true))

instance (isList : Nat → Bool) (t : BinaryTree Nat) :
    Decidable (LeftLeaning isList t) :=
  match t with
  | nil => .isFalse id
  | node a l _ =>
      inferInstanceAs (Decidable (isList a = true ∧ IsListRoot isList l))

def Straight (isList : Nat → Bool) (t : BinaryTree Nat) : Prop :=
  if LeftLeaning isList t then LeftStraight isList t
  else RightStraight isList t

/-! ## Sequences -/

section Sequences

variable {isList : Nat → Bool} {a : Nat} {l r t : BinaryTree Nat}

theorem isListRoot_iff (ht : t ≠ nil) :
    IsListRoot isList t ↔ isList (rootPtr 0 t) = true := by
  cases t with
  | nil => exact absurd rfl ht
  | node a l r => exact Iff.rfl

theorem not_isList_of_mem {b : Nat} (hb : b ∈ listNodes isList t) :
    isList b = false := by
  induction t with
  | nil => cases hb
  | node a l r ihl ihr =>
      rw [listNodes] at hb
      split at hb
      · exact (List.mem_append.mp hb).elim ihl ihr
      · rw [List.mem_singleton.mp hb]
        exact Bool.eq_false_iff.mpr ‹_›

theorem listNodes_of_not_list (ht : t ≠ nil) (h : ¬IsListRoot isList t) :
    listNodes isList t = [rootPtr 0 t] := by
  cases t with
  | nil => exact absurd rfl ht
  | node a l r => exact if_neg h

theorem leftNodes_of_not_list (ht : t ≠ nil) (h : ¬IsListRoot isList t) :
    leftNodes isList t = [rootPtr 0 t] := by
  cases t with
  | nil => exact absurd rfl ht
  | node a l r => exact if_neg h

theorem leftNodes_eq_iff (h : ListTree isList t) :
    leftNodes isList t = listNodes isList t ↔ LeftStraight isList t := by
  constructor
  · intro heq
    have hall : ∀ b ∈ leftNodes isList t, isList b = false := fun b hb =>
      not_isList_of_mem (heq ▸ hb)
    clear heq
    induction t with
    | nil => trivial
    | node a l r ihl _ =>
        intro ha
        rw [leftNodes, if_pos ha] at hall
        have hr := hall _ (List.mem_append_right _ List.mem_cons_self)
        refine ⟨fun hroot => ?_, ihl h.2.1 fun b hb => ?_⟩
        · rw [isListRoot_iff (h.1 ha).2, hr] at hroot
          cases hroot
        · exact hall b (List.mem_append_left _ hb)
  · intro hs
    induction t with
    | nil => rfl
    | node a l r ihl _ =>
        rw [leftNodes, listNodes]
        split
        · next ha =>
            obtain ⟨hr, hl⟩ := hs ha
            rw [ihl h.2.1 hl, listNodes_of_not_list (h.1 ha).2 hr]
        · rfl

theorem rightNodes_eq_iff (h : ListTree isList t) :
    rightNodes isList t = listNodes isList t ↔ RightStraight isList t := by
  constructor
  · intro heq
    have hall : ∀ b ∈ rightNodes isList t, isList b = false := fun b hb =>
      not_isList_of_mem (heq ▸ hb)
    clear heq
    induction t with
    | nil => trivial
    | node a l r _ ihr =>
        intro ha
        rw [rightNodes, if_pos ha] at hall
        have hl := hall _ List.mem_cons_self
        refine ⟨fun hroot => ?_, ihr h.2.2 fun b hb => ?_⟩
        · rw [isListRoot_iff (h.1 ha).1, hl] at hroot
          cases hroot
        · exact hall b (List.mem_cons_of_mem _ hb)
  · intro hs
    induction t with
    | nil => rfl
    | node a l r _ ihr =>
        rw [rightNodes, listNodes]
        split
        · next ha =>
            obtain ⟨hl, hr⟩ := hs ha
            rw [ihr h.2.2 hr, listNodes_of_not_list (h.1 ha).1 hl]
            rfl
        · rfl

end Sequences

/-! ## The traversal -/

theorem bintreeTraverseList_returns {heap : Heap} {t : BinaryTree Nat}
    (isList : Nat → Bool) (h : heap.Holds t 0) (hp : Proper t) :
    Prog.Returns (fun fuel => bintreeTraverseList isList fuel (rootPtr 0 t)) heap
      (listNodes isList t, heap) := by
  induction t with
  | nil => exact .of_succ (.pure [] heap)
  | node a l r ihl ihr =>
      obtain ⟨ha, hl, hr⟩ := h
      have hne := hp.ne
      obtain ⟨i, hleft⟩ := ihl hl hp.left
      obtain ⟨j, hright⟩ := ihr hr hp.right
      refine .of_succ (.of_forall_wp ⟨max i j, fun fuel hle => ?_⟩)
      change Prog.wp (bintreeTraverseList isList (fuel + 1) a) _ _
      simp only [bintreeTraverseList, if_neg hne, Prog.wp_ite, Prog.wp_bind,
        wp_loadNode hne ha, listNodes]
      split
      · rw [Prog.wp_iff_of_eq (hleft fuel (by omega)), wp_loadNode hne ha,
          Prog.wp_iff_of_eq (hright fuel (by omega))]
        exact ⟨rfl, rfl⟩
      · exact ⟨rfl, rfl⟩

/-! ## The right iterator -/

section RightIterator

variable {heap : Heap} {isList : Nat → Bool} {t : BinaryTree Nat}
  {iter : BintreeIterator}

theorem bintreeNext_listRight (h : iter.next = .listRight) (fuel : Nat) :
    bintreeNext fuel iter = listRightIterator iter := by
  rw [bintreeNext, h]

theorem listRight_iterateNodes (hnext : iter.next = .listRight)
    (hfilter : iter.filter = isList) (hcurr : iter.curr = rootPtr 0 t)
    (h : heap.Holds t 0) (hp : Proper t) (hlist : ListTree isList t) :
    ∃ a iter' iter'',
      Prog.Returns (fun _ => listRightIterator iter) heap ((a, iter'), heap) ∧
      Prog.Returns (fun fuel => iterateNodes fuel a iter') heap
        ((rightNodes isList t, iter''), heap) := by
  induction t generalizing iter with
  | nil =>
      have hzero : listRightIterator iter = pure (iter.curr, { iter with curr := 0 }) :=
        if_pos (.inl hcurr)
      rw [hzero, hcurr]
      exact ⟨0, _, _, .pure _ heap, iterateNodes_zero _ heap⟩
  | node a l r _ ihr =>
      obtain ⟨ha, -, hr⟩ := h
      have hne := hp.ne
      by_cases hlista : isList a = true
      · have hload : Prog.Returns (fun _ => listRightIterator iter) heap
            ((rootPtr 0 l, { iter with curr := rootPtr 0 r }), heap) := by
          refine .of_forall_wp ⟨0, fun _ _ => ?_⟩
          simp [listRightIterator, hcurr, hfilter, hne, hlista,
            wp_loadNode hne ha]
        have hnext' : { iter with curr := rootPtr 0 r }.next = .listRight := hnext
        obtain ⟨b, iter', iter'', hb, hloop⟩ :=
          ihr hnext' hfilter rfl hr hp.right hlist.2.2
        have hl0 : rootPtr 0 l ≠ 0 :=
          mt (rootPtr_eq_zero hp.left).mp (hlist.1 hlista).1
        refine ⟨_, _, iter'', hload, .of_succ ?_⟩
        simp only [iterateNodes_succ hl0, bintreeNext_listRight hnext']
        rw [rightNodes, if_pos hlista]
        exact hb.bind (hloop.bind (.pure (_ :: _, iter'') heap))
      · have hlast : listRightIterator iter =
            pure (iter.curr, { iter with curr := 0 }) := by
          refine if_pos (.inr ?_)
          rwa [hfilter, hcurr]
        have hend : listRightIterator { iter with curr := 0 } =
            pure (0, { iter with curr := 0 }) := if_pos (.inl rfl)
        rw [hlast, hcurr]
        refine ⟨_, _, { iter with curr := 0 }, .pure _ heap, .of_succ ?_⟩
        have hnext' : { iter with curr := 0 }.next = .listRight := hnext
        simp only [rootPtr_node, iterateNodes_succ hne,
          bintreeNext_listRight hnext', hend]
        rw [rightNodes, if_neg hlista]
        exact (Prog.Returns.pure _ heap).bind
          ((iterateNodes_zero _ heap).bind (.pure (_ :: _, _) heap))

end RightIterator

/-! ## The left iterator -/

/-- `s` is on the left spine of `t`, through lists only; the last argument is
what is beside the spine above `s`, upwards. -/
inductive LeftSpine (isList : Nat → Bool) :
    BinaryTree Nat → BinaryTree Nat → List Nat → Prop
  | here {t} : LeftSpine isList t t []
  | down {a l r s ups} : isList a = true → LeftSpine isList l s ups →
      LeftSpine isList (node a l r) s (ups ++ [rootPtr 0 r])

section LeftIterator

variable {heap : Heap} {isList : Nat → Bool} {s t : BinaryTree Nat}
  {ups : List Nat} {iter : BintreeIterator}

theorem LeftSpine.leftNodes (h : LeftSpine isList t s ups) :
    leftNodes isList t = leftNodes isList s ++ ups := by
  induction h with
  | here => rw [List.append_nil]
  | down ha _ ih => rw [Librfn.leftNodes, if_pos ha, ih, List.append_assoc]

theorem LeftSpine.mem (h : LeftSpine isList t s ups) {b : Nat}
    (hb : b ∈ inOrder s) : b ∈ inOrder t := by
  induction h with
  | here => exact hb
  | down _ _ ih => exact mem_inOrder.mpr (.inl (ih hb))

theorem LeftSpine.holds (h : LeftSpine isList t s ups) (hheap : heap.Holds t 0) :
    heap.Holds s 0 := by
  induction h with
  | here => exact hheap
  | down _ _ ih => exact ih hheap.2.1

theorem LeftSpine.proper (h : LeftSpine isList t s ups) (hp : Proper t) :
    Proper s := by
  induction h with
  | here => exact hp
  | down _ _ ih => exact ih hp.left

theorem LeftSpine.listTree (h : LeftSpine isList t s ups)
    (hlist : ListTree isList t) : ListTree isList s := by
  induction h with
  | here => exact hlist
  | down _ _ ih => exact ih hlist.2.1

theorem LeftSpine.eq_self (h : LeftSpine isList t s []) : s = t := by
  generalize hups : [] = us at h
  cases h with
  | here => rfl
  | down => simp at hups

theorem LeftSpine.eq_root_iff (h : LeftSpine isList t s ups) (hp : Proper t)
    (hs : s ≠ nil) : rootPtr 0 s = rootPtr 0 t ↔ ups = [] := by
  cases h with
  | here => exact ⟨fun _ => rfl, fun _ => rfl⟩
  | down ha hl =>
      refine ⟨fun heq => ?_, fun hnil => by simp at hnil⟩
      have hmem : rootPtr 0 s ∈ _ := hl.mem (rootPtr_mem hs)
      rw [heq] at hmem
      exact absurd hmem hp.not_mem_left

theorem LeftSpine.up {u : Nat} (h : LeftSpine isList t s (u :: ups))
    (hheap : heap.Holds t 0) (hp : Proper t) (hs : s ≠ nil) :
    ∃ p r, isList p = true ∧ u = rootPtr 0 r ∧
      LeftSpine isList t (node p s r) ups ∧
      Prog.Returns (fun fuel => findParent (rootPtr 0 s) fuel (rootPtr 0 t)) heap
        (p, heap) := by
  generalize hups : u :: ups = us at h
  induction h generalizing u ups with
  | here => cases hups
  | @down a l r s us ha hl ih =>
      obtain ⟨hroot, hleft, -⟩ := hheap
      have hne := hp.ne
      have htop := hl.eq_root_iff hp.left hs
      cases us with
      | nil =>
          obtain ⟨rfl, rfl⟩ := List.cons.inj hups
          cases hl.eq_self
          refine ⟨a, r, ha, rfl, .here, ?_⟩
          refine .of_succ (.of_forall_wp ⟨0, fun fuel _ => ?_⟩)
          simp [findParent, wp_loadNode hne hroot]
      | cons u' us =>
          obtain ⟨rfl, rfl⟩ := List.cons.inj hups
          obtain ⟨p, r', hlist, hu, hspine, enough, hfind⟩ := ih hleft hp.left hs rfl
          refine ⟨p, r', hlist, hu, .down ha hspine, ?_⟩
          refine .of_succ (.of_forall_wp ⟨enough, fun fuel hle => ?_⟩)
          have hdeep : rootPtr 0 l ≠ rootPtr 0 s := fun heq =>
            List.cons_ne_nil _ _ (htop.mp heq.symm)
          simp only [findParent, rootPtr_node, Prog.wp_bind, Prog.wp_ite,
            wp_loadNode hne hroot, if_pos hdeep]
          exact Prog.wp_of_eq (hfind fuel hle) ⟨rfl, rfl⟩

theorem LeftSpine.list_node {c : Nat} {l r : BinaryTree Nat}
    (h : LeftSpine isList t (node c l r) ups) (hc : isList c = true)
    (hheap : heap.Holds t 0) (hp : Proper t) (hlist : ListTree isList t) :
    c ≠ 0 ∧ heap c = some { left := rootPtr 0 l, right := rootPtr 0 r } ∧
      rootPtr 0 r ≠ 0 := by
  have hps := h.proper hp
  have htree : ListTree isList (node c l r) := h.listTree hlist
  exact ⟨hps.ne, (h.holds hheap).1,
    mt (rootPtr_eq_zero hps.right).mp (htree.1 hc).2⟩

theorem bintreeNext_listLeft (h : iter.next = .listLeft) (fuel : Nat) :
    bintreeNext fuel iter = listLeftIterator fuel iter := by
  rw [bintreeNext, h]

theorem listLeft_iterateNodes {c : Nat} {l r : BinaryTree Nat}
    (hspine : LeftSpine isList t (node c l r) ups) (hc : isList c = true)
    (hnext : iter.next = .listLeft) (hparent : iter.parent = rootPtr 0 t)
    (hcurr : iter.curr = c) (hheap : heap.Holds t 0) (hp : Proper t)
    (hlist : ListTree isList t) :
    ∃ a iter' iter'',
      Prog.Returns (fun fuel => bintreeNext fuel iter) heap ((a, iter'), heap) ∧
      Prog.Returns (fun fuel => iterateNodes fuel a iter') heap
        ((rootPtr 0 r :: ups, iter''), heap) := by
  induction ups generalizing c l r iter with
  | nil =>
      obtain ⟨hne, hnode, hr0⟩ := hspine.list_node hc hheap hp hlist
      have hlast : c = iter.parent :=
        ((hspine.eq_root_iff hp nofun).mpr rfl).trans hparent.symm
      have hnext' : { iter with curr := 0 }.next = .listLeft := hnext
      have hend : ∀ fuel, listLeftIterator fuel { iter with curr := 0 } =
          pure (0, { iter with curr := 0 }) := fun _ => rfl
      refine ⟨rootPtr 0 r, { iter with curr := 0 }, { iter with curr := 0 }, ?_,
        .of_succ ?_⟩
      · refine .of_forall_wp ⟨0, fun fuel _ => ?_⟩
        rw [bintreeNext_listLeft hnext]
        simp [listLeftIterator, hcurr, hne, ← hlast, wp_loadNode hne hnode]
      · simp only [iterateNodes_succ hr0, bintreeNext_listLeft hnext', hend]
        exact (Prog.Returns.pure _ heap).bind
          ((iterateNodes_zero _ heap).bind (.pure (_ :: _, _) heap))
  | cons u ups ih =>
      obtain ⟨hne, hnode, hr0⟩ := hspine.list_node hc hheap hp hlist
      have hinner : c ≠ rootPtr 0 t := fun heq => List.cons_ne_nil u ups
        ((hspine.eq_root_iff hp nofun).mp heq)
      obtain ⟨p, r', hlistp, rfl, hspine', enough, hfind⟩ :=
        hspine.up hheap hp nofun
      have hnext' : { iter with curr := p }.next = .listLeft := hnext
      obtain ⟨b, iter', iter'', hb, hloop⟩ :=
        ih hspine' hlistp hnext' hparent rfl
      refine ⟨rootPtr 0 r, { iter with curr := p }, iter'', ?_, .of_succ ?_⟩
      · refine .of_forall_wp ⟨enough, fun fuel hle => ?_⟩
        rw [bintreeNext_listLeft hnext]
        simp only [listLeftIterator, hcurr, hparent, if_neg hne, if_neg hinner,
          Prog.wp_bind]
        refine Prog.wp_of_eq (hfind fuel hle) ?_
        rw [wp_loadNode hne hnode]
        exact ⟨rfl, rfl⟩
      · simp only [iterateNodes_succ hr0]
        exact hb.bind (hloop.bind (.pure (_ :: _, iter'') heap))

theorem listLeftEnd_returns (hheap : heap.Holds t 0) (hp : Proper t)
    (hlist : ListTree isList t) (hlean : LeftLeaning isList t) :
    ∃ c l r ups, LeftSpine isList t (node c l r) ups ∧ isList c = true ∧
      ¬IsListRoot isList l ∧
      Prog.Returns (fun fuel => listLeftEnd isList fuel (rootPtr 0 t)) heap
        (c, heap) := by
  induction t with
  | nil => exact hlean.elim
  | node a l r ihl _ =>
      obtain ⟨hroot, hl, -⟩ := hheap
      obtain ⟨hlista, hlistl⟩ := hlean
      cases l with
      | nil => exact hlistl.elim
      | node b ll lr =>
          have hne := hp.ne
          have hne' := hp.left.ne
          have hchild : ll ≠ nil := (hlist.2.1.1 hlistl).1
          by_cases hmore : IsListRoot isList ll
          · obtain ⟨c, l', r', ups, hspine, hc, hend, enough, hwalk⟩ :=
              ihl hl hp.left hlist.2.1 ⟨hlistl, hmore⟩
            refine ⟨c, l', r', _, .down hlista hspine, hc, hend, .of_succ
              (.of_forall_wp ⟨enough, fun fuel hle => ?_⟩)⟩
            rw [isListRoot_iff hchild] at hmore
            simp only [listLeftEnd, rootPtr_node, Prog.wp_bind, Prog.wp_ite,
              wp_loadNode hne hroot, wp_loadNode hne' hl.1, if_pos hmore]
            exact Prog.wp_of_eq (hwalk fuel hle) ⟨rfl, rfl⟩
          · refine ⟨b, ll, lr, _, .down hlista .here, hlistl, hmore, .of_succ
              (.of_forall_wp ⟨0, fun fuel _ => ?_⟩)⟩
            rw [isListRoot_iff hchild] at hmore
            simp only [listLeftEnd, rootPtr_node, Prog.wp_bind, Prog.wp_ite,
              wp_loadNode hne hroot, wp_loadNode hne' hl.1, if_neg hmore]
            exact ⟨rfl, rfl⟩

end LeftIterator

/-! ## Both together -/

def iterateList (isList : Nat → Bool) (fuel : Nat) (iter : BintreeIterator)
    (tree : Nat) : Prog Heap (List Nat × BintreeIterator) := do
  let (curr, iter) ← bintreeIterateList fuel iter tree isList
  iterateNodes fuel curr iter

section ListIteration

variable {heap : Heap} {isList : Nat → Bool} {t : BinaryTree Nat}

def spineNodes (isList : Nat → Bool) (t : BinaryTree Nat) : List Nat :=
  if LeftLeaning isList t then leftNodes isList t else rightNodes isList t

theorem spineNodes_eq_iff (h : ListTree isList t) :
    spineNodes isList t = listNodes isList t ↔ Straight isList t := by
  unfold spineNodes Straight
  split
  · exact leftNodes_eq_iff h
  · exact rightNodes_eq_iff h

theorem wp_leftLeaning (hheap : heap.Holds t 0) (hp : Proper t) (ht : t ≠ nil)
    (hlist : ListTree isList t) (Q : Bool → Heap → Prop) :
    Prog.wp (if isList (rootPtr 0 t) then do
        let left := (← loadNode (rootPtr 0 t)).left
        return decide (left ≠ 0) && isList left
      else return false) Q heap ↔ Q (decide (LeftLeaning isList t)) heap := by
  cases t with
  | nil => exact absurd rfl ht
  | node a l r =>
      by_cases ha : isList (rootPtr 0 (node a l r)) = true
      · have hl : l ≠ nil := (hlist.1 ha).1
        have hl0 : rootPtr 0 l ≠ 0 := mt (rootPtr_eq_zero hp.left).mp hl
        have hlean : LeftLeaning isList (node a l r) ↔
            isList (rootPtr 0 l) = true := by
          rw [← isListRoot_iff hl]
          exact and_iff_right ha
        rw [if_pos ha, Prog.wp_bind]
        refine (wp_loadNode hp.ne hheap.1 _).trans ?_
        simp [hl0, hlean]
      · have hlean : ¬LeftLeaning isList (node a l r) := fun h => ha h.1
        rw [if_neg ha, decide_eq_false hlean]
        exact Iff.rfl

theorem iterateList_returns (hheap : heap.Holds t 0) (hp : Proper t)
    (ht : t ≠ nil) (hlist : ListTree isList t) (iter : BintreeIterator) :
    ∃ iter', Prog.Returns
      (fun fuel => iterateList isList fuel iter (rootPtr 0 t)) heap
      ((spineNodes isList t, iter'), heap) := by
  by_cases hlean : LeftLeaning isList t
  · obtain ⟨c, l, r, ups, hspine, hc, hend, hwalk⟩ :=
      listLeftEnd_returns hheap hp hlist hlean
    obtain ⟨hne, hnode, -⟩ := hspine.list_node hc hheap hp hlist
    have hl : l ≠ nil := ((hspine.listTree hlist).1 hc).1
    have hl0 : rootPtr 0 l ≠ 0 :=
      mt (rootPtr_eq_zero (hspine.proper hp).left).mp hl
    have hnodes : leftNodes isList t = rootPtr 0 l :: rootPtr 0 r :: ups := by
      have hsplit := hspine.leftNodes
      rw [leftNodes, if_pos hc, leftNodes_of_not_list hl hend] at hsplit
      exact hsplit
    let start : BintreeIterator := {
      next := .listLeft, filter := isList, curr := c, parent := rootPtr 0 t }
    have hnext : start.next = .listLeft := rfl
    obtain ⟨b, iter', iter'', hb, hloop⟩ :=
      listLeft_iterateNodes hspine hc hnext rfl rfl hheap hp hlist
    have hfirst : Prog.Returns
        (fun fuel => bintreeIterateList fuel iter (rootPtr 0 t) isList) heap
        ((rootPtr 0 l, start), heap) := by
      obtain ⟨enough, hwalk⟩ := hwalk
      refine .of_forall_wp ⟨enough, fun fuel hle => ?_⟩
      simp only [bintreeIterateList, Prog.wp_bind,
        wp_leftLeaning hheap hp ht hlist]
      rw [if_pos (decide_eq_true hlean), Prog.wp_bind,
        Prog.wp_iff_of_eq (hwalk fuel hle), Prog.wp_bind, wp_loadNode hne hnode]
      exact ⟨rfl, rfl⟩
    refine ⟨iter'', hfirst.bind (.of_succ ?_)⟩
    simp only [iterateNodes_succ hl0]
    rw [spineNodes, if_pos hlean, hnodes]
    exact hb.bind (hloop.bind (.pure (_ :: _, iter'') heap))
  · have hnext : { iter with
        next := IteratorNext.listRight, filter := isList,
        curr := rootPtr 0 t }.next = .listRight := rfl
    obtain ⟨b, iter', iter'', hb, hloop⟩ :=
      listRight_iterateNodes hnext rfl rfl hheap hp hlist
    have hfirst : Prog.Returns
        (fun fuel => bintreeIterateList fuel iter (rootPtr 0 t) isList) heap
        ((b, iter'), heap) := by
      obtain ⟨enough, hb⟩ := hb
      refine .of_forall_wp ⟨enough, fun fuel hle => ?_⟩
      simp only [bintreeIterateList, Prog.wp_bind,
        wp_leftLeaning hheap hp ht hlist]
      rw [if_neg (by simpa using hlean)]
      exact Prog.wp_of_eq (hb fuel hle) ⟨rfl, rfl⟩
    rw [spineNodes, if_neg hlean]
    exact ⟨iter'', hfirst.bind hloop⟩

/-- List iteration hands out what the list traversal does exactly when there is
no list beside the spine that it walks. -/
theorem list_iteration_iff (hheap : heap.Holds t 0) (hp : Proper t)
    (ht : t ≠ nil) (hlist : ListTree isList t) (iter : BintreeIterator) :
    ∃ yielded visited iter',
      Prog.Returns (fun fuel => iterateList isList fuel iter (rootPtr 0 t)) heap
        ((yielded, iter'), heap) ∧
      Prog.Returns (fun fuel => bintreeTraverseList isList fuel (rootPtr 0 t))
        heap (visited, heap) ∧
      (yielded = visited ↔ Straight isList t) := by
  obtain ⟨iter', hiterate⟩ := iterateList_returns hheap hp ht hlist iter
  exact ⟨_, _, iter', hiterate, bintreeTraverseList_returns isList hheap hp,
    spineNodes_eq_iff hlist⟩

def mixedTree : BinaryTree Nat :=
  node 2 (node 4 (node 8 nil nil) (node 10 nil nil))
    (node 6 (node 12 nil nil) (node 14 nil nil))

def mixedHeap : Heap
  | 2 => some { left := 4, right := 6 }
  | 4 => some { left := 8, right := 10 }
  | 6 => some { left := 12, right := 14 }
  | 8 | 10 | 12 | 14 => some { left := 0, right := 0 }
  | _ => none

def mixedIsList (a : Nat) : Bool := a = 2 ∨ a = 4 ∨ a = 6

theorem mixedTree_proper : Proper mixedTree := ⟨by decide, by decide⟩

theorem mixedHeap_holds : mixedHeap.Holds mixedTree 0 := by
  simp [mixedTree, Heap.Holds, mixedHeap, rootPtr]

theorem mixedTree_listTree : ListTree mixedIsList mixedTree := by
  simp [mixedTree, ListTree, mixedIsList]

theorem list_iteration_mixed :
    (∃ iter', Prog.Returns
      (fun fuel => iterateList mixedIsList fuel smallIterator 2) mixedHeap
      (([8, 10, 6], iter'), mixedHeap)) ∧
    Prog.Returns (fun fuel => bintreeTraverseList mixedIsList fuel 2) mixedHeap
      ([8, 10, 12, 14], mixedHeap) :=
  ⟨iterateList_returns mixedHeap_holds mixedTree_proper nofun mixedTree_listTree
    smallIterator,
    bintreeTraverseList_returns mixedIsList mixedHeap_holds mixedTree_proper⟩

/-- Seen from the list 4 there is no list beside the spine. -/
theorem list_iteration_straight :
    ∃ yielded iter',
      Prog.Returns (fun fuel => iterateList mixedIsList fuel smallIterator 4)
        mixedHeap ((yielded, iter'), mixedHeap) ∧
      Prog.Returns (fun fuel => bintreeTraverseList mixedIsList fuel 4)
        mixedHeap (yielded, mixedHeap) := by
  obtain ⟨yielded, visited, iter', hiterate, htraverse, hiff⟩ :=
    list_iteration_iff mixedHeap_holds.2.1 mixedTree_proper.left nofun
      mixedTree_listTree.2.1 smallIterator
  refine ⟨yielded, iter', hiterate, hiff.mpr ?_ ▸ htraverse⟩
  simp [Straight, LeftLeaning, IsListRoot, mixedIsList, RightStraight]

end ListIteration

end Librfn
