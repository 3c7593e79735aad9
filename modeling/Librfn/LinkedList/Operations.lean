import Librfn.LinkedList.Sequence
import Librfn.Logic.Sorted

/-!
# What the list operations do to the sequences

One specification for each function of `list.c`.  An iterator at place `k` of
a list is one whose `prevnext` is the link behind the first `k` nodes.
-/

namespace Librfn

open Librfn.Logic

variable {L N : Type}

/-- Where `list_insert_sorted` puts a node. -/
def insertSorted (nodecmp : N → N → Int) (node : N) (xs : List N) : List N :=
  match xs.getLast? with
  | none => [node]
  | some last =>
      if nodecmp node last ≥ 0 then xs ++ [node]
      else xs.takeWhile (nodecmp node · ≥ 0) ++
        node :: xs.dropWhile (nodecmp node · ≥ 0)

theorem insertSorted_perm (nodecmp : N → N → Int) (node : N)
    (xs : List N) : (insertSorted nodecmp node xs).Perm (node :: xs) := by
  unfold insertSorted
  split
  · rename_i hnone
    rw [List.getLast?_eq_none_iff.mp hnone]
  · split
    · exact List.perm_append_singleton node xs
    · refine List.perm_middle.trans ?_
      rw [List.takeWhile_append_dropWhile]

theorem insertSorted_filter [DecidableEq N] (nodecmp : N → N → Int) (node : N)
    (xs : List N) : (insertSorted nodecmp node xs).filter (· ≠ node) =
      xs.filter (· ≠ node) := by
  unfold insertSorted
  split
  · rename_i hnone
    rw [List.getLast?_eq_none_iff.mp hnone]
    simp
  · split
    · simp
    · rw [List.filter_append, List.filter_cons_of_neg (by simp),
        ← List.filter_append, List.takeWhile_append_dropWhile]

theorem insertSorted_length (nodecmp : N → N → Int) (node : N) (xs : List N) :
    (insertSorted nodecmp node xs).length = xs.length + 1 :=
  (insertSorted_perm nodecmp node xs).length_eq

theorem insertSorted_pairwise {nodecmp : N → N → Int} {node : N} {xs : List N}
    {r : N → N → Prop} (h : xs.Pairwise r)
    (htrans : ∀ x y z, r x y → r y z → r x z)
    (hcmp : ∀ x ∈ xs, if nodecmp node x ≥ 0 then r x node else r node x) :
    (insertSorted nodecmp node xs).Pairwise r := by
  have hge : ∀ x ∈ xs, nodecmp node x ≥ 0 → r x node := fun x hx hn => by
    have := hcmp x hx
    rwa [if_pos hn] at this
  have hlt : ∀ x ∈ xs, ¬ nodecmp node x ≥ 0 → r node x := fun x hx hn => by
    have := hcmp x hx
    rwa [if_neg hn] at this
  unfold insertSorted
  split
  · exact List.pairwise_singleton r node
  · rename_i last hlast
    obtain ⟨init, rfl⟩ := List.getLast?_eq_some_iff.mp hlast
    have hmem : last ∈ init ++ [last] := List.mem_append_right _ List.mem_cons_self
    split
    · rename_i hn
      refine List.pairwise_append.mpr ⟨h, List.pairwise_singleton r node, ?_⟩
      intro x hx y hy
      rw [List.mem_singleton.mp hy]
      rcases List.mem_append.mp hx with hx | hx
      · exact htrans _ _ _
          ((List.pairwise_append.mp h).2.2 x hx last List.mem_cons_self)
          (hge last hmem hn)
      · exact List.mem_singleton.mp hx ▸ hge last hmem hn
    · refine pairwise_insert ?_ ?_ ?_
      · rwa [List.takeWhile_append_dropWhile]
      · intro x hx
        have hn := List.mem_takeWhile_imp hx
        exact hge x (List.takeWhile_subset _ hx) (of_decide_eq_true hn)
      · intro x hx
        rcases hdrop : (init ++ [last]).dropWhile (nodecmp node · ≥ 0) with _ | ⟨y, ys⟩
        · rw [hdrop] at hx
          cases hx
        · have hy : ¬ nodecmp node y ≥ 0 := by
            have := List.head?_dropWhile_not (nodecmp node · ≥ 0) (init ++ [last])
            rw [hdrop] at this
            simpa using this
          have hsub := List.dropWhile_sublist (l := init ++ [last])
            (nodecmp node · ≥ 0)
          rw [hdrop] at hx hsub
          have hry := hlt y (hsub.subset List.mem_cons_self) hy
          rcases List.mem_cons.mp hx with rfl | hmem
          · exact hry
          · exact htrans _ _ _ hry
              ((List.pairwise_cons.mp (h.sublist hsub)).1 x hmem)

def iteratorAt (list : L) (xs : List N) : ListIterator L N :=
  { prevnext := lastLoc (.head list) xs, list }

@[simp] theorem wp_load (loc : Loc L N)
    (Q : NodePtr L N → ListMem L N → Prop) (mem : ListMem L N) :
    Prog.wp (load loc) Q mem ↔ Q (mem.link loc) mem := Iff.rfl

@[simp] theorem wp_loadTail (list : L)
    (Q : NodePtr L N → ListMem L N → Prop) (mem : ListMem L N) :
    Prog.wp (loadTail list) Q mem ↔ Q (mem.tail list) mem := Iff.rfl

@[simp] theorem nextLoc_some (loc : Loc L N) :
    nextLoc (some loc) = (pure loc : Prog (ListMem L N) _) := rfl

@[simp] theorem realNode_next (node : N) :
    realNode (some (.next node)) = (pure node : Prog (ListMem L N) N) := rfl

@[simp] theorem wp_storeTail [DecidableEq L] (list : L) (ptr : NodePtr L N)
    (Q : Unit → ListMem L N → Prop) (mem : ListMem L N) :
    Prog.wp (storeTail list ptr) Q mem ↔ Q () (mem.setTail list ptr) := Iff.rfl

@[simp] theorem ListMem.setTail_link [DecidableEq L] (mem : ListMem L N)
    (list : L) (ptr : NodePtr L N) : (mem.setTail list ptr).link = mem.link :=
  rfl

theorem ListMem.setTail_tail [DecidableEq L] (mem : ListMem L N) (list l : L)
    (ptr : NodePtr L N) :
    (mem.setTail list ptr).tail l = if l = list then ptr else mem.tail l :=
  Function.update_apply _ _ _ _

namespace ListMem

variable {mem : ListMem L N} {seq : L → List N} {list : L} {node : N}
  {xs ys : List N}

theorem listIterate_spec (h : mem.Represents seq) :
    Prog.wp (listIterate list) (fun r mem' =>
      r = (firstPtr (seq list) none, iteratorAt list []) ∧ mem' = mem) mem := by
  simp only [listIterate, Prog.wp_bind, wp_load, Prog.wp_pure, h.link_head,
    and_true]
  rfl

theorem listIteratorNext_end (h : mem.Represents seq) :
    Prog.wp (listIteratorNext (iteratorAt list (seq list))) (fun r mem' =>
      r = (none, iteratorAt list (seq list)) ∧ mem' = mem) mem := by
  have hlink := h.link_at (List.append_nil (seq list)).symm
  simp only [listIteratorNext, iteratorAt, Prog.wp_bind, wp_load, hlink,
    firstPtr_nil, Prog.wp_pure, and_self]

theorem listIteratorNext_node (h : mem.Represents seq)
    (hseq : seq list = xs ++ node :: ys) :
    Prog.wp (listIteratorNext (iteratorAt list xs)) (fun r mem' =>
      r = (firstPtr ys none, iteratorAt list (xs ++ [node])) ∧
        mem' = mem) mem := by
  have hlink := h.link_at hseq
  have hnext := h.link_node hseq
  simp only [listIteratorNext, iteratorAt, Prog.wp_bind, wp_load, hlink,
    firstPtr_cons, hnext, Prog.wp_pure, lastLoc_snoc, and_self]

theorem listInsertSortedLoop_spec (h : mem.Represents seq)
    (nodecmp : N → N → Int) (fuel : Nat) (hseq : seq list = xs ++ ys)
    (hstop : ∃ y ∈ ys, nodecmp node y < 0) (hfuel : ys.length < fuel) :
    Prog.wp (listInsertSortedLoop node nodecmp fuel (firstPtr ys none)
        (iteratorAt list xs))
      (fun r mem' => r = iteratorAt list
        (xs ++ ys.takeWhile (nodecmp node · ≥ 0)) ∧ mem' = mem) mem := by
  induction fuel generalizing xs ys with
  | zero => exact absurd hfuel (Nat.not_lt_zero _)
  | succ fuel ih =>
      cases ys with
      | nil =>
          obtain ⟨y, hy, -⟩ := hstop
          cases hy
      | cons y ys =>
          by_cases hy : nodecmp node y ≥ 0
          · have hrest : ∃ z ∈ ys, nodecmp node z < 0 := by
              obtain ⟨z, hz, hlt⟩ := hstop
              rcases List.mem_cons.mp hz with rfl | hz
              · omega
              · exact ⟨z, hz, hlt⟩
            simp only [listInsertSortedLoop, firstPtr_cons, realNode_next,
              pure_bind, hy, if_true, Prog.wp_bind]
            refine (Prog.wp_assert _ _ _).mpr ⟨by simp, ?_⟩
            refine Prog.wp_mono (listIteratorNext_node h hseq) ?_
            rintro _ _ ⟨rfl, rfl⟩
            refine Prog.wp_mono (ih (by simp [hseq]) hrest
              (by simpa using hfuel)) ?_
            rintro _ _ ⟨rfl, rfl⟩
            simp [hy]
          · simp [listInsertSortedLoop, hy]

end ListMem

variable [DecidableEq L] [DecidableEq N]

@[simp] theorem wp_store (loc : Loc L N) (ptr : NodePtr L N)
    (Q : Unit → ListMem L N → Prop) (mem : ListMem L N) :
    Prog.wp (store loc ptr) Q mem ↔ Q () (mem.write loc ptr) := Iff.rfl

namespace ListMem

@[simp] theorem write_link_self (mem : ListMem L N) (loc : Loc L N)
    (ptr : NodePtr L N) : (mem.write loc ptr).link loc = ptr :=
  Function.update_self _ _ _

theorem write_link_of_ne {loc loc' : Loc L N} (h : loc' ≠ loc)
    (mem : ListMem L N) (ptr : NodePtr L N) :
    (mem.write loc ptr).link loc' = mem.link loc' :=
  Function.update_of_ne h _ _

@[simp] theorem write_tail (mem : ListMem L N) (loc : Loc L N)
    (ptr : NodePtr L N) : (mem.write loc ptr).tail = mem.tail := rfl

variable {mem : ListMem L N} {seq : L → List N} {list : L} {node : N}
  {xs ys : List N}

theorem Represents.append (h : mem.Represents seq) (list : L)
    (hnode : ∀ list, node ∉ seq list) :
    ((mem.write (lastLoc (.head list) (seq list))
      (some (.next node))).setTail list (some (.next node))).Represents
      (Function.update seq list (seq list ++ [node])) := by
  have hseq : seq list = seq list ++ [] := (List.append_nil _).symm
  refine h.insert hseq hnode ?_ ?_ ?_ ?_
  · simp
  · rw [setTail_link, write_link_of_ne (Ne.symm (lastLoc_ne_next hnode hseq))]
    exact h.outside node hnode
  · intro l hl _
    rw [setTail_link, write_link_of_ne hl]
  · intro l
    simp [setTail_tail]

theorem listInsert_spec (h : mem.Represents seq)
    (hnode : ∀ list, node ∉ seq list) :
    Prog.wp (listInsert list node) (fun _ mem' =>
      mem'.Represents (Function.update seq list (seq list ++ [node]))) mem := by
  have key := h.append list hnode
  simp only [listInsert, Prog.wp_bind, wp_load, Prog.wp_assert,
    h.outside node hnode, true_and, Prog.wp_ite, h.link_head]
  cases hxs : seq list with
  | nil =>
      simp only [firstPtr_nil, ne_eq, not_true_eq_false, if_false, wp_store,
        wp_storeTail]
      simpa only [hxs, lastLoc_nil] using key
  | cons x xs =>
      have htail := h.tail list (by rw [hxs]; simp)
      rw [hxs] at key htail
      simpa only [firstPtr_cons, ne_eq, reduceCtorEq, not_false_eq_true, if_true,
        Prog.wp_bind, wp_loadTail, htail, nextLoc_some, Prog.wp_pure, wp_store,
        wp_storeTail] using key

theorem listPush_spec (h : mem.Represents seq)
    (hnode : ∀ list, node ∉ seq list) :
    Prog.wp (listPush list node) (fun _ mem' =>
      mem'.Represents (Function.update seq list (node :: seq list))) mem := by
  have hnext := h.outside node hnode
  have hne : Loc.next node ≠ Loc.head list := nofun
  simp only [listPush, Prog.wp_bind, wp_load, Prog.wp_assert, hnext,
    true_and, Prog.wp_ite, h.link_head]
  cases hxs : seq list with
  | nil =>
      simp only [firstPtr_nil, ne_eq, not_true_eq_false, if_false,
        wp_storeTail, wp_store]
      have hseq : seq list = [] ++ [] := hxs
      refine h.insert hseq hnode ?_ ?_ ?_ ?_
      · exact write_link_self _ _ _
      · rw [write_link_of_ne hne]
        exact hnext
      · intro l hl _
        exact write_link_of_ne hl _ _
      · intro l
        simp [setTail_tail]
  | cons x xs =>
      simp only [firstPtr_cons, ne_eq, reduceCtorEq, not_false_eq_true, if_true,
        wp_store]
      have hseq : seq list = [] ++ x :: xs := hxs
      refine h.insert hseq hnode ?_ ?_ ?_ ?_
      · exact write_link_self _ _ _
      · rw [write_link_of_ne hne, write_link_self, firstPtr_cons]
      · intro l hl hl'
        exact (write_link_of_ne hl _ _).trans (write_link_of_ne hl' _ _)
      · intro l
        simp

theorem listExtract_spec (h : mem.Represents seq) :
    Prog.wp (listExtract list) (fun ptr mem' =>
      ptr = firstPtr (seq list) none ∧
      mem'.Represents (Function.update seq list (seq list).tail)) mem := by
  simp only [listExtract, Prog.wp_bind, wp_load, h.link_head]
  cases hxs : seq list with
  | nil =>
      refine ⟨rfl, ?_⟩
      rwa [List.tail_nil, ← hxs, Function.update_eq_self]
  | cons x xs =>
      have hseq : seq list = [] ++ x :: xs := hxs
      have hnext := h.link_node hseq
      simp only [firstPtr_cons, Prog.wp_bind, wp_load, wp_store, Prog.wp_pure,
        true_and, List.tail_cons]
      have hne : Loc.head list ≠ Loc.next x := by simp
      refine h.remove hseq ?_ ?_ ?_ ?_ ?_
      · rw [lastLoc_nil, write_link_of_ne hne, write_link_self, hnext]
      · exact write_link_self _ _ _
      · intro l hl hl'
        exact (write_link_of_ne hl' _ _).trans (write_link_of_ne hl _ _)
      · intro hne
        rw [if_neg (by simpa using hne)]
        rfl
      · intro l _
        rfl

theorem listIteratorInsert_spec (h : mem.Represents seq)
    (hnode : ∀ list, node ∉ seq list) (hseq : seq list = xs ++ ys) :
    Prog.wp (listIteratorInsert (iteratorAt list xs) node) (fun _ mem' =>
      mem'.Represents (Function.update seq list (xs ++ node :: ys))) mem := by
  have hlink := h.link_at hseq
  have hne := lastLoc_ne_next hnode hseq
  have key : ∀ mem' : ListMem L N,
      mem'.link = ((mem.write (lastLoc (.head list) xs)
        (some (.next node))).write (.next node) (firstPtr ys none)).link →
      (∀ l, mem'.tail l =
        if l = list ∧ ys = [] then some (.next node) else mem.tail l) →
      mem'.Represents (Function.update seq list (xs ++ node :: ys)) := by
    intro mem' hlink' htail
    refine h.insert hseq hnode ?_ ?_ ?_ htail
    · rw [hlink', write_link_of_ne hne, write_link_self]
    · rw [hlink', write_link_self]
    · intro l hl hl'
      rw [hlink', write_link_of_ne hl', write_link_of_ne hl]
  simp only [listIteratorInsert, iteratorAt, Prog.wp_bind, wp_load, hlink,
    wp_store, Prog.wp_ite, firstPtr_none_eq_none]
  split
  · rename_i hys
    simp only [wp_storeTail]
    exact key _ rfl fun l => by simp [setTail_tail, hys]
  · rename_i hys
    simp only [Prog.wp_pure]
    exact key _ rfl fun l => by simp [hys]

theorem listIteratorRemove_spec (h : mem.Represents seq)
    (hseq : seq list = xs ++ node :: ys) :
    Prog.wp (listIteratorRemove (iteratorAt list xs)) (fun ptr mem' =>
      ptr = firstPtr ys none ∧
      mem'.Represents (Function.update seq list (xs ++ ys))) mem := by
  have hlink := h.link_at hseq
  have hnext := h.link_node hseq
  have hlast : mem.tail list = some (.next node) ↔ ys = [] := by
    have hnodup := segLocs_nodup list (h.nodup list)
    rw [h.tail list (by rw [hseq]; simp), hseq, lastLoc_append,
      Option.some.injEq]
    rw [hseq, segLocs_append, List.map_cons] at hnodup
    cases ys with
    | nil => simp [lastLoc]
    | cons y ys =>
        have hne := (List.nodup_cons.mp (List.nodup_append.mp hnodup).2.1).1
        simp only [reduceCtorEq, iff_false]
        intro heq
        exact hne (heq ▸ lastLoc_mem (Loc.next y) ys)
  have hne : Loc.next node ≠ lastLoc (.head list) xs := by
    have hnodup := segLocs_nodup list (h.nodup list)
    rw [hseq, segLocs_append, List.nodup_append] at hnodup
    intro heq
    exact hnodup.2.2 _ (lastLoc_mem _ _) _ List.mem_cons_self heq.symm
  have key : ∀ mem₁ : ListMem L N, mem₁.link = mem.link →
      (∀ l, mem₁.tail l = if l = list ∧ ys = [] then
        some (lastLoc (.head list) xs) else mem.tail l) →
      Prog.wp (do
        store (lastLoc (.head list) xs) (← load (.next node))
        store (.next node) none
        load (lastLoc (.head list) xs)) (fun ptr mem' =>
          ptr = firstPtr ys none ∧
          mem'.Represents (Function.update seq list (xs ++ ys))) mem₁ := by
    intro mem₁ hsame htail
    simp only [Prog.wp_bind, wp_load, wp_store, hsame, hnext]
    refine ⟨?_, h.remove hseq ?_ ?_ ?_ ?_ ?_⟩
    · rw [write_link_of_ne (Ne.symm hne), write_link_self]
    · rw [write_link_of_ne (Ne.symm hne), write_link_self]
    · exact write_link_self _ _ _
    · intro l hl hl'
      rw [write_link_of_ne hl', write_link_of_ne hl, hsame]
    · intro _
      simp [htail]
    · intro l hl
      simp [htail, hl]
  simp only [listIteratorRemove, iteratorAt, Prog.wp_bind, wp_load, hlink,
    firstPtr_cons, Prog.wp_assert, ne_eq, reduceCtorEq, not_false_eq_true, true_and,
    nextLoc_some, Prog.wp_pure, wp_loadTail, Prog.wp_ite, hlast]
  split
  · rename_i hys
    simp only [wp_storeTail]
    have hk := key (mem.setTail list (some (lastLoc (.head list) xs))) rfl
      (fun l => by simp [setTail_tail, hys])
    simpa only [Prog.wp_bind, wp_load, wp_store] using hk
  · rename_i hys
    have hk := key mem rfl (fun l => by simp [hys])
    simpa only [Prog.wp_pure, Prog.wp_bind, wp_load, wp_store] using hk

theorem listContainsLoop_spec (h : mem.Represents seq) (fuel : Nat)
    (hseq : seq list = xs ++ ys) (hfuel : ys.length < fuel) :
    Prog.wp (listContainsLoop node fuel (firstPtr ys none) (iteratorAt list xs))
      (fun r mem' => r = (decide (node ∈ ys),
        iteratorAt list (xs ++ ys.takeWhile (· ≠ node))) ∧ mem' = mem) mem := by
  induction fuel generalizing xs ys with
  | zero => exact absurd hfuel (Nat.not_lt_zero _)
  | succ fuel ih =>
      cases ys with
      | nil =>
          simp [listContainsLoop]
      | cons y ys =>
          by_cases hy : y = node
          · simp [listContainsLoop, hy]
          · have hy' : node ≠ y := Ne.symm hy
            simp only [listContainsLoop, firstPtr_cons, reduceCtorEq, if_false,
              Option.some.injEq, Loc.next.injEq, hy, Prog.wp_bind]
            refine Prog.wp_mono (listIteratorNext_node h hseq) ?_
            rintro _ _ ⟨rfl, rfl⟩
            refine Prog.wp_mono (ih (by simp [hseq])
              (by simpa using hfuel)) ?_
            rintro _ _ ⟨rfl, rfl⟩
            simp [hy, hy']

theorem listContains_spec (h : mem.Represents seq) {fuel : Nat}
    (hfuel : (seq list).length < fuel) :
    Prog.wp (listContains fuel list node) (fun r mem' =>
      r = (decide (node ∈ seq list),
        iteratorAt list ((seq list).takeWhile (· ≠ node))) ∧ mem' = mem) mem := by
  simp only [listContains, Prog.wp_bind]
  refine Prog.wp_mono (listIterate_spec h) ?_
  rintro _ _ ⟨rfl, rfl⟩
  exact listContainsLoop_spec h fuel rfl hfuel

theorem takeWhile_ne_of_mem (hmem : node ∈ xs) :
    ∃ zs, xs = xs.takeWhile (· ≠ node) ++ node :: zs ∧
      xs.erase node = xs.takeWhile (· ≠ node) ++ zs := by
  induction xs with
  | nil => cases hmem
  | cons x xs ih =>
      by_cases hx : x = node
      · exact ⟨xs, by simp [hx]⟩
      · obtain ⟨zs, hzs, herase⟩ :=
          ih ((List.mem_cons.mp hmem).resolve_left (Ne.symm hx))
        refine ⟨zs, ?_, ?_⟩
        · simpa [hx] using hzs
        · simpa [hx] using herase

theorem listRemove_spec (h : mem.Represents seq) {fuel : Nat}
    (hfuel : (seq list).length < fuel) :
    Prog.wp (listRemove fuel list node) (fun r mem' =>
      r = decide (node ∈ seq list) ∧
      mem'.Represents (Function.update seq list ((seq list).erase node))) mem := by
  simp only [listRemove, Prog.wp_bind]
  refine Prog.wp_mono (listContains_spec h hfuel) ?_
  rintro _ _ ⟨rfl, rfl⟩
  by_cases hmem : node ∈ seq list
  · obtain ⟨zs, hzs, herase⟩ := takeWhile_ne_of_mem hmem
    simp only [hmem, decide_true, if_true, Prog.wp_bind, Prog.wp_pure]
    refine Prog.wp_mono (listIteratorRemove_spec h hzs) ?_
    rintro _ _ ⟨-, hrep⟩
    exact ⟨trivial, herase ▸ hrep⟩
  · simp only [hmem, decide_false, Bool.false_eq_true, if_false, Prog.wp_pure,
      true_and]
    rwa [List.erase_of_not_mem hmem, Function.update_eq_self]

theorem listInsertSorted_spec (h : mem.Represents seq)
    (hnode : ∀ list, node ∉ seq list) (nodecmp : N → N → Int) {fuel : Nat}
    (hfuel : (seq list).length < fuel) :
    Prog.wp (listInsertSorted fuel list node nodecmp) (fun _ mem' =>
      mem'.Represents (Function.update seq list
        (insertSorted nodecmp node (seq list)))) mem := by
  have key := h.append list hnode
  simp only [listInsertSorted, Prog.wp_bind, wp_load, Prog.wp_assert,
    h.outside node hnode, true_and, Prog.wp_ite, h.link_head,
    firstPtr_none_eq_none, wp_loadTail]
  rcases List.eq_nil_or_concat (seq list) with hxs | ⟨xs, last, hxs⟩
  · have hone : insertSorted nodecmp node [] = [] ++ [node] := rfl
    simp only [hxs, if_true, wp_store, wp_storeTail, hone]
    simpa only [hxs, lastLoc_nil] using key
  · have hne : seq list ≠ [] := by simp [hxs]
    have htail : mem.tail list = some (.next last) := by
      rw [h.tail list hne, hxs, List.concat_eq_append, lastLoc_snoc]
    have hlast : lastLoc (.head list) (seq list) = Loc.next last := by
      rw [hxs, List.concat_eq_append, lastLoc_snoc]
    have hget : (seq list).getLast? = some last := by
      rw [hxs, List.concat_eq_append, List.getLast?_concat]
    simp only [hne, if_false, htail, realNode_next, Prog.wp_pure]
    unfold insertSorted
    rw [hget]
    dsimp only
    by_cases hge : nodecmp node last ≥ 0
    · simp only [hge, if_true, nextLoc_some, Prog.wp_pure, wp_store,
        wp_storeTail]
      exact hlast ▸ key
    · simp only [hge, if_false]
      refine Prog.wp_mono (listIterate_spec h) ?_
      rintro _ _ ⟨rfl, rfl⟩
      refine Prog.wp_mono (listInsertSortedLoop_spec h nodecmp fuel
        rfl ⟨last, ?_, by omega⟩ hfuel) ?_
      · rw [hxs, List.concat_eq_append]
        simp
      · rintro _ _ ⟨rfl, rfl⟩
        exact listIteratorInsert_spec h hnode
          (List.takeWhile_append_dropWhile).symm

/-- A node that is put on its list a second time is the last one, or the
assertion fails; it becomes its own successor. -/
theorem listInsertSorted_again (h : mem.Represents seq) (hnode : node ∈ seq list)
    {nodecmp : N → N → Int} (hcmp : nodecmp node node ≥ 0) {fuel : Nat}
    {mem' : ListMem L N}
    (hret : listInsertSorted fuel list node nodecmp mem = .ok ((), mem')) :
    mem'.link (.next node) = some (.next node) := by
  obtain ⟨xs, ys, hseq⟩ := List.append_of_mem hnode
  have hne : seq list ≠ [] := List.ne_nil_of_mem hnode
  have hhead : mem.link (.head list) ≠ none := by
    rw [h.link_head]
    exact mt firstPtr_none_eq_none.mp hne
  have hwp := Prog.wp_of_eq
    (Q := fun _ t => t.link (.next node) = mem'.link (.next node)) hret rfl
  simp only [listInsertSorted, Prog.wp_bind, wp_load, Prog.wp_assert] at hwp
  obtain ⟨hlast, hwp⟩ := hwp
  rw [h.link_node hseq, firstPtr_none_eq_none] at hlast
  subst hlast
  have htail : mem.tail list = some (.next node) := by
    rw [h.tail list hne, hseq, lastLoc_snoc]
  simp only [Prog.wp_ite, hhead, if_false, Prog.wp_bind, wp_loadTail, htail,
    realNode_next, Prog.wp_pure, hcmp, if_true, nextLoc_some, wp_store,
    wp_storeTail, setTail_link, write_link_self] at hwp
  exact hwp.symm

theorem listContainsLoop_keeps (node : N) (fuel : Nat) (curr : NodePtr L N)
    (iter : ListIterator L N) :
    Prog.Keeps (· = ·) (listContainsLoop node fuel curr iter) := by
  induction fuel generalizing curr iter with
  | zero => exact .throw _
  | succ fuel ih =>
      refine .ite (.pure (fun _ => rfl) _) (.ite (.pure (fun _ => rfl) _) ?_)
      refine .bind (fun _ _ _ => Eq.trans) ?_ fun r => ih r.1 r.2
      refine .bind (fun _ _ _ => Eq.trans) ?_ fun ptr => ?_
      · exact .bind (fun _ _ _ => Eq.trans) (.get fun _ => rfl) fun _ =>
          .pure (fun _ => rfl) _
      · cases ptr with
        | none => exact .pure (fun _ => rfl) _
        | some loc =>
            refine .bind (fun _ _ _ => Eq.trans) ?_ fun _ => .pure (fun _ => rfl) _
            exact .bind (fun _ _ _ => Eq.trans) (.get fun _ => rfl) fun _ =>
              .pure (fun _ => rfl) _

theorem listContains_keeps (fuel : Nat) (list : L) (node : N) :
    Prog.Keeps (· = ·) (listContains fuel list node) := by
  refine .bind (fun _ _ _ => Eq.trans) ?_ fun r =>
    listContainsLoop_keeps node fuel r.1 r.2
  refine .bind (fun _ _ _ => Eq.trans) ?_ fun _ => .pure (fun _ => rfl) _
  exact .bind (fun _ _ _ => Eq.trans) (.get fun _ => rfl) fun _ =>
    .pure (fun _ => rfl) _

end ListMem

end Librfn
