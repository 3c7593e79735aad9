import Librfn.LinkedList.Operations

/-!
# Sorting by insertion

With a compare function that orders the nodes, `list_insert_sorted` puts a node
behind its equals, so inserting one node after the other is a stable sort.
-/

namespace Librfn

open Librfn.Logic

variable {L N : Type}

/-- A compare function whose sign orders the nodes, with ties. -/
structure TotalPreorder (nodecmp : N → N → Int) : Prop where
  swap : ∀ x y, 0 ≤ nodecmp x y ↔ nodecmp y x ≤ 0
  trans : ∀ x y z, nodecmp x y ≤ 0 → nodecmp y z ≤ 0 → nodecmp x z ≤ 0

/-- No node compares greater than one behind it. -/
def SortedBy (nodecmp : N → N → Int) (xs : List N) : Prop :=
  xs.Pairwise fun x y => nodecmp x y ≤ 0

variable {nodecmp : N → N → Int} {node : N} {xs : List N}

theorem TotalPreorder.le_of_lt (hcmp : TotalPreorder nodecmp) {x y : N}
    (h : nodecmp x y < 0) : nodecmp x y ≤ 0 ∧ ¬ nodecmp y x ≤ 0 := by
  have hswap := hcmp.swap x y
  omega

theorem TotalPreorder.ge_of_le (hcmp : TotalPreorder nodecmp) {x y : N}
    (hxy : nodecmp x y ≤ 0) (hy : nodecmp node y ≥ 0) : nodecmp node x ≥ 0 := by
  apply (hcmp.swap node x).mpr
  exact hcmp.trans x y node hxy ((hcmp.swap node y).mp hy)

theorem insertSorted_eq (hcmp : TotalPreorder nodecmp) (node : N)
    (h : SortedBy nodecmp xs) :
    insertSorted nodecmp node xs = xs.takeWhile (nodecmp node · ≥ 0) ++
      node :: xs.dropWhile (nodecmp node · ≥ 0) := by
  unfold insertSorted
  split
  · next hnone => simp [List.getLast?_eq_none_iff.mp hnone]
  · next last hlast =>
    split
    · next hge =>
      obtain ⟨init, rfl⟩ := List.getLast?_eq_some_iff.mp hlast
      have hall : ∀ x ∈ init ++ [last], nodecmp node x ≥ 0 := by
        intro x hx
        rcases List.mem_append.mp hx with hx | hx
        · exact hcmp.ge_of_le
            ((List.pairwise_append.mp h).2.2 x hx last List.mem_cons_self) hge
        · rwa [List.mem_singleton.mp hx]
      rw [List.takeWhile_eq_self_iff.mpr (by simpa using hall),
        List.dropWhile_eq_nil_iff.mpr (by simpa using hall)]
    · rfl

theorem insertSorted_split (hcmp : TotalPreorder nodecmp)
    (h : SortedBy nodecmp xs) (node : N) :
    ∃ before after, xs = before ++ after ∧
      insertSorted nodecmp node xs = before ++ node :: after ∧
      (∀ x ∈ before, nodecmp x node ≤ 0) ∧ ∀ x ∈ after, nodecmp node x < 0 := by
  have hcut : ∀ x ∈ xs, ∀ y ∈ xs, nodecmp x y ≤ 0 →
      decide (nodecmp node y ≥ 0) = true → decide (nodecmp node x ≥ 0) = true := by
    intro x _ y _ hxy hy
    exact decide_eq_true (hcmp.ge_of_le hxy (of_decide_eq_true hy))
  refine ⟨_, _, List.takeWhile_append_dropWhile.symm, insertSorted_eq hcmp node h,
    ?_, ?_⟩
  · intro x hx
    have hge := List.mem_takeWhile_imp hx
    exact (hcmp.swap node x).mp (of_decide_eq_true hge)
  · intro x hx
    simpa using not_of_mem_dropWhile h hcut hx

theorem isStableSort_insertSorted {ys : List N} (hcmp : TotalPreorder nodecmp)
    (h : IsStableSort (nodecmp · · ≤ 0) xs ys) :
    IsStableSort (nodecmp · · ≤ 0) (xs ++ [node])
      (insertSorted nodecmp node ys) := by
  obtain ⟨before, after, rfl, hins, hbefore, hafter⟩ :=
    insertSorted_split hcmp h.sorted node
  rw [hins]
  exact h.insert hcmp.trans hbefore fun x hx => hcmp.le_of_lt (hafter x hx)

variable [DecidableEq L] [DecidableEq N]

def listInsertSortedAll (fuel : Nat) (list : L) (nodecmp : N → N → Int) :
    List N → Prog (ListMem L N) Unit
  | [] => return ()
  | node :: nodes => do
      listInsertSorted fuel list node nodecmp
      listInsertSortedAll fuel list nodecmp nodes

namespace ListMem

variable {mem : ListMem L N} {seq : L → List N} {list : L}

theorem listInsertSortedAll_spec (hcmp : TotalPreorder nodecmp) {fuel : Nat}
    {done nodes : List N} (h : mem.Represents seq)
    (hsort : IsStableSort (nodecmp · · ≤ 0) done (seq list))
    (hnew : ∀ node ∈ nodes, ∀ l, node ∉ seq l) (hnodup : nodes.Nodup)
    (hfuel : (seq list).length + nodes.length ≤ fuel) :
    Prog.wp (listInsertSortedAll fuel list nodecmp nodes) (fun _ mem' =>
      ∃ ys, IsStableSort (nodecmp · · ≤ 0) (done ++ nodes) ys ∧
        mem'.Represents (Function.update seq list ys)) mem := by
  induction nodes generalizing mem seq done with
  | nil =>
      refine ⟨seq list, ?_, ?_⟩
      · rwa [List.append_nil]
      · rwa [Function.update_eq_self]
  | cons node nodes ih =>
      rw [List.length_cons] at hfuel
      rw [List.nodup_cons] at hnodup
      simp only [listInsertSortedAll, Prog.wp_bind]
      refine Prog.wp_mono (listInsertSorted_spec h
        (hnew node List.mem_cons_self) nodecmp (by omega)) ?_
      intro _ mem₁ h₁
      have hmem : ∀ l x, x ∈ Function.update seq list
          (insertSorted nodecmp node (seq list)) l → x = node ∨ x ∈ seq l := by
        intro l x hx
        by_cases hl : l = list
        · subst hl
          rw [Function.update_self] at hx
          exact List.mem_cons.mp ((insertSorted_perm nodecmp node (seq l)).mem_iff.mp hx)
        · rw [Function.update_of_ne hl] at hx
          exact Or.inr hx
      have hsort₁ : IsStableSort (nodecmp · · ≤ 0) (done ++ [node])
          (Function.update seq list (insertSorted nodecmp node (seq list)) list) := by
        rw [Function.update_self]
        exact isStableSort_insertSorted hcmp hsort
      refine Prog.wp_mono (ih h₁ hsort₁ ?_ hnodup.2 ?_) ?_
      · intro x hx l hl
        rcases hmem l x hl with rfl | hl
        · exact hnodup.1 hx
        · exact hnew x (List.mem_cons_of_mem node hx) l hl
      · rw [Function.update_self, insertSorted_length]
        omega
      · rintro _ mem₂ ⟨ys, hys, hrep⟩
        refine ⟨ys, ?_, ?_⟩
        · rwa [List.append_assoc] at hys
        · rwa [Function.update_idem] at hrep

/-- A node goes behind every node that is not greater and before every one that
is, and inserting nodes one by one is a stable sort. -/
theorem list_insert_sorted_stable (hcmp : TotalPreorder nodecmp)
    (h : mem.Represents seq) (list : L) :
    (∀ node, (∀ l, node ∉ seq l) → SortedBy nodecmp (seq list) →
      ∀ fuel, (seq list).length < fuel →
      ∃ mem' before after,
        listInsertSorted fuel list node nodecmp mem = .ok ((), mem') ∧
        seq list = before ++ after ∧
        mem'.Represents (Function.update seq list (before ++ node :: after)) ∧
        SortedBy nodecmp (before ++ node :: after) ∧
        (∀ x ∈ before, nodecmp x node ≤ 0) ∧ ∀ x ∈ after, nodecmp node x < 0) ∧
    (∀ nodes : List N, seq list = [] → nodes.Nodup →
      (∀ node ∈ nodes, ∀ l, node ∉ seq l) → ∀ fuel, nodes.length ≤ fuel →
      ∃ mem' ys,
        listInsertSortedAll fuel list nodecmp nodes mem = .ok ((), mem') ∧
        mem'.Represents (Function.update seq list ys) ∧
        IsStableSort (nodecmp · · ≤ 0) nodes ys) := by
  constructor
  · intro node hnode hsorted fuel hfuel
    obtain ⟨before, after, hseq, hins, hbefore, hafter⟩ :=
      insertSorted_split hcmp hsorted node
    obtain ⟨_, mem', heq, hrep⟩ := Prog.wp_iff_exists.mp
      (listInsertSorted_spec h hnode nodecmp hfuel)
    rw [hins] at hrep
    refine ⟨mem', before, after, heq, hseq, hrep, ?_, hbefore, hafter⟩
    rw [SortedBy, hseq] at hsorted
    exact pairwise_insert hsorted hbefore fun x hx => Int.le_of_lt (hafter x hx)
  · intro nodes hempty hnodup hnew fuel hfuel
    have hnil : IsStableSort (nodecmp · · ≤ 0) [] (seq list) := by
      rw [hempty]
      exact .of_sorted List.Pairwise.nil
    obtain ⟨_, mem', heq, ys, hsort, hrep⟩ := Prog.wp_iff_exists.mp
      (listInsertSortedAll_spec hcmp h hnil hnew hnodup (by simpa [hempty] using hfuel))
    exact ⟨mem', ys, heq, hrep, hsort⟩

/-- Nodes with a key; the second component tells equal keys apart. -/
theorem list_insert_sorted_stable_ties :
    ∃ mem' ys,
      listInsertSortedAll 4 () (fun x y : Nat × Nat => (x.1 : Int) - y.1)
        [(2, 0), (1, 1), (2, 2), (1, 3)] (.init Unit (Nat × Nat)) =
          .ok ((), mem') ∧
      mem'.Represents (Function.update (fun _ => []) () ys) ∧
      IsStableSort (fun x y : Nat × Nat => (x.1 : Int) - y.1 ≤ 0)
        [(2, 0), (1, 1), (2, 2), (1, 3)] ys := by
  have hcmp : TotalPreorder (fun x y : Nat × Nat => (x.1 : Int) - y.1) :=
    ⟨by intros; omega, by intros; omega⟩
  exact (list_insert_sorted_stable hcmp init_represents ()).2
    [(2, 0), (1, 1), (2, 2), (1, 3)] rfl (by decide)
    (fun _ _ _ => List.not_mem_nil) 4 (by decide)

end ListMem

end Librfn
