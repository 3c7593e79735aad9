import Librfn.Bintree.ReadBack

/-!
# Trees as indented text

`bintree_visualize` prints a line for every node and for every `NULL`, in
pre-order and indented by its depth.  The text determines the tree.
-/

namespace Librfn

open Librfn.Logic Prog Blocks GraphIo BinaryTree

section Visitor

variable (labeller : Nat → Prog Blocks Nat)

def visualizeNode (fuel : Nat) (visit : BintreeVisit) : Prog GraphIo Unit := do
  printGraph (List.replicate visit.depth 9)
  let label ← onStrings (labeller visit.tree)
  printGraph ((← onStrings (loadString label fuel 0)) ++ [10])
  onStrings (free label)

def visualizeNodes (fuel : Nat) : List BintreeVisit → Prog GraphIo Unit
  | [] => return ()
  | visit :: visits => do
      visualizeNode labeller fuel visit
      visualizeNodes fuel visits

def bintreeVisualize (fuel tree : Nat) : Prog GraphIo Unit := do
  visualizeNodes labeller fuel (← onNodes (bintreeTraversePreOrder fuel tree))

end Visitor

/-! ## The text -/

def visualLine (text : Nat → List UInt8) (visit : BintreeVisit) : List UInt8 :=
  List.replicate visit.depth 9 ++ (text visit.tree ++ [10])

def visualText (text : Nat → List UInt8) (depth : Nat) : BinaryTree Nat → List UInt8
  | nil => visualLine text ⟨0, 0, depth⟩
  | node a l r =>
      visualLine text ⟨a, 0, depth⟩ ++ (visualText text (depth + 1) l ++ visualText text (depth + 1) r)

section Tree

variable {labeller : Nat → Prog Blocks Nat} {text : Nat → List UInt8} {g : GraphIo} {fuel : Nat}
  {t : BinaryTree Nat}

theorem flatMap_visualLine (parent depth : Nat) :
    (depthVisits visitBefore parent depth t).flatMap (visualLine text) = visualText text depth t := by
  induction t generalizing parent depth with
  | nil => exact List.append_nil _
  | node a l r ihl ihr =>
      rw [depthVisits, visitBefore, List.flatMap_cons, List.flatMap_append, ihl, ihr]
      rfl

theorem visualizeNode_spec (hlabels : Labels labeller text) {visit : BintreeVisit}
    (hfuel : (text visit.tree).length < fuel) :
    wp (visualizeNode labeller fuel visit) (fun _ => Printed g (visualLine text visit) (some ()))
      g := by
  rw [visualizeNode, wp_bind, printGraph, wp_modify, wp_bind, wp_onStrings]
  refine wp_mono (hlabels visit.tree g.strings) ?_
  intro p strings h
  rw [wp_bind, wp_onStrings, h.string.wp_loadString_start hfuel, wp_bind, printGraph, wp_modify,
    wp_onStrings]
  refine wp_mono h.free_spec ?_
  intro _ strings' hfree
  refine ⟨rfl, rfl, hfree, ?_⟩
  exact List.append_assoc _ _ _

theorem visualizeNodes_spec (hlabels : Labels labeller text) {visits : List BintreeVisit}
    (hfuel : ∀ visit ∈ visits, (text visit.tree).length < fuel) :
    wp (visualizeNodes labeller fuel visits)
      (fun _ => Printed g (visits.flatMap (visualLine text)) (some ())) g := by
  induction visits generalizing g with
  | nil => exact .refl g
  | cons visit visits ih =>
      rw [List.forall_mem_cons] at hfuel
      rw [visualizeNodes, wp_bind, List.flatMap_cons]
      refine wp_mono (visualizeNode_spec hlabels hfuel.1) fun _ g' hprinted => ?_
      exact wp_mono (ih hfuel.2) fun _ _ => hprinted.trans

theorem visit_mem {visit : BintreeVisit} {parent depth : Nat}
    (h : visit ∈ depthVisits visitBefore parent depth t) :
    visit.tree = 0 ∨ visit.tree ∈ inOrder t := by
  induction t generalizing parent depth with
  | nil =>
      rw [depthVisits, List.mem_singleton] at h
      exact .inl (h ▸ rfl)
  | node a l r ihl ihr =>
      rw [depthVisits, visitBefore, List.mem_cons, List.mem_append] at h
      simp only [mem_inOrder]
      rcases h with rfl | h | h
      · exact .inr (.inr (.inl rfl))
      · exact (ihl h).imp_right .inl
      · exact (ihr h).imp_right fun h => .inr (.inr h)

theorem exists_longer (text : Nat → List UInt8) (nodes : List Nat) :
    ∃ n, ∀ a ∈ nodes, (text a).length < n := by
  induction nodes with
  | nil => exact ⟨0, nofun⟩
  | cons a nodes ih =>
      obtain ⟨n, hn⟩ := ih
      refine ⟨max n ((text a).length + 1), List.forall_mem_cons.mpr ⟨by omega, ?_⟩⟩
      intro b hb
      exact (hn b hb).trans_le (Nat.le_max_left _ _)

theorem bintreeVisualize_spec (hlabels : Labels labeller text) (h : g.nodes.Holds t 0)
    (hp : Proper t) :
    ∃ enough, ∀ fuel, enough ≤ fuel →
      wp (bintreeVisualize labeller fuel (rootPtr 0 t))
        (fun _ => Printed g (visualText text 0 t) (some ())) g := by
  have htraverse : Prog.Returns
      (fun fuel => bintreeTraversePreOrderDepth fuel (rootPtr 0 t) 0 0) g.nodes
      (depthVisits visitBefore 0 0 t, g.nodes) := traverseDepth_returns (fun _ => rfl) h hp 0 0
  obtain ⟨enough, htraverse⟩ := htraverse
  obtain ⟨n, hn⟩ := exists_longer text (0 :: inOrder t)
  refine ⟨max enough n, fun fuel hfuel => ?_⟩
  have hlong : ∀ visit ∈ depthVisits visitBefore 0 0 t, (text visit.tree).length < fuel := by
    intro visit hvisit
    have hmem := hn visit.tree (List.mem_cons.mpr (visit_mem hvisit))
    omega
  rw [bintreeVisualize, wp_bind, wp_onNodes, bintreeTraversePreOrder,
    wp_iff_of_eq (htraverse fuel (by omega)), ← flatMap_visualLine 0 0]
  exact visualizeNodes_spec hlabels hlong

/-! ## The reader -/

def readLine (s : List UInt8) : Option (List UInt8 × List UInt8) :=
  match s.dropWhile (· ≠ 10) with
  | [] => none
  | _ :: rest => some (s.takeWhile (· ≠ 10), rest)

def readVisual (empty : List UInt8) :
    Nat → Nat → List UInt8 → Option (BinaryTree (List UInt8) × List UInt8)
  | 0, _, _ => none
  | fuel + 1, depth, s => do
      let s ← expect (List.replicate depth 9) s
      let (label, s) ← readLine s
      if label = empty then return (nil, s)
      let (l, s) ← readVisual empty fuel (depth + 1) s
      let (r, s) ← readVisual empty fuel (depth + 1) s
      return (node label l r, s)

theorem readLine_append {label : List UInt8} (h : 10 ∉ label) (s : List UInt8) :
    readLine (label ++ (10 :: s)) = some (label, s) := by
  have hlabel : ∀ c ∈ label, decide (c ≠ 10) = true := fun c hc =>
    decide_eq_true (ne_of_mem_of_not_mem hc h)
  rw [readLine, List.takeWhile_append_of_pos hlabel, List.dropWhile_append_of_pos hlabel]
  simp

/-- No label has an end of line in it, and only `NULL` has the label of `NULL`. -/
def Legible (text : Nat → List UInt8) (t : BinaryTree Nat) : Prop :=
  10 ∉ text 0 ∧ ∀ a ∈ inOrder t, 10 ∉ text a ∧ text a ≠ text 0

theorem readVisual_visualText (h : Legible text t) (hfuel : t.numNodes < fuel) (depth : Nat)
    (s : List UInt8) :
    readVisual (text 0) fuel depth (visualText text depth t ++ s) = some (t.map text, s) := by
  induction t generalizing fuel depth s with
  | nil =>
      obtain ⟨fuel, rfl⟩ : ∃ k, fuel = k + 1 := ⟨fuel - 1, by omega⟩
      simp only [readVisual, visualText, visualLine, List.append_assoc, expect_append,
        List.cons_append, List.nil_append, readLine_append h.1, Option.bind_eq_bind, Option.bind_some, if_true]
      rfl
  | node a l r ihl ihr =>
      rw [numNodes] at hfuel
      obtain ⟨fuel, rfl⟩ : ∃ k, fuel = k + 1 := ⟨fuel - 1, by omega⟩
      have ha := h.2 a (mem_inOrder.mpr (.inr (.inl rfl)))
      have hl := @ihl fuel ⟨h.1, fun b hb => h.2 b (mem_inOrder.mpr (.inl hb))⟩ (by omega)
        (depth + 1)
      have hr := @ihr fuel
        ⟨h.1, fun b hb => h.2 b (mem_inOrder.mpr (.inr (.inr hb)))⟩ (by omega) (depth + 1)
      simp only [readVisual, visualText, visualLine, List.append_assoc, expect_append,
        List.cons_append, List.nil_append, readLine_append ha.1, Option.bind_eq_bind, Option.bind_some,
        if_neg ha.2, hl, hr]
      rfl

theorem numNodes_lt_visualText (depth : Nat) : t.numNodes < (visualText text depth t).length := by
  induction t generalizing depth with
  | nil =>
      simp only [numNodes, visualText, visualLine, List.length_append, List.length_singleton]
      omega
  | node a l r ihl ihr =>
      have hl := ihl (depth + 1)
      have hr := ihr (depth + 1)
      simp only [numNodes, visualText, List.length_append]
      omega

end Tree

/-- The tree, with its labels, is read back from the lines, although nothing
tells a left child from a right one but the lines of `NULL`. -/
theorem visualize_read_back {labeller : Nat → Prog Blocks Nat} {text : Nat → List UInt8}
    {g : GraphIo} (hlabels : Labels labeller text) {t : BinaryTree Nat} (h : g.nodes.Holds t 0)
    (hp : Proper t) (hlegible : Legible text t) :
    ∃ enough, ∀ fuel, enough ≤ fuel →
      wp (bintreeVisualize labeller fuel (rootPtr 0 t)) (fun _ g' => g'.nodes = g.nodes ∧
        (∀ b, g'.strings.block b = g.strings.block b) ∧
        ∃ printed, g'.out = g.out ++ printed ∧
          readVisual (text 0) printed.length 0 printed = some (t.map text, [])) g := by
  obtain ⟨enough, hspec⟩ := bintreeVisualize_spec hlabels h hp
  refine ⟨enough, fun fuel hfuel => wp_mono (hspec fuel hfuel) fun _ g' hprinted => ?_⟩
  refine ⟨hprinted.nodes, hprinted.strings, _, hprinted.out, ?_⟩
  have hread := readVisual_visualText hlegible (@numNodes_lt_visualText text t 0) 0 []
  rwa [List.append_nil] at hread

/-- The labels are a letter, that of `NULL` is empty. -/
theorem visualize_read_back_small : ∃ fuel,
    wp (bintreeVisualize (copyLabel fun a => if a = 0 then [] else [88]) fuel 2) (fun _ g' =>
      ∃ printed, g'.out = printed ∧
        readVisual [] printed.length 0 printed = some (smallTree.map fun _ => [88], []))
      { nodes := smallHeap, strings := labelHeap [], out := [] } := by
  have hnul : ∀ a : Nat, (0 : UInt8) ∉ if a = 0 then [] else [88] := by
    intro a
    split <;> decide
  obtain ⟨enough, h⟩ := @visualize_read_back (copyLabel fun a => if a = 0 then [] else [88])
    (fun a => if a = 0 then [] else [88])
    { nodes := smallHeap, strings := labelHeap [], out := [] } (copyLabel_labels hnul) smallTree
    smallHeap_holds smallTree_proper ⟨by decide, by decide⟩
  exact ⟨enough, wp_mono (h enough (Nat.le_refl _)) fun _ g' h' => h'.2.2⟩

end Librfn
