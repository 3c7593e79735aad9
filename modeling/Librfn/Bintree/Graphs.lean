import Librfn.Bintree.Escape
import Librfn.Bintree.Iteration

/-!
# The graph of a tree

Every node is printed once, in pre-order, and all labels are freed.
-/

namespace Librfn

open Librfn.Logic Prog Blocks GraphIo BinaryTree

/-! ## One label at a time -/

/-- A label was put on the heap, and nothing else has changed. -/
structure Labelled (before : Blocks) (text : List UInt8) (p : Nat) (after : Blocks) : Prop where
  string : after.CString p text
  new : before.block p = none
  frame : ∀ b, b ≠ p → after.block b = before.block b

section Label

variable {before after : Blocks} {p : Nat} {text : List UInt8}

theorem Labelled.copied (h : Labelled before text p after) :
    Labelled before (escapedLabel text) after.blocks.length (escapedHeap after p text) where
  string := .of_block (nul_escapedLabel h.string.nul) (block_escapedHeap h.string)
  new := by
    rw [← h.frame _ (Nat.ne_of_gt h.string.lt)]
    exact block_of_ge (Nat.le_refl _)
  frame := by
    intro b hb
    by_cases hbp : b = p
    · subst hbp
      rw [escapedHeap, block_without_self, h.new]
    · rw [escapedHeap, block_without (Ne.symm hbp), block_filled hb, h.frame b hbp]

theorem Labelled.escape_spec (h : Labelled before text p after) (hfits : EscapeFits text)
    {fuel : Nat} (hfuel : text.length < fuel) :
    wp (escape fuel p) (fun r after' => ∃ t, r = some t ∧
      Labelled before (escapedLabel text) t after') after := by
  rw [wp_escape h.string hfuel, if_pos hfits]
  by_cases hnone : text.countP mustEscape = 0
  · have hself : escapedLabel text = text :=
      escapeAll_eq_self (countP_mustEscape_eq_zero.mp hnone)
    rw [if_pos hnone, hself]
    exact ⟨p, rfl, h⟩
  · rw [if_neg hnone]
    exact ⟨_, rfl, h.copied⟩

theorem Labelled.free_spec (h : Labelled before text p after) :
    wp (free p) (fun _ after' => ∀ b, after'.block b = before.block b) after := by
  rw [h.string.wp_free]
  intro b
  by_cases hb : b = p
  · subst hb
    rw [block_without_self, h.new]
  · rw [block_without (Ne.symm hb)]
    exact h.frame b hb

end Label

/-! ## One node at a time -/

theorem wp_onStrings {α : Type} {m : Prog Blocks α} {Q : α → GraphIo → Prop} {g : GraphIo} :
    wp (onStrings m) Q g ↔ wp m (fun a strings => Q a { g with strings }) g.strings :=
  wp_zoom _ _ _ _ _

theorem wp_onNodes {α : Type} {m : Prog Heap α} {Q : α → GraphIo → Prop} {g : GraphIo} :
    wp (onNodes m) Q g ↔ wp m (fun a nodes => Q a { g with nodes }) g.nodes :=
  wp_zoom _ _ _ _ _

def edgeText (node child : Nat) (label : Char) : List UInt8 :=
  if child ≠ 0 then edgeLine node child label else []

def nodeText (node : Nat) (n : BintreeNode) (text : List UInt8) : List UInt8 :=
  nodeHead node ++ escapedLabel text ++ nodeTail ++ edgeText node n.left 'l' ++
    edgeText node n.right 'r'

structure Printed (g : GraphIo) (text : List UInt8) (r : Option Unit) (g' : GraphIo) : Prop where
  returns : r = some ()
  nodes : g'.nodes = g.nodes
  strings : ∀ b, g'.strings.block b = g.strings.block b
  out : g'.out = g.out ++ text

section Node

variable {labeller : Nat → Prog Blocks Nat} {g g' g'' : GraphIo} {node : Nat} {n : BintreeNode}
  {text text' : List UInt8} {fuel : Nat} {r r' : Option Unit}

theorem Printed.trans (h : Printed g text r g') (h' : Printed g' text' r' g'') :
    Printed g (text ++ text') r' g'' where
  returns := h'.returns
  nodes := h'.nodes.trans h.nodes
  strings := fun b => (h'.strings b).trans (h.strings b)
  out := by rw [h'.out, h.out, List.append_assoc]

theorem Printed.refl (g : GraphIo) : Printed g [] (some ()) g :=
  ⟨rfl, rfl, fun _ => rfl, (List.append_nil _).symm⟩

theorem graphNode_spec (hne : node ≠ 0) (hn : g.nodes node = some n)
    (hlabel : wp (labeller node) (Labelled g.strings text) g.strings)
    (hfits : EscapeFits text) (hfuel : 2 ^ 31 ≤ fuel) :
    wp (graphNode labeller fuel node) (Printed g (nodeText node n text)) g := by
  have hlength := length_escapedLabel text
  have hlt := hfits.1
  rw [graphNode, if_neg hne, wp_bind, wp_onStrings]
  refine wp_mono hlabel ?_
  intro p after h
  rw [wp_bind, wp_onStrings]
  refine wp_mono (h.escape_spec hfits (by omega)) ?_
  rintro _ after' ⟨t, rfl, h'⟩
  dsimp only
  rw [wp_bind, wp_onStrings, h'.string.wp_loadString_start (by omega), wp_bind, printGraph,
    wp_modify, wp_bind, wp_onStrings]
  refine wp_mono h'.free_spec ?_
  intro _ strings hstrings
  simp only [wp_bind, wp_ite, wp_onNodes, wp_loadNode hne hn, printGraph, wp_modify, wp_pure]
  unfold nodeText edgeText
  by_cases hleft : n.left = 0 <;> by_cases hright : n.right = 0 <;>
    simp only [hleft, hright, ne_eq, not_true, not_false_eq_true, if_true, if_false,
      List.append_nil] <;>
    exact ⟨rfl, rfl, hstrings, by simp only [List.append_assoc]⟩

end Node

/-! ## A whole tree -/

def treeText (text : Nat → List UInt8) : BinaryTree Nat → List UInt8
  | nil => []
  | node a l r =>
      nodeText a { left := rootPtr 0 l, right := rootPtr 0 r } (text a) ++
        (treeText text l ++ treeText text r)

def textAt (nodes : Heap) (text : Nat → List UInt8) (node : Nat) : List UInt8 :=
  (nodes node).elim [] fun n => nodeText node n (text node)

theorem flatMap_textAt {nodes : Heap} {t : BinaryTree Nat} (h : nodes.Holds t 0)
    (text : Nat → List UInt8) : (preOrder t).flatMap (textAt nodes text) = treeText text t := by
  induction t with
  | nil => rfl
  | node a l r ihl ihr =>
      obtain ⟨ha, hl, hr⟩ := h
      rw [preOrder, List.flatMap_cons, List.flatMap_append, ihl hl, ihr hr, textAt, ha, treeText]
      rfl

/-- The labeller puts the label of a node on the heap and does nothing else. -/
def Labels (labeller : Nat → Prog Blocks Nat) (text : Nat → List UInt8) : Prop :=
  ∀ node strings, wp (labeller node) (Labelled strings (text node)) strings

section Tree

variable {labeller : Nat → Prog Blocks Nat} {text : Nat → List UInt8} {g : GraphIo} {fuel : Nat}

theorem graphNodes_spec (hlabels : Labels labeller text) (hfuel : 2 ^ 31 ≤ fuel)
    {visits : List BintreeVisit}
    (hvisits : ∀ node ∈ visitedNodes visits,
      (∃ n, g.nodes node = some n) ∧ EscapeFits (text node)) :
    wp (graphNodes labeller fuel visits)
      (Printed g ((visitedNodes visits).flatMap (textAt g.nodes text))) g := by
  induction visits generalizing g with
  | nil => exact .refl g
  | cons visit visits ih =>
      by_cases hnull : visit.tree = 0
      · have hskip : visitedNodes (visit :: visits) = visitedNodes visits := by
          simp [visitedNodes, hnull]
        rw [hskip] at hvisits ⊢
        rw [graphNodes, wp_bind, graphNode, if_pos hnull, wp_pure]
        exact ih hvisits
      · have hvisit : visitedNodes (visit :: visits) = visit.tree :: visitedNodes visits := by
          simp [visitedNodes, hnull]
        rw [hvisit] at hvisits ⊢
        obtain ⟨⟨n, hn⟩, hfits⟩ := hvisits _ List.mem_cons_self
        have htext : textAt g.nodes text visit.tree = nodeText visit.tree n (text visit.tree) := by
          rw [textAt, hn]
          rfl
        rw [graphNodes, wp_bind, List.flatMap_cons, htext]
        refine wp_mono (graphNode_spec hnull hn (hlabels _ _) hfits hfuel) ?_
        rintro r g' hprinted
        obtain rfl := hprinted.returns
        have hrest := ih (g := g') fun node hnode => by
          rw [hprinted.nodes]
          exact hvisits node (List.mem_cons_of_mem _ hnode)
        rw [hprinted.nodes] at hrest
        exact wp_mono hrest fun _ _ => hprinted.trans

theorem bintreeGraphviz_spec (hlabels : Labels labeller text) {t : BinaryTree Nat}
    (h : g.nodes.Holds t 0) (hp : Proper t) (hfits : ∀ node ∈ inOrder t, EscapeFits (text node)) :
    ∃ enough, ∀ fuel, enough ≤ fuel →
      wp (bintreeGraphviz labeller fuel (rootPtr 0 t))
        (Printed g (graphHead ++ treeText text t ++ graphTail)) g := by
  obtain ⟨visits, ⟨enough, htraverse⟩, hvisits⟩ := traversePreOrderDepth_returns h hp 0 0
  refine ⟨max enough (2 ^ 31), fun fuel hfuel => ?_⟩
  have hfuel' : 2 ^ 31 ≤ fuel := (Nat.le_max_right _ _).trans hfuel
  have hnodes : ∀ node ∈ visitedNodes visits,
      (∃ n, g.nodes node = some n) ∧ EscapeFits (text node) := by
    intro node hnode
    rw [hvisits, preOrder_perm.mem_iff] at hnode
    exact ⟨h.exists_node hnode, hfits node hnode⟩
  have hhead : Printed g graphHead (some ()) { g with out := g.out ++ graphHead } :=
    ⟨rfl, rfl, fun _ => rfl, rfl⟩
  rw [bintreeGraphviz, wp_bind, printGraph, wp_modify, wp_bind, wp_onNodes,
    bintreeTraversePreOrder, wp_iff_of_eq (htraverse fuel ((Nat.le_max_left _ _).trans hfuel)),
    wp_bind]
  refine wp_mono (graphNodes_spec hlabels hfuel' hnodes) ?_
  rintro r g' hprinted
  obtain rfl := hprinted.returns
  rw [hvisits, flatMap_textAt h] at hprinted
  have htail : Printed g' graphTail (some ()) { g' with out := g'.out ++ graphTail } :=
    ⟨rfl, rfl, fun _ => rfl, rfl⟩
  exact (hhead.trans hprinted).trans htail

end Tree

end Librfn
