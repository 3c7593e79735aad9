import Librfn.Bintree.Graphs

/-!
# Reading the graph of a tree

A reader of what `bintree_graphviz` prints: the statements first, and from
them, whatever their order, the tree with its labels.
-/

namespace Librfn

open Librfn.Logic Prog Blocks GraphIo BinaryTree

inductive DotStmt where
  | node (name : Nat) (label : List UInt8)
  | edge (name child : Nat) (label : UInt8)
  deriving DecidableEq, Repr

/-! ## The reader -/

def expect (text s : List UInt8) : Option (List UInt8) :=
  if s.take text.length = text then some (s.drop text.length) else none

def hexDigit (c : UInt8) : Nat := if c < 58 then c.toNat - 48 else c.toNat - 87

def readName (s : List UInt8) : Nat × List UInt8 :=
  ((s.takeWhile (· ≠ 32)).foldl (fun n c => 16 * n + hexDigit c) 0, s.dropWhile (· ≠ 32))

def readAttribute (s : List UInt8) : Option (List UInt8 × List UInt8) := do
  let s ← expect (ascii " [ label=\"".toList) s
  let (label, s) ← readQuoted 92 34 s
  let s ← expect (ascii " ];\n".toList) s
  return (unescape 92 label, s)

def readStmt (s : List UInt8) : Option (DotStmt × List UInt8) := do
  let s ← expect (ascii "    n".toList) s
  let (name, s) := readName s
  match expect (ascii " -- n".toList) s with
  | none =>
      let (label, s) ← readAttribute s
      return (.node name label, s)
  | some s =>
      let (child, s) := readName s
      let (label, s) ← readAttribute s
      return (.edge name child (label.headD 0), s)

def readStmts : Nat → List UInt8 → Option (List DotStmt)
  | 0, _ => none
  | fuel + 1, s =>
      if s = graphTail then some []
      else do
        let (stmt, s) ← readStmt s
        return stmt :: (← readStmts fuel s)

def readGraph (s : List UInt8) : Option (List DotStmt) := do
  readStmts s.length (← expect graphHead s)

def labelOf (stmts : List DotStmt) (name : Nat) : Option (List UInt8) :=
  stmts.findSome? fun
    | .node name' label => if name' = name then some label else none
    | .edge _ _ _ => none

def childOf (stmts : List DotStmt) (side : UInt8) (name : Nat) : Option Nat :=
  stmts.findSome? fun
    | .node _ _ => none
    | .edge name' child label => if name' = name ∧ label = side then some child else none

def depicted (stmts : List DotStmt) : Nat → Option Nat → Option (BinaryTree (List UInt8))
  | _, none => some nil
  | 0, some _ => none
  | fuel + 1, some name => do
      let label ← labelOf stmts name
      let l ← depicted stmts fuel (childOf stmts 108 name)
      let r ← depicted stmts fuel (childOf stmts 114 name)
      return node label l r

def DotStmt.root? : List DotStmt → Option Nat
  | .node name _ :: _ => some name
  | _ => none

def readTree (s : List UInt8) : Option (BinaryTree (List UInt8)) := do
  let stmts ← readGraph s
  depicted stmts stmts.length (DotStmt.root? stmts)

/-! ## Names -/

theorem expect_append (text s : List UInt8) : expect text (text ++ s) = some s := by
  simp [expect]

theorem formatPtr_lt {n : Nat} (h : n < 16) : formatPtr n = ascii [n.digitChar] := by
  rw [formatPtr, Nat.toDigits_of_lt_base h]

theorem formatPtr_ge {n : Nat} (h : 16 ≤ n) :
    formatPtr n = formatPtr (n / 16) ++ formatPtr (n % 16) := by
  rw [formatPtr_lt (Nat.mod_lt n (by decide)), formatPtr, Nat.toDigits_of_base_le (by decide) h,
    ascii, List.map_append]
  rfl

theorem digit_ne_space : ∀ n < 16, ∀ c ∈ ascii [n.digitChar], c ≠ 32 := by
  decide +kernel

theorem hexDigit_digitChar : ∀ n < 16,
    (ascii [n.digitChar]).foldl (fun n c => 16 * n + hexDigit c) 0 = n := by decide

theorem formatPtr_ne_space (n : Nat) : ∀ c ∈ formatPtr n, c ≠ 32 := by
  induction n using Nat.strongRecOn with
  | ind n ih =>
      rcases Nat.lt_or_ge n 16 with hlt | hge
      · rw [formatPtr_lt hlt]
        exact digit_ne_space n hlt
      · rw [formatPtr_ge hge]
        intro c hc
        rcases List.mem_append.mp hc with hc | hc
        · exact ih (n / 16) (by omega) c hc
        · exact ih (n % 16) (by omega) c hc

theorem foldl_formatPtr (n : Nat) :
    (formatPtr n).foldl (fun n c => 16 * n + hexDigit c) 0 = n := by
  induction n using Nat.strongRecOn with
  | ind n ih =>
      rcases Nat.lt_or_ge n 16 with hlt | hge
      · rw [formatPtr_lt hlt]
        exact hexDigit_digitChar n hlt
      · rw [formatPtr_ge hge, List.foldl_append, ih (n / 16) (by omega)]
        have hmod := Nat.mod_lt n (show 0 < 16 by decide)
        have hlast := ih (n % 16) (by omega)
        rw [formatPtr_lt hmod] at hlast ⊢
        simp only [ascii, List.map_cons, List.map_nil, List.foldl_cons, List.foldl_nil] at hlast ⊢
        omega

theorem readName_formatPtr (n : Nat) (s : List UInt8) :
    readName (formatPtr n ++ 32 :: s) = (n, 32 :: s) := by
  have hname : ∀ c ∈ formatPtr n, decide (c ≠ 32) = true := fun c hc =>
    decide_eq_true (formatPtr_ne_space n c hc)
  rw [readName, List.takeWhile_append_of_pos hname, List.dropWhile_append_of_pos hname]
  simp [foldl_formatPtr]

/-! ## Statements -/

def DotStmt.print : DotStmt → List UInt8
  | .node name label => nodeHead name ++ escapedLabel label ++ nodeTail
  | .edge name child label => edgeLine name child (Char.ofNat label.toNat)

def DotStmt.Plain : DotStmt → Prop
  | .node _ _ => True
  | .edge _ _ label => label = 108 ∨ label = 114

theorem readAttribute_label (label more : List UInt8) :
    readAttribute (ascii " [ label=\"".toList ++ (escapedLabel label ++ (nodeTail ++ more))) =
      some (label, more) := by
  have hquoted : readQuoted 92 34 (escapedLabel label ++ (nodeTail ++ more)) =
      some (escapedLabel label, ascii " ];\n".toList ++ more) :=
    readQuoted_escapeAll rfl rfl (by decide) label _
  have hundone : unescape 92 (escapedLabel label) = label := unescape_escapeAll rfl label
  simp only [readAttribute, expect_append, hquoted, Option.bind_eq_bind, Option.bind_some, hundone]
  rfl

theorem readStmt_print {stmt : DotStmt} (h : stmt.Plain) (more : List UInt8) :
    readStmt (stmt.print ++ more) = some (stmt, more) := by
  cases stmt with
  | node name label =>
      have hname : readName (formatPtr name ++ (ascii " [ label=\"".toList ++
          (escapedLabel label ++ (nodeTail ++ more)))) = (name, ascii " [ label=\"".toList ++
          (escapedLabel label ++ (nodeTail ++ more))) := readName_formatPtr name _
      have hnode : expect (ascii " -- n".toList) (ascii " [ label=\"".toList ++
          (escapedLabel label ++ (nodeTail ++ more))) = none := rfl
      simp only [DotStmt.print, nodeHead, List.append_assoc, readStmt, expect_append,
        Option.bind_eq_bind, Option.bind_some, hname, hnode, readAttribute_label]
      rfl
  | edge name child label =>
      have hname : readName (formatPtr name ++ (ascii " -- n".toList ++ (formatPtr child ++
          (ascii " [ label=\"".toList ++ (escapedLabel [label] ++ (nodeTail ++ more)))))) =
          (name, ascii " -- n".toList ++ (formatPtr child ++
          (ascii " [ label=\"".toList ++ (escapedLabel [label] ++ (nodeTail ++ more))))) :=
        readName_formatPtr name _
      have hchild : readName (formatPtr child ++
          (ascii " [ label=\"".toList ++ (escapedLabel [label] ++ (nodeTail ++ more)))) =
          (child, ascii " [ label=\"".toList ++ (escapedLabel [label] ++ (nodeTail ++ more))) :=
        readName_formatPtr child _
      have hlabel : ascii [Char.ofNat label.toNat] = escapedLabel [label] := by
        rcases h with rfl | rfl <;> rfl
      simp only [DotStmt.print, edgeLine, hlabel, List.append_assoc, readStmt, expect_append,
        Option.bind_eq_bind, Option.bind_some, hname, hchild, readAttribute_label]
      rfl

theorem length_le_flatMap_print (stmts : List DotStmt) :
    stmts.length ≤ (stmts.flatMap DotStmt.print).length := by
  induction stmts with
  | nil => exact Nat.le_refl _
  | cons stmt stmts ih =>
      have hpos : 1 ≤ stmt.print.length := by
        cases stmt <;> simp [DotStmt.print, nodeHead, edgeLine, ascii]
      rw [List.flatMap_cons, List.length_append, List.length_cons]
      omega

theorem readStmts_print {stmts : List DotStmt} (h : ∀ stmt ∈ stmts, stmt.Plain) {fuel : Nat}
    (hfuel : stmts.length < fuel) :
    readStmts fuel (stmts.flatMap DotStmt.print ++ graphTail) = some stmts := by
  induction stmts generalizing fuel with
  | nil =>
      obtain ⟨fuel, rfl⟩ : ∃ k, fuel = k + 1 := ⟨fuel - 1, by omega⟩
      rfl
  | cons stmt stmts ih =>
      obtain ⟨fuel, rfl⟩ : ∃ k, fuel = k + 1 := ⟨fuel - 1, by omega⟩
      rw [List.forall_mem_cons] at h
      have hne : (stmt :: stmts).flatMap DotStmt.print ++ graphTail ≠ graphTail := by
        have hfirst : ((stmt :: stmts).flatMap DotStmt.print ++ graphTail).head? = some 32 := by
          cases stmt <;> rfl
        intro heq
        rw [heq] at hfirst
        exact absurd hfirst (by decide)
      rw [readStmts, if_neg hne, List.flatMap_cons, List.append_assoc]
      have hrest := @ih h.2 fuel (by simpa using hfuel)
      simp only [readStmt_print h.1, Option.bind_eq_bind, Option.bind_some, hrest]
      rfl

/-! ## The statements of a tree -/

def rootOf : BinaryTree Nat → Option Nat
  | nil => none
  | node a _ _ => some a

def childStmts (a : Nat) (side : UInt8) (t : BinaryTree Nat) : List DotStmt :=
  (rootOf t).toList.map fun child => .edge a child side

def nodeStmts (text : Nat → List UInt8) (a : Nat) (l r : BinaryTree Nat) : List DotStmt :=
  .node a (text a) :: (childStmts a 108 l ++ childStmts a 114 r)

def treeStmts (text : Nat → List UInt8) : BinaryTree Nat → List DotStmt
  | nil => []
  | node a l r => nodeStmts text a l r ++ (treeStmts text l ++ treeStmts text r)

section Tree

variable {text : Nat → List UInt8} {t : BinaryTree Nat} {stmts stmts' : List DotStmt} {a : Nat}

theorem treeStmts_plain : ∀ stmt ∈ treeStmts text t, stmt.Plain := by
  induction t with
  | nil => nofun
  | node a l r ihl ihr =>
      intro stmt h
      rcases List.mem_append.mp h with h | h
      · rcases List.mem_cons.mp h with rfl | h
        · trivial
        rcases List.mem_append.mp h with h | h
        · obtain ⟨child, -, rfl⟩ := List.mem_map.mp h
          exact .inl rfl
        · obtain ⟨child, -, rfl⟩ := List.mem_map.mp h
          exact .inr rfl
      · rcases List.mem_append.mp h with h | h
        · exact ihl stmt h
        · exact ihr stmt h

theorem flatMap_childStmts (h : Proper t) (a : Nat) :
    (childStmts a 108 t).flatMap DotStmt.print = edgeText a (rootPtr 0 t) 'l' ∧
      (childStmts a 114 t).flatMap DotStmt.print = edgeText a (rootPtr 0 t) 'r' := by
  cases t with
  | nil => exact ⟨rfl, rfl⟩
  | node b l r =>
      rw [edgeText, edgeText, rootPtr_node, if_pos h.ne, if_pos h.ne]
      exact ⟨List.append_nil _, List.append_nil _⟩

theorem flatMap_treeStmts (h : Proper t) :
    (treeStmts text t).flatMap DotStmt.print = treeText text t := by
  induction t with
  | nil => rfl
  | node a l r ihl ihr =>
      have hl := flatMap_childStmts h.left a
      have hr := flatMap_childStmts h.right a
      rw [treeStmts, List.flatMap_append, List.flatMap_append, ihl h.left, ihr h.right, treeText,
        nodeStmts, List.flatMap_cons, List.flatMap_append, hl.1, hr.2, nodeText]
      simp only [DotStmt.print, List.append_assoc]

def Avoids (stmts : List DotStmt) (a : Nat) : Prop :=
  labelOf stmts a = none ∧ ∀ side, childOf stmts side a = none

theorem labelOf_append : labelOf (stmts ++ stmts') a = (labelOf stmts a).or (labelOf stmts' a) :=
  List.findSome?_append

theorem childOf_append (side : UInt8) : childOf (stmts ++ stmts') side a =
    (childOf stmts side a).or (childOf stmts' side a) :=
  List.findSome?_append

theorem Avoids.append (h : Avoids stmts a) (h' : Avoids stmts' a) : Avoids (stmts ++ stmts') a := by
  refine ⟨?_, fun side => ?_⟩
  · rw [labelOf_append, h.1, h'.1]
    rfl
  · rw [childOf_append, h.2, h'.2]
    rfl

theorem childOf_childStmts (a : Nat) (side side' : UInt8) (t : BinaryTree Nat) :
    childOf (childStmts a side t) side' a = if side = side' then rootOf t else none := by
  cases t with
  | nil => simp [childStmts, rootOf, childOf]
  | node b l r => simp [childStmts, rootOf, childOf]

theorem childOf_nodeStmts (a : Nat) (side : UInt8) (l r : BinaryTree Nat) :
    childOf (nodeStmts text a l r) side a =
      (if 108 = side then rootOf l else none).or (if 114 = side then rootOf r else none) := by
  rw [← childOf_childStmts, ← childOf_childStmts a 114, ← childOf_append]
  rfl

theorem avoids_nodeStmts {b : Nat} (hne : b ≠ a) (l r : BinaryTree Nat) :
    Avoids (nodeStmts text b l r) a := by
  cases l <;> cases r <;> simp [Avoids, nodeStmts, childStmts, rootOf, labelOf, childOf, hne]

theorem avoids_treeStmts (h : a ∉ inOrder t) : Avoids (treeStmts text t) a := by
  induction t with
  | nil => exact ⟨rfl, fun _ => rfl⟩
  | node b l r ihl ihr =>
      simp only [mem_inOrder, not_or] at h
      exact (avoids_nodeStmts (Ne.symm h.2.1) l r).append ((ihl h.1).append (ihr h.2.2))

/-- Every node of the tree is found with its label and its children. -/
def Shows (text : Nat → List UInt8) (stmts : List DotStmt) : BinaryTree Nat → Prop
  | nil => True
  | node a l r =>
      labelOf stmts a = some (text a) ∧ childOf stmts 108 a = rootOf l ∧
        childOf stmts 114 a = rootOf r ∧ Shows text stmts l ∧ Shows text stmts r

theorem shows_treeStmts (h : Proper t) {before after : List DotStmt}
    (hbefore : ∀ a ∈ inOrder t, Avoids before a) (hafter : ∀ a ∈ inOrder t, Avoids after a) :
    Shows text (before ++ treeStmts text t ++ after) t := by
  induction t generalizing before after with
  | nil => trivial
  | node a l r ihl ihr =>
      obtain ⟨hlabel, hchild⟩ := hbefore a (mem_inOrder.mpr (.inr (.inl rfl)))
      have hbehind : Avoids (treeStmts text l ++ treeStmts text r ++ after) a :=
        ((avoids_treeStmts h.not_mem_left).append (avoids_treeStmts h.not_mem_right)).append
          (hafter a (mem_inOrder.mpr (.inr (.inl rfl))))
      have hwhole : before ++ treeStmts text (node a l r) ++ after =
          before ++ (nodeStmts text a l r ++ (treeStmts text l ++ treeStmts text r ++ after)) := by
        simp only [treeStmts, List.append_assoc]
      refine ⟨?_, ?_, ?_, ?_, ?_⟩
      · rw [hwhole, labelOf_append, hlabel, Option.none_or, labelOf_append, nodeStmts, labelOf]
        simp
      · rw [hwhole, childOf_append, hchild, Option.none_or, childOf_append, hbehind.2,
          childOf_nodeStmts]
        simp
      · rw [hwhole, childOf_append, hchild, Option.none_or, childOf_append, hbehind.2,
          childOf_nodeStmts]
        simp
      · have hl := @ihl h.left (before ++ nodeStmts text a l r)
          (treeStmts text r ++ after)
          (fun b hb => (hbefore b (mem_inOrder.mpr (.inl hb))).append
            (avoids_nodeStmts (ne_of_mem_of_not_mem hb h.not_mem_left).symm l r))
          (fun b hb => (avoids_treeStmts (h.disjoint hb)).append
            (hafter b (mem_inOrder.mpr (.inl hb))))
        simpa only [treeStmts, List.append_assoc] using hl
      · have hr := @ihr h.right (before ++ nodeStmts text a l r ++ treeStmts text l)
          after
          (fun b hb => ((hbefore b (mem_inOrder.mpr (.inr (.inr hb)))).append
            (avoids_nodeStmts (ne_of_mem_of_not_mem hb h.not_mem_right).symm l r)).append
              (avoids_treeStmts fun hl => h.disjoint hl hb))
          (fun b hb => hafter b (mem_inOrder.mpr (.inr (.inr hb))))
        simpa only [treeStmts, List.append_assoc] using hr

theorem depicted_of_shows (h : Shows text stmts t) {fuel : Nat} (hfuel : t.numNodes ≤ fuel) :
    depicted stmts fuel (rootOf t) = some (t.map text) := by
  induction t generalizing fuel with
  | nil => cases fuel <;> rfl
  | node a l r ihl ihr =>
      obtain ⟨hlabel, hleft, hright, hl, hr⟩ := h
      rw [numNodes] at hfuel
      obtain ⟨fuel, rfl⟩ : ∃ k, fuel = k + 1 := ⟨fuel - 1, by omega⟩
      rw [rootOf, depicted, hlabel, hleft, hright]
      simp only [Option.bind_eq_bind, Option.bind_some, @ihl hl fuel (by omega),
        @ihr hr fuel (by omega)]
      rfl

theorem numNodes_le_treeStmts : t.numNodes ≤ (treeStmts text t).length := by
  induction t with
  | nil => exact Nat.le_refl _
  | node a l r ihl ihr =>
      rw [numNodes, treeStmts, List.length_append, List.length_append, nodeStmts,
        List.length_cons]
      omega

theorem readGraph_printed (h : Proper t) :
    readGraph (graphHead ++ treeText text t ++ graphTail) = some (treeStmts text t) := by
  have hlen := length_le_flatMap_print (treeStmts text t)
  have hfuel : (treeStmts text t).length <
      (graphHead ++ treeText text t ++ graphTail).length := by
    rw [flatMap_treeStmts h] at hlen
    simp only [List.length_append, show graphTail.length = 2 from rfl]
    omega
  rw [readGraph, List.append_assoc, expect_append, ← flatMap_treeStmts h, ← List.append_assoc]
  exact readStmts_print treeStmts_plain (by rwa [flatMap_treeStmts h])

theorem readTree_printed (h : Proper t) :
    readTree (graphHead ++ treeText text t ++ graphTail) = some (t.map text) := by
  have hshows : Shows text (treeStmts text t) t := by
    simpa using @shows_treeStmts _ _ h [] [] (fun _ _ => ⟨rfl, fun _ => rfl⟩)
      (fun _ _ => ⟨rfl, fun _ => rfl⟩)
  have hroot : DotStmt.root? (treeStmts text t) = rootOf t := by
    cases t <;> rfl
  rw [readTree, readGraph_printed h]
  simp only [Option.bind_eq_bind, Option.bind_some, hroot]
  exact depicted_of_shows hshows numNodes_le_treeStmts

end Tree

/-- The tree, with its labels, is read back from what is printed, however the
nodes lie in memory and whatever the labels contain. -/
theorem graphviz_read_back {labeller : Nat → Prog Blocks Nat} {text : Nat → List UInt8}
    {g : GraphIo} (hlabels : Labels labeller text) {t : BinaryTree Nat} (h : g.nodes.Holds t 0)
    (hp : Proper t) (hfits : ∀ node ∈ inOrder t, EscapeFits (text node)) :
    ∃ enough, ∀ fuel, enough ≤ fuel →
      wp (bintreeGraphviz labeller fuel (rootPtr 0 t)) (fun r g' => r = some () ∧
        g'.nodes = g.nodes ∧ (∀ b, g'.strings.block b = g.strings.block b) ∧
        ∃ printed, g'.out = g.out ++ printed ∧ readTree printed = some (t.map text)) g := by
  obtain ⟨enough, hspec⟩ := bintreeGraphviz_spec hlabels h hp hfits
  refine ⟨enough, fun fuel hfuel => wp_mono (hspec fuel hfuel) fun r g' hprinted => ?_⟩
  exact ⟨hprinted.returns, hprinted.nodes, hprinted.strings, _, hprinted.out, readTree_printed hp⟩

def copyLabel (text : Nat → List UInt8) (node : Nat) : Prog Blocks Nat :=
  modifyGet fun h => (h.blocks.length, h.filled ((text node).length + 1) (text node ++ [0]))

theorem copyLabel_labels {text : Nat → List UInt8} (hnul : ∀ node, 0 ∉ text node) :
    Labels (copyLabel text) text := by
  intro node strings
  refine ⟨.of_block (hnul node) ?_, block_of_ge (Nat.le_refl _), fun b hb => block_filled hb _ _⟩
  rw [block_new]
  simp

/-- Every label is a double quote and a backslash. -/
theorem graphviz_read_back_small : ∃ fuel,
    wp (bintreeGraphviz (copyLabel fun _ => [34, 92]) fuel 2) (fun r g' => r = some () ∧
      ∃ printed, g'.out = printed ∧ readTree printed = some (smallTree.map fun _ => [34, 92]))
      { nodes := smallHeap, strings := labelHeap [], out := [] } := by
  obtain ⟨enough, h⟩ := @graphviz_read_back (copyLabel fun _ => [34, 92]) (fun _ => [34, 92])
    { nodes := smallHeap, strings := labelHeap [], out := [] }
    (copyLabel_labels fun _ => by decide) smallTree smallHeap_holds smallTree_proper
    (fun _ _ => by decide)
  exact ⟨enough, wp_mono (h enough (Nat.le_refl _)) fun r g' h' => ⟨h'.1, h'.2.2.2⟩⟩

end Librfn
