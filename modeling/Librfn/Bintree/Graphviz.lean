import Librfn.Bintree
import Librfn.Logic.Blocks
import Librfn.Logic.Escaping
import Mathlib.Algebra.Group.Int.Defs
import Mathlib.Algebra.Group.Nat.Defs

/-!
# Trees as graphs

`bintree_graphviz` of `bintree.c`.  A label has to fit between double quotes,
so `escape` counts first, and then copies into a block of the size that was
counted.  Texts are lists of characters, as in `hex.c`.
-/

namespace Librfn

open Librfn.Logic

/-- Addition of `int` values, undefined where the sum is none. -/
def addInt (a b : Int) : Option Int :=
  if -2 ^ 31 ≤ a + b ∧ a + b < 2 ^ 31 then some (a + b) else none

def toSize (n : Int) : Nat := (n % 2 ^ 64).toNat

def mustEscape (c : UInt8) : Bool := c = 92 ∨ c = 34

/-- `xmalloc` does not return without a block. -/
def xmalloc (sz : Nat) : Prog Blocks Nat := malloc sz

/-- The loop that counts: where it stops, and `len`.  Nothing where the
behaviour is undefined. -/
def escapeCount (s : Nat) : Nat → Nat → Int → Prog Blocks (Option (Nat × Int))
  | 0, _, _ => throw .outOfFuel
  | fuel + 1, si, len => do
      let c ← loadByte s si
      if c = 0 then return some (si, len)
      match addInt len (if mustEscape c then 2 else 1) with
      | none => return none
      | some len => escapeCount s fuel (si + 1) len

def escapeCopy (s t : Nat) : Nat → Nat → Nat → Prog Blocks Nat
  | 0, _, _ => throw .outOfFuel
  | fuel + 1, si, ti => do
      let c ← loadByte s si
      if c = 0 then return ti
      let ti ← (if mustEscape c then do
          storeByte t ti 92
          return ti + 1
        else return ti)
      storeByte t ti (← loadByte s si)
      escapeCopy s t fuel (si + 1) (ti + 1)

/-- Nothing where the behaviour is undefined. -/
def escape (fuel s : Nat) : Prog Blocks (Option Nat) := do
  match ← escapeCount s fuel 0 0 with
  | none => return none
  | some (si, len) =>
      if len = si then return some s
      match addInt len 1 with
      | none => return none
      | some len =>
          let t ← xmalloc (toSize len)
          let ti ← escapeCopy s t fuel 0 0
          storeByte t ti 0
          free s
          return some t

/-! ## Printing -/

/-- The nodes, the strings and what has been written to `f`. -/
structure GraphIo where
  nodes : Heap
  strings : Blocks
  out : List UInt8

namespace GraphIo

def onNodes {α : Type} (m : Prog Heap α) : Prog GraphIo α :=
  Prog.zoom nodes (fun nodes g => { g with nodes }) m

def onStrings {α : Type} (m : Prog Blocks α) : Prog GraphIo α :=
  Prog.zoom strings (fun strings g => { g with strings }) m

end GraphIo

open GraphIo

def ascii (text : List Char) : List UInt8 := text.map fun c => .ofNat c.toNat

def formatPtr (ptr : Nat) : List UInt8 := ascii (Nat.toDigits 16 ptr)

def nodeHead (node : Nat) : List UInt8 :=
  ascii "    n".toList ++ formatPtr node ++ ascii " [ label=\"".toList

def nodeTail : List UInt8 := ascii "\" ];\n".toList

def edgeLine (node child : Nat) (label : Char) : List UInt8 :=
  ascii "    n".toList ++ formatPtr node ++ ascii " -- n".toList ++ formatPtr child ++
    ascii " [ label=\"".toList ++ ascii [label] ++ nodeTail

def graphHead : List UInt8 := ascii "graph \x7b\n    ordering=\"out\";\n".toList

def graphTail : List UInt8 := ascii "\x7d\n".toList

def printGraph (text : List UInt8) : Prog GraphIo Unit :=
  modify fun g => { g with out := g.out ++ text }

section Visitor

-- The labeller allocates what it returns.
variable (labeller : Nat → Prog Blocks Nat)

def graphNode (fuel node : Nat) : Prog GraphIo (Option Unit) := do
  if node = 0 then return some ()
  let label ← onStrings (labeller node)
  match ← onStrings (escape fuel label) with
  | none => return none
  | some label =>
      printGraph (nodeHead node ++ (← onStrings (loadString label fuel 0)) ++ nodeTail)
      onStrings (free label)
      if (← onNodes (loadNode node)).left ≠ 0 then
        printGraph (edgeLine node (← onNodes (loadNode node)).left 'l')
      if (← onNodes (loadNode node)).right ≠ 0 then
        printGraph (edgeLine node (← onNodes (loadNode node)).right 'r')
      return some ()

def graphNodes (fuel : Nat) : List BintreeVisit → Prog GraphIo (Option Unit)
  | [] => return some ()
  | visit :: visits => do
      match ← graphNode labeller fuel visit.tree with
      | none => return none
      | some () => graphNodes fuel visits

def bintreeGraphviz (fuel tree : Nat) : Prog GraphIo (Option Unit) := do
  printGraph graphHead
  match ← graphNodes labeller fuel (← onNodes (bintreeTraversePreOrder fuel tree)) with
  | none => return none
  | some () =>
      printGraph graphTail
      return some ()

end Visitor

end Librfn
