import Librfn.Logic.Program

/-!
# Binary trees

`bintree.c`: traversal by recursion, and the iterators that need no stack
because they rewire the tree while they walk it.  Pointers are addresses,
`NULL` is 0; a node that is not there cannot be accessed.
-/

namespace Librfn

open Librfn.Logic

structure BintreeNode where
  left : Nat
  right : Nat
  deriving DecidableEq, Repr

abbrev Heap := Nat → Option BintreeNode

/-- The functions that `iter->next` points to. -/
inductive IteratorNext where
  | inOrder
  | listLeft
  | listRight
  | postOrder
  | preOrder
  deriving DecidableEq, Repr

structure BintreeIterator where
  next : IteratorNext
  filter : Nat → Bool
  curr : Nat
  parent : Nat

def loadNode (ptr : Nat) : Prog Heap BintreeNode := do
  if ptr = 0 then throw .nullPointer
  match (← get) ptr with
  | none => throw .badPointer
  | some node => return node

def storeNode (ptr : Nat) (node : BintreeNode) : Prog Heap Unit :=
  modify fun heap => Function.update heap ptr (some node)

def storeLeft (ptr left : Nat) : Prog Heap Unit := do
  storeNode ptr { ← loadNode ptr with left }

def storeRight (ptr right : Nat) : Prog Heap Unit := do
  storeNode ptr { ← loadNode ptr with right }

def misalign (ptr : Nat) : Nat := ptr ||| 1

def align (ptr : Nat) : Nat := ptr / 2 * 2

/-! ## Traversal -/

/-- The arguments of a call of the visitor. -/
structure BintreeVisit where
  tree : Nat
  parent : Nat
  depth : Nat
  deriving DecidableEq, Repr

def bintreeTraverseInOrderDepth :
    Nat → Nat → Nat → Nat → Prog Heap (List BintreeVisit)
  | 0, _, _, _ => throw .outOfFuel
  | fuel + 1, tree, parent, depth => do
      if tree ≠ 0 then
        let left ← bintreeTraverseInOrderDepth fuel (← loadNode tree).left tree
          (depth + 1)
        let right ← bintreeTraverseInOrderDepth fuel (← loadNode tree).right
          tree (depth + 1)
        return left ++ { tree, parent, depth } :: right
      else
        return [{ tree, parent, depth }]

def bintreeTraverseInOrder (fuel : Nat) (tree : Nat) :
    Prog Heap (List BintreeVisit) :=
  bintreeTraverseInOrderDepth fuel tree 0 0

/-- The nodes that are handed to the visitor. -/
def bintreeTraverseList (isList : Nat → Bool) :
    Nat → Nat → Prog Heap (List Nat)
  | 0, _ => throw .outOfFuel
  | fuel + 1, tree => do
      if tree = 0 then return []
      if isList tree then
        let left ← bintreeTraverseList isList fuel (← loadNode tree).left
        let right ← bintreeTraverseList isList fuel (← loadNode tree).right
        return left ++ right
      else
        return [tree]

def bintreeTraversePostOrderDepth :
    Nat → Nat → Nat → Nat → Prog Heap (List BintreeVisit)
  | 0, _, _, _ => throw .outOfFuel
  | fuel + 1, tree, parent, depth => do
      if tree ≠ 0 then
        let left ← bintreeTraversePostOrderDepth fuel (← loadNode tree).left tree
          (depth + 1)
        let right ← bintreeTraversePostOrderDepth fuel (← loadNode tree).right
          tree (depth + 1)
        return left ++ right ++ [{ tree, parent, depth }]
      else
        return [{ tree, parent, depth }]

def bintreeTraversePostOrder (fuel : Nat) (tree : Nat) :
    Prog Heap (List BintreeVisit) :=
  bintreeTraversePostOrderDepth fuel tree 0 0

def bintreeTraversePreOrderDepth :
    Nat → Nat → Nat → Nat → Prog Heap (List BintreeVisit)
  | 0, _, _, _ => throw .outOfFuel
  | fuel + 1, tree, parent, depth => do
      if tree ≠ 0 then
        let left ← bintreeTraversePreOrderDepth fuel (← loadNode tree).left tree
          (depth + 1)
        let right ← bintreeTraversePreOrderDepth fuel (← loadNode tree).right
          tree (depth + 1)
        return { tree, parent, depth } :: (left ++ right)
      else
        return [{ tree, parent, depth }]

def bintreeTraversePreOrder (fuel : Nat) (tree : Nat) :
    Prog Heap (List BintreeVisit) :=
  bintreeTraversePreOrderDepth fuel tree 0 0

/-! ## In-order and pre-order iteration -/

/-- The search for the in-order predecessor of `curr`. -/
def findPrev (curr : Nat) : Nat → Nat → Prog Heap Nat
  | 0, _ => throw .outOfFuel
  | fuel + 1, prev => do
      let right := (← loadNode prev).right
      if right ≠ 0 ∧ right ≠ curr then findPrev curr fuel right
      else return prev

/-- The loop of `in_order_iterator`: what it returns and the new
`iter->curr`. -/
def inOrderLoop : Nat → Nat → Prog Heap (Nat × Nat)
  | 0, _ => throw .outOfFuel
  | fuel + 1, curr => do
      if curr = 0 then return (0, 0)
      if (← loadNode curr).left = 0 then
        return (curr, (← loadNode curr).right)
      let prev ← findPrev curr fuel (← loadNode curr).left
      if (← loadNode prev).right = 0 then
        storeRight prev curr
        inOrderLoop fuel (← loadNode curr).left
      else
        storeRight prev 0
        return (curr, (← loadNode curr).right)

def preOrderLoop : Nat → Nat → Prog Heap (Nat × Nat)
  | 0, _ => throw .outOfFuel
  | fuel + 1, curr => do
      if curr = 0 then return (0, 0)
      if (← loadNode curr).left = 0 then
        return (curr, (← loadNode curr).right)
      let prev ← findPrev curr fuel (← loadNode curr).left
      if (← loadNode prev).right = curr then
        storeRight prev 0
        preOrderLoop fuel (← loadNode curr).right
      else
        storeRight prev curr
        return (curr, (← loadNode curr).left)

def inOrderIterator (fuel : Nat) (iter : BintreeIterator) :
    Prog Heap (Nat × BintreeIterator) := do
  let (node, curr) ← inOrderLoop fuel iter.curr
  return (node, { iter with curr })

def preOrderIterator (fuel : Nat) (iter : BintreeIterator) :
    Prog Heap (Nat × BintreeIterator) := do
  let (node, curr) ← preOrderLoop fuel iter.curr
  return (node, { iter with curr })

/-! ## List iteration -/

/-- The walk from the top down to the parent of `curr`. -/
def findParent (curr : Nat) : Nat → Nat → Prog Heap Nat
  | 0, _ => throw .outOfFuel
  | fuel + 1, parent => do
      if (← loadNode parent).left ≠ curr then
        findParent curr fuel (← loadNode parent).left
      else return parent

def listLeftIterator (fuel : Nat) (iter : BintreeIterator) :
    Prog Heap (Nat × BintreeIterator) := do
  let curr := iter.curr
  -- already at end
  if curr = 0 then return (0, iter)
  -- one from end
  if curr = iter.parent then
    return ((← loadNode curr).right, { iter with curr := 0 })
  let parent ← findParent curr fuel iter.parent
  return ((← loadNode curr).right, { iter with curr := parent })

def listRightIterator (iter : BintreeIterator) :
    Prog Heap (Nat × BintreeIterator) := do
  if iter.curr = 0 ∨ ¬iter.filter iter.curr then
    return (iter.curr, { iter with curr := 0 })
  else
    let node ← loadNode iter.curr
    return (node.left, { iter with curr := node.right })

/-! ## Post-order iteration -/

def isVisited (node : Nat) : Prog Heap Bool := do
  return (← loadNode node).left &&& 1 = 0

def postOrderLoop (iter : BintreeIterator) :
    Nat → Nat → Nat → Prog Heap (Nat × BintreeIterator)
  | 0, _, _ => throw .outOfFuel
  | fuel + 1, tmp, prev => do
      if tmp = 0 then return (0, iter)
      if ← isVisited tmp then return (0, iter)
      -- go left if we have not visited that subtree
      let left := align (← loadNode tmp).left
      if ← (if left = 0 then pure false else return !(← isVisited left)) then
        return ← postOrderLoop iter fuel left tmp
      -- go right if we have not visited that subtree
      let right := (← loadNode tmp).right
      if ← (if right = 0 then pure false else return !(← isVisited right)) then
        return ← postOrderLoop iter fuel right tmp
      storeLeft tmp (align (← loadNode tmp).left)
      return (tmp,
        { iter with
          curr := if tmp = iter.curr then 0 else iter.curr
          parent := prev })

def postOrderIterator (fuel : Nat) (iter : BintreeIterator) :
    Prog Heap (Nat × BintreeIterator) :=
  postOrderLoop iter fuel iter.curr 0

/-! ## All iterators -/

def bintreeNext (fuel : Nat) (iter : BintreeIterator) :
    Prog Heap (Nat × BintreeIterator) :=
  match iter.next with
  | .inOrder => inOrderIterator fuel iter
  | .listLeft => listLeftIterator fuel iter
  | .listRight => listRightIterator iter
  | .postOrder => postOrderIterator fuel iter
  | .preOrder => preOrderIterator fuel iter

def bintreeIterateInOrder (fuel : Nat) (iter : BintreeIterator) (tree : Nat) :
    Prog Heap (Nat × BintreeIterator) :=
  inOrderIterator fuel { iter with next := .inOrder, curr := tree }

def bintreeIteratePreOrder (fuel : Nat) (iter : BintreeIterator) (tree : Nat) :
    Prog Heap (Nat × BintreeIterator) :=
  preOrderIterator fuel { iter with next := .preOrder, curr := tree }

/-- The `do` loop of `bintree_iterate_list`. -/
def listLeftEnd (isList : Nat → Bool) : Nat → Nat → Prog Heap Nat
  | 0, _ => throw .outOfFuel
  | fuel + 1, tree => do
      let tree := (← loadNode tree).left
      if isList (← loadNode tree).left then listLeftEnd isList fuel tree
      else return tree

def bintreeIterateList (fuel : Nat) (iter : BintreeIterator) (tree : Nat)
    (isList : Nat → Bool) : Prog Heap (Nat × BintreeIterator) := do
  let iter := { iter with filter := isList }
  if ← (if isList tree then do
      let left := (← loadNode tree).left
      return decide (left ≠ 0) && isList left
    else return false) then
    let curr ← listLeftEnd isList fuel tree
    return ((← loadNode curr).left,
      { iter with next := .listLeft, parent := tree, curr })
  else
    listRightIterator { iter with next := .listRight, curr := tree }

def misalignLoop : Nat → Nat → BintreeIterator → Prog Heap BintreeIterator
  | 0, _, _ => throw .outOfFuel
  | fuel + 1, curr, iter => do
      if curr = 0 then return iter
      storeLeft curr (misalign (← loadNode curr).left)
      let (curr, iter) ← bintreeNext fuel iter
      misalignLoop fuel curr iter

def bintreeIteratePostOrder (fuel : Nat) (iter : BintreeIterator) (tree : Nat) :
    Prog Heap (Nat × BintreeIterator) := do
  let (curr, iter) ← bintreeIterateInOrder fuel iter tree
  let iter ← misalignLoop fuel curr iter
  postOrderIterator fuel { iter with next := .postOrder, curr := tree }

def bintreeIterateComplete : Nat → BintreeIterator → Prog Heap Unit
  | 0, _ => throw .outOfFuel
  | fuel + 1, iter => do
      let (node, iter) ← bintreeNext fuel iter
      if node ≠ 0 then bintreeIterateComplete fuel iter

/-! ## Freeing -/

def dealloc (node : Nat) : Prog Heap Unit := do
  let _ ← loadNode node
  modify fun heap => Function.update heap node none

/-- The `for` loop of `bintree_free`, with the calls of `dealloc`. -/
def freeLoop : Nat → Nat → BintreeIterator → Prog Heap (List Nat)
  | 0, _, _ => throw .outOfFuel
  | fuel + 1, node, iter => do
      if node = 0 then return []
      dealloc node
      if iter.parent ≠ 0 then
        if (← loadNode iter.parent).right = node then
          storeRight iter.parent 0
        else
          storeLeft iter.parent 1
      let (next, iter) ← bintreeNext fuel iter
      return node :: (← freeLoop fuel next iter)

/-- `iter` is what the local iterator holds before it is set up. -/
def bintreeFree (fuel : Nat) (iter : BintreeIterator) (tree : Nat) :
    Prog Heap (List Nat) := do
  let (node, iter) ← bintreeIteratePostOrder fuel iter tree
  freeLoop fuel node iter

def bintreeFreeLeft (fuel : Nat) (iter : BintreeIterator) (tree : Nat) :
    Prog Heap (List Nat) := do
  if (← loadNode tree).left ≠ 0 then
    let freed ← bintreeFree fuel iter (← loadNode tree).left
    storeLeft tree 0
    return freed
  else return []

def bintreeFreeRight (fuel : Nat) (iter : BintreeIterator) (tree : Nat) :
    Prog Heap (List Nat) := do
  if (← loadNode tree).right ≠ 0 then
    let freed ← bintreeFree fuel iter (← loadNode tree).right
    storeRight tree 0
    return freed
  else return []

end Librfn
