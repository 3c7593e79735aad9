import Librfn.Logic.Program
import Mathlib.Logic.Function.Basic

/-!
# The intrusive singly linked list

`list.c` over a memory of list heads and nodes.  The only field of
`list_node_t` is `next`, at offset 0, so a `list_node_t *` and the address of
its `next` field are one value, and the address of `list->head` read as a
`list_node_t *` is a fabricated node whose `next` is the head of the list.
-/

namespace Librfn

open Librfn.Logic

/-- The address of a `list_node_t *` variable: `&list->head` or
`&node->next`. -/
inductive Loc (L N : Type) where
  | head (list : L)
  | next (node : N)
  deriving DecidableEq, Repr

/-- A `list_node_t *`; `NULL` is `none`. -/
abbrev NodePtr (L N : Type) := Option (Loc L N)

structure ListMem (L N : Type) where
  link : Loc L N → NodePtr L N
  tail : L → NodePtr L N

structure ListIterator (L N : Type) where
  prevnext : Loc L N
  list : L
  deriving DecidableEq, Repr

variable {L N : Type} [DecidableEq L] [DecidableEq N]

/-- Every list and node as `LIST_VAR_INIT` and `LIST_NODE_VAR_INIT` leave it. -/
def ListMem.init (L N : Type) : ListMem L N :=
  { link := fun _ => none, tail := fun _ => none }

def ListMem.write (mem : ListMem L N) (loc : Loc L N) (ptr : NodePtr L N) :
    ListMem L N :=
  { mem with link := Function.update mem.link loc ptr }

def ListMem.setTail (mem : ListMem L N) (list : L) (ptr : NodePtr L N) :
    ListMem L N :=
  { mem with tail := Function.update mem.tail list ptr }

def load (loc : Loc L N) : Prog (ListMem L N) (NodePtr L N) := do
  return (← get).link loc

def loadTail (list : L) : Prog (ListMem L N) (NodePtr L N) := do
  return (← get).tail list

def store (loc : Loc L N) (ptr : NodePtr L N) : Prog (ListMem L N) Unit :=
  modify fun mem => mem.write loc ptr

def storeTail (list : L) (ptr : NodePtr L N) : Prog (ListMem L N) Unit :=
  modify fun mem => mem.setTail list ptr

def nextLoc (ptr : NodePtr L N) : Prog (ListMem L N) (Loc L N) :=
  match ptr with
  | none => throw .nullPointer
  | some loc => pure loc

/-- The node a compare function is handed: it reads the structure around the
node, which `NULL` and a fabricated node do not have. -/
def realNode (ptr : NodePtr L N) : Prog (ListMem L N) N :=
  match ptr with
  | none => throw .nullPointer
  | some (.head _) => throw .badPointer
  | some (.next node) => pure node

def listEmpty (list : L) : Prog (ListMem L N) Bool := do
  return (← load (.head list)) = none

def listPeek (list : L) : Prog (ListMem L N) (NodePtr L N) :=
  load (.head list)

def listInsert (list : L) (node : N) : Prog (ListMem L N) Unit := do
  Prog.assert ((← load (.next node)) = none)
  if (← load (.head list)) ≠ none then
    store (← nextLoc (← loadTail list)) (some (.next node))
  else
    store (.head list) (some (.next node))
  storeTail list (some (.next node))

def listPush (list : L) (node : N) : Prog (ListMem L N) Unit := do
  Prog.assert ((← load (.next node)) = none)
  if (← load (.head list)) ≠ none then
    store (.next node) (← load (.head list))
  else
    storeTail list (some (.next node))
  store (.head list) (some (.next node))

def listExtract (list : L) : Prog (ListMem L N) (NodePtr L N) := do
  match ← load (.head list) with
  | none => return none
  | some node =>
      store (.head list) (← load node)
      store node none
      return some node

def listIterate (list : L) :
    Prog (ListMem L N) (NodePtr L N × ListIterator L N) := do
  return (← load (.head list), { prevnext := .head list, list })

def listIteratorNext (iter : ListIterator L N) :
    Prog (ListMem L N) (NodePtr L N × ListIterator L N) := do
  match ← load iter.prevnext with
  | some curr => return (← load curr, { iter with prevnext := curr })
  | none => return (none, iter)

def listIteratorInsert (iter : ListIterator L N) (node : N) :
    Prog (ListMem L N) Unit := do
  let curr ← load iter.prevnext
  store iter.prevnext (some (.next node))
  store (.next node) curr
  if curr = none then
    storeTail iter.list (some (.next node))

def listIteratorRemove (iter : ListIterator L N) :
    Prog (ListMem L N) (NodePtr L N) := do
  let ptr ← load iter.prevnext
  Prog.assert (ptr ≠ none)
  let curr ← nextLoc ptr
  -- `containerof(iter->prevnext, list_node_t, next)`
  let prev := iter.prevnext
  if (← loadTail iter.list) = some curr then
    storeTail iter.list (some prev)
  store iter.prevnext (← load curr)
  store curr none
  load iter.prevnext

def listInsertSortedLoop (node : N) (nodecmp : N → N → Int) :
    Nat → NodePtr L N → ListIterator L N →
      Prog (ListMem L N) (ListIterator L N)
  | 0, _, _ => throw .outOfFuel
  | fuel + 1, curr, iter => do
      if nodecmp node (← realNode curr) ≥ 0 then
        Prog.assert (curr ≠ none)
        let (curr, iter) ← listIteratorNext iter
        listInsertSortedLoop node nodecmp fuel curr iter
      else
        return iter

def listInsertSorted (fuel : Nat) (list : L) (node : N)
    (nodecmp : N → N → Int) : Prog (ListMem L N) Unit := do
  Prog.assert ((← load (.next node)) = none)
  if (← load (.head list)) = none then
    store (.head list) (some (.next node))
    storeTail list (some (.next node))
  else if nodecmp node (← realNode (← loadTail list)) ≥ 0 then
    store (← nextLoc (← loadTail list)) (some (.next node))
    storeTail list (some (.next node))
  else
    let (curr, iter) ← listIterate list
    let iter ← listInsertSortedLoop node nodecmp fuel curr iter
    listIteratorInsert iter node

def listContainsLoop (node : N) :
    Nat → NodePtr L N → ListIterator L N →
      Prog (ListMem L N) (Bool × ListIterator L N)
  | 0, _, _ => throw .outOfFuel
  | fuel + 1, curr, iter => do
      if curr = none then
        return (false, iter)
      else if curr = some (.next node) then
        return (true, iter)
      else
        let (curr, iter) ← listIteratorNext iter
        listContainsLoop node fuel curr iter

/-- The result and the iterator as the search leaves it; a caller that passes
`NULL` for the iterator ignores the latter. -/
def listContains (fuel : Nat) (list : L) (node : N) :
    Prog (ListMem L N) (Bool × ListIterator L N) := do
  let (curr, iter) ← listIterate list
  listContainsLoop node fuel curr iter

def listRemove (fuel : Nat) (list : L) (node : N) :
    Prog (ListMem L N) Bool := do
  let (found, iter) ← listContains fuel list node
  if found then
    let _ ← listIteratorRemove iter
    return true
  else
    return false

end Librfn
