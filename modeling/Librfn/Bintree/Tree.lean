import Librfn.Bintree
import Mathlib.Data.List.Nodup
import Mathlib.Data.Tree.Basic

/-!
# Trees in memory

A tree of addresses and what the memory must hold for it.  The pointer behind
the last node of a tree is a parameter: it is `NULL`, or the address to which
an iterator has threaded it.
-/

namespace Librfn

open Librfn.Logic BinaryTree

def inOrder : BinaryTree Nat → List Nat
  | nil => []
  | node a l r => inOrder l ++ a :: inOrder r

def preOrder : BinaryTree Nat → List Nat
  | nil => []
  | node a l r => a :: (preOrder l ++ preOrder r)

def rootPtr (ptr : Nat) : BinaryTree Nat → Nat
  | nil => ptr
  | node a _ _ => a

def lastPtr (ptr : Nat) : BinaryTree Nat → Nat
  | nil => ptr
  | node a _ r => lastPtr a r

/-- The tree is in memory, and `ptr` is the right pointer of its last node. -/
def Heap.Holds (heap : Heap) : BinaryTree Nat → Nat → Prop
  | nil, _ => True
  | node a l r, ptr =>
      heap a = some { left := rootPtr 0 l, right := rootPtr ptr r } ∧
        heap.Holds l 0 ∧ heap.Holds r ptr

/-- The nodes are distinct and none is `NULL`. -/
structure Proper (t : BinaryTree Nat) : Prop where
  nodup : (inOrder t).Nodup
  ne_zero : 0 ∉ inOrder t

def Aligned (t : BinaryTree Nat) : Prop := ∀ a ∈ inOrder t, a % 2 = 0

section Tree

variable {a ptr : Nat} {l r t : BinaryTree Nat}

@[simp] theorem rootPtr_node : rootPtr ptr (node a l r) = a := rfl

@[simp] theorem lastPtr_node : lastPtr ptr (node a l r) = lastPtr a r := rfl

theorem mem_inOrder {b : Nat} :
    b ∈ inOrder (node a l r) ↔ b ∈ inOrder l ∨ b = a ∨ b ∈ inOrder r := by
  simp [inOrder]

namespace Proper

theorem ne (h : Proper (node a l r)) : a ≠ 0 := by
  rintro rfl
  exact h.ne_zero (mem_inOrder.mpr (.inr (.inl rfl)))

theorem left (h : Proper (node a l r)) : Proper l where
  nodup := (List.nodup_append.mp h.nodup).1
  ne_zero := fun hl => h.ne_zero (mem_inOrder.mpr (.inl hl))

theorem right (h : Proper (node a l r)) : Proper r where
  nodup := (List.nodup_cons.mp (List.nodup_append.mp h.nodup).2.1).2
  ne_zero := fun hr => h.ne_zero (mem_inOrder.mpr (.inr (.inr hr)))

theorem not_mem_left (h : Proper (node a l r)) : a ∉ inOrder l := fun ha =>
  (List.nodup_append.mp h.nodup).2.2 a ha a List.mem_cons_self rfl

theorem not_mem_right (h : Proper (node a l r)) : a ∉ inOrder r :=
  (List.nodup_cons.mp (List.nodup_append.mp h.nodup).2.1).1

theorem disjoint (h : Proper (node a l r)) {b : Nat} (hl : b ∈ inOrder l) :
    b ∉ inOrder r := fun hr =>
  (List.nodup_append.mp h.nodup).2.2 b hl b (List.mem_cons_of_mem a hr) rfl

end Proper

namespace Aligned

theorem root (h : Aligned t) : rootPtr 0 t % 2 = 0 := by
  cases t with
  | nil => rfl
  | node a l r => exact h a (mem_inOrder.mpr (.inr (.inl rfl)))

theorem left (h : Aligned (node a l r)) : Aligned l := fun b hb =>
  h b (mem_inOrder.mpr (.inl hb))

theorem right (h : Aligned (node a l r)) : Aligned r := fun b hb =>
  h b (mem_inOrder.mpr (.inr (.inr hb)))

end Aligned

theorem rootPtr_ne_zero (h : Proper (node a l r)) :
    rootPtr ptr (node a l r) ≠ 0 := h.ne

theorem rootPtr_mem (ht : t ≠ nil) : rootPtr ptr t ∈ inOrder t := by
  cases t with
  | nil => exact absurd rfl ht
  | node a l r => exact mem_inOrder.mpr (.inr (.inl rfl))

theorem rootPtr_eq (ht : t ≠ nil) (ptr ptr' : Nat) :
    rootPtr ptr t = rootPtr ptr' t := by
  cases t with
  | nil => exact absurd rfl ht
  | node a l r => rfl

theorem rootPtr_eq_zero (h : Proper t) : rootPtr 0 t = 0 ↔ t = nil := by
  cases t with
  | nil => exact ⟨fun _ => rfl, fun _ => rfl⟩
  | node a l r => exact ⟨fun heq => absurd heq h.ne, nofun⟩

theorem lastPtr_eq (ht : t ≠ nil) (ptr ptr' : Nat) :
    lastPtr ptr t = lastPtr ptr' t := by
  cases t with
  | nil => exact absurd rfl ht
  | node a l r => rfl

theorem lastPtr_mem (ht : t ≠ nil) : lastPtr ptr t ∈ inOrder t := by
  induction t generalizing ptr with
  | nil => exact absurd rfl ht
  | node a l r _ ihr =>
      by_cases hr : r = nil
      · subst hr
        exact mem_inOrder.mpr (.inr (.inl rfl))
      · exact mem_inOrder.mpr (.inr (.inr (ihr hr)))

end Tree

/-! ## Changing a memory -/

def Heap.modify (heap : Heap) (f : Nat → BintreeNode → BintreeNode) : Heap :=
  fun ptr => (heap ptr).map (f ptr)

def setRight (prev ptr : Nat) (a : Nat) (node : BintreeNode) : BintreeNode :=
  if a = prev then { node with right := ptr } else node

def mapLeft (mark : Nat → Nat) (as : List Nat) (a : Nat) (node : BintreeNode) :
    BintreeNode :=
  if a ∈ as then { node with left := mark node.left } else node

section Heap

variable {heap heap' : Heap} {t : BinaryTree Nat} {ptr : Nat}

theorem Heap.modify_modify (heap : Heap)
    (f g : Nat → BintreeNode → BintreeNode) :
    (heap.modify f).modify g = heap.modify fun a n => g a (f a n) := by
  funext a
  simp [Heap.modify, Function.comp_def]

theorem Heap.modify_congr {f g : Nat → BintreeNode → BintreeNode}
    (h : ∀ a n, heap a = some n → f a n = g a n) :
    heap.modify f = heap.modify g := by
  funext a
  unfold Heap.modify
  cases hn : heap a with
  | none => rfl
  | some n => exact congrArg some (h a n hn)

theorem Heap.modify_id {f : Nat → BintreeNode → BintreeNode}
    (h : ∀ a n, heap a = some n → f a n = n) : heap.modify f = heap := by
  rw [Heap.modify_congr (g := fun _ n => n) h]
  funext a
  simp [Heap.modify]

theorem Heap.modify_eq {f : Nat → BintreeNode → BintreeNode} {a : Nat}
    (h : ∀ n, f a n = n) : heap.modify f a = heap a := by
  unfold Heap.modify
  cases heap a with
  | none => rfl
  | some n => exact congrArg some (h n)

theorem Heap.modify_some {f : Nat → BintreeNode → BintreeNode} {a : Nat}
    {n : BintreeNode} (h : heap a = some n) : heap.modify f a = some (f a n) := by
  simp [Heap.modify, h]

theorem setRight_of_ne {prev ptr a : Nat} (h : a ≠ prev) (n : BintreeNode) :
    setRight prev ptr a n = n := if_neg h

theorem mapLeft_of_not_mem {mark : Nat → Nat} {as : List Nat} {a : Nat}
    (h : a ∉ as) (n : BintreeNode) : mapLeft mark as a n = n := if_neg h

theorem mapLeft_of_mem {mark : Nat → Nat} {as : List Nat} {a : Nat}
    (h : a ∈ as) (n : BintreeNode) :
    mapLeft mark as a n = { n with left := mark n.left } := if_pos h

@[simp] theorem mapLeft_right (mark : Nat → Nat) (as : List Nat) (a : Nat)
    (n : BintreeNode) : (mapLeft mark as a n).right = n.right := by
  unfold mapLeft
  split <;> rfl

@[simp] theorem modify_mapLeft_nil (mark : Nat → Nat) :
    heap.modify (mapLeft mark []) = heap :=
  Heap.modify_id fun _ n _ => mapLeft_of_not_mem List.not_mem_nil n

theorem modify_mapLeft_append (mark : Nat → Nat) {as bs : List Nat}
    (h : ∀ a ∈ as, a ∉ bs) :
    (heap.modify (mapLeft mark as)).modify (mapLeft mark bs) =
      heap.modify (mapLeft mark (as ++ bs)) := by
  rw [Heap.modify_modify]
  refine Heap.modify_congr fun a n _ => ?_
  by_cases ha : a ∈ as
  · rw [mapLeft_of_mem ha, mapLeft_of_not_mem (h a ha),
      mapLeft_of_mem (List.mem_append_left bs ha)]
  · rw [mapLeft_of_not_mem ha]
    simp only [mapLeft, List.mem_append, ha, false_or]

theorem mapLeft_id (as : List Nat) : heap.modify (mapLeft id as) = heap := by
  refine Heap.modify_id fun a n _ => ?_
  unfold mapLeft
  split <;> rfl

theorem Heap.update_eq_modify {ptr : Nat} {n n' : BintreeNode}
    {f : Nat → BintreeNode → BintreeNode} (hn : heap ptr = some n)
    (hptr : f ptr n = n') (hne : ∀ a n, a ≠ ptr → f a n = n) :
    Function.update heap ptr (some n') = heap.modify f := by
  funext a
  by_cases ha : a = ptr
  · subst ha
    rw [Function.update_self, Heap.modify_some hn, hptr]
  · rw [Function.update_of_ne ha, Heap.modify_eq fun n => hne a n ha]

theorem wp_loadNode {ptr : Nat} {n : BintreeNode} (hne : ptr ≠ 0)
    (hn : heap ptr = some n) (Q : BintreeNode → Heap → Prop) :
    Prog.wp (loadNode ptr) Q heap ↔ Q n heap := by
  simp [loadNode, hne, hn]

theorem wp_storeRight {prev ptr : Nat} {n : BintreeNode} (hne : prev ≠ 0)
    (hn : heap prev = some n) (Q : Unit → Heap → Prop) :
    Prog.wp (storeRight prev ptr) Q heap ↔
      Q () (heap.modify (setRight prev ptr)) := by
  simp only [storeRight, storeNode, Prog.wp_bind, wp_loadNode hne hn,
    Prog.wp_modify]
  rw [Heap.update_eq_modify hn (if_pos rfl) fun a n ha => setRight_of_ne ha n]

theorem wp_storeLeft (mark : Nat → Nat) {ptr left : Nat} {n : BintreeNode}
    (hne : ptr ≠ 0) (hn : heap ptr = some n) (hleft : left = mark n.left)
    (Q : Unit → Heap → Prop) :
    Prog.wp (storeLeft ptr left) Q heap ↔
      Q () (heap.modify (mapLeft mark [ptr])) := by
  subst hleft
  have hmem : ptr ∈ [ptr] := List.mem_cons_self
  simp only [storeLeft, storeNode, Prog.wp_bind, wp_loadNode hne hn,
    Prog.wp_modify]
  rw [Heap.update_eq_modify hn (mapLeft_of_mem hmem n) fun a n ha =>
    mapLeft_of_not_mem (mt List.mem_singleton.mp ha) n]

theorem Heap.Holds.congr (h : heap.Holds t ptr)
    (hsame : ∀ a ∈ inOrder t, heap' a = heap a) : heap'.Holds t ptr := by
  induction t generalizing ptr with
  | nil => trivial
  | node a l r ihl ihr =>
      obtain ⟨ha, hl, hr⟩ := h
      refine ⟨?_, ihl hl ?_, ihr hr ?_⟩
      · rw [hsame a (mem_inOrder.mpr (.inr (.inl rfl))), ha]
      · exact fun b hb => hsame b (mem_inOrder.mpr (.inl hb))
      · exact fun b hb => hsame b (mem_inOrder.mpr (.inr (.inr hb)))

theorem Heap.Holds.exists_node (h : heap.Holds t ptr) {a : Nat} (ha : a ∈ inOrder t) :
    ∃ n, heap a = some n := by
  induction t generalizing ptr with
  | nil => cases ha
  | node b l r ihl ihr =>
      obtain ⟨hb, hl, hr⟩ := h
      rcases mem_inOrder.mp ha with ha | rfl | ha
      · exact ihl hl ha
      · exact ⟨_, hb⟩
      · exact ihr hr ha

theorem Heap.Holds.last (h : heap.Holds t ptr) (ht : t ≠ nil) (ptr' : Nat) :
    ∃ left, heap (lastPtr ptr' t) = some { left, right := ptr } := by
  induction t generalizing ptr' with
  | nil => exact absurd rfl ht
  | node a l r _ ihr =>
      obtain ⟨ha, -, hr⟩ := h
      by_cases hnil : r = nil
      · subst hnil
        exact ⟨_, ha⟩
      · exact ihr hr hnil a

theorem Heap.Holds.marked (h : heap.Holds t ptr) (mark : Nat → Nat)
    {as : List Nat} (has : ∀ a ∈ inOrder t, a ∉ as) :
    (heap.modify (mapLeft mark as)).Holds t ptr :=
  h.congr fun a ha => Heap.modify_eq fun n => mapLeft_of_not_mem (has a ha) n

theorem Heap.Holds.threaded (h : heap.Holds t ptr) (hp : Proper t)
    (ptr' ptr'' : Nat) :
    (heap.modify (setRight (lastPtr ptr'' t) ptr')).Holds t ptr' := by
  induction t generalizing ptr'' with
  | nil => trivial
  | node a l r _ ihr =>
      obtain ⟨ha, hl, hr⟩ := h
      by_cases hnil : r = nil
      · subst hnil
        refine ⟨?_, hl.congr fun b hb => Heap.modify_eq fun n => ?_, trivial⟩
        · rw [Heap.modify_some ha]
          exact congrArg some (if_pos rfl)
        · refine setRight_of_ne (fun heq => ?_) n
          exact hp.not_mem_left (heq ▸ hb : lastPtr ptr'' (node a l nil) ∈ _)
      · have hlast : lastPtr a r ∈ inOrder r := lastPtr_mem hnil
        refine ⟨?_, hl.congr fun b hb => Heap.modify_eq fun n => ?_,
          ihr hr hp.right a⟩
        · rw [Heap.modify_eq (setRight_of_ne fun heq => ?_), ha,
            rootPtr_eq hnil ptr ptr']
          exact hp.not_mem_right (heq ▸ hlast)
        · refine setRight_of_ne (fun heq => ?_) n
          exact hp.disjoint (heq ▸ hb : lastPtr a r ∈ _) hlast

end Heap

/-! ## A small tree -/

def smallTree : BinaryTree Nat :=
  node 2 (node 4 nil (node 8 nil nil)) (node 6 nil nil)

def smallHeap : Heap
  | 2 => some { left := 4, right := 6 }
  | 4 => some { left := 0, right := 8 }
  | 6 => some { left := 0, right := 0 }
  | 8 => some { left := 0, right := 0 }
  | _ => none

def smallIterator : BintreeIterator :=
  { next := .inOrder, filter := fun _ => false, curr := 0, parent := 0 }

theorem smallTree_proper : Proper smallTree := ⟨by decide, by decide⟩

theorem smallTree_aligned : Aligned smallTree := by
  unfold Aligned
  decide

theorem smallHeap_holds : smallHeap.Holds smallTree 0 :=
  ⟨rfl, ⟨rfl, trivial, rfl, trivial, trivial⟩, rfl, trivial, trivial⟩

end Librfn
