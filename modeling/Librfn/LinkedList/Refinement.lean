import Librfn.LinkedList.Operations
import Mathlib.Data.List.InsertIdx

/-!
# The linked lists keep finite sequences

Any sequence of list calls and iterator walks gets from the linked lists the
answers of finite sequences.  An iterator stands for the number of nodes it
has passed and is good for as long as its list keeps its nodes.
-/

namespace Librfn

open Librfn.Logic

/-- The sequence of each list, and for each iterator in use the list it walks
and the number of nodes in front of it. -/
structure Sequences (L N I : Type) where
  seq : L → List N
  cursor : I → Option (L × Nat)

inductive ListOp (L N I : Type) where
  | insert (list : L) (node : N)
  | insertSorted (list : L) (node : N) (nodecmp : N → N → Int)
  | push (list : L) (node : N)
  | extract (list : L)
  | remove (list : L) (node : N)
  | contains (list : L) (node : N) (iter : Option I)
  | peek (list : L)
  | empty (list : L)
  | iterate (iter : I) (list : L)
  | iteratorNext (iter : I)
  | iteratorInsert (iter : I) (node : N)
  | iteratorRemove (iter : I)

inductive ListResult (N : Type) where
  | done
  | node (value : Option N)
  | truth (value : Bool)
  deriving DecidableEq, Repr

namespace Sequences

variable {L N I : Type}

def init (L N I : Type) : Sequences L N I :=
  { seq := fun _ => [], cursor := fun _ => none }

def Free (s : Sequences L N I) (node : N) : Prop :=
  ∀ list, node ∉ s.seq list

/-- What a caller may ask for: only a free node is inserted, an iterator is
used only while its list is as it was, and only a node that is there is
removed through it. -/
def Allowed (s : Sequences L N I) : ListOp L N I → Prop
  | .insert _ node => s.Free node
  | .insertSorted _ node _ => s.Free node
  | .push _ node => s.Free node
  | .iteratorNext iter => s.cursor iter ≠ none
  | .iteratorInsert iter node => s.cursor iter ≠ none ∧ s.Free node
  | .iteratorRemove iter =>
      ∃ list k, s.cursor iter = some (list, k) ∧ k < (s.seq list).length
  | _ => True

variable [DecidableEq L] [DecidableEq N]

/-- Give a list a new sequence.  If that is a change, the iterators on the
list go out of use. -/
def setSeq (s : Sequences L N I) (list : L) (xs : List N) : Sequences L N I :=
  { seq := Function.update s.seq list xs
    cursor := fun iter =>
      (s.cursor iter).filter fun c => c.1 ≠ list ∨ xs = s.seq list }

theorem setSeq_length_le {s : Sequences L N I} {list : L} {xs : List N}
    (h : xs.length ≤ (s.seq list).length + 1) (l : L) :
    ((s.setSeq list xs).seq l).length ≤ (s.seq l).length + 1 := by
  unfold setSeq
  dsimp only
  by_cases hl : l = list
  · subst hl
    rwa [Function.update_self]
  · rw [Function.update_of_ne hl]
    exact Nat.le_succ _

variable [DecidableEq I]

def setCursor (s : Sequences L N I) (iter : I) (list : L) (k : Nat) :
    Sequences L N I :=
  { s with cursor := Function.update s.cursor iter (some (list, k)) }

def step (s : Sequences L N I) :
    ListOp L N I → ListResult N × Sequences L N I
  | .insert list node => (.done, s.setSeq list (s.seq list ++ [node]))
  | .insertSorted list node nodecmp =>
      (.done, s.setSeq list (insertSorted nodecmp node (s.seq list)))
  | .push list node => (.done, s.setSeq list (node :: s.seq list))
  | .extract list =>
      (.node (s.seq list).head?, s.setSeq list (s.seq list).tail)
  | .remove list node =>
      (.truth (node ∈ s.seq list), s.setSeq list ((s.seq list).erase node))
  | .contains list node none => (.truth (node ∈ s.seq list), s)
  | .contains list node (some iter) =>
      (.truth (node ∈ s.seq list),
        s.setCursor iter list ((s.seq list).idxOf node))
  | .peek list => (.node (s.seq list).head?, s)
  | .empty list => (.truth (s.seq list = []), s)
  | .iterate iter list =>
      (.node (s.seq list).head?, s.setCursor iter list 0)
  | .iteratorNext iter =>
      match s.cursor iter with
      | none => (.done, s)
      | some (list, k) =>
          (.node (s.seq list)[k + 1]?,
            s.setCursor iter list (min (k + 1) (s.seq list).length))
  | .iteratorInsert iter node =>
      match s.cursor iter with
      | none => (.done, s)
      | some (list, k) =>
          (.done, (s.setSeq list ((s.seq list).insertIdx k node)).setCursor
            iter list k)
  | .iteratorRemove iter =>
      match s.cursor iter with
      | none => (.done, s)
      | some (list, k) =>
          (.node (s.seq list)[k + 1]?,
            (s.setSeq list ((s.seq list).eraseIdx k)).setCursor iter list k)

def run : List (ListOp L N I) → Sequences L N I →
    List (ListResult N) × Sequences L N I
  | [], s => ([], s)
  | op :: ops, s =>
      let (result, s) := s.step op
      let (results, s) := run ops s
      (result :: results, s)

def AllAllowed : List (ListOp L N I) → Sequences L N I → Prop
  | [], _ => True
  | op :: ops, s => s.Allowed op ∧ AllAllowed ops (s.step op).2

theorem step_length_le (s : Sequences L N I) (op : ListOp L N I) (l : L) :
    ((s.step op).2.seq l).length ≤ (s.seq l).length + 1 := by
  cases op with
  | insert list node => exact setSeq_length_le (by simp) l
  | insertSorted list node nodecmp =>
      exact setSeq_length_le (Nat.le_of_eq (insertSorted_length _ _ _)) l
  | push list node => exact setSeq_length_le (by simp) l
  | extract list => exact setSeq_length_le (by simp; omega) l
  | remove list node =>
      exact setSeq_length_le
        (Nat.le_succ_of_le (List.length_erase_le)) l
  | contains list node iter => cases iter <;> exact Nat.le_succ _
  | peek list => exact Nat.le_succ _
  | empty list => exact Nat.le_succ _
  | iterate iter list => exact Nat.le_succ _
  | iteratorNext iter =>
      unfold step
      dsimp only
      split <;> exact Nat.le_succ _
  | iteratorInsert iter node =>
      unfold step
      dsimp only
      split
      · exact Nat.le_succ _
      · refine setSeq_length_le ?_ l
        rw [List.length_insertIdx]
        split <;> omega
  | iteratorRemove iter =>
      unfold step
      dsimp only
      split
      · exact Nat.le_succ _
      · refine setSeq_length_le ?_ l
        exact Nat.le_succ_of_le (List.length_eraseIdx_le _ _)

end Sequences

/-- The lists and nodes together with the caller's iterators. -/
structure ListWorld (L N I : Type) where
  mem : ListMem L N
  iter : I → ListIterator L N

inductive ListReply (L N : Type) where
  | done
  | pointer (ptr : NodePtr L N)
  | truth (value : Bool)
  deriving DecidableEq

namespace ListWorld

variable {L N I : Type}

def init (N : Type) (iter : I → ListIterator L N) : ListWorld L N I :=
  { mem := .init L N, iter }

def call {α : Type} (m : Prog (ListMem L N) α) : Prog (ListWorld L N I) α :=
  Prog.zoom ListWorld.mem (fun mem w => { w with mem }) m

def replyOf : ListResult N → ListReply L N
  | .done => .done
  | .node value => .pointer (value.map .next)
  | .truth value => .truth value

section Exec

variable [DecidableEq L] [DecidableEq N] [DecidableEq I]

def setIter (iter : I) (value : ListIterator L N) :
    Prog (ListWorld L N I) Unit :=
  modify fun w => { w with iter := Function.update w.iter iter value }

def exec (fuel : Nat) :
    ListOp L N I → Prog (ListWorld L N I) (ListReply L N)
  | .insert list node => do
      call (listInsert list node)
      return .done
  | .insertSorted list node nodecmp => do
      call (listInsertSorted fuel list node nodecmp)
      return .done
  | .push list node => do
      call (listPush list node)
      return .done
  | .extract list => return .pointer (← call (listExtract list))
  | .remove list node => return .truth (← call (listRemove fuel list node))
  | .contains list node none => do
      let (found, _) ← call (listContains fuel list node)
      return .truth found
  | .contains list node (some iter) => do
      let (found, value) ← call (listContains fuel list node)
      setIter iter value
      return .truth found
  | .peek list => return .pointer (← call (listPeek list))
  | .empty list => return .truth (← call (listEmpty list))
  | .iterate iter list => do
      let (ptr, value) ← call (listIterate list)
      setIter iter value
      return .pointer ptr
  | .iteratorNext iter => do
      let (ptr, value) ← call (listIteratorNext ((← get).iter iter))
      setIter iter value
      return .pointer ptr
  | .iteratorInsert iter node => do
      call (listIteratorInsert ((← get).iter iter) node)
      return .done
  | .iteratorRemove iter =>
      return .pointer (← call (listIteratorRemove ((← get).iter iter)))

def execAll (fuel : Nat) :
    List (ListOp L N I) → Prog (ListWorld L N I) (List (ListReply L N))
  | [] => return []
  | op :: ops => do
      let reply ← exec fuel op
      return reply :: (← execAll fuel ops)

end Exec

/-- The memory holds the sequences, and an iterator in use points to the link
behind the nodes it has passed. -/
structure Represents (w : ListWorld L N I) (s : Sequences L N I) : Prop where
  lists : w.mem.Represents s.seq
  passed : ∀ iter list k, s.cursor iter = some (list, k) →
    k ≤ (s.seq list).length
  iterator : ∀ iter list k, s.cursor iter = some (list, k) →
    w.iter iter = iteratorAt list ((s.seq list).take k)

variable {w : ListWorld L N I} {s : Sequences L N I} {list : L} {node : N}
  {iter : I} {xs : List N} {k fuel : Nat}

theorem firstPtr_eq_head? (xs : List N) :
    (firstPtr xs none : NodePtr L N) = xs.head?.map .next := by
  cases xs <;> rfl

theorem split_at (hk : k < xs.length) :
    xs = xs.take k ++ xs[k] :: xs.drop (k + 1) := by
  rw [← List.drop_eq_getElem_cons hk, List.take_append_drop]

theorem insertIdx_eq_take_cons_drop (node : N) (hk : k ≤ xs.length) :
    xs.insertIdx k node = xs.take k ++ node :: xs.drop k := by
  induction xs generalizing k with
  | nil =>
      rw [Nat.le_zero.mp hk]
      rfl
  | cons x xs ih =>
      cases k with
      | zero => rfl
      | succ k =>
          rw [List.insertIdx_succ_cons, ih (Nat.le_of_succ_le_succ hk)]
          rfl

theorem Represents.setCursor [DecidableEq I] {w' : ListWorld L N I}
    (h : w.Represents s) (hmem : w'.mem = w.mem)
    (hk : k ≤ (s.seq list).length)
    (hvalue : w'.iter iter = iteratorAt list ((s.seq list).take k))
    (hother : ∀ i, i ≠ iter → w'.iter i = w.iter i) :
    w'.Represents (s.setCursor iter list k) := by
  have hcases : ∀ i list' k', (s.setCursor iter list k).cursor i =
      some (list', k') → (i = iter ∧ list' = list ∧ k' = k) ∨
        (i ≠ iter ∧ s.cursor i = some (list', k')) := by
    intro i list' k' hc
    by_cases hi : i = iter
    · subst hi
      simp only [Sequences.setCursor, Function.update_self, Option.some.injEq,
        Prod.mk.injEq] at hc
      exact Or.inl ⟨rfl, hc.1.symm, hc.2.symm⟩
    · simp only [Sequences.setCursor, Function.update_of_ne hi] at hc
      exact Or.inr ⟨hi, hc⟩
  refine ⟨hmem ▸ h.lists, ?_, ?_⟩
  · intro i list' k' hc
    rcases hcases i list' k' hc with ⟨rfl, rfl, rfl⟩ | ⟨-, hc⟩
    · exact hk
    · exact h.passed i list' k' hc
  · intro i list' k' hc
    rcases hcases i list' k' hc with ⟨rfl, rfl, rfl⟩ | ⟨hi, hc⟩
    · exact hvalue
    · exact (hother i hi).trans (h.iterator i list' k' hc)

theorem Represents.setCursor_self [DecidableEq I] (h : w.Represents s)
    (hk : k ≤ (s.seq list).length)
    (hvalue : w.iter iter = iteratorAt list ((s.seq list).take k)) :
    w.Represents (s.setCursor iter list k) :=
  h.setCursor rfl hk hvalue fun _ _ => rfl

theorem Represents.setIter [DecidableEq I] (h : w.Represents s)
    {value : ListIterator L N} (hk : k ≤ (s.seq list).length)
    (hvalue : value = iteratorAt list ((s.seq list).take k)) :
    Represents { w with iter := Function.update w.iter iter value }
      (s.setCursor iter list k) :=
  h.setCursor rfl hk ((Function.update_self _ _ _).trans hvalue)
    fun _ hi => Function.update_of_ne hi _ _

variable [DecidableEq L] [DecidableEq N]

theorem Represents.setSeq (h : w.Represents s) {mem : ListMem L N}
    (hmem : mem.Represents (Function.update s.seq list xs)) :
    Represents { w with mem } (s.setSeq list xs) := by
  have hkept : ∀ iter list' k,
      (s.setSeq list xs).cursor iter = some (list', k) →
      s.cursor iter = some (list', k) ∧
        (s.setSeq list xs).seq list' = s.seq list' := by
    intro iter list' k hc
    obtain ⟨hc, hkeep⟩ := Option.filter_eq_some_iff.mp hc
    refine ⟨hc, ?_⟩
    simp only [decide_eq_true_eq] at hkeep
    simp only [Sequences.setSeq, Function.update_apply]
    split
    · rename_i heq
      rw [heq]
      exact hkeep.resolve_left fun hne => hne heq
    · rfl
  refine ⟨hmem, ?_, ?_⟩
  · intro iter list' k hc
    obtain ⟨hc, hsame⟩ := hkept iter list' k hc
    rw [hsame]
    exact h.passed iter list' k hc
  · intro iter list' k hc
    obtain ⟨hc, hsame⟩ := hkept iter list' k hc
    rw [hsame]
    exact h.iterator iter list' k hc

variable [DecidableEq I]

theorem exec_insert (h : w.Represents s)
    (hnode : s.Free node) :
    Prog.wp (exec fuel (.insert list node)) (fun reply w' =>
      reply = .done ∧
      w'.Represents (s.setSeq list (s.seq list ++ [node]))) w := by
  simp only [exec, call, Prog.wp_bind, Prog.wp_zoom, Prog.wp_pure]
  refine Prog.wp_mono (ListMem.listInsert_spec h.lists hnode) ?_
  intro _ mem hmem
  exact ⟨trivial, h.setSeq hmem⟩

theorem exec_insertSorted (h : w.Represents s) (hnode : s.Free node)
    (hfuel : (s.seq list).length < fuel) (nodecmp : N → N → Int) :
    Prog.wp (exec fuel (.insertSorted list node nodecmp)) (fun reply w' =>
      reply = .done ∧ w'.Represents
        (s.setSeq list (insertSorted nodecmp node (s.seq list)))) w := by
  simp only [exec, call, Prog.wp_bind, Prog.wp_zoom, Prog.wp_pure]
  refine Prog.wp_mono
    (ListMem.listInsertSorted_spec h.lists hnode nodecmp hfuel) ?_
  intro _ mem hmem
  exact ⟨trivial, h.setSeq hmem⟩

theorem exec_push (h : w.Represents s) (hnode : s.Free node) :
    Prog.wp (exec fuel (.push list node)) (fun reply w' =>
      reply = .done ∧ w'.Represents (s.setSeq list (node :: s.seq list))) w := by
  simp only [exec, call, Prog.wp_bind, Prog.wp_zoom, Prog.wp_pure]
  refine Prog.wp_mono (ListMem.listPush_spec h.lists hnode) ?_
  intro _ mem hmem
  exact ⟨trivial, h.setSeq hmem⟩

theorem exec_extract (h : w.Represents s) :
    Prog.wp (exec fuel (.extract list)) (fun reply w' =>
      reply = replyOf (.node (s.seq list).head?) ∧
      w'.Represents (s.setSeq list (s.seq list).tail)) w := by
  simp only [exec, call, Prog.wp_bind, Prog.wp_zoom, Prog.wp_pure]
  refine Prog.wp_mono (ListMem.listExtract_spec h.lists) ?_
  rintro _ mem ⟨rfl, hmem⟩
  exact ⟨congrArg ListReply.pointer (firstPtr_eq_head? _), h.setSeq hmem⟩

theorem exec_remove (h : w.Represents s)
    (hfuel : (s.seq list).length < fuel) :
    Prog.wp (exec fuel (.remove list node)) (fun reply w' =>
      reply = .truth (node ∈ s.seq list) ∧
      w'.Represents (s.setSeq list ((s.seq list).erase node))) w := by
  simp only [exec, call, Prog.wp_bind, Prog.wp_zoom, Prog.wp_pure]
  refine Prog.wp_mono (ListMem.listRemove_spec h.lists hfuel) ?_
  rintro _ mem ⟨rfl, hmem⟩
  exact ⟨rfl, h.setSeq hmem⟩

theorem takeWhile_ne_eq_take (node : N) (xs : List N) :
    xs.takeWhile (· ≠ node) = xs.take (xs.idxOf node) := by
  induction xs with
  | nil => rfl
  | cons x xs ih =>
      by_cases hx : x = node
      · simp [hx]
      · rw [List.idxOf_cons_ne _ hx, List.take_succ_cons,
          List.takeWhile_cons_of_pos (by simpa using hx), ih]

theorem exec_contains (h : w.Represents s)
    (hfuel : (s.seq list).length < fuel) (iter : Option I) :
    Prog.wp (exec fuel (.contains list node iter)) (fun reply w' =>
      reply = .truth (node ∈ s.seq list) ∧
      w'.Represents (s.step (.contains list node iter)).2) w := by
  cases iter with
  | none =>
      simp only [exec, call, Prog.wp_bind, Prog.wp_zoom, Prog.wp_pure]
      refine Prog.wp_mono (ListMem.listContains_spec h.lists hfuel) ?_
      rintro _ _ ⟨rfl, rfl⟩
      exact ⟨rfl, h⟩
  | some iter =>
      simp only [exec, call, setIter, Prog.wp_bind, Prog.wp_zoom, Prog.wp_modify,
        Prog.wp_pure]
      refine Prog.wp_mono (ListMem.listContains_spec h.lists hfuel) ?_
      rintro _ _ ⟨rfl, rfl⟩
      refine ⟨rfl, h.setIter List.idxOf_le_length ?_⟩
      rw [takeWhile_ne_eq_take]

theorem exec_iterate (h : w.Represents s) :
    Prog.wp (exec fuel (.iterate iter list)) (fun reply w' =>
      reply = replyOf (.node (s.seq list).head?) ∧
      w'.Represents (s.setCursor iter list 0)) w := by
  simp only [exec, call, setIter, Prog.wp_bind, Prog.wp_zoom, Prog.wp_modify,
    Prog.wp_pure]
  refine Prog.wp_mono (ListMem.listIterate_spec h.lists) ?_
  rintro _ _ ⟨rfl, rfl⟩
  exact ⟨congrArg ListReply.pointer (firstPtr_eq_head? _),
    h.setIter (Nat.zero_le _) (by rw [List.take_zero])⟩

theorem exec_iteratorNext (h : w.Represents s)
    (hcursor : s.cursor iter = some (list, k)) :
    Prog.wp (exec fuel (.iteratorNext iter)) (fun reply w' =>
      reply = replyOf (.node (s.seq list)[k + 1]?) ∧
      w'.Represents (s.setCursor iter list
        (min (k + 1) (s.seq list).length))) w := by
  have hiter := h.iterator _ _ _ hcursor
  simp only [exec, call, setIter, Prog.wp_bind, Prog.wp_get, Prog.wp_zoom,
    Prog.wp_modify, Prog.wp_pure, hiter]
  rcases Nat.lt_or_ge k (s.seq list).length with hk | hk
  · refine Prog.wp_mono
      (ListMem.listIteratorNext_node h.lists (split_at hk)) ?_
    rintro _ _ ⟨rfl, rfl⟩
    refine ⟨?_, h.setIter (Nat.min_le_right _ _) ?_⟩
    · simp only [replyOf, firstPtr_eq_head?, List.head?_drop]
    · rw [Nat.min_eq_left hk, List.take_append_getElem hk]
  · rw [List.take_of_length_le hk]
    refine Prog.wp_mono (ListMem.listIteratorNext_end h.lists) ?_
    rintro _ _ ⟨rfl, rfl⟩
    refine ⟨?_, h.setIter (Nat.min_le_right _ _) ?_⟩
    · simp only [replyOf]
      rw [List.getElem?_eq_none (by omega)]
      rfl
    · rw [Nat.min_eq_right (by omega), List.take_length]

theorem exec_iteratorInsert (h : w.Represents s)
    (hcursor : s.cursor iter = some (list, k)) (hnode : s.Free node) :
    Prog.wp (exec fuel (.iteratorInsert iter node)) (fun reply w' =>
      reply = .done ∧
      w'.Represents ((s.setSeq list ((s.seq list).insertIdx k node)).setCursor
        iter list k)) w := by
  have hiter := h.iterator _ _ _ hcursor
  have hk := h.passed _ _ _ hcursor
  simp only [exec, call, Prog.wp_bind, Prog.wp_get, Prog.wp_zoom, Prog.wp_pure,
    hiter]
  refine Prog.wp_mono (ListMem.listIteratorInsert_spec h.lists hnode
    (List.take_append_drop k _).symm) ?_
  intro _ mem hmem
  rw [← insertIdx_eq_take_cons_drop node hk] at hmem
  refine ⟨trivial, (h.setSeq hmem).setCursor_self ?_ ?_⟩
  · simp only [Sequences.setSeq, Function.update_self]
    exact Nat.le_trans hk List.length_le_length_insertIdx
  · simp only [Sequences.setSeq, Function.update_self]
    rw [List.take_insertIdx_eq_take_of_le _ _ _ _ (Nat.le_refl k)]
    exact hiter

theorem exec_iteratorRemove (h : w.Represents s)
    (hcursor : s.cursor iter = some (list, k))
    (hk : k < (s.seq list).length) :
    Prog.wp (exec fuel (.iteratorRemove iter)) (fun reply w' =>
      reply = replyOf (.node (s.seq list)[k + 1]?) ∧
      w'.Represents ((s.setSeq list ((s.seq list).eraseIdx k)).setCursor
        iter list k)) w := by
  have hiter := h.iterator _ _ _ hcursor
  simp only [exec, call, Prog.wp_bind, Prog.wp_get, Prog.wp_zoom, Prog.wp_pure,
    hiter]
  refine Prog.wp_mono
    (ListMem.listIteratorRemove_spec h.lists (split_at hk)) ?_
  rintro _ mem ⟨rfl, hmem⟩
  rw [← List.eraseIdx_eq_take_drop_succ] at hmem
  refine ⟨?_, (h.setSeq hmem).setCursor_self ?_ ?_⟩
  · simp only [replyOf, firstPtr_eq_head?, List.head?_drop]
  · simp only [Sequences.setSeq, Function.update_self]
    rw [List.length_eraseIdx_of_lt hk]
    omega
  · simp only [Sequences.setSeq, Function.update_self]
    rw [List.eraseIdx_eq_take_drop_succ, List.take_left' (by simp; omega)]
    exact hiter

theorem exec_refines (h : w.Represents s) {op : ListOp L N I}
    (hallowed : s.Allowed op) (hfuel : ∀ list, (s.seq list).length < fuel) :
    Prog.wp (exec fuel op) (fun reply w' =>
      reply = replyOf (s.step op).1 ∧ w'.Represents (s.step op).2) w := by
  cases op with
  | insert list node => exact exec_insert h hallowed
  | insertSorted list node nodecmp =>
      exact exec_insertSorted h hallowed (hfuel list) nodecmp
  | push list node => exact exec_push h hallowed
  | extract list => exact exec_extract h
  | remove list node => exact exec_remove h (hfuel list)
  | contains list node iter =>
      cases iter <;> exact exec_contains h (hfuel list) _
  | peek list =>
      simp only [exec, call, listPeek, Prog.wp_bind, Prog.wp_zoom, wp_load,
        Prog.wp_pure, h.lists.link_head]
      exact ⟨congrArg ListReply.pointer (firstPtr_eq_head? _), h⟩
  | empty list =>
      simp only [exec, call, listEmpty, Prog.wp_bind, Prog.wp_zoom, wp_load,
        Prog.wp_pure, h.lists.link_head, firstPtr_none_eq_none]
      exact ⟨rfl, h⟩
  | iterate iter list => exact exec_iterate h
  | iteratorNext iter =>
      obtain ⟨⟨list, k⟩, hcursor⟩ := Option.ne_none_iff_exists'.mp hallowed
      simp only [Sequences.step, hcursor]
      exact exec_iteratorNext h hcursor
  | iteratorInsert iter node =>
      obtain ⟨⟨list, k⟩, hcursor⟩ := Option.ne_none_iff_exists'.mp hallowed.1
      simp only [Sequences.step, hcursor]
      exact exec_iteratorInsert h hcursor hallowed.2
  | iteratorRemove iter =>
      obtain ⟨list, k, hcursor, hk⟩ := hallowed
      simp only [Sequences.step, hcursor]
      exact exec_iteratorRemove h hcursor hk

theorem execAll_refines (ops : List (ListOp L N I)) (h : w.Represents s)
    (hallowed : Sequences.AllAllowed ops s)
    (hfuel : ∀ list, (s.seq list).length + ops.length ≤ fuel) :
    Prog.wp (execAll fuel ops) (fun replies w' =>
      replies = (Sequences.run ops s).1.map replyOf ∧
      w'.Represents (Sequences.run ops s).2) w := by
  induction ops generalizing w s with
  | nil => exact ⟨rfl, h⟩
  | cons op ops ih =>
      have hroom : ∀ list, (s.seq list).length < fuel := by
        intro list
        have := hfuel list
        rw [List.length_cons] at this
        omega
      simp only [execAll, Prog.wp_bind, Prog.wp_pure]
      refine Prog.wp_mono (exec_refines h hallowed.1 hroom) ?_
      rintro _ w₁ ⟨rfl, h₁⟩
      refine Prog.wp_mono (ih h₁ hallowed.2 ?_) ?_
      · intro list
        have hgrow := s.step_length_le op list
        have := hfuel list
        rw [List.length_cons] at this
        omega
      · rintro _ w₂ ⟨rfl, h₂⟩
        exact ⟨rfl, h₂⟩

/-- Starting from empty lists, every sequence of calls that the callers may
make gets the answers of the sequences and leaves the lists holding them. -/
theorem list_refines (iter : I → ListIterator L N) (ops : List (ListOp L N I))
    (hallowed : Sequences.AllAllowed ops (.init L N I)) {fuel : Nat}
    (hfuel : ops.length ≤ fuel) :
    ∃ w, execAll fuel ops (init N iter) =
        .ok ((Sequences.run ops (.init L N I)).1.map replyOf, w) ∧
      w.mem.Represents (Sequences.run ops (.init L N I)).2.seq := by
  have hinit : (init N iter).Represents (.init L N I) :=
    ⟨ListMem.init_represents, fun _ _ _ hc => (by cases hc),
      fun _ _ _ hc => (by cases hc)⟩
  obtain ⟨replies, w, heq, rfl, hw⟩ := Prog.wp_iff_exists.mp
    (execAll_refines ops hinit hallowed
      (fun _ => by simpa [Sequences.init] using hfuel))
  exact ⟨w, heq, hw.lists⟩

/-- The only node is removed through an iterator, which leaves a fabricated
tail behind, and the list is filled again at both ends. -/
theorem list_refines_refill : ∃ w,
    execAll 7 [.insert () 1, .contains () 1 (some ()), .iteratorRemove (),
        .insert () 2, .iterate () (), .iteratorNext (),
        .iteratorInsert () 3] (init Nat fun _ : Unit => iteratorAt () []) = .ok
      ([.done, .truth true, .pointer none, .done, .pointer (some (.next 2)),
        .pointer none, .done], w) ∧
      w.mem.Seg (.head ()) [2, 3] none := by
  obtain ⟨w, heq, hw⟩ := list_refines (fun _ : Unit => iteratorAt () [])
    [.insert () 1, .contains () 1 (some ()), .iteratorRemove (),
      .insert () 2, .iterate () (), .iteratorNext (), .iteratorInsert () 3]
    ⟨fun () => by decide, trivial, ⟨(), 0, by decide⟩, fun () => by decide,
      trivial, Option.some_ne_none _, ⟨Option.some_ne_none _, fun () => by decide⟩,
      trivial⟩
    (Nat.le_refl 7)
  exact ⟨w, heq, hw.chain ()⟩

end ListWorld

end Librfn
