import Librfn.Logic.Cyclic
import Librfn.Logic.Transition
import Librfn.Ringbuf

/-!
# One producer and one consumer on a ring buffer

The loads, stores and buffer accesses of `ringbuf_put`, `ringbuf_get` and
`ringbuf_empty` as the steps of two parties.  A local variable of the C code
lives in the program counter of the party that is inside the call.
-/

namespace Librfn.Ringbuf

open Librfn.Logic

inductive ProducerPc where
  | idle
  | loaded (d : UInt8) (oldWritei writei : Nat)
  | writing (d : UInt8) (oldWritei writei : Nat)
  | storing (d : UInt8) (writei : Nat)
  deriving DecidableEq, Repr

inductive ConsumerPc where
  | idle
  | loaded (readi : Nat)
  | reading (readi : Nat)
  | storing (readi : Nat) (d : UInt8)
  | emptyRead (readi : Nat)
  | emptyWrite (writei : Nat)
  | aborted
  deriving DecidableEq, Repr

structure Parties where
  rb : Ringbuf
  producer : ProducerPc
  consumer : ConsumerPc

def Parties.initial (bufp : Nat → UInt8) (bufLen : Nat) : Parties :=
  { rb := ringbufInit bufp bufLen, producer := .idle, consumer := .idle }

/-- What a step does.  `putDone`, `putFull`, `getDone` and `getNone` are the
steps at which a call returns. -/
inductive Event where
  | putLoad (d : UInt8)
  | putFull
  | putRoom
  | putWrite (index : Nat)
  | putDone (d : UInt8)
  | getLoad
  | getAbort
  | getNone
  | getSome
  | getRead
  | getDone (d : UInt8)
  | emptyLoad
  | emptyDone (empty : Bool)
  deriving DecidableEq, Repr

inductive Step : Parties → Event → Parties → Prop
  | putLoad {rb c} (d : UInt8) :
      Step ⟨rb, .idle, c⟩ (.putLoad d)
        ⟨rb, .loaded d rb.writei (advance rb.bufLen rb.writei), c⟩
  | putFull {rb c d old} :
      Step ⟨rb, .loaded d old rb.readi, c⟩ .putFull ⟨rb, .idle, c⟩
  | putRoom {rb c d old new} (h : new ≠ rb.readi) :
      Step ⟨rb, .loaded d old new, c⟩ .putRoom ⟨rb, .writing d old new, c⟩
  | putWrite {rb c d old new} :
      Step ⟨rb, .writing d old new, c⟩ (.putWrite old)
        ⟨{ rb with bufp := Function.update rb.bufp old d }, .storing d new, c⟩
  | putDone {rb c d new} :
      Step ⟨rb, .storing d new, c⟩ (.putDone d)
        ⟨{ rb with writei := new }, .idle, c⟩
  | getLoad {rb p} (h : rb.readi < rb.bufLen) :
      Step ⟨rb, p, .idle⟩ .getLoad ⟨rb, p, .loaded rb.readi⟩
  | getAbort {rb p} (h : ¬ rb.readi < rb.bufLen) :
      Step ⟨rb, p, .idle⟩ .getAbort ⟨rb, p, .aborted⟩
  | getNone {rb p} :
      Step ⟨rb, p, .loaded rb.writei⟩ .getNone ⟨rb, p, .idle⟩
  | getSome {rb p readi} (h : readi ≠ rb.writei) :
      Step ⟨rb, p, .loaded readi⟩ .getSome ⟨rb, p, .reading readi⟩
  | getRead {rb p readi} :
      Step ⟨rb, p, .reading readi⟩ .getRead
        ⟨rb, p, .storing readi (rb.bufp readi)⟩
  | getDone {rb p readi d} :
      Step ⟨rb, p, .storing readi d⟩ (.getDone d)
        ⟨{ rb with readi := advance rb.bufLen readi }, p, .idle⟩
  -- C leaves the order of the two loads in `ringbuf_empty` open.
  | emptyRead {rb p} :
      Step ⟨rb, p, .idle⟩ .emptyLoad ⟨rb, p, .emptyRead rb.readi⟩
  | emptyReadDone {rb p readi} :
      Step ⟨rb, p, .emptyRead readi⟩ (.emptyDone (readi = rb.writei))
        ⟨rb, p, .idle⟩
  | emptyWrite {rb p} :
      Step ⟨rb, p, .idle⟩ .emptyLoad ⟨rb, p, .emptyWrite rb.writei⟩
  | emptyWriteDone {rb p writei} :
      Step ⟨rb, p, .emptyWrite writei⟩ (.emptyDone (rb.readi = writei))
        ⟨rb, p, .idle⟩

def Event.put? : Event → Option UInt8
  | .putDone d => some d
  | _ => none

def Event.got? : Event → Option UInt8
  | .getDone d => some d
  | _ => none

def putBytes (es : List Event) : List UInt8 := es.filterMap Event.put?
def gotBytes (es : List Event) : List UInt8 := es.filterMap Event.got?

def buffered (es : List Event) : Nat :=
  (putBytes es).length - (gotBytes es).length

def HoldsUnread (es : List Event) (s : Parties) (index : Nat) : Prop :=
  ∃ k, k < buffered es ∧ index = (s.rb.readi + k) % s.rb.bufLen

@[simp] theorem putBytes_snoc (es : List Event) (e : Event) :
    putBytes (es ++ [e]) = putBytes es ++ e.put?.toList := by
  cases e <;> simp [putBytes, Event.put?]

@[simp] theorem gotBytes_snoc (es : List Event) (e : Event) :
    gotBytes (es ++ [e]) = gotBytes es ++ e.got?.toList := by
  cases e <;> simp [gotBytes, Event.got?]

/-! ## Uninterrupted calls -/

/-- A `ringbuf_put` whose steps no consumer step separates is the sequential
function. -/
theorem ringbufPut_uninterrupted (rb : Ringbuf) (c : ConsumerPc) (d : UInt8) :
    Prog.wp (ringbufPut d) (fun ok rb' => ∃ es,
      Run Step ⟨rb, .idle, c⟩ es ⟨rb', .idle, c⟩ ∧
      putBytes es = if ok then [d] else []) rb := by
  by_cases h : advance rb.bufLen rb.writei = rb.readi
  · simp only [ringbufPut, Prog.wp_bind, Prog.wp_get, Prog.wp_ite, h, if_true,
      Prog.wp_pure]
    refine ⟨[.putLoad d, .putFull], .cons (.putLoad d) (.single ?_), rfl⟩
    rw [h]
    exact .putFull
  · simp only [ringbufPut, Prog.wp_bind, Prog.wp_get, Prog.wp_ite, h, if_false,
      Prog.wp_modify, Prog.wp_pure]
    exact ⟨[.putLoad d, .putRoom, .putWrite rb.writei, .putDone d],
      .cons (.putLoad d) (.cons (.putRoom h) (.cons .putWrite
        (.single .putDone))), rfl⟩

/-- A `ringbuf_get` whose steps no producer step separates is the sequential
function. -/
theorem ringbufGet_uninterrupted (rb : Ringbuf) (p : ProducerPc)
    (h : rb.readi < rb.bufLen) :
    Prog.wp ringbufGet (fun r rb' => ∃ es,
      Run Step ⟨rb, p, .idle⟩ es ⟨rb', p, .idle⟩ ∧
      r = ((gotBytes es).head?.map fun d => (d.toNat : Int)).getD (-1)) rb := by
  by_cases he : rb.readi = rb.writei
  · simp only [ringbufGet, Prog.wp_bind, Prog.wp_get, Prog.wp_assert,
      Prog.wp_ite, he, if_true, Prog.wp_pure]
    refine ⟨he ▸ h, [.getLoad, .getNone], .cons (.getLoad h) (.single ?_), rfl⟩
    rw [he]
    exact .getNone
  · simp only [ringbufGet, Prog.wp_bind, Prog.wp_get, Prog.wp_assert,
      Prog.wp_ite, he, if_false, Prog.wp_modify, Prog.wp_pure]
    exact ⟨h, [.getLoad, .getSome, .getRead, .getDone (rb.bufp rb.readi)],
      .cons (.getLoad h) (.cons (.getSome he) (.cons .getRead
        (.single .getDone))), rfl⟩

/-! ## The invariant -/

/-- What the producer's local variables know. -/
def ProducerOk (put got n : Nat) (rb : Ringbuf) : ProducerPc → Prop
  | .idle => True
  | .loaded _ old new => old = put % n ∧ new = (put + 1) % n
  | .writing _ old new =>
      old = put % n ∧ new = (put + 1) % n ∧ put + 1 < got + n
  | .storing d new =>
      new = (put + 1) % n ∧ put + 1 < got + n ∧ rb.bufp (put % n) = d

def ConsumerOk (put : List UInt8) (got n : Nat) : ConsumerPc → Prop
  | .idle => True
  | .loaded readi => readi = got % n
  | .reading readi => readi = got % n ∧ got < put.length
  | .storing readi d => readi = got % n ∧ put[got]? = some d
  | .emptyRead _ => True
  | .emptyWrite _ => True
  | .aborted => False

/-- The indices are the two byte counts modulo the length, and the cells
between them hold the bytes that were put and not yet got. -/
structure Inv (n : Nat) (es : List Event) (s : Parties) : Prop where
  len : s.rb.bufLen = n
  writei : s.rb.writei = (putBytes es).length % n
  readi : s.rb.readi = (gotBytes es).length % n
  le : (gotBytes es).length ≤ (putBytes es).length
  room : (putBytes es).length < (gotBytes es).length + n
  got : gotBytes es <+: putBytes es
  cells : ∀ k d, (gotBytes es).length ≤ k → (putBytes es)[k]? = some d →
    s.rb.bufp (k % n) = d
  producer : ProducerOk (putBytes es).length (gotBytes es).length n s.rb
    s.producer
  consumer : ConsumerOk (putBytes es) (gotBytes es).length n s.consumer

theorem advance_mod {n : Nat} (hpos : 0 < n) (hmax : n < 2 ^ 32) (k : Nat) :
    advance n (k % n) = (k + 1) % n := by
  have hlt := Nat.mod_lt k hpos
  have hsmall : (k % n + 1) % 2 ^ 32 = k % n + 1 :=
    Nat.mod_eq_of_lt (by omega)
  rw [advance, hsmall, mod_succ_eq_ite hpos]
  split <;> omega

theorem Inv.initial {n : Nat} (hpos : 0 < n) (bufp : Nat → UInt8) :
    Inv n [] (.initial bufp n) where
  len := rfl
  writei := (Nat.zero_mod n).symm
  readi := (Nat.zero_mod n).symm
  le := Nat.le_refl _
  room := by simpa [putBytes, gotBytes] using hpos
  got := List.prefix_rfl
  cells := by simp [putBytes]
  producer := trivial
  consumer := trivial

theorem Inv.silent {n : Nat} {es : List Event} {rb : Ringbuf}
    {p p' : ProducerPc} {c c' : ConsumerPc} {e : Event}
    (h : Inv n es ⟨rb, p, c⟩) (hput : e.put? = none) (hgot : e.got? = none)
    (hp : ProducerOk (putBytes es).length (gotBytes es).length n rb p')
    (hc : ConsumerOk (putBytes es) (gotBytes es).length n c') :
    Inv n (es ++ [e]) ⟨rb, p', c'⟩ := by
  obtain ⟨hlen, hw, hr, hle, hroom, hpre, hcells, -, -⟩ := h
  constructor <;> simp only [putBytes_snoc, gotBytes_snoc, hput, hgot,
    Option.toList_none, List.append_nil] <;> assumption

theorem Inv.putWrite {n : Nat} {es : List Event} {rb : Ringbuf}
    {c : ConsumerPc} {d : UInt8} {old new : Nat}
    (h : Inv n es ⟨rb, .writing d old new, c⟩) :
    Inv n (es ++ [.putWrite old])
      ⟨{ rb with bufp := Function.update rb.bufp old d }, .storing d new, c⟩ := by
  obtain ⟨hlen, hw, hr, hle, hroom, hpre, hcells, ⟨hold, hnew, hfree⟩, hc⟩ := h
  constructor <;> simp only [putBytes_snoc, gotBytes_snoc, Event.put?,
    Event.got?, Option.toList_none, List.append_nil] <;> try assumption
  · intro k b hk hb
    have hlt : k < (putBytes es).length := (List.getElem?_eq_some_iff.mp hb).1
    have hne : k % n ≠ old := hold ▸ mod_ne_of_window hlt (by omega)
    rw [Function.update_of_ne hne]
    exact hcells k b hk hb
  · subst hold
    exact ⟨hnew, hfree, Function.update_self _ _ _⟩

theorem Inv.putDone {n : Nat} {es : List Event} {rb : Ringbuf}
    {c : ConsumerPc} {d : UInt8} {new : Nat}
    (h : Inv n es ⟨rb, .storing d new, c⟩) :
    Inv n (es ++ [.putDone d]) ⟨{ rb with writei := new }, .idle, c⟩ := by
  obtain ⟨hlen, hw, hr, hle, hroom, hpre, hcells, ⟨hnew, hfree, hcell⟩, hc⟩ := h
  constructor <;> simp only [putBytes_snoc, gotBytes_snoc, Event.put?,
    Event.got?, Option.toList_none, List.append_nil, Option.toList_some,
    List.length_append, List.length_singleton] <;> try assumption
  · omega
  · exact hpre.trans (List.prefix_append _ _)
  · intro k b hk hb
    rcases Nat.lt_or_ge k (putBytes es).length with hlt | hge
    · exact hcells k b hk (by rwa [List.getElem?_append_left hlt] at hb)
    · rw [List.getElem?_append_right hge] at hb
      obtain ⟨hone, hbd⟩ := List.getElem?_eq_some_iff.mp hb
      have hkeq : k = (putBytes es).length := by
        simp only [List.length_singleton] at hone
        omega
      rw [hkeq, hcell, ← hbd]
      simp
  · trivial
  · cases c with
    | storing readi b =>
        refine ⟨hc.1, ?_⟩
        rw [List.getElem?_append_left (List.getElem?_eq_some_iff.mp hc.2).1]
        exact hc.2
    | reading readi => exact ⟨hc.1, by simpa using Nat.lt_succ_of_lt hc.2⟩
    | idle | loaded _ | emptyRead _ | emptyWrite _ | aborted => exact hc

theorem Inv.getDone {n : Nat} (hpos : 0 < n) (hmax : n < 2 ^ 32)
    {es : List Event} {rb : Ringbuf} {p : ProducerPc} {readi : Nat} {d : UInt8}
    (h : Inv n es ⟨rb, p, .storing readi d⟩) :
    Inv n (es ++ [.getDone d])
      ⟨{ rb with readi := advance rb.bufLen readi }, p, .idle⟩ := by
  obtain ⟨hlen, hw, hr, hle, hroom, hpre, hcells, hp, hreadi, hd⟩ := h
  have hlt : (gotBytes es).length < (putBytes es).length :=
    (List.getElem?_eq_some_iff.mp hd).1
  constructor <;> simp only [putBytes_snoc, gotBytes_snoc, Event.put?,
    Event.got?, Option.toList_none, List.append_nil, Option.toList_some,
    List.length_append, List.length_singleton] <;> try assumption
  · rw [hlen, hreadi, advance_mod hpos hmax]
  · omega
  · obtain ⟨rest, hrest⟩ := hpre
    rw [← hrest] at hd ⊢
    rw [List.getElem?_append_right (Nat.le_refl _), Nat.sub_self] at hd
    cases rest with
    | nil => simp at hd
    | cons b rest =>
        cases hd
        exact ⟨rest, by simp⟩
  · intro k b hk hb
    exact hcells k b (by omega) hb
  · cases p with
    | idle => trivial
    | loaded _ _ _ => exact hp
    | writing _ _ _ => exact ⟨hp.1, hp.2.1, by have := hp.2.2; omega⟩
    | storing _ _ => exact ⟨hp.1, by have := hp.2.1; omega, hp.2.2⟩
  · trivial

theorem Inv.full {n : Nat} {es : List Event} {rb : Ringbuf} {c : ConsumerPc}
    {d : UInt8} {old : Nat} (h : Inv n es ⟨rb, .loaded d old rb.readi, c⟩) :
    (putBytes es).length + 1 = (gotBytes es).length + n := by
  obtain ⟨-, -, hr, hle, hroom, -, -, ⟨-, hnew⟩, -⟩ := h
  have hcongr : ((gotBytes es).length + n) % n =
      ((putBytes es).length + 1) % n := by
    rw [Nat.add_mod_right, ← hnew]
    exact hr.symm
  exact mod_inj_of_window (by omega) (by omega) hcongr.symm

theorem Inv.empty {n : Nat} {es : List Event} {rb : Ringbuf} {p : ProducerPc}
    (h : Inv n es ⟨rb, p, .loaded rb.writei⟩) :
    (gotBytes es).length = (putBytes es).length :=
  mod_inj_of_window h.le h.room (by rw [← h.consumer, ← h.writei])

theorem Inv.step {n : Nat} (hpos : 0 < n) (hmax : n < 2 ^ 32)
    {es : List Event} {s s' : Parties} {e : Event}
    (h : Inv n es s) (hstep : Step s e s') : Inv n (es ++ [e]) s' := by
  have hlen := h.len
  have hw := h.writei
  have hr := h.readi
  have hp := h.producer
  have hc := h.consumer
  cases hstep with
  | putLoad d =>
      refine h.silent rfl rfl ⟨hw, ?_⟩ hc
      dsimp only at hlen hw
      rw [hlen, hw, advance_mod hpos hmax]
  | putFull => exact h.silent rfl rfl trivial hc
  | putRoom hne =>
      -- the advanced index differs from `readi`, so the buffer is not full
      refine h.silent rfl rfl ⟨hp.1, hp.2, ?_⟩ hc
      have hroom := h.room
      rcases Nat.lt_or_ge ((putBytes es).length + 1)
        ((gotBytes es).length + n) with hlt | hge
      · exact hlt
      · have heq : (putBytes es).length + 1 = (gotBytes es).length + n := by
          omega
        have hnew := hp.2
        rw [heq, Nat.add_mod_right, ← hr] at hnew
        exact absurd hnew hne
  | putWrite => exact h.putWrite
  | putDone => exact h.putDone
  | getLoad hlt => exact h.silent rfl rfl hp hr
  | getAbort hge =>
      dsimp only at hlen hr
      rw [hr, hlen] at hge
      exact absurd (Nat.mod_lt _ hpos) hge
  | getNone => exact h.silent rfl rfl hp trivial
  | getSome hne =>
      refine h.silent rfl rfl hp ⟨hc, ?_⟩
      rcases Nat.lt_or_ge (gotBytes es).length (putBytes es).length with hlt | hge
      · exact hlt
      · have heq : (gotBytes es).length = (putBytes es).length :=
          Nat.le_antisymm h.le hge
        rw [show _ = _ from hc, heq, ← hw] at hne
        exact absurd rfl hne
  | getRead =>
      refine h.silent rfl rfl hp ⟨hc.1, ?_⟩
      obtain ⟨hreadi, hlt⟩ := hc
      have hsome := List.getElem?_eq_getElem hlt
      have hcell := h.cells _ _ (Nat.le_refl _) hsome
      rw [← hreadi] at hcell
      exact hsome.trans (congrArg some hcell.symm)
  | getDone => exact h.getDone hpos hmax
  | emptyRead => exact h.silent rfl rfl hp trivial
  | emptyReadDone => exact h.silent rfl rfl hp trivial
  | emptyWrite => exact h.silent rfl rfl hp trivial
  | emptyWriteDone => exact h.silent rfl rfl hp trivial

theorem Inv.of_run {n : Nat} (hpos : 0 < n) (hmax : n < 2 ^ 32)
    {bufp : Nat → UInt8} {es : List Event} {s : Parties}
    (hrun : Run Step (.initial bufp n) es s) : Inv n es s :=
  hrun.traceInvariant (.initial hpos bufp)
    fun _ _ _ _ h hstep => h.step hpos hmax hstep

theorem Inv.holdsUnread_iff {n : Nat} {es : List Event} {s : Parties}
    (h : Inv n es s) (index : Nat) :
    HoldsUnread es s index ↔
      ∃ k, (gotBytes es).length ≤ k ∧ k < (putBytes es).length ∧
        index = k % n := by
  have hle := h.le
  unfold HoldsUnread buffered
  rw [h.len, h.readi]
  constructor
  · rintro ⟨k, hk, rfl⟩
    exact ⟨(gotBytes es).length + k, by omega, by omega, Nat.mod_add_mod _ _ _⟩
  · rintro ⟨k, hge, hlt, rfl⟩
    refine ⟨k - (gotBytes es).length, by omega, ?_⟩
    rw [Nat.mod_add_mod, Nat.add_sub_cancel' hge]

/-- What a run of one producer and one consumer guarantees in the state it
has reached and for the step taken there. -/
structure Safe (n : Nat) (es : List Event) (s : Parties) : Prop where
  inOrder : gotBytes es <+: putBytes es
  unread : ∀ k, (hk : k < buffered es) →
    (putBytes es)[(gotBytes es).length + k]? =
      some (s.rb.bufp ((s.rb.readi + k) % n))
  readi_lt : s.rb.readi < n
  writei_lt : s.rb.writei < n
  noAbort : s.consumer ≠ .aborted ∧ ∀ s', ¬ Step s .getAbort s'
  capacity : buffered es ≤ n - 1
  putFull : ∀ s', Step s .putFull s' → buffered es = n - 1
  getNone : ∀ s', Step s .getNone s' → buffered es = 0
  putWrite : ∀ index s', Step s (.putWrite index) s' → ¬ HoldsUnread es s index

/-- In every interleaving of the loads, stores and buffer accesses of one
producer and one consumer the ring buffer is a FIFO of `bufLen - 1` bytes. -/
theorem spsc_safe {n : Nat} (hpos : 0 < n) (hmax : n < 2 ^ 32)
    {bufp : Nat → UInt8} {es : List Event} {s : Parties}
    (hrun : Run Step (.initial bufp n) es s) : Safe n es s := by
  have h := Inv.of_run hpos hmax hrun
  have hle := h.le
  have hroom := h.room
  refine ⟨h.got, ?_, ?_, ?_, ⟨?_, ?_⟩, ?_, ?_, ?_, ?_⟩
  · intro k hk
    unfold buffered at hk
    have hsome := List.getElem?_eq_getElem
      (show (gotBytes es).length + k < (putBytes es).length by omega)
    rw [h.readi, Nat.mod_add_mod, h.cells _ _ (by omega) hsome]
    exact hsome
  · rw [h.readi]
    exact Nat.mod_lt _ hpos
  · rw [h.writei]
    exact Nat.mod_lt _ hpos
  · intro habort
    have hc := h.consumer
    rw [habort] at hc
    exact hc
  · intro s' hstep
    have habort := (h.step hpos hmax hstep).consumer
    cases hstep
    exact habort
  · unfold buffered
    omega
  · intro s' hstep
    cases hstep
    have hfull := h.full
    unfold buffered
    omega
  · intro s' hstep
    cases hstep
    have hempty := h.empty
    unfold buffered
    omega
  · intro index s' hstep hold
    obtain ⟨k, hge, hlt, hk⟩ := (h.holdsUnread_iff index).mp hold
    cases hstep
    have hp := h.producer
    exact mod_ne_of_window hlt (by omega) (hk ▸ hp.1)

/-- The byte 7 goes through a four-cell ring while a second put is under way. -/
theorem spsc_safe_sample : ∃ s,
    Run Step (.initial (fun _ => 0) 4)
      [.putLoad 7, .getLoad, .putRoom, .putWrite 0, .putDone 7, .getSome,
        .putLoad 9, .getRead, .getDone 7] s ∧
    Safe 4 [.putLoad 7, .getLoad, .putRoom, .putWrite 0, .putDone 7, .getSome,
      .putLoad 9, .getRead, .getDone 7] s := by
  have hrun := Run.cons (@Step.putLoad (ringbufInit (fun _ => 0) 4) _ 7)
    (.cons (.getLoad (by decide)) (.cons (.putRoom (by decide))
      (.cons .putWrite (.cons .putDone (.cons (.getSome (by decide))
        (.cons (.putLoad 9) (.cons .getRead (.single .getDone))))))))
  exact ⟨_, hrun, spsc_safe (by decide) (by decide) hrun⟩

end Librfn.Ringbuf
