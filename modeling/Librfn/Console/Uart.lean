import Librfn.Console
import Librfn.Console.Output
import Librfn.Logic.Transition
import Librfn.Ringbuf.Preempted

/-!
# The console on a serial line

`console_stm32.c`: `_write` puts characters into the output ring, and the
interrupt handler of the line takes them out of there, echoes what is received
and hands it to the console.  The handler may run between any two steps of
`_write`.
-/

namespace Librfn

open Librfn.Logic

namespace Uart

/-- Where the main program is in `_write`: outside, putting `d` and then the
bytes `more` of a character, or about to set TXEIE.  The characters after that
one are `ptr`. -/
inductive WritePoint where
  | idle
  | putting (d : UInt8) (more ptr : List UInt8) (pc : Ringbuf.ProducerPc)
  | enabling (ptr : List UInt8)

end Uart

/-- The output ring, the place of the main program, two bits of CR1, the bytes
that were written to the data register, and the console. -/
structure Uart (W : Type) where
  out : OutStream
  point : Uart.WritePoint
  rxneie : Bool
  txeie : Bool
  sent : List UInt8
  console : Console W

namespace Uart

variable {W : Type}

def init (console : Console W) : Uart W :=
  { out := .init
    point := .idle
    rxneie := true
    txeie := false
    sent := []
    console }

/-! ## The interrupt handler -/

def onOut {α : Type} (m : Prog OutStream α) : Prog (Uart W) α :=
  Prog.zoom Uart.out (fun out s => { s with out }) m

def echo (c : BitVec 16) : Prog (Uart W) (BitVec 16) := do
  if c = 13 then
    onOut (outringPut 13)
    onOut (outringPut 10)
    return 10
  onOut (outringPut (UInt8.ofBitVec (c.setWidth 8)))
  return c

def receive (data : BitVec 16) : Prog (Uart W) Unit := do
  let c ← echo data
  -- repeat the character back
  modify fun s => { s with txeie := true }
  let _ ← Prog.zoom Uart.console (fun console s => { s with console })
    (consolePutchar (UInt8.ofBitVec (c.setWidth 8)))

def transmit : Prog (Uart W) Unit := do
  let data ← onOut (onOutring ringbufGet)
  if data = -1 then
    modify fun s => { s with txeie := false }
  else
    modify fun s => { s with sent := s.sent ++ [UInt8.ofInt data] }

/-- `usart1_isr`.  RXNE is set when there is data, and `txe` is TXE. -/
def usart1Isr (data : Option (BitVec 16)) (txe : Bool) : Prog (Uart W) Unit := do
  if (← get).rxneie then
    match data with
    | some data => receive data
    | none => pure ()
  if (← get).txeie ∧ txe then
    transmit

/-! ## The main program -/

def crlf (b : UInt8) : List UInt8 := if b = 10 then [13, 10] else [b]

/-- The loop of `_write` at its head. -/
def WritePoint.next : List UInt8 → WritePoint
  | [] => .idle
  | b :: ptr => if b = 10 then .putting 13 [10] ptr .idle else .putting b [] ptr .idle

/-- A `ringbuf_put` has returned. -/
def WritePoint.put : List UInt8 → List UInt8 → WritePoint
  | [], ptr => .enabling ptr
  | d :: more, ptr => .putting d more ptr .idle

def WritePoint.write (fd : Int) (ptr : List UInt8) : WritePoint :=
  if fd = 1 ∨ fd = 2 then .next ptr else .idle

def stepped (e : Ringbuf.Event) (d : UInt8) (more ptr : List UInt8) (rb : Ringbuf)
    (pc : Ringbuf.ProducerPc) (s : Uart W) : Uart W :=
  match e with
  | .putDone _ =>
      { s with
        point := .put more ptr
        out :=
          { outring := rb
            offered := s.out.offered ++ [d]
            taken := s.out.taken ++ [d]
            overflowed := s.out.overflowed } }
  | .putFull =>
      { s with
        point := .put more ptr
        out :=
          { outring := rb
            offered := s.out.offered ++ [d]
            taken := s.out.taken
            overflowed := true } }
  | _ =>
      { s with
        point := .putting d more ptr pc
        out := { s.out with outring := rb } }

def Within (s : Uart W) : Prop := ∃ d more ptr pc, s.point = .putting d more ptr pc ∧ pc ≠ .idle

inductive Label where
  | write (fd : Int) (ptr : List UInt8)
  | put (e : Ringbuf.Event) (d : UInt8)
  | enable
  | isr (data : Option (BitVec 16)) (txe : Bool)

inductive Next : Uart W → Label → Uart W → Prop
  | write {s : Uart W} {fd : Int} {ptr : List UInt8} : s.point = .idle →
      Next s (.write fd ptr) { s with point := .write fd ptr }
  | put {s : Uart W} {d : UInt8} {more ptr : List UInt8} {pc pc' : Ringbuf.ProducerPc}
      {e : Ringbuf.Event} {rb : Ringbuf} : s.point = .putting d more ptr pc →
      Ringbuf.Step ⟨s.out.outring, pc, .idle⟩ e ⟨rb, pc', .idle⟩ →
      (∀ b, e = .putLoad b → b = d) → Next s (.put e d) (s.stepped e d more ptr rb pc')
  -- What the handler does to CR1 between the load and the store is to set or
  -- clear the bit that is stored as set.
  | enable {s : Uart W} {ptr : List UInt8} : s.point = .enabling ptr →
      Next s .enable { s with txeie := true, point := .next ptr }
  | isr {s s' : Uart W} {data : Option (BitVec 16)} {txe : Bool} :
      usart1Isr data txe s = .ok ((), s') → Next s (.isr data txe) s'

/-! ## What holds between the steps -/

/-- The bytes of the `_write` at hand that are not put yet. -/
def WritePoint.left : WritePoint → List UInt8
  | .idle => []
  | .putting d more ptr _ => d :: more ++ ptr.flatMap crlf
  | .enabling ptr => ptr.flatMap crlf

def Label.written : Label → List UInt8
  | .write fd ptr => if fd = 1 ∨ fd = 2 then ptr.flatMap crlf else []
  | _ => []

def Label.printed : Label → List UInt8
  | .put (.putDone _) d | .put .putFull d => [d]
  | _ => []

def Label.echoed : Label → List UInt8
  | .isr (some c) _ => if c = 13 then [13, 10] else [UInt8.ofBitVec (c.setWidth 8)]
  | _ => []

structure Stream (s : Uart W) (content : List UInt8) : Prop where
  carries : s.out.Carries s.sent content
  knows : ∀ {d more ptr pc}, s.point = .putting d more ptr pc →
    s.out.outring.Knows content d pc
  txeie : content = [] ∨ s.txeie = true ∨ s.point ≠ .idle
  rxneie : s.rxneie = true

section Stream

variable {s s' : Uart W} {content : List UInt8} {l : Label}

theorem init_stream (console : Console W) : (init console).Stream [] where
  carries := OutStream.init_carries
  knows := nofun
  txeie := .inl rfl
  rxneie := rfl

theorem WritePoint.left_next (ptr : List UInt8) : (next ptr).left = ptr.flatMap crlf := by
  cases ptr with
  | nil => rfl
  | cons b ptr =>
      by_cases hb : b = 10 <;> simp [next, left, crlf, hb]

theorem WritePoint.left_put (more ptr : List UInt8) :
    (put more ptr).left = more ++ ptr.flatMap crlf := by
  cases more <;> rfl

def WritePoint.Fresh (point : WritePoint) : Prop :=
  ∀ d more ptr pc, point = .putting d more ptr pc → pc = .idle

theorem WritePoint.fresh_next (ptr : List UInt8) : (next ptr).Fresh := by
  intro d more rest pc h
  cases ptr with
  | nil => cases h
  | cons b ptr =>
      rw [next] at h
      split at h <;> cases h <;> rfl

theorem WritePoint.fresh_put (more ptr : List UInt8) : (put more ptr).Fresh := by
  intro d rest ptr' pc h
  cases more with
  | nil => cases h
  | cons b more =>
      cases h
      rfl

theorem WritePoint.Fresh.knows {point : WritePoint} (h : point.Fresh) {rb : Ringbuf} {d : UInt8}
    {more ptr : List UInt8} {pc : Ringbuf.ProducerPc} (hpoint : point = .putting d more ptr pc) :
    rb.Knows content d pc := by
  rw [h _ _ _ _ hpoint]
  trivial

theorem Stream.put (h : s.Stream content) {d : UInt8} {more ptr : List UInt8}
    {pc pc' : Ringbuf.ProducerPc} {e : Ringbuf.Event} {rb : Ringbuf}
    (hpoint : s.point = .putting d more ptr pc)
    (hstep : Ringbuf.Step ⟨s.out.outring, pc, .idle⟩ e ⟨rb, pc', .idle⟩)
    (hd : ∀ b, e = .putLoad b → b = d) :
    (∃ content', (s.stepped e d more ptr rb pc').Stream content') ∧
      (s.stepped e d more ptr rb pc').out.offered = s.out.offered ++ (Label.put e d).printed ∧
      (Label.put e d).printed ++ (s.stepped e d more ptr rb pc').point.left = s.point.left := by
  obtain ⟨hcontains, hsize, htaken, hoffered, hall⟩ := h.carries
  obtain ⟨hlen, hputs⟩ := (h.knows hpoint).step hcontains hstep hd
  rw [hpoint]
  -- a step that does not return leaves the byte where it is
  have hgoes (hrb : rb.Contains content) (hknows : rb.Knows content d pc') :
      ({ s with
          point := .putting d more ptr pc'
          out := { s.out with outring := rb } } : Uart W).Stream content := by
    refine ⟨⟨hrb, hlen.trans hsize, htaken, hoffered, hall⟩, ?_, .inr (.inr nofun), h.rxneie⟩
    rintro _ _ _ _ ⟨⟩
    exact hknows
  cases hstep with
  | putLoad b => exact ⟨⟨content, hgoes hputs.1 hputs.2⟩, (List.append_nil _).symm, rfl⟩
  | putRoom hne => exact ⟨⟨content, hgoes hputs.1 hputs.2⟩, (List.append_nil _).symm, rfl⟩
  | putWrite => exact ⟨⟨content, hgoes hputs.1 hputs.2⟩, (List.append_nil _).symm, rfl⟩
  | putFull =>
      obtain ⟨-, hrb, -⟩ := hputs
      refine ⟨⟨content, ⟨hrb, hsize, htaken, ?_, nofun⟩, (WritePoint.fresh_put more ptr).knows,
        .inr (.inr ?_), h.rxneie⟩, rfl, ?_⟩
      · exact hoffered.trans (List.sublist_append_left _ _)
      · cases more <;> nofun
      · exact congrArg (d :: ·) (WritePoint.left_put more ptr)
  | putDone =>
      obtain ⟨-, -, hrb⟩ := hputs
      refine ⟨⟨content ++ [d], ⟨hrb, hsize, ?_, ?_, ?_⟩, (WritePoint.fresh_put more ptr).knows,
        .inr (.inr ?_), h.rxneie⟩, rfl, ?_⟩
      · change s.out.taken ++ [d] = s.sent ++ (content ++ [d])
        rw [htaken, List.append_assoc]
      · exact hoffered.append_right [d]
      · intro hno
        exact congrArg (· ++ [d]) (hall hno)
      · cases more <;> nofun
      · exact congrArg (d :: ·) (WritePoint.left_put more ptr)

/-! ## The interrupt handler -/

/-- From `s` to `s'` the handler has put `bytes` into the output ring. -/
structure Echoes (s : Uart W) (bytes : List UInt8) (s' : Uart W) : Prop where
  offered : s'.out.offered = s.out.offered ++ bytes
  carries : ∃ content', s'.out.Carries s.sent content'
  point : s'.point = s.point
  sent : s'.sent = s.sent
  rxneie : s'.rxneie = s.rxneie

theorem wp_onOut {α : Type} {m : Prog OutStream α} {Q : α → Uart W → Prop} :
    Prog.wp (onOut m) Q s ↔ Prog.wp m (fun a out => Q a { s with out }) s.out :=
  Prog.wp_zoom _ _ _ _ _

theorem wp_put (d : UInt8) (h : ∃ content', s.out.Carries s.sent content') :
    Prog.wp (onOut (outringPut d)) (fun _ => s.Echoes [d]) s := by
  obtain ⟨content', hcarries⟩ := h
  rw [wp_onOut]
  refine Prog.wp_mono (wp_outringPut hcarries d) ?_
  rintro _ out ⟨hoffered, hout, -⟩
  exact ⟨hoffered, ⟨_, hout⟩, rfl, rfl, rfl⟩

theorem Echoes.trans {s'' : Uart W} {bytes bytes' : List UInt8} (h : s.Echoes bytes s')
    (h' : s'.Echoes bytes' s'') : s.Echoes (bytes ++ bytes') s'' where
  offered := by rw [h'.offered, h.offered, List.append_assoc]
  carries := h.sent ▸ h'.carries
  point := h'.point.trans h.point
  sent := h'.sent.trans h.sent
  rxneie := h'.rxneie.trans h.rxneie

theorem wp_echo (c : BitVec 16) (h : ∃ content', s.out.Carries s.sent content') (txe : Bool) :
    Prog.wp (echo c) (fun _ => s.Echoes (Label.isr (some c) txe).echoed) s := by
  rw [echo, Prog.wp_ite]
  split
  next hc =>
    subst hc
    rw [Prog.wp_bind]
    refine Prog.wp_mono (wp_put 13 h) fun _ s₁ h₁ => ?_
    rw [Prog.wp_bind]
    refine Prog.wp_mono (wp_put 10 (h₁.sent ▸ h₁.carries)) fun _ s₂ h₂ => ?_
    exact h₁.trans h₂
  next hc =>
    rw [Prog.wp_bind]
    refine Prog.wp_mono (wp_put _ h) fun _ s₁ h₁ => ?_
    rw [Prog.wp_pure, Label.echoed, if_neg hc]
    exact h₁

theorem wp_consolePutchar (d : UInt8) (c : Console W) :
    Prog.wp (consolePutchar d) (fun _ _ => True) c := by
  simp [consolePutchar, onRing, ringbufPut]

theorem wp_receive (c : BitVec 16) (h : ∃ content', s.out.Carries s.sent content') (txe : Bool) :
    Prog.wp (receive c) (fun _ s' =>
      s.Echoes (Label.isr (some c) txe).echoed s' ∧ s'.txeie = true) s := by
  rw [receive, Prog.wp_bind]
  refine Prog.wp_mono (wp_echo c h txe) fun c' s₁ h₁ => ?_
  rw [Prog.wp_bind, Prog.wp_modify, Prog.wp_bind, Prog.wp_zoom]
  refine Prog.wp_mono (wp_consolePutchar _ _) fun _ console _ => ?_
  exact ⟨⟨h₁.offered, h₁.carries, h₁.point, h₁.sent, h₁.rxneie⟩, rfl⟩

/-- What the handler does if the transmitter is ready. -/
structure Transmits (s : Uart W) (content : List UInt8) (s' : Uart W) : Prop where
  offered : s'.out.offered = s.out.offered
  carries : s'.out.Carries s'.sent content.tail
  sent : s'.sent = s.sent ++ content.take 1
  point : s'.point = s.point
  knows : ∀ {d pc}, s.out.outring.Knows content d pc → s'.out.outring.Knows content.tail d pc
  txeie : s'.txeie = if content = [] then false else s.txeie
  rxneie : s'.rxneie = s.rxneie

theorem wp_transmit (h : s.out.Carries s.sent content) :
    Prog.wp transmit (fun _ => s.Transmits content) s := by
  rw [transmit, Prog.wp_bind, wp_onOut]
  cases content with
  | nil =>
      rw [Prog.wp_iff_of_eq h.get_nil, if_pos rfl, Prog.wp_modify]
      exact ⟨rfl, h, (List.append_nil _).symm, rfl, id, rfl, rfl⟩
  | cons b rest =>
      obtain ⟨out, hget, hcarries, hoffered, -, -⟩ := h.get_cons
      have hframe : Prog.wp (onOutring ringbufGet) (fun _ out' =>
          out'.outring.writei = s.out.outring.writei ∧ out'.outring.bufp = s.out.outring.bufp ∧
            out'.outring.bufLen = s.out.outring.bufLen) s.out := by
        rw [onOutring, Prog.wp_zoom]
        exact Ringbuf.ringbufGet_frame h.contains
      rw [Prog.wp_iff_of_eq hget] at hframe
      obtain ⟨hwritei, hbufp, hbufLen⟩ := hframe
      have hne : (b.toNat : Int) ≠ -1 := by omega
      rw [Prog.wp_iff_of_eq hget, if_neg hne, Prog.wp_modify, ofInt_toNat]
      refine ⟨hoffered, hcarries, rfl, rfl, fun hknows => ?_, rfl, rfl⟩
      exact hknows.get hwritei hbufp hbufLen (Nat.le_succ _)

theorem Stream.transmits (h : s.Stream content) (ht : s.Transmits content s') :
    s'.Stream content.tail where
  carries := ht.carries
  knows := fun hpoint => ht.knows (h.knows (ht.point.symm.trans hpoint))
  txeie := by
    rw [ht.txeie, ht.point]
    by_cases hnil : content = []
    · exact .inl (by rw [hnil]; rfl)
    · rw [if_neg hnil]
      exact .inr (h.txeie.resolve_left hnil)
  rxneie := ht.rxneie.trans h.rxneie

theorem Stream.echoes {bytes : List UInt8} (h : s.Stream content) (he : s.Echoes bytes s')
    (hcalm : ¬ s.Within) (htxeie : s'.txeie = true) : ∃ content', s'.Stream content' := by
  obtain ⟨content', hcarries⟩ := he.carries
  refine ⟨content', he.sent ▸ hcarries, ?_, .inr (.inl htxeie), he.rxneie.trans h.rxneie⟩
  intro d more ptr pc hpoint
  have hidle : pc = .idle := by
    by_contra hpc
    exact hcalm ⟨d, more, ptr, pc, he.point.symm.trans hpoint, hpc⟩
  subst hidle
  trivial

theorem Stream.isr (h : s.Stream content) {data : Option (BitVec 16)} {txe : Bool}
    (hcalm : data.isSome → ¬ s.Within) :
    Prog.wp (usart1Isr data txe) (fun _ s' => (∃ content', s'.Stream content') ∧
      s'.out.offered = s.out.offered ++ (Label.isr data txe).echoed ∧ s'.point = s.point) s := by
  have hthen : ∀ {s₁ : Uart W}, (∃ content', s₁.Stream content') →
      Prog.wp (do if (← get).txeie ∧ txe then transmit) (fun _ s' =>
        (∃ content', s'.Stream content') ∧ s'.out.offered = s₁.out.offered ∧
          s'.point = s₁.point) s₁ := by
    intro s₁ h₁
    rw [Prog.wp_bind, Prog.wp_get, Prog.wp_ite]
    split
    · obtain ⟨content', h₁⟩ := h₁
      exact Prog.wp_mono (wp_transmit h₁.carries) fun _ s' ht =>
        ⟨⟨_, h₁.transmits ht⟩, ht.offered, ht.point⟩
    · exact ⟨h₁, rfl, rfl⟩
  rw [usart1Isr, Prog.wp_bind, Prog.wp_get, if_pos h.rxneie]
  cases data with
  | none =>
      refine Prog.wp_mono (hthen ⟨content, h⟩) fun _ s' h' => ⟨h'.1, ?_, h'.2.2⟩
      rw [h'.2.1]
      exact (List.append_nil _).symm
  | some c =>
      rw [Prog.wp_bind]
      refine Prog.wp_mono (wp_receive c ⟨content, h.carries⟩ txe) ?_
      rintro _ s₁ ⟨he, htxeie⟩
      refine Prog.wp_mono (hthen (h.echoes he (hcalm rfl) htxeie)) ?_
      rintro _ s' ⟨h', hoffered, hpoint⟩
      exact ⟨h', hoffered.trans he.offered, hpoint.trans he.point⟩

theorem Stream.txe (h : s.Stream content) (htxeie : s.txeie = true) :
    Prog.wp (usart1Isr none true) (fun _ s' => s'.Stream content.tail ∧
      s'.sent = s.sent ++ content.take 1 ∧ s'.txeie = !content.isEmpty) s := by
  rw [usart1Isr, Prog.wp_bind, Prog.wp_get, if_pos h.rxneie, Prog.wp_bind, Prog.wp_get,
    if_pos ⟨htxeie, rfl⟩]
  refine Prog.wp_mono (wp_transmit h.carries) fun _ s' ht => ⟨h.transmits ht, ht.sent, ?_⟩
  rw [ht.txeie, htxeie]
  cases content <;> rfl

theorem Stream.drains (h : s.Stream content) (htxeie : s.txeie = true) :
    ∃ s', Run Next s (List.replicate (content.length + 1) (.isr none true)) s' ∧
      s'.sent = s.sent ++ content ∧ s'.txeie = false := by
  induction content generalizing s with
  | nil =>
      obtain ⟨_, s', hisr, -, hsent, htxeie'⟩ := Prog.wp_iff_exists.mp (h.txe htxeie)
      exact ⟨s', .single (.isr hisr), hsent, htxeie'⟩
  | cons b rest ih =>
      obtain ⟨_, s₁, hisr, h₁, hsent, htxeie₁⟩ := Prog.wp_iff_exists.mp (h.txe htxeie)
      obtain ⟨s', hrun, hsent', htxeie'⟩ := ih h₁ htxeie₁
      refine ⟨s', .cons (.isr hisr) hrun, ?_, htxeie'⟩
      rw [hsent', hsent]
      simp

end Stream

/-! ## The main program goes on -/

theorem exists_next {s : Uart W} (hpoint : s.point ≠ .idle) :
    ∃ l s', Next s l s' ∧ ∀ data txe, l ≠ .isr data txe := by
  cases h : s.point with
  | idle => exact absurd h hpoint
  | enabling ptr => exact ⟨_, _, .enable h, nofun⟩
  | putting d more ptr pc =>
      cases pc with
      | idle => exact ⟨_, _, .put h (.putLoad d) fun b hb => by cases hb; rfl, nofun⟩
      | loaded b old new =>
          by_cases hnew : new = s.out.outring.readi
          · subst hnew
            exact ⟨_, _, .put h .putFull nofun, nofun⟩
          · exact ⟨_, _, .put h (.putRoom hnew) nofun, nofun⟩
      | writing b old new => exact ⟨_, _, .put h .putWrite nofun, nofun⟩
      | storing b new => exact ⟨_, _, .put h .putDone nofun, nofun⟩

def WritePoint.work : WritePoint → Nat
  | .idle => 0
  | .putting _ more ptr pc =>
      5 * (more ++ ptr.flatMap crlf).length +
        match pc with
        | .idle => 5
        | .loaded _ _ _ => 4
        | .writing _ _ _ => 3
        | .storing _ _ => 2
  | .enabling ptr => 5 * (ptr.flatMap crlf).length + 1

theorem WritePoint.work_next (ptr : List UInt8) :
    (next ptr).work = 5 * (ptr.flatMap crlf).length := by
  cases ptr with
  | nil => rfl
  | cons b ptr =>
      by_cases hb : b = 10 <;> simp [next, work, crlf, hb] <;> omega

theorem WritePoint.work_put (more ptr : List UInt8) :
    (put more ptr).work ≤ 5 * (more ++ ptr.flatMap crlf).length + 1 := by
  cases more with
  | nil => exact Nat.le_refl _
  | cons d more =>
      simp only [put, work, List.cons_append, List.length_cons]
      omega

def Label.steps : Label → Nat
  | .put _ _ | .enable => 1
  | _ => 0

theorem work_stepped {s : Uart W} {d : UInt8} {more ptr : List UInt8}
    {pc pc' : Ringbuf.ProducerPc} {e : Ringbuf.Event} {rb : Ringbuf}
    (hstep : Ringbuf.Step ⟨s.out.outring, pc, .idle⟩ e ⟨rb, pc', .idle⟩) :
    (s.stepped e d more ptr rb pc').point.work + 1 ≤ (WritePoint.putting d more ptr pc).work := by
  have hput := WritePoint.work_put more ptr
  cases hstep with
  | putLoad b => exact Nat.le_refl _
  | putRoom hne => exact Nat.le_refl _
  | putWrite => exact Nat.le_refl _
  | putFull =>
      change (WritePoint.put more ptr).work + 1 ≤ 5 * (more ++ ptr.flatMap crlf).length + 4
      omega
  | putDone =>
      change (WritePoint.put more ptr).work + 1 ≤ 5 * (more ++ ptr.flatMap crlf).length + 2
      omega

/-! ## Whole runs -/

/-- No byte is received within a `ringbuf_put` of the main program. -/
def Calm (s : Uart W) : Label → Prop
  | .isr (some _) _ => ¬ s.Within
  | _ => True

structure Accounts (ls : List Label) (s : Uart W) : Prop where
  stream : ∃ content, s.Stream content
  offered : s.out.offered = ls.flatMap fun l => l.printed ++ l.echoed
  left : ls.flatMap Label.printed ++ s.point.left = ls.flatMap Label.written
  work : (ls.map Label.steps).sum + s.point.work ≤ 5 * (ls.flatMap Label.written).length

theorem init_accounts (console : Console W) : Accounts [] (init console) where
  stream := ⟨[], init_stream console⟩
  offered := rfl
  left := rfl
  work := Nat.le_refl _

theorem Accounts.next {ls : List Label} {s s' : Uart W} {l : Label} (h : Accounts ls s)
    (hnext : Next s l s') (hcalm : s.Calm l) : Accounts (ls ++ [l]) s' := by
  obtain ⟨⟨content, hstream⟩, hoffered, hleft, hwork⟩ := h
  have hsteps : ((ls ++ [l]).map Label.steps).sum = (ls.map Label.steps).sum + l.steps := by
    simp
  have hlen : ((ls ++ [l]).flatMap Label.written).length =
      (ls.flatMap Label.written).length + l.written.length := by
    rw [List.flatMap_append, List.flatMap_singleton, List.length_append]
  cases hnext with
  | @write fd ptr hpoint =>
      have hwritten : (WritePoint.write fd ptr).left = (Label.write fd ptr).written ∧
          (WritePoint.write fd ptr).work = 5 * (Label.write fd ptr).written.length ∧
          (WritePoint.write fd ptr).Fresh := by
        by_cases hfd : fd = 1 ∨ fd = 2
        · simp only [WritePoint.write, Label.written, hfd, if_true]
          exact ⟨WritePoint.left_next ptr, WritePoint.work_next ptr, WritePoint.fresh_next ptr⟩
        · simp only [WritePoint.write, Label.written, hfd, if_false]
          exact ⟨rfl, rfl, nofun⟩
      have hidle : s.point.left = [] ∧ s.point.work = 0 := by simp [hpoint, WritePoint.left,
        WritePoint.work]
      rw [hidle.1, List.append_nil] at hleft
      refine ⟨⟨content, hstream.carries, hwritten.2.2.knows, ?_, hstream.rxneie⟩, ?_, ?_, ?_⟩
      · exact hstream.txeie.imp_right fun h => .inl (h.resolve_right (not_not_intro hpoint))
      · rw [hoffered]
        simp [Label.printed, Label.echoed]
      · rw [hwritten.1]
        simp [hleft, Label.printed]
      · rw [hwritten.2.1, hsteps, hlen, show (Label.write fd ptr).steps = 0 from rfl]
        omega
  | @put d more ptr pc pc' e rb hpoint hstep hd =>
      obtain ⟨hstream', hoffered', hleft'⟩ := hstream.put hpoint hstep hd
      have hwork' := @work_stepped _ s d more ptr _ _ _ _ hstep
      rw [hpoint] at hwork
      refine ⟨hstream', ?_, ?_, ?_⟩
      · rw [hoffered', hoffered]
        simp [Label.echoed]
      · rw [List.flatMap_append, List.flatMap_singleton, List.append_assoc, hleft', hleft]
        simp [Label.written]
      · rw [hsteps, hlen, Label.steps]
        omega
  | @enable ptr hpoint =>
      rw [hpoint] at hleft hwork
      refine ⟨⟨content, hstream.carries, (WritePoint.fresh_next ptr).knows, .inr (.inl rfl),
        hstream.rxneie⟩, ?_, ?_, ?_⟩
      · rw [hoffered]
        simp [Label.printed, Label.echoed]
      · rw [WritePoint.left_next]
        simpa [Label.printed, Label.written, WritePoint.left] using hleft
      · rw [WritePoint.work] at hwork
        rw [WritePoint.work_next, hsteps, hlen, Label.steps]
        omega
  | @isr _ data txe hisr =>
      have hquiet : data.isSome → ¬ s.Within := by
        cases data with
        | none => nofun
        | some c => exact fun _ => hcalm
      obtain ⟨hstream', hoffered', hpoint⟩ := (Prog.wp_iff_of_eq hisr).mp (hstream.isr hquiet)
      refine ⟨hstream', ?_, ?_, ?_⟩
      · rw [hoffered', hoffered]
        simp [Label.printed]
      · rw [hpoint]
        simpa [Label.printed, Label.written] using hleft
      · rw [hpoint]
        simpa [Label.steps, Label.written] using hwork

/-- What was put into the output ring has been sent or is in the ring, in the
order in which it was printed and echoed; `_write` goes on and ends however
often it is interrupted, and the interrupts do not end while there is something
to send. -/
theorem uart_output {console : Console W} {ls : List Label} {s : Uart W}
    (hrun : Run (fun s l s' => Next s l s' ∧ s.Calm l) (init console) ls s) :
    (∃ content, s.out.outring.Contains content ∧ s.out.taken = s.sent ++ content ∧
      (content = [] ∨ s.txeie = true ∨ s.point ≠ .idle) ∧
      (s.txeie = true → ∃ s', Run Next s (List.replicate (content.length + 1) (.isr none true)) s' ∧
        s'.sent = s.out.taken ∧ s'.txeie = false)) ∧
      s.out.offered = (ls.flatMap fun l => l.printed ++ l.echoed) ∧
      s.out.taken.Sublist s.out.offered ∧
      (s.out.overflowed = false → s.out.taken = s.out.offered) ∧
      ls.flatMap Label.printed ++ s.point.left = ls.flatMap Label.written ∧
      (ls.map Label.steps).sum + s.point.work ≤ 5 * (ls.flatMap Label.written).length ∧
      (s.point ≠ .idle → ∃ l s', Next s l s' ∧ ∀ data txe, l ≠ .isr data txe) := by
  obtain ⟨⟨content, hstream⟩, hoffered, hleft, hwork⟩ :=
    hrun.traceInvariant (init_accounts console) fun _ _ _ _ h hnext => h.next hnext.1 hnext.2
  have hcarries := hstream.carries
  refine ⟨⟨content, hcarries.contains, hcarries.taken, hstream.txeie, fun htxeie => ?_⟩,
    hoffered, hcarries.offered, hcarries.all, hleft, hwork, exists_next⟩
  rw [hcarries.taken]
  exact hstream.drains htxeie

theorem uart_output_write : ∃ s : Uart Unit,
    Run (fun s l s' => Next s l s' ∧ s.Calm l) (init (consoleInit ()))
      [.write 1 [104], .put (.putLoad 104) 104, .isr none true, .put .putRoom 104,
        .put (.putWrite 0) 104, .put (.putDone 104) 104, .enable] s ∧
      ∃ s', Run Next s [.isr none true, .isr none true] s' ∧ s'.sent = [104] := by
  have hload : ∀ b, Ringbuf.Event.putLoad 104 = .putLoad b → b = 104 := by
    rintro b ⟨⟩
    rfl
  have hrun : ∃ s : Uart Unit, Run (fun s l s' => Next s l s' ∧ s.Calm l) (init (consoleInit ()))
      [.write 1 [104], .put (.putLoad 104) 104, .isr none true, .put .putRoom 104,
        .put (.putWrite 0) 104, .put (.putDone 104) 104, .enable] s ∧
      s.sent = [] ∧ s.txeie = true ∧ s.out.overflowed = false :=
    ⟨_, .cons ⟨.write rfl, trivial⟩ (.cons ⟨.put rfl (.putLoad 104) hload, trivial⟩
      (.cons ⟨.isr rfl, trivial⟩ (.cons ⟨.put rfl (.putRoom (by decide)) nofun, trivial⟩
        (.cons ⟨.put rfl .putWrite nofun, trivial⟩ (.cons ⟨.put rfl .putDone nofun, trivial⟩
          (.single ⟨.enable rfl, trivial⟩)))))), rfl, rfl, rfl⟩
  obtain ⟨s, hrun, hsent, htxeie, hall⟩ := hrun
  obtain ⟨⟨content, -, htaken, -, hdrains⟩, hoffered, -, htakes, -⟩ := uart_output hrun
  have htaken' : s.out.taken = [104] := (htakes hall).trans hoffered
  have hcontent : content = [104] := by rw [← htaken', htaken, hsent, List.nil_append]
  obtain ⟨s', hrun', hsent', -⟩ := hdrains htxeie
  refine ⟨s, hrun, s', ?_, hsent'.trans htaken'⟩
  rw [hcontent] at hrun'
  exact hrun'

/-- A byte received within a `ringbuf_put` makes the handler a second producer,
and a character that was taken is lost. -/
theorem echo_race : ∃ s : Uart Unit, Run Next (init (consoleInit ()))
    [.write 1 [120], .put (.putLoad 120) 120, .put .putRoom 120, .isr (some 97) true,
      .put (.putWrite 0) 120, .put (.putDone 120) 120, .enable] s ∧
    s.point = .idle ∧ s.out.overflowed = false ∧ s.out.taken = [97, 120] ∧ s.sent = [97] ∧
    s.out.outring.readi = s.out.outring.writei := by
  have hload : ∀ b, Ringbuf.Event.putLoad 120 = .putLoad b → b = 120 := by
    rintro b ⟨⟩
    rfl
  exact ⟨_, .cons (.write rfl) (.cons (.put rfl (.putLoad 120) hload)
    (.cons (.put rfl (.putRoom (by decide)) nofun) (.cons (.isr rfl)
      (.cons (.put rfl .putWrite nofun) (.cons (.put rfl .putDone nofun)
        (.single (.enable rfl))))))), rfl, rfl, rfl, rfl, rfl⟩

end Uart

end Librfn
