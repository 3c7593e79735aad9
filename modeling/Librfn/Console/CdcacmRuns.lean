import Librfn.Console.Cdcacm
import Librfn.Logic.Transition

/-!
# What the USB host receives

The fibres of the USB console take turns: one that prints, the USB fibre with
its receive callback, and the output fibre.  No byte that the output ring took
is lost, sent twice or sent out of order, and none is forgotten in the ring.
-/

namespace Librfn

open Librfn.Logic Protothread

/-- The output fibre with its `pt_t`, whether it is on the run queue or asked
for in the atomic run queue, the free entries of the latter, its taint, and the
input ring of the console. -/
structure Cdcacm where
  output : CdcOutput
  pt : BitVec 16
  queued : Bool
  free : Nat
  tainted : Bool
  ring : Ringbuf

def Cdcacm.init : Cdcacm :=
  { output :=
      { out := .init
        ch := 0
        got := 0
        sent := []
        room := 0
        time := 0
        now := 0
        armed := false }
    pt := 0
    queued := false
    free := 8
    tainted := false
    ring := ringbufInit (fun _ => 0) 16 }

namespace Cdcacm

def onOut (m : Prog OutStream Unit) : Prog Cdcacm Unit :=
  Prog.zoom (fun s => s.output.out)
    (fun out s => { s with output := { s.output with out } }) m

/-- `fibre_run_atomic` claims an entry or leaves a taint. -/
def runAtomic : Prog Cdcacm Bool := do
  if (← get).free = 0 then
    modify fun s => { s with tainted := true }
    return false
  modify fun s => { s with free := s.free - 1 }
  return true

def runOutput : Prog Cdcacm Unit :=
  modify fun s => { s with
    free := 8
    queued := true
    output := { s.output with armed := false } }

def putchar (d : UInt8) : Prog Cdcacm Unit := do
  let _ ← Prog.zoom Cdcacm.ring (fun ring s => { s with ring }) (ringbufPut d)
  let _ ← runAtomic

def receiveLoop : List UInt8 → Prog Cdcacm Unit
  | [] => pure ()
  | b :: buf => do
      onOut (outringPut b)
      if b = 13 then
        onOut (outringPut 10)
        putchar 10
      else
        putchar b
      receiveLoop buf

def cdcacmDataRxCb (buf : List UInt8) : Prog Cdcacm Unit := do
  receiveLoop buf
  if ← runAtomic then
    modify fun s => { s with queued := true }

def writeLoop : List UInt8 → Prog Cdcacm Unit
  | [] => pure ()
  | b :: ptr => do
      if b = 10 then onOut (outringPut 13)
      onOut (outringPut b)
      writeLoop ptr

def write (fd : Int) (ptr : List UInt8) : Prog Cdcacm Int := do
  if fd = 1 ∨ fd = 2 then
    writeLoop ptr
    runOutput
    return 0
  return -1

def pass (time : Nat) (s : Cdcacm) : Cdcacm :=
  let now := BitVec.ofNat 32 time
  let due := s.output.armed ∧ cyclecmp32 (BitVec.ofNat 32 settleTime) now ≤ 0
  { s with
    free := 8
    queued := s.queued || due
    output := { s.output with
      time, now
      armed := if s.queued ∨ due then false else s.output.armed } }

/-- The output fibre has returned; one that has exited starts again. -/
def returned (res : PtState) (a : Instance CdcOutput) (s : Cdcacm) : Cdcacm :=
  { s with
    output := a.vars
    queued := decide (res = .yielded)
    pt := if active res then a.pt else 0 }

inductive Label where
  | pass (time : Nat)
  /-- A pass that dispatches the output fibre, and how many packets the endpoint
  takes before it refuses one. -/
  | call (time room : Nat)
  | write (fd : Int) (ptr : List UInt8)
  | receive (buf : List UInt8)

inductive Next : Cdcacm → Label → Cdcacm → Prop
  | pass {s : Cdcacm} {time : Nat} : s.output.time ≤ time → Next s (.pass time) (s.pass time)
  | call {s : Cdcacm} {time room : Nat} {res : PtState} {a : Instance CdcOutput} :
      s.output.time ≤ time → (s.pass time).queued = true →
      outputFibre.Returns ⟨s.pt, { (s.pass time).output with room }⟩ (res, a) →
      Next s (.call time room) ((s.pass time).returned res a)
  | write {s s' : Cdcacm} {fd : Int} {ptr : List UInt8} {r : Int} :
      write fd ptr s = .ok (r, s') → Next s (.write fd ptr) s'
  | receive {s s' : Cdcacm} {buf : List UInt8} :
      cdcacmDataRxCb buf s = .ok ((), s') → Next s (.receive buf) s'

def Label.offered : Label → List UInt8
  | .pass _ | .call _ _ => []
  | .write fd ptr =>
      if fd = 1 ∨ fd = 2 then ptr.flatMap fun b => if b = 10 then [13, 10] else [b] else []
  | .receive buf => buf.flatMap fun b => if b = 13 then [13, 10] else [b]

/-- The byte that the fibre has taken and not sent. -/
def held (s : Cdcacm) : List UInt8 := if s.pt = 223 then [s.output.ch] else []

/-! ## Printing -/

/-- From `s` to `s'` bytes were put into the output ring, and nothing else of
the output fibre has changed. -/
structure Prints (gone : List UInt8) (s : Cdcacm) (bytes : List UInt8) (s' : Cdcacm) :
    Prop where
  offered : s'.output.out.offered = s.output.out.offered ++ bytes
  carries : ∃ content, s'.output.out.Carries gone content
  output : s'.output = { s.output with out := s'.output.out }
  pt : s'.pt = s.pt
  queued : s'.queued = s.queued
  tainted : s.tainted = true → s'.tainted = true

section Prints

variable {s s' s'' : Cdcacm} {gone bytes bytes' content : List UInt8}

theorem Prints.trans (h : Prints gone s bytes s') (h' : Prints gone s' bytes' s'') :
    Prints gone s (bytes ++ bytes') s'' where
  offered := by rw [h'.offered, h.offered, List.append_assoc]
  carries := h'.carries
  output := by rw [h'.output, h.output]
  pt := h'.pt.trans h.pt
  queued := h'.queued.trans h.queued
  tainted := fun ht => h'.tainted (h.tainted ht)

theorem Prints.refl (h : s.output.out.Carries gone content) : Prints gone s [] s :=
  ⟨by simp, ⟨content, h⟩, rfl, rfl, rfl, id⟩

theorem wp_put (d : UInt8) (h : ∃ content, s.output.out.Carries gone content) :
    Prog.wp (onOut (outringPut d)) (fun _ => Prints gone s [d]) s := by
  obtain ⟨content, hcontent⟩ := h
  rw [onOut, Prog.wp_zoom]
  refine Prog.wp_mono (wp_outringPut hcontent d) ?_
  rintro _ out ⟨hoffered, hcarries, -⟩
  exact ⟨hoffered, ⟨_, hcarries⟩, rfl, rfl, rfl, id⟩

theorem wp_runAtomic (h : ∃ content, s.output.out.Carries gone content) :
    Prog.wp runAtomic (fun ok s' => Prints gone s [] s' ∧
      (ok = false → s'.tainted = true)) s := by
  obtain ⟨content, hcontent⟩ := h
  rw [runAtomic, Prog.wp_bind, Prog.wp_get, Prog.wp_ite]
  split
  · exact ⟨⟨by simp, ⟨content, hcontent⟩, rfl, rfl, rfl, fun _ => rfl⟩, fun _ => rfl⟩
  · exact ⟨⟨by simp, ⟨content, hcontent⟩, rfl, rfl, rfl, id⟩, nofun⟩

theorem wp_putchar (d : UInt8) (h : ∃ content, s.output.out.Carries gone content) :
    Prog.wp (putchar d) (fun _ => Prints gone s []) s := by
  have hput : ∀ rb, Prog.wp (ringbufPut d) (fun _ _ => True) rb := by
    intro rb
    simp [ringbufPut]
  rw [putchar, Prog.wp_bind, Prog.wp_zoom]
  refine Prog.wp_mono (hput s.ring) ?_
  intro _ ring _
  rw [Prog.wp_bind]
  refine Prog.wp_mono (wp_runAtomic (s := { s with ring }) h) ?_
  rintro _ s' ⟨hprints, -⟩
  exact ⟨hprints.offered, hprints.carries, hprints.output, hprints.pt, hprints.queued,
    hprints.tainted⟩

theorem wp_receiveLoop (buf : List UInt8) (h : ∃ content, s.output.out.Carries gone content) :
    Prog.wp (receiveLoop buf) (fun _ => Prints gone s (Label.receive buf).offered) s := by
  induction buf generalizing s with
  | nil =>
      obtain ⟨content, hcontent⟩ := h
      exact .refl hcontent
  | cons b buf ih =>
      rw [receiveLoop, Prog.wp_bind]
      refine Prog.wp_mono (wp_put b h) fun _ s₁ h₁ => ?_
      have hrest : ∀ {bytes : List UInt8} {s₂ : Cdcacm}, Prints gone s bytes s₂ →
          Prog.wp (receiveLoop buf)
            (fun _ => Prints gone s (bytes ++ (Label.receive buf).offered)) s₂ :=
        fun h₂ => Prog.wp_mono (ih h₂.carries) fun _ s₃ h₃ => h₂.trans h₃
      have hoffered : (Label.receive (b :: buf)).offered =
          (if b = 13 then [13, 10] else [b]) ++ (Label.receive buf).offered := rfl
      rw [hoffered]
      by_cases hb : b = 13
      · subst hb
        rw [if_pos rfl, if_pos rfl, Prog.wp_bind]
        refine Prog.wp_mono (wp_put 10 h₁.carries) fun _ s₂ h₂ => ?_
        have h₂' := h₁.trans h₂
        rw [Prog.wp_bind]
        refine Prog.wp_mono (wp_putchar 10 h₂'.carries) fun _ s₃ h₃ => ?_
        exact hrest (by simpa using h₂'.trans h₃)
      · rw [if_neg hb, if_neg hb, Prog.wp_bind]
        refine Prog.wp_mono (wp_putchar b h₁.carries) fun _ s₂ h₂ => ?_
        exact hrest (by simpa using h₁.trans h₂)

theorem wp_writeLoop (ptr : List UInt8) (h : ∃ content, s.output.out.Carries gone content) :
    Prog.wp (writeLoop ptr) (fun _ => Prints gone s (Label.write 1 ptr).offered) s := by
  induction ptr generalizing s with
  | nil =>
      obtain ⟨content, hcontent⟩ := h
      exact .refl hcontent
  | cons b ptr ih =>
      have hrest : ∀ {bytes : List UInt8} {s₂ : Cdcacm}, Prints gone s bytes s₂ →
          Prog.wp (do onOut (outringPut b); writeLoop ptr)
            (fun _ => Prints gone s (bytes ++ [b] ++ (Label.write 1 ptr).offered)) s₂ := by
        intro bytes s₂ h₂
        rw [Prog.wp_bind]
        refine Prog.wp_mono (wp_put b h₂.carries) fun _ s₃ h₃ => ?_
        exact Prog.wp_mono (ih h₃.carries) fun _ s₄ h₄ => (h₂.trans h₃).trans h₄
      have hoffered : (Label.write 1 (b :: ptr)).offered =
          (if b = 10 then [13, 10] else [b]) ++ (Label.write 1 ptr).offered := by
        simp [Label.offered]
      rw [hoffered, writeLoop]
      by_cases hb : b = 10
      · subst hb
        rw [if_pos rfl, if_pos rfl, Prog.wp_bind]
        exact Prog.wp_mono (wp_put 13 h) fun _ s₁ h₁ => hrest h₁
      · obtain ⟨content, hcontent⟩ := h
        rw [if_neg hb, if_neg hb]
        exact hrest (.refl hcontent)

end Prints

/-! ## What holds between the calls -/

/-- A fibre that has something to do will be called. -/
structure Stream (s : Cdcacm) (content : List UInt8) : Prop where
  carries : s.output.out.Carries (s.output.sent ++ s.held) content
  pt : s.pt = 0 ∨ s.pt = 213 ∨ s.pt = 223
  started : s.pt ≠ 0 → s.queued = true ∨ s.pt = 213 ∧ s.output.armed = true
  idle : s.pt = 0 → content = [] ∨ s.queued = true ∨ s.tainted = true

section Stream

variable {s s' : Cdcacm} {content bytes : List UInt8}

theorem init_stream : init.Stream [] where
  carries := OutStream.init_carries
  pt := .inl rfl
  started := fun h => absurd rfl h
  idle := fun _ => .inl rfl

theorem held_congr (hpt : s'.pt = s.pt) (hch : s'.output.ch = s.output.ch) :
    s'.held = s.held := by
  rw [held, held, hpt, hch]

theorem Stream.prints (h : s.Stream content) {s₁ : Cdcacm}
    (hprints : Prints (s.output.sent ++ s.held) s bytes s₁) (hout : s'.output.out = s₁.output.out)
    (hsent : s'.output.sent = s₁.output.sent) (hch : s'.output.ch = s₁.output.ch)
    (hpt : s'.pt = s₁.pt) (hqueued : s'.queued = true ∨
      s'.output.armed = s₁.output.armed ∧ s'.queued = s₁.queued ∧ s'.tainted = true) :
    ∃ content', s'.Stream content' := by
  obtain ⟨content', hcarries⟩ := hprints.carries
  have houtput := hprints.output
  have hpt' := hpt.trans hprints.pt
  have hheld : s'.held = s.held := held_congr hpt' (by rw [hch, houtput])
  have hsent' : s'.output.sent = s.output.sent := by rw [hsent, houtput]
  refine ⟨content', ?_, ?_, ?_, fun _ => .inr (hqueued.imp_right fun h => h.2.2)⟩
  · rw [hheld, hsent', hout]
    exact hcarries
  · rw [hpt']
    exact h.pt
  · rcases hqueued with hq | ⟨harmed, hq, -⟩
    · exact fun _ => .inl hq
    · rw [hpt', hq, hprints.queued, harmed, houtput]
      exact h.started

theorem Stream.pass (h : s.Stream content) (time : Nat) : (s.pass time).Stream content where
  carries := h.carries
  pt := h.pt
  started := by
    intro hpt
    rcases h.started hpt with hq | ⟨h213, harmed⟩
    · exact .inl (by simp [Cdcacm.pass, hq])
    · by_cases hdue : cyclecmp32 (BitVec.ofNat 32 settleTime) (BitVec.ofNat 32 time) ≤ 0
      · exact .inl (by simp [Cdcacm.pass, harmed, hdue])
      · cases hq : s.queued with
        | true => exact .inl (by simp [Cdcacm.pass, hq])
        | false => exact .inr ⟨h213, by simp [Cdcacm.pass, harmed, hdue, hq]⟩
  idle := by
    intro hpt
    rcases h.idle hpt with hnil | hq | ht
    · exact .inl hnil
    · exact .inr (.inl (by simp [Cdcacm.pass, hq]))
    · exact .inr (.inr ht)

theorem Stream.receive (h : s.Stream content) (buf : List UInt8) :
    Prog.wp (cdcacmDataRxCb buf) (fun _ s' => (∃ content', s'.Stream content') ∧
      s'.output.out.offered = s.output.out.offered ++ (Label.receive buf).offered) s := by
  rw [cdcacmDataRxCb, Prog.wp_bind]
  refine Prog.wp_mono (wp_receiveLoop buf ⟨content, h.carries⟩) fun _ s₁ h₁ => ?_
  rw [Prog.wp_bind]
  refine Prog.wp_mono (wp_runAtomic h₁.carries) ?_
  rintro ok s₂ ⟨h₂, htaint⟩
  have h₂' := h₁.trans h₂
  rw [List.append_nil] at h₂'
  cases ok with
  | false => exact ⟨h.prints h₂' rfl rfl rfl rfl (.inr ⟨rfl, rfl, htaint rfl⟩), h₂'.offered⟩
  | true =>
      exact ⟨@Stream.prints _ { s₂ with queued := true } _ _ h _ h₂' rfl rfl rfl rfl (.inl rfl),
        h₂'.offered⟩

theorem Stream.write (h : s.Stream content) (fd : Int) (ptr : List UInt8) :
    Prog.wp (Cdcacm.write fd ptr) (fun _ s' => (∃ content', s'.Stream content') ∧
      s'.output.out.offered = s.output.out.offered ++ (Label.write fd ptr).offered) s := by
  rw [Cdcacm.write, Prog.wp_ite]
  split
  next hfd =>
    have hoffered : (Label.write fd ptr).offered = (Label.write 1 ptr).offered := by
      simp [Label.offered, hfd]
    rw [Prog.wp_bind, hoffered]
    refine Prog.wp_mono (wp_writeLoop ptr ⟨content, h.carries⟩) fun _ s₁ h₁ => ?_
    exact ⟨h.prints h₁ rfl rfl rfl rfl (.inl rfl), h₁.offered⟩
  next hfd =>
    exact ⟨⟨content, h⟩, by simp [Label.offered, hfd]⟩

/-! ## A call of the output fibre -/

/-- The output has settled, or the fibre is beyond that point. -/
def Settled (s : Cdcacm) (time : Nat) : Prop :=
  s.pt = 223 ∨ s.pt = 213 ∧ cyclecmp32 (BitVec.ofNat 32 settleTime) (BitVec.ofNat 32 time) ≤ 0 ∨
    s.pt = 0 ∧ (settleTime ≤ time ∨
      cyclecmp32 (BitVec.ofNat 32 settleTime) (BitVec.ofNat 32 time) ≤ 0)

theorem stream_of_returns {o : CdcOutput} {res : PtState} {a : Instance CdcOutput}
    (h : o.Returns o.sent content res a) :
    (∃ content', (s.returned res a).Stream content') ∧ a.vars.out.offered = o.out.offered ∧
      a.vars.sent = o.sent ++ content.take o.room := by
  obtain ⟨hpumps, hkept, hpt⟩ := h
  cases hpumps with
  | all hlen hcarries hsent =>
      refine ⟨⟨[], ?_, .inl rfl, fun h => absurd rfl h, fun _ => .inl rfl⟩, hkept.offered, ?_⟩
      · have hheld : (s.returned .exited a).held = [] := rfl
        rw [hheld, List.append_nil]
        exact hsent ▸ hcarries
      · rw [hsent, List.take_of_length_le hlen]
  | @some _ bytes rest b hsplit hlen hcarries hch hsent =>
      have hpt223 : (s.returned .yielded a).pt = 223 := hpt rfl
      have hheld : (s.returned .yielded a).held = [b] := by
        rw [held, if_pos hpt223, ← hch]
        rfl
      refine ⟨⟨rest, ?_, .inr (.inr hpt223), fun _ => .inl rfl, ?_⟩, hkept.offered, ?_⟩
      · rw [hheld]
        exact hsent ▸ hcarries
      · rw [hpt223]
        exact fun h => absurd h (by decide)
      · rw [hsent, hsplit, ← hlen, List.take_left]

theorem Stream.waits (h : s.Stream content) (hpt : s.pt = 0 ∨ s.pt = 213) {o : CdcOutput}
    (hout : o.out = s.output.out) (hsent : o.sent = s.output.sent) :
    (s.returned .waiting ⟨213, { o with armed := true }⟩).Stream content where
  carries := by
    have hheld : s.held = [] := by
      rw [held, if_neg]
      rcases hpt with hpt | hpt <;> rw [hpt] <;> decide
    have hcarries := h.carries
    rw [hheld] at hcarries
    change o.out.Carries (o.sent ++ []) content
    rw [hout, hsent]
    exact hcarries
  pt := .inr (.inl rfl)
  started := fun _ => .inr ⟨rfl, rfl⟩
  idle := fun h => absurd (show (213 : BitVec 16) = 0 from h) (by decide)

def Called (s : Cdcacm) (content : List UInt8) (time room : Nat) (res : PtState)
    (a : Instance CdcOutput) : Prop :=
  (∃ content', ((s.pass time).returned res a).Stream content') ∧
    a.vars.out.offered = s.output.out.offered ∧
    (s.Settled time → a.vars.sent = s.output.sent ++ (s.held ++ content).take room) ∧
    (a.vars.armed = true → (s.pass time).output.armed = true ∨
      res = .waiting ∧ ¬ cyclecmp32 (BitVec.ofNat 32 settleTime) (BitVec.ofNat 32 time) ≤ 0)

section Call

variable {time room : Nat} {o : CdcOutput} {res : PtState} {a : Instance CdcOutput}

theorem held_nil (hpt : s.pt = 0 ∨ s.pt = 213) : s.held = [] := by
  rw [held, if_neg]
  rcases hpt with hpt | hpt <;> rw [hpt] <;> decide

theorem called_of_returns (ho : o = { (s.pass time).output with room })
    (hpt : s.pt = 0 ∨ s.pt = 213) (h : o.Returns s.output.sent content res a) :
    s.Called content time room res a := by
  subst ho
  obtain ⟨hstream, hoffered, hsent⟩ :=
    stream_of_returns (o := { (s.pass time).output with room }) (s := s.pass time) h
  refine ⟨hstream, hoffered, fun _ => ?_, fun harmed => .inl (h.2.1.armed ▸ harmed)⟩
  rw [held_nil hpt]
  exact hsent

theorem called_of_waits (h : s.Stream content) (ho : o = { (s.pass time).output with room })
    (hpt : s.pt = 0 ∨ s.pt = 213) (hsettled : ¬ s.Settled time)
    (hwaits : res = .waiting ∧ a = ⟨213, { o with armed := true }⟩) :
    s.Called content time room res a := by
  obtain ⟨rfl, rfl⟩ := hwaits
  subst ho
  refine ⟨⟨content, (h.pass time).waits hpt rfl rfl⟩, rfl, fun h => absurd h hsettled,
    fun _ => .inr ⟨rfl, fun hdue => hsettled ?_⟩⟩
  rcases hpt with hpt | hpt
  · exact .inr (.inr ⟨hpt, .inr hdue⟩)
  · exact .inr (.inl ⟨hpt, hdue⟩)

theorem Stream.call (h : s.Stream content) (time room : Nat) :
    Prog.wp (outputFibre.run (content.length + 1)) (s.Called content time room)
      ⟨s.pt, { (s.pass time).output with room }⟩ := by
  have hcarries := h.carries
  generalize ho : ({ (s.pass time).output with room } : CdcOutput) = o
  have hout : o.out = s.output.out := by rw [← ho]; rfl
  have htime : o.time = time := by rw [← ho]; rfl
  have hnow : o.now = BitVec.ofNat 32 time := by rw [← ho]; rfl
  rcases h.pt with hpt | hpt | hpt
  · rw [held_nil (.inl hpt), List.append_nil, ← hout] at hcarries
    rw [hpt]
    by_cases hlate : settleTime ≤ time
    · refine Prog.wp_mono (outputFibre_start hcarries (Nat.le_refl _) (htime ▸ hlate)) ?_
      exact fun _ _ => called_of_returns ho.symm (.inl hpt)
    have hearly : o.time < settleTime := htime ▸ Nat.not_le.mp hlate
    by_cases hdue : cyclecmp32 (BitVec.ofNat 32 settleTime) (BitVec.ofNat 32 time) ≤ 0
    · refine Prog.wp_mono (outputFibre_settled (.inl ⟨rfl, hearly⟩) hcarries (Nat.le_refl _)
        (hnow ▸ hdue)) ?_
      exact fun _ _ => called_of_returns ho.symm (.inl hpt)
    · refine Prog.wp_mono (outputFibre_waits (.inl ⟨rfl, hearly⟩) (hnow ▸ hdue)) ?_
      refine fun _ _ => called_of_waits h ho.symm (.inl hpt) ?_
      simp [Settled, hpt, hlate, hdue]
  · rw [held_nil (.inr hpt), List.append_nil, ← hout] at hcarries
    rw [hpt]
    by_cases hdue : cyclecmp32 (BitVec.ofNat 32 settleTime) (BitVec.ofNat 32 time) ≤ 0
    · refine Prog.wp_mono (outputFibre_settled (.inr rfl) hcarries (Nat.le_refl _)
        (hnow ▸ hdue)) ?_
      exact fun _ _ => called_of_returns ho.symm (.inr hpt)
    · refine Prog.wp_mono (outputFibre_waits (.inr rfl) (hnow ▸ hdue)) ?_
      refine fun _ _ => called_of_waits h ho.symm (.inr hpt) ?_
      simp [Settled, hpt, hdue]
  · have hheld : s.held = [s.output.ch] := by rw [held, if_pos hpt]
    have hch : o.ch = s.output.ch := by rw [← ho]; rfl
    have hsent : o.sent = s.output.sent := by rw [← ho]; rfl
    have hroom : o.room = room := by rw [← ho]
    rw [hpt]
    by_cases hzero : room = 0
    · refine Prog.wp_mono (outputFibre_stuck (hroom.trans hzero)) ?_
      rintro _ _ ⟨rfl, rfl⟩
      have hheld' : ((s.pass time).returned .yielded ⟨223, o⟩).held = s.held :=
        held_congr hpt.symm hch
      have harmed : o.armed = (s.pass time).output.armed := by rw [← ho]
      refine ⟨⟨content, ?_, .inr (.inr rfl), fun _ => .inl rfl, ?_⟩, by rw [hout], fun _ => ?_,
        fun h => .inl (harmed ▸ h)⟩
      · rw [hheld']
        change o.out.Carries (o.sent ++ s.held) content
        rw [hout, hsent]
        exact hcarries
      · exact fun h => absurd (show (223 : BitVec 16) = 0 from h) (by decide)
      · rw [hzero, List.take_zero, List.append_nil]
        exact hsent
    · rw [hheld, ← hch, ← hsent, ← hout] at hcarries
      refine Prog.wp_mono (outputFibre_again hcarries (Nat.le_refl _) (hroom ▸ hzero)) ?_
      intro res a hreturns
      obtain ⟨hstream, hoffered, hall⟩ := stream_of_returns (s := s.pass time) hreturns
      have harmed : o.armed = (s.pass time).output.armed := by rw [← ho]
      refine ⟨hstream, hoffered.trans (by rw [hout]), fun _ => ?_,
        fun h => .inl (harmed ▸ hreturns.2.1.armed ▸ h)⟩
      rw [hall, hheld, hch, hsent, hroom]
      obtain ⟨room, rfl⟩ : ∃ k, room = k + 1 := ⟨room - 1, by omega⟩
      simp

end Call

theorem Stream.next {l : Label} (h : s.Stream content) (hnext : Next s l s') :
    (∃ content', s'.Stream content') ∧
      s'.output.out.offered = s.output.out.offered ++ l.offered := by
  cases hnext with
  | pass _ => exact ⟨⟨content, h.pass _⟩, by simp [Cdcacm.pass, Label.offered]⟩
  | @call time room res a _ _ hcall =>
      obtain ⟨hstream, hoffered, -⟩ := Prog.Returns.of_wp outputFibre.mono (h.call time room) hcall
      refine ⟨hstream, ?_⟩
      rw [show (Label.call time room).offered = [] from rfl, List.append_nil]
      exact hoffered
  | write hwrite => exact (Prog.wp_iff_of_eq hwrite).mp (h.write _ _)
  | receive hreceive => exact (Prog.wp_iff_of_eq hreceive).mp (h.receive _)

theorem run_stream {ls : List Label} (hrun : Run Next init ls s) :
    (∃ content, s.Stream content) ∧ s.output.out.offered = ls.flatMap Label.offered :=
  hrun.traceInvariant (I := fun ls s => (∃ content, s.Stream content) ∧
    s.output.out.offered = ls.flatMap Label.offered)
    ⟨⟨[], init_stream⟩, rfl⟩ fun ls s l s' ⟨⟨_, h⟩, hls⟩ hnext => by
      obtain ⟨hstream, hnew⟩ := h.next hnext
      exact ⟨hstream, by rw [hnew, hls]; simp⟩

theorem Stream.asked (h : s.Stream content) (hleft : s.held ++ content ≠ []) :
    s.queued = true ∨ s.output.armed = true ∨ s.tainted = true := by
  rcases h.pt with hpt | hpt
  · have hne : content ≠ [] := by simpa [held_nil (.inl hpt)] using hleft
    rcases h.idle hpt with hnil | hq | ht
    · exact absurd hnil hne
    · exact .inl hq
    · exact .inr (.inr ht)
  · have hne : s.pt ≠ 0 := by
      rcases hpt with hpt | hpt <;> rw [hpt] <;> decide
    exact (h.started hne).imp_right fun h => .inl h.2

end Stream

/-- What the host has received, the byte in hand and what is in the ring are
what the ring took of what was printed and echoed.  A byte that was not sent
will be: the output fibre is asked for or waits for its time, unless the atomic
run queue had no room for it.  A call returns, and once the output has settled
it sends as much as the endpoint takes. -/
theorem usb_output {ls : List Label} {s : Cdcacm} (hrun : Run Next init ls s) :
    ∃ content, s.output.out.outring.Contains content ∧
      s.output.out.taken = s.output.sent ++ s.held ++ content ∧
      s.output.out.taken.Sublist (ls.flatMap Label.offered) ∧
      (s.output.out.overflowed = false → s.output.out.taken = ls.flatMap Label.offered) ∧
      (s.held ++ content ≠ [] →
        s.queued = true ∨ s.output.armed = true ∨ s.tainted = true) ∧
      ∀ time room, s.output.time ≤ time → (s.pass time).queued = true →
        ∃ s', Next s (.call time room) s' ∧
          (s.Settled time →
            s'.output.sent = s.output.sent ++ (s.held ++ content).take room) := by
  obtain ⟨⟨content, hstream⟩, hoffered⟩ := run_stream hrun
  have hcarries := hstream.carries
  refine ⟨content, hcarries.contains, hcarries.taken, ?_, ?_, hstream.asked, ?_⟩
  · rw [← hoffered]
    exact hcarries.offered
  · rw [← hoffered]
    exact hcarries.all
  · intro time room htime hq
    obtain ⟨res, a, hcall, hcalled⟩ := Prog.exists_returns outputFibre.mono (hstream.call time room)
    exact ⟨_, .call htime hq hcall, hcalled.2.2.1⟩

theorem usb_output_write : ∃ s s' : Cdcacm, Run Next init [.write 1 [104, 10]] s ∧
    s.output.out.taken = [104, 13, 10] ∧ Next s (.call settleTime 2) s' ∧
    s'.output.sent = [104, 13] := by
  obtain ⟨r, s, hwrite, hall, hqueued, hpt, hsent, htime⟩ : ∃ r s,
      write 1 [104, 10] init = .ok (r, s) ∧ s.output.out.overflowed = false ∧
        s.queued = true ∧ s.pt = 0 ∧ s.output.sent = [] ∧ s.output.time = 0 :=
    ⟨_, _, rfl, rfl, rfl, rfl, rfl, rfl⟩
  have hrun : Run Next init [.write 1 [104, 10]] s := .snoc .nil (.write hwrite)
  obtain ⟨content, -, htaken, -, hoffered, -, hcall⟩ := usb_output hrun
  have htaken' : s.output.out.taken = [104, 13, 10] := hoffered hall
  obtain ⟨s', hnext, hsettled⟩ := hcall settleTime 2 (htime ▸ Nat.zero_le _)
    (by simp [Cdcacm.pass, hqueued])
  refine ⟨s, s', hrun, htaken', hnext, ?_⟩
  rw [hsettled (.inr (.inr ⟨hpt, .inl (Nat.le_refl _)⟩)), hsent]
  rw [htaken', hsent] at htaken
  rw [← List.nil_append s.held, ← htaken]
  rfl

end Cdcacm

end Librfn
