import Librfn.Fibre.Delivery
import Librfn.Fibre.Safety
import Mathlib.Data.Nat.Find

/-!
# Event queue delivery

A fibre that waits for events, as the handler of an event queue does, with
producers that claim and send events in any order.  Whenever there is nothing
left to do, all events that could be processed have been.
-/

namespace Librfn

open Librfn.Logic

/-- The event in a slot is the one that was claimed there last. -/
def eventAt (claims : List ClaimedEvent) (evtp : Nat) : Nat :=
  Nat.findGreatest (fun i => ∃ c ∈ claims[i]?, c.evtp = evtp) claims.length

/-- Where the function of the handler is, between
`PT_WAIT_UNTIL(NULL != (evt = fibre_eventq_receive(fevtq)))` and
`fibre_eventq_release(fevtq, evt)`. -/
inductive HandlerPc where
  | receiving
  | processing (evt : Nat)
  | releasing (evt : Nat)
  /-- `fibre_eventq_receive` has returned `NULL`. -/
  | waiting
  deriving DecidableEq, Repr

/-- The scheduler with the handler of one event queue. -/
structure EventSystem (F : Type) where
  sys : System F
  pc : HandlerPc
  /-- The events that were processed, in order. -/
  processed : List Nat

namespace EventSystem

variable {F : Type}

def init (atomicRunqBuf : Nat) (eventq : F → Messageq) : EventSystem F :=
  { sys := .init atomicRunqBuf eventq, pc := .waiting, processed := [] }

def OnTop (f : F) (frames : List (Frame F)) : Prop :=
  ∃ frame ∈ frames.head?, frame.fibre = f

/-- Nobody kills the handler, and while it is being executed it does nothing
but look for events and, when there is none, wait. -/
def Rule (f : F) (pc : HandlerPc) : System.Rule F := fun frames now action =>
  System.TimesOutFirst frames now action ∧ action ≠ .kill f ∧
    (OnTop f frames → match action with
      | .call _ => True
      | .ret state => pc = .waiting ∧ state = .waiting
      | _ => False)

variable [DecidableEq F]

instance (f : F) (frames : List (Frame F)) : Decidable (OnTop f frames) :=
  inferInstanceAs (Decidable (∃ frame ∈ frames.head?, frame.fibre = f))

instance (f : F) (pc : HandlerPc) (frames : List (Frame F)) (now : BitVec 32) :
    DecidablePred (Rule f pc frames now)
  | .call _ => inferInstanceAs (Decidable (_ ∧ _ ∧ (_ → True)))
  | .ret _ => inferInstanceAs (Decidable (_ ∧ _ ∧ (_ → _ ∧ _)))
  | .timeout _ => inferInstanceAs (Decidable (_ ∧ _ ∧ (_ → False)))
  | .run _ => inferInstanceAs (Decidable (_ ∧ _ ∧ (_ → False)))
  | .kill _ => inferInstanceAs (Decidable (_ ∧ _ ∧ (_ → False)))
  | .schedulerNext _ => inferInstanceAs (Decidable (_ ∧ _ ∧ (_ → False)))

instance (f : F) (frames frames' : List (Frame F)) :
    Decidable (Sched.Entered f frames frames') :=
  inferInstanceAs (Decidable (_ ∧ ∃ frame ∈ frames'.head?, frame.fibre = f))

def onWorld {α : Type} (m : Prog (World F) α) : Prog (EventSystem F) α :=
  Prog.zoom EventSystem.sys (fun sys st => { st with sys }) (System.onWorld m)

def handlerStep (f : F) : Prog (EventSystem F) Unit := do
  let st ← get
  match st.pc with
  | .receiving =>
      match ← onWorld (fibreEventqReceive f) with
      | none => modify fun st => { st with pc := .waiting }
      | some evt => modify fun st => { st with pc := .processing evt }
  | .processing evt =>
      modify fun st =>
        { st with
          pc := .releasing evt
          processed := st.processed ++ [eventAt (st.sys.world.claims f) evt] }
  | .releasing evt =>
      onWorld (fibreEventqRelease f evt)
      modify fun st => { st with pc := .receiving }
  | .waiting => throw .badPointer

/-- One step of the handler of the event queue of `f` or of anybody else.  A
call of its function starts where it waits for an event. -/
inductive Next (f : F) (st : EventSystem F) :
    Option (Step F) → EventSystem F → Prop
  | handler {st' : EventSystem F} : OnTop f st.sys.frames →
      handlerStep f st = .ok ((), st') → Next f st none st'
  | other {step : Step F} {sys' : System F} :
      System.Next (Rule f st.pc) st.sys step sys' →
      Next f st (some step)
        { st with
          sys := sys'
          pc := if Sched.Entered f st.sys.frames sys'.frames then .receiving
            else st.pc }

/-! ## What the handler has done so far -/

omit [DecidableEq F] in
/-- Events are received, processed and released in the order of their claims.
Until `fibre_eventq_receive` returns `NULL` the handler is going to look for
the next one. -/
def Progress (f : F) (addr : Nat → Nat) (pc : HandlerPc)
    (processed : List Nat) (s : Sched F) : Prop :=
  match pc with
  | .receiving => ∃ k, processed = List.range k ∧ s.Serves f addr k k True
  | .processing evt => ∃ k, processed = List.range k ∧ evt = addr k ∧
      s.Serves f addr (k + 1) k True
  | .releasing _ => ∃ k, processed = List.range (k + 1) ∧
      s.Serves f addr (k + 1) k True
  | .waiting => ∃ k, processed = List.range k ∧ s.Serves f addr k k False

structure Delivering (f : F) (addr : Nat → Nat) (st : EventSystem F)
    (s : Sched F) : Prop where
  valid : st.sys.Valid s
  /-- The handler calls no scheduler. -/
  below : ∀ frame ∈ st.sys.frames.tail, frame.fibre ≠ f
  idle : ¬ OnTop f st.sys.frames → st.pc = .waiting
  progress : Progress f addr st.pc st.processed s

section Steps

variable {f : F} {addr : Nat → Nat} {s s' : Sched F}

omit [DecidableEq F] in
theorem Progress.mono {pc : HandlerPc} {processed : List Nat}
    (h : Progress f addr pc processed s)
    (hs : ∀ received released busy,
      s.Serves f addr received released busy →
      s'.Serves f addr received released busy) :
    Progress f addr pc processed s' := by
  cases pc with
  | receiving =>
      obtain ⟨k, hk, h⟩ := h
      exact ⟨k, hk, hs _ _ _ h⟩
  | processing evt =>
      obtain ⟨k, hk, hevt, h⟩ := h
      exact ⟨k, hk, hevt, hs _ _ _ h⟩
  | releasing evt =>
      obtain ⟨k, hk, h⟩ := h
      exact ⟨k, hk, hs _ _ _ h⟩
  | waiting =>
      obtain ⟨k, hk, h⟩ := h
      exact ⟨k, hk, hs _ _ _ h⟩

omit [DecidableEq F] in
theorem markNested_fibre {frames : List (Frame F)} {frame : Frame F}
    (h : frame ∈ markNested frames) :
    ∃ frame' ∈ frames, frame'.fibre = frame.fibre := by
  cases frames with
  | nil => cases h
  | cons top frames =>
      rcases List.mem_cons.mp h with rfl | hmem
      · exact ⟨top, List.mem_cons_self, rfl⟩
      · exact ⟨frame, List.mem_cons_of_mem _ hmem, rfl⟩

theorem does_below {action : Action F} {frames frames' : List (Frame F)}
    {pc : HandlerPc} (h : Sched.Does action frames s frames' s')
    (hrule : Rule f pc frames s.now action)
    (hbelow : ∀ frame ∈ frames.tail, frame.fibre ≠ f) :
    ∀ frame ∈ frames'.tail, frame.fibre ≠ f := by
  cases h with
  | arm _ => exact hbelow
  | idle _ _ =>
      cases frames with
      | nil => exact hbelow
      | cons top frames => exact hbelow
  | dispatch _ _ =>
      intro frame hframe
      obtain ⟨frame', hframe', heq⟩ := markNested_fibre hframe
      rw [← heq]
      cases frames with
      | nil => cases hframe'
      | cons top frames =>
          rcases List.mem_cons.mp hframe' with rfl | hmem
          · exact fun htop => hrule.2.2 ⟨frame', rfl, htop⟩
          · exact hbelow frame' hmem
  | yield => exact fun frame hframe => hbelow frame (List.mem_of_mem_tail hframe)
  | ret _ => exact fun frame hframe => hbelow frame (List.mem_of_mem_tail hframe)
  | _ => exact hbelow

theorem does_idle {action : Action F} {frames frames' : List (Frame F)}
    {pc : HandlerPc} (h : Sched.Does action frames s frames' s')
    (hrule : Rule f pc frames s.now action)
    (hidle : ¬ OnTop f frames → pc = .waiting) (htop : ¬ OnTop f frames') :
    pc = .waiting := by
  by_cases hon : OnTop f frames
  · have haction := hrule.2.2 hon
    cases h with
    | call => exact absurd hon htop
    | yield => exact haction.1
    | ret _ => exact haction.1
    | _ => exact haction.elim
  · exact hidle hon

theorem does_entered {action : Action F} {frames frames' : List (Frame F)}
    {pc : HandlerPc} (h : Sched.Does action frames s frames' s')
    (hrule : Rule f pc frames s.now action)
    (hentered : Sched.Entered f frames frames') : ¬ OnTop f frames := by
  intro hon
  have haction := hrule.2.2 hon
  have hlt := hentered.1
  cases h with
  | call => exact absurd hlt (Nat.lt_irrefl _)
  | yield =>
      rw [List.length_cons] at hlt
      omega
  | ret _ =>
      rw [List.length_cons] at hlt
      omega
  | _ => exact haction

theorem Delivering.other {st : EventSystem F} {step : Step F}
    {sys' : System F} (h : st.Delivering f addr s)
    (hnext : System.Next (Rule f st.pc) st.sys step sys') :
    ∃ s', Delivering f addr
      { st with
        sys := sys'
        pc := if Sched.Entered f st.sys.frames sys'.frames then .receiving
          else st.pc } s' := by
  obtain ⟨s', hdoes, hvalid⟩ := h.valid.next (fun _ _ _ hrule => hrule.1) hnext
  have hrule := hnext.1
  rw [h.valid.represents.scalars.2.2.1] at hrule
  have hkill : step.action ≠ .kill f := hrule.2.1
  have hserves : ∀ received released busy,
      s.Serves f addr received released busy →
      s'.Serves f addr received released
        (busy ∨ Sched.Entered f st.sys.frames sys'.frames) :=
    fun received released busy hs =>
      have hs' : Sched.Serves f addr received released busy
          { s with interrupts := step.interrupts } := hs.congr rfl rfl id
      hdoes.serves hkill hs'
  refine ⟨s', hvalid, does_below hdoes hrule h.below, ?_, ?_⟩
  · intro htop
    have hnot : ¬ Sched.Entered f st.sys.frames sys'.frames :=
      fun hentered => htop hentered.2
    dsimp only
    rw [if_neg hnot]
    exact does_idle hdoes hrule h.idle htop
  · by_cases hentered : Sched.Entered f st.sys.frames sys'.frames
    · have hprogress := h.progress
      rw [h.idle (does_entered hdoes hrule hentered)] at hprogress
      obtain ⟨k, hk, hs⟩ := hprogress
      dsimp only
      rw [if_pos hentered]
      exact ⟨k, hk, (hserves _ _ _ hs).congr rfl rfl (Or.imp_right fun _ => trivial)⟩
    · dsimp only
      rw [if_neg hentered]
      refine h.progress.mono fun received released busy hs => ?_
      exact (hserves _ _ _ hs).congr rfl rfl
        (Or.imp_right (Or.resolve_right · hentered))

omit [DecidableEq F] in
theorem eventAt_eq {m : Messages} {busy : Prop}
    (h : s.Delivers f addr m busy) {i : Nat} (hreleased : m.released ≤ i)
    (hclaimed : i < m.claimed) : eventAt (s.claims f) (addr i) = i := by
  have hlt : i < (s.claims f).length := h.length ▸ hclaimed
  refine Nat.findGreatest_eq_iff.mpr ⟨Nat.le_of_lt hlt, ?_, ?_⟩
  · intro _
    have hc := List.getElem?_eq_getElem hlt
    exact ⟨_, hc, h.evtp i _ hc⟩
  · rintro j hij - ⟨c, hc, hevtp⟩
    have hj := (List.getElem?_eq_some_iff.mp hc).1
    rw [h.length] at hj
    rw [h.evtp j c hc, ← h.messageAddr, ← h.messageAddr,
      h.queue.toTracks.messageAddr_inj] at hevtp
    have hle := m.claimed_le
    exact mod_ne_of_window hij (by omega) hevtp.symm

theorem Delivering.withEventq {st : EventSystem F} (h : st.Delivering f addr s)
    (mq : Messageq) : System.Valid
      { st.sys with
        world := { st.sys.world with
          eventq := Function.update s.eventq f mq } }
      { s with eventq := Function.update s.eventq f mq } :=
  ⟨h.valid.represents.withEventq _, h.valid.inv.held, h.valid.inv.distinct,
    h.valid.inv.state, h.valid.inv.top, h.valid.inv.outer⟩

omit [DecidableEq F] in
theorem delivers_step {m m' : Messages} {busy busy' : Prop} {mq : Messageq}
    [DecidableEq F]
    (h : s.Delivers f addr m busy) (hqueue : mq.Represents m')
    (hbuf : Messageq.SameBuffer (s.eventq f) mq)
    (hlen : m'.queueLen = m.queueLen) (hclaimed : m'.claimed = m.claimed)
    (hsent : m'.sent = m.sent)
    (hwoken : AllQueued (s.claims f) → m'.sent m'.received = true →
      s.Queued f ∨ busy') :
    Sched.Delivers f addr m' busy'
      { s with eventq := Function.update s.eventq f mq } := by
  constructor
  · simpa using hqueue
  · intro i
    simp only [Function.update_self]
    exact (hbuf.messageAddr h.queue.toTracks hqueue.toTracks hlen i).trans
      (h.messageAddr i)
  · exact h.length.trans hclaimed.symm
  · exact h.evtp
  · rw [hsent]
    exact h.sent
  · exact hwoken

omit [DecidableEq F] in
theorem wp_onWorld {α : Type} (m : Prog (World F) α)
    (Q : α → EventSystem F → Prop) (st : EventSystem F) :
    Prog.wp (onWorld m) Q st ↔ Prog.wp m (fun a world =>
      Q a { st with sys := { st.sys with world } }) st.sys.world := by
  simp only [onWorld, System.onWorld, Prog.wp_zoom]

theorem Delivering.handler {st : EventSystem F} (h : st.Delivering f addr s)
    (htop : OnTop f st.sys.frames) (hpc : st.pc ≠ .waiting) :
    Prog.wp (handlerStep f) (fun _ st' => ∃ s', Delivering f addr st' s') st := by
  obtain ⟨sys, pc, processed⟩ := st
  have heventq : sys.world.eventq = s.eventq := h.valid.represents.eventq
  have hprogress := h.progress
  rw [handlerStep, Prog.wp_bind, Prog.wp_get]
  cases pc with
  | receiving =>
      obtain ⟨_, rfl, m, rfl, hreleased, hm⟩ := hprogress
      simp only [Prog.wp_bind, wp_onWorld, fibreEventqReceive, wp_onEventq, heventq]
      cases hsent : m.sent m.received with
      | false =>
          refine Prog.wp_mono (Messageq.messageqReceive_none hm.queue hsent) ?_
          rintro _ mq ⟨rfl, hqueue, hbuf⟩
          refine ⟨_, h.withEventq mq, h.below, fun hnot => absurd htop hnot, ?_⟩
          refine ⟨m.received, rfl, m, rfl, hreleased, ?_⟩
          refine delivers_step hm hqueue hbuf rfl rfl rfl ?_
          intro _ hsent'
          rw [hsent] at hsent'
          cases hsent'
      | true =>
          refine Prog.wp_mono (Messageq.messageqReceive_some hm.queue hsent) ?_
          rintro _ mq ⟨rfl, hqueue, hbuf⟩
          refine ⟨_, h.withEventq mq, h.below, fun hnot => absurd htop hnot, ?_⟩
          refine ⟨m.received, rfl, hm.messageAddr _, m.receive hsent, rfl,
            hreleased, ?_⟩
          exact delivers_step hm hqueue hbuf rfl rfl rfl fun _ _ => .inr trivial
  | processing evt =>
      obtain ⟨k, rfl, rfl, m, hreceived, hreleased, hm⟩ := hprogress
      have hclaims : sys.world.claims = s.claims := h.valid.represents.claims
      have hrc := m.received_le
      have hk := eventAt_eq hm (i := k) (by omega) (by omega)
      rw [Prog.wp_modify]
      refine ⟨s, h.valid, h.below, fun hnot => absurd htop hnot, ?_⟩
      refine ⟨k, ?_, m, hreceived, hreleased, hm⟩
      simp only [hclaims, hk, List.range_succ]
  | releasing evt =>
      obtain ⟨k, rfl, m, hreceived, hreleased, hm⟩ := hprogress
      simp only [Prog.wp_bind, wp_onWorld, fibreEventqRelease, wp_onEventq, heventq]
      refine Prog.wp_mono
        (Messageq.messageqRelease_spec hm.queue evt (by omega)) ?_
      rintro _ mq ⟨hqueue, hbuf⟩
      refine ⟨_, h.withEventq mq, h.below, fun hnot => absurd htop hnot, ?_⟩
      refine ⟨k + 1, rfl, m.release (by omega), hreceived, ?_, ?_⟩
      · rw [Messages.release_released, hreleased]
      · exact delivers_step hm hqueue hbuf rfl rfl rfl fun _ _ => .inr trivial
  | waiting => exact absurd rfl hpc

end Steps

/-! ## Whole runs -/

theorem Delivering.next {f : F} {addr : Nat → Nat} {st st' : EventSystem F}
    {s : Sched F} {step : Option (Step F)} (h : st.Delivering f addr s)
    (hnext : Next f st step st') : ∃ s', st'.Delivering f addr s' := by
  cases hnext with
  | handler htop hstep =>
      have hpc : st.pc ≠ .waiting := by
        intro hpc
        have hreturns := Prog.wp_of_eq hstep (Q := fun _ _ => True) trivial
        rw [handlerStep, Prog.wp_bind, Prog.wp_get, hpc] at hreturns
        exact hreturns
      obtain ⟨_, _, heq, hs'⟩ := Prog.wp_iff_exists.mp (h.handler htop hpc)
      cases heq.symm.trans hstep
      exact hs'
  | other hnext => exact h.other hnext

omit [DecidableEq F] in
theorem Delivering.processed_sorted {f : F} {addr : Nat → Nat}
    {st : EventSystem F} {s : Sched F} (h : st.Delivering f addr s) :
    st.processed.Pairwise (· < ·) := by
  have hprogress := h.progress
  obtain ⟨k, hk⟩ : ∃ k, st.processed = List.range k := by
    unfold Progress at hprogress
    split at hprogress
    · obtain ⟨k, hk, -⟩ := hprogress
      exact ⟨k, hk⟩
    · obtain ⟨k, hk, -⟩ := hprogress
      exact ⟨k, hk⟩
    · obtain ⟨k, hk, -⟩ := hprogress
      exact ⟨k + 1, hk⟩
    · obtain ⟨k, hk, -⟩ := hprogress
      exact ⟨k, hk⟩
  rw [hk]
  exact List.pairwise_lt_range

omit [DecidableEq F] in
theorem init_delivering {f : F} {atomicRunqBuf basep baseLen msgLen : Nat}
    {eventq : F → Messageq} (hmsg : 0 < msgLen) (hmsg' : msgLen < 2 ^ 16)
    (hpos : 0 < baseLen / msgLen) (hle : baseLen / msgLen ≤ 32)
    (heventq : eventq f = messageqInit basep baseLen msgLen) :
    Delivering f (eventq f).messageAddr (init atomicRunqBuf eventq)
      (.init eventq) where
  valid := ⟨System.init_represents atomicRunqBuf eventq, Sched.init_inv eventq⟩
  below := nofun
  idle := fun _ => rfl
  progress := by
    refine ⟨0, rfl, .init (baseLen / msgLen), rfl, rfl, ?_⟩
    refine ⟨?_, fun _ => rfl, rfl, ?_, ?_, ?_⟩
    · change (eventq f).Represents _
      rw [heventq]
      exact Messageq.messageqInit_represents basep hmsg hmsg' hpos hle
    · simp [Sched.init]
    · simp [Sched.init, Messages.init, Sent]
    · simp [Messages.init]

theorem run_delivering {f : F} {atomicRunqBuf basep baseLen msgLen : Nat}
    {eventq : F → Messageq} (hmsg : 0 < msgLen) (hmsg' : msgLen < 2 ^ 16)
    (hpos : 0 < baseLen / msgLen) (hle : baseLen / msgLen ≤ 32)
    (heventq : eventq f = messageqInit basep baseLen msgLen)
    {steps : List (Option (Step F))} {st : EventSystem F}
    (hrun : Run (Next f) (init atomicRunqBuf eventq) steps st) :
    ∃ s, Delivering f (eventq f).messageAddr st s :=
  hrun.invariant (I := fun st => ∃ s, Delivering f (eventq f).messageAddr st s)
    ⟨_, init_delivering hmsg hmsg' hpos hle heventq⟩
    fun _ _ _ ⟨_, hs⟩ hnext => hs.next hnext

/-- Events are processed in the order of their claims, and when there is
nothing left to do every event behind which no unsent one hides has been
processed exactly once. -/
theorem events_delivered {f : F} {atomicRunqBuf basep baseLen msgLen : Nat}
    {eventq : F → Messageq} (hmsg : 0 < msgLen) (hmsg' : msgLen < 2 ^ 16)
    (hpos : 0 < baseLen / msgLen) (hle : baseLen / msgLen ≤ 32)
    (heventq : eventq f = messageqInit basep baseLen msgLen)
    {steps : List (Option (Step F))} {st : EventSystem F}
    (hrun : Run (Next f) (init atomicRunqBuf eventq) steps st) :
    st.processed.Pairwise (· < ·) ∧
    (AllQueued (st.sys.world.claims f) →
      (∃ timerq, st.sys.world.Queues [] timerq) →
      messageqEmpty st.sys.world.kernel.atomicRunq = true →
      (∀ frame ∈ st.sys.frames, frame.fibre ≠ f) →
      ∀ event, (∀ i ≤ event, Sent (st.sys.world.claims f) i) →
        st.processed.count event = 1) := by
  obtain ⟨s, h⟩ := run_delivering hmsg hmsg' hpos hle heventq hrun
  refine ⟨h.processed_sorted, ?_⟩
  rintro hall ⟨timerq, hqueues⟩ hempty hframes event hsent
  have hrunq := (hqueues.unique h.valid.represents.queues).1
  have hpending : s.pending = [] := by
    rw [h.valid.represents.messageqEmpty_eq] at hempty
    exact of_decide_eq_true hempty
  have hquiet : ¬ s.Queued f := by
    simp [Sched.Queued, ← hrunq, hpending, h.valid.inv.held]
  have htop : ¬ OnTop f st.sys.frames := by
    rintro ⟨frame, hframe, heq⟩
    exact hframes frame (List.mem_of_head? hframe) heq
  have hprogress := h.progress
  rw [h.idle htop] at hprogress
  rw [h.valid.represents.claims] at hall hsent
  obtain ⟨_, hprocessed, m, rfl, -, hm⟩ := hprogress
  have hlt : event < m.received := by
    by_contra hge
    have hnext := (hm.sent _).mpr (hsent m.received (Nat.not_lt.mp hge))
    exact (hm.woken hall hnext).elim hquiet id
  rw [hprocessed]
  exact List.count_eq_one_of_mem List.nodup_range (List.mem_range.mpr hlt)

/-- The state after some steps, each with the same fuel, if all of them keep to
the rule and return. -/
def follow (f : F) (fuel : Nat) :
    List (Option (Step F)) → EventSystem F → Option (EventSystem F)
  | [], st => some st
  | none :: steps, st =>
      if OnTop f st.sys.frames then
        match handlerStep f st with
        | .error _ => none
        | .ok (_, st') => follow f fuel steps st'
      else none
  | some step :: steps, st =>
      if Rule f st.pc st.sys.frames st.sys.world.kernel.now step.action then
        match System.exec fuel step.action { st.sys with
            world := { st.sys.world with interrupts := step.interrupts } } with
        | .error _ => none
        | .ok (_, sys') => follow f fuel steps
            { st with
              sys := sys'
              pc := if Sched.Entered f st.sys.frames sys'.frames then .receiving
                else st.pc }
      else none

theorem follow_run {f : F} {fuel : Nat} {steps : List (Option (Step F))}
    {st st' : EventSystem F} (h : follow f fuel steps st = some st') :
    Run (Next f) st steps st' := by
  induction steps generalizing st with
  | nil =>
      cases h
      exact .nil
  | cons step steps ih =>
      cases step with
      | none =>
          unfold follow at h
          split at h
          · rename_i htop
            split at h
            · cases h
            · rename_i st₁ heq
              exact .cons (.handler htop heq) (ih h)
          · cases h
      | some step =>
          unfold follow at h
          split at h
          · rename_i hrule
            split at h
            · cases h
            · rename_i sys₁ heq
              refine .cons (.other ⟨hrule, ?_⟩) (ih h)
              exact (System.exec_monotone step.action).returns heq
          · cases h

/-- The second event is sent behind the first, which wakes the handler to no purpose. -/
theorem events_delivered_overtaken : ∃ st : EventSystem Bool,
    Run (Next true) (init 64 fun _ => messageqInit 0 32 4)
      ([some { action := .call (.eventqClaim true) },
        some { action := .call (.eventqClaim true) },
        some { action := .call (.eventqSend true 1) },
        some { action := .schedulerNext 0 }, none, some { action := .ret .waiting },
        some { action := .call (.eventqSend true 0) },
        some { action := .schedulerNext 1 }] ++ List.replicate 7 none ++
        [some { action := .ret .waiting }]) st ∧
    st.processed.count 0 = 1 ∧ st.processed.count 1 = 1 := by
  have hexec : (follow true 9 ([some { action := .call (.eventqClaim true) },
        some { action := .call (.eventqClaim true) },
        some { action := .call (.eventqSend true 1) },
        some { action := .schedulerNext 0 }, none, some { action := .ret .waiting },
        some { action := .call (.eventqSend true 0) },
        some { action := .schedulerNext 1 }] ++ List.replicate 7 none ++
        [some { action := .ret .waiting }])
      (init 64 fun _ => messageqInit 0 32 4)).map (fun st =>
        (st.sys.world.kernel.lists.link (.head .runq),
          messageqEmpty st.sys.world.kernel.atomicRunq, st.sys.frames,
          st.sys.world.claims true)) =
      some (none, true, [], [⟨0, some true⟩, ⟨4, some true⟩]) := by
    decide +kernel
  obtain ⟨st, hst, heq⟩ := Option.map_eq_some_iff.mp hexec
  obtain ⟨hhead, hempty, hframes, hclaims⟩ : _ ∧ _ ∧ _ ∧ _ := by
    simpa only [Prod.mk.injEq] using heq
  have hrun := follow_run hst
  have hmsg : 0 < 4 ∧ 4 < 2 ^ 16 := by decide
  have hlen : 0 < 32 / 4 ∧ 32 / 4 ≤ 32 := by decide
  obtain ⟨s, h⟩ := run_delivering hmsg.1 hmsg.2 hlen.1 hlen.2 (by rfl) hrun
  have hqueues := h.valid.represents.queues
  have hnil := ListMem.Represents.link_head hqueues .runq
  rw [hhead] at hnil
  have hrunq : s.runq = [] := firstPtr_none_eq_none.mp hnil.symm
  rw [hrunq] at hqueues
  have hsent : ∀ event < 2, ∀ i ≤ event, Sent (st.sys.world.claims true) i := by
    rw [hclaims]
    intro event hevent i hi
    have hcases : i = 0 ∨ i = 1 := by omega
    rcases hcases with rfl | rfl <;> simp [Sent]
  have hcount := (events_delivered hmsg.1 hmsg.2 hlen.1 hlen.2 (by rfl) hrun).2
    (by simp [AllQueued, hclaims]) ⟨_, hqueues⟩ hempty (by simp [hframes])
  exact ⟨st, hrun, hcount 0 (hsent 0 (by decide)), hcount 1 (hsent 1 (by decide))⟩

end EventSystem

end Librfn
