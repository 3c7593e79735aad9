import Librfn.Fibre.Requests
import Librfn.Fibre.System

/-!
# An event queue against its producers

The producers' record of the events they have claimed agrees with the messages
that the event queue holds, and as long as every send has woken the fibre of
the queue, an event that can be received finds it queued or busy.
-/

namespace Librfn

open Librfn.Logic

variable {F : Type}

def Sent (claims : List ClaimedEvent) (event : Nat) : Prop :=
  ∃ c, claims[event]? = some c ∧ c.sent ≠ none

def AllQueued (claims : List ClaimedEvent) : Prop :=
  ∀ c ∈ claims, c.sent ≠ some false

theorem AllQueued.of_append {claims claims' : List ClaimedEvent}
    (h : AllQueued (claims ++ claims')) : AllQueued claims :=
  fun c hc => h c (List.mem_append_left _ hc)

theorem sent_append {claims : List ClaimedEvent} {evtp event : Nat} :
    Sent (claims ++ [⟨evtp, none⟩]) event ↔ Sent claims event := by
  unfold Sent
  rcases Nat.lt_trichotomy event claims.length with hlt | rfl | hgt
  · rw [List.getElem?_append_left hlt]
  · simp
  · rw [List.getElem?_eq_none (by simp; omega),
      List.getElem?_eq_none (Nat.le_of_lt hgt)]

theorem sent_set {claims : List ClaimedEvent} {evtp i j : Nat} {queued : Bool}
    (hi : i < claims.length) :
    Sent (claims.set i ⟨evtp, some queued⟩) j ↔ j = i ∨ Sent claims j := by
  unfold Sent
  by_cases hij : i = j
  · subst hij
    simp [hi]
  · rw [List.getElem?_set_ne hij]
    simp [Ne.symm hij]

namespace Sched

/-- The event queue of `f` holds the messages `m`, message `i` being event `i`
of the producers.  `busy` says that `f` is about to look for an event. -/
structure Delivers (f : F) (addr : Nat → Nat) (m : Messages) (busy : Prop)
    (s : Sched F) : Prop where
  queue : (s.eventq f).Represents m
  messageAddr : ∀ i, (s.eventq f).messageAddr i = addr i
  length : (s.claims f).length = m.claimed
  evtp : ∀ (i : Nat) (c : ClaimedEvent), (s.claims f)[i]? = some c →
    c.evtp = addr i
  sent : ∀ i, m.sent i = true ↔ Sent (s.claims f) i
  /-- No event is left that can be received but is not going to be. -/
  woken : AllQueued (s.claims f) → m.sent m.received = true →
    s.Queued f ∨ busy

/-- What the producers and the scheduler do leaves what was received and what
was released alone. -/
def Serves (f : F) (addr : Nat → Nat) (received released : Nat) (busy : Prop)
    (s : Sched F) : Prop :=
  ∃ m : Messages, m.received = received ∧ m.released = released ∧
    Delivers f addr m busy s

section

variable {f : F} {addr : Nat → Nat} {received released : Nat} {busy : Prop}
  {s s' : Sched F}

theorem Serves.congr {busy' : Prop}
    (h : s.Serves f addr received released busy)
    (heventq : s'.eventq f = s.eventq f) (hclaims : s'.claims f = s.claims f)
    (hqueued : s.Queued f ∨ busy → s'.Queued f ∨ busy') :
    s'.Serves f addr received released busy' := by
  obtain ⟨m, hreceived, hreleased, h⟩ := h
  refine ⟨m, hreceived, hreleased, ?_⟩
  refine ⟨heventq ▸ h.queue, ?_, hclaims ▸ h.length, ?_, ?_, ?_⟩
  · rw [heventq]
    exact h.messageAddr
  · rw [hclaims]
    exact h.evtp
  · rw [hclaims]
    exact h.sent
  · rw [hclaims]
    exact fun hall hsent => hqueued (h.woken hall hsent)

theorem Serves.requests (h : s.Serves f addr received released busy)
    (heventq : s'.eventq = s.eventq) (hclaims : s'.claims = s.claims)
    (hr : Requests s s') : s'.Serves f addr received released busy := by
  obtain ⟨Asked, hasked⟩ := hr.pending_iff
  refine h.congr (congrFun heventq f) (congrFun hclaims f) (Or.imp_left ?_)
  exact fun hq => (hasked f).1.mpr (.inl hq)

theorem Queued.runAtomic {g : F} (h : s.Queued f) :
    (s.runAtomic g).Queued f := by
  obtain ⟨Asked, hasked⟩ := (s.runAtomic_requests g).pending_iff
  exact (hasked f).1.mpr (.inl h)

theorem runAtomic_queued (s : Sched F) (g : F) (h : s.Room) :
    (s.runAtomic g).Queued g := by
  unfold Sched.runAtomic
  rw [if_pos h]
  exact .inr (.inl (List.mem_append_right _ List.mem_cons_self))

theorem runAtomic_eventq (s : Sched F) (g : F) :
    (s.runAtomic g).eventq = s.eventq ∧ (s.runAtomic g).claims = s.claims := by
  unfold Sched.runAtomic
  split <;> exact ⟨rfl, rfl⟩

variable [DecidableEq F]

theorem Serves.produceClaim (h : s.Serves f addr received released busy)
    (g : F) : (s.produceClaim g).Serves f addr received released busy := by
  by_cases hg : g = f
  · subst hg
    obtain ⟨m, hreceived, hreleased, h⟩ := h
    by_cases hfree : m.claimed < m.released + m.queueLen
    · obtain ⟨_, mq, heq, rfl, hqueue, hbuf⟩ := Prog.wp_iff_exists.mp
        (Messageq.messageqClaim_some h.queue hfree)
      have haddr : ∀ i, mq.messageAddr i = addr i := fun i =>
        (hbuf.messageAddr h.queue.toTracks hqueue.toTracks rfl i).trans (h.messageAddr i)
      rw [Sched.produceClaim, heq]
      refine ⟨m.claim hfree, hreceived, hreleased, ?_⟩
      constructor
      · simpa using hqueue
      · simpa using haddr
      · simp [h.length]
      · intro i c hc
        simp only [Function.update_self] at hc
        rcases Nat.lt_trichotomy i (s.claims g).length with hlt | rfl | hgt
        · rw [List.getElem?_append_left hlt] at hc
          exact h.evtp i c hc
        · simp only [List.getElem?_concat_length, Option.some.injEq] at hc
          rw [← hc, h.length]
          exact h.messageAddr m.claimed
        · rw [List.getElem?_eq_none (by simp; omega)] at hc
          cases hc
      · intro i
        simp only [Function.update_self, sent_append]
        exact h.sent i
      · intro hall hsent
        simp only [Function.update_self] at hall
        exact h.woken hall.of_append hsent
    · obtain ⟨_, mq, heq, rfl, rfl⟩ := Prog.wp_iff_exists.mp
        (Messageq.messageqClaim_none h.queue hfree)
      rw [Sched.produceClaim, heq]
      have hsame : ({ s with
          eventq := Function.update s.eventq g (s.eventq g)
          taintFlags := s.taintFlags ||| flag 32 4 } : Sched F) =
          { s with taintFlags := s.taintFlags ||| flag 32 4 } := by
        rw [Function.update_eq_self]
      dsimp only
      rw [hsame]
      exact Serves.congr ⟨m, hreceived, hreleased, h⟩ rfl rfl id
  · unfold Sched.produceClaim
    split
    · exact h
    · exact h.congr (Function.update_of_ne (Ne.symm hg) _ _) rfl id
    · exact h.congr (Function.update_of_ne (Ne.symm hg) _ _)
        (Function.update_of_ne (Ne.symm hg) _ _) id

theorem Serves.produceSend (h : s.Serves f addr received released busy)
    (g : F) (event : Nat) :
    (s.produceSend g event).Serves f addr received released busy := by
  unfold Sched.produceSend
  split
  · rename_i evtp hclaim
    obtain ⟨heventq, hclaims⟩ := (s.sendEvent g evtp).runAtomic_eventq g
    by_cases hg : g = f
    · subst hg
      obtain ⟨m, hreceived, hreleased, h⟩ := h
      have hlt : event < (s.claims g).length :=
        (List.getElem?_eq_some_iff.mp hclaim).1
      have hlt' : event < m.claimed := h.length ▸ hlt
      have hunsent : m.sent event = false := by
        refine Bool.eq_false_iff.mpr fun hsent => ?_
        obtain ⟨c, hc, hne⟩ := (h.sent event).mp hsent
        rw [hclaim] at hc
        cases hc
        exact hne rfl
      obtain ⟨_, mq, heq, hqueue, hbuf⟩ := Prog.wp_iff_exists.mp
        (Messageq.messageqSend_spec h.queue hlt' hunsent)
      have haddr : ∀ i, mq.messageAddr i = addr i := fun i =>
        (hbuf.messageAddr h.queue.toTracks hqueue.toTracks rfl i).trans (h.messageAddr i)
      have hmq : ((s.sendEvent g evtp).runAtomic g).eventq g = mq := by
        rw [heventq]
        rw [h.messageAddr, ← h.evtp event _ hclaim] at heq
        simp only [Sched.sendEvent, Function.update_self]
        cases heq
        rfl
      refine ⟨m.send event hlt', hreceived, hreleased, ?_⟩
      constructor
      · dsimp only
        rw [hmq]
        exact hqueue
      · dsimp only
        rw [hmq]
        exact haddr
      · simp [h.length]
      · intro i c hc
        simp only [Function.update_self] at hc
        by_cases hi : event = i
        · subst hi
          rw [List.getElem?_set_self hlt] at hc
          cases hc
          have hevtp := h.evtp event _ hclaim
          exact hevtp
        · rw [List.getElem?_set_ne hi] at hc
          exact h.evtp i c hc
      · intro i
        simp only [Function.update_self, sent_set hlt, Messages.send,
          Bool.or_eq_true, decide_eq_true_eq]
        rw [h.sent i]
      · intro hall _
        simp only [Function.update_self] at hall
        have hroom : s.Room := by
          by_contra hfull
          refine hall ⟨evtp, some (decide s.Room)⟩
            (List.mem_set hlt _) ?_
          rw [decide_eq_false hfull]
        exact .inl ((s.sendEvent g evtp).runAtomic_queued g hroom)
    · refine h.congr ?_ ?_ (Or.imp_left ?_)
      · dsimp only
        rw [heventq]
        exact Function.update_of_ne (Ne.symm hg) _ _
      · exact Function.update_of_ne (Ne.symm hg) _ _
      · intro hq
        have hq' : (s.sendEvent g evtp).Queued f := hq
        exact hq'.runAtomic
  · exact h

theorem Serves.handlerCall (h : s.Serves f addr received released busy)
    (call : HandlerCall F) :
    (s.handlerCall call).Serves f addr received released busy := by
  cases call with
  | runAtomic g =>
      obtain ⟨heventq, hclaims⟩ := s.runAtomic_eventq g
      exact h.requests heventq hclaims (s.runAtomic_requests g)
  | eventqClaim g => exact h.produceClaim g
  | eventqSend g event => exact h.produceSend g event

theorem Serves.interrupt (h : s.Serves f addr received released busy) :
    s.interrupt.Serves f addr received released busy := by
  refine interrupt_invariant h ?_ ?_
  · exact fun u _ hu => hu.congr rfl rfl id
  · exact fun u call hu => hu.handlerCall call

theorem enqueue_eventq (s : Sched F) (g : F) :
    (s.enqueue g).eventq = s.eventq ∧ (s.enqueue g).claims = s.claims := by
  unfold enqueue
  split <;> exact ⟨rfl, rfl⟩

theorem Serves.enqueue (h : s.Serves f addr received released busy) (g : F) :
    (s.enqueue g).Serves f addr received released busy :=
  h.requests (s.enqueue_eventq g).1 (s.enqueue_eventq g).2 (s.enqueue_requests g)

theorem Serves.drain (h : s.Serves f addr received released busy)
    (hdrain : Drain s s') : s'.Serves f addr received released busy := by
  refine hdrain.invariant h (fun u hu => hu.interrupt) ?_ ?_
  · exact fun u g fs hu hpending => hu.requests rfl rfl (receive_requests hpending)
  · intro u g fs hu hheld
    have hsame := (u.enqueue g).interrupt_same
    have hheld' : (u.enqueue g).interrupt.held = g :: fs := by
      rw [hsame.held, enqueue_held, hheld]
    have hrunq : g ∈ (u.enqueue g).interrupt.runq := by
      rw [hsame.runq]
      exact u.mem_enqueue_runq g
    exact (hu.enqueue g).interrupt.requests rfl rfl
      (release_requests hheld' hrunq)

theorem Serves.updateCurrent {g : F}
    (h : s.Serves f addr received released busy) (hu : UpdateCurrent g s s') :
    s'.Serves f addr received released busy := by
  cases hu with
  | yielded _ hdrain =>
      have hstore : (s.storeState g).Serves f addr received released busy :=
        h.congr rfl rfl id
      exact (hstore.drain hdrain).enqueue g
  | waiting _ => exact h.congr rfl rfl id
  | exited _ => exact h.congr rfl rfl id
  | failed _ => exact h.congr rfl rfl id

theorem Serves.update (h : s.Serves f addr received released busy)
    (hu : Update s s') : s'.Serves f addr received released busy := by
  cases hu with
  | idle hdrain _ => exact (h.drain hdrain).interrupt.interrupt
  | current hdrain _ hupdate =>
      exact ((h.drain hdrain).interrupt.updateCurrent hupdate).interrupt

omit [DecidableEq F] in
theorem Serves.dispatch (h : s.Serves f addr received released busy) :
    s.dispatch.Serves f addr received released busy := by
  unfold Sched.dispatch
  split <;> exact h.congr rfl rfl id

omit [DecidableEq F] in
theorem Serves.nextTask (h : s.Serves f addr received released busy) :
    s.nextTask.Serves f addr received released
      (busy ∨ s.nextTask.current = some f) := by
  refine h.congr rfl rfl ?_
  rintro ((hrunq | hrest) | hbusy)
  · cases hs : s.runq with
    | nil =>
        rw [hs] at hrunq
        cases hrunq
    | cons g fs =>
        rw [hs] at hrunq
        rcases List.mem_cons.mp hrunq with rfl | hmem
        · exact .inr (.inr (by simp [Sched.nextTask, hs]))
        · exact .inl (.inl (by simpa [Sched.nextTask, hs] using hmem))
  · exact .inl (.inr hrest)
  · exact .inr (.inl hbusy)

theorem Serves.pass {time : BitVec 32}
    (h : s.Serves f addr received released busy) (hpass : Pass time s s') :
    s'.Serves f addr received released (busy ∨ s'.current = some f) := by
  have hnow : ({ s with now := time } : Sched F).Serves f addr received released
      busy := h.congr rfl rfl id
  cases hpass with
  | fast _ => exact hnow.interrupt.interrupt.dispatch.congr rfl rfl (Or.imp_right .inl)
  | @slow s₁ _ hupdate =>
      have hexpire : s₁.expire.Serves f addr received released busy :=
        (hnow.interrupt.update hupdate).requests rfl rfl (expire_requests s₁)
      have htask := hexpire.interrupt.nextTask.interrupt.dispatch
      have hsame := (interrupt_same s₁.expire.interrupt.nextTask).trans
        (dispatch_same _)
      rwa [← hsame.current] at htask

end

def Entered (f : F) (frames frames' : List (Frame F)) : Prop :=
  frames.length < frames'.length ∧
    ∃ frame ∈ frames'.head?, frame.fibre = f

variable [DecidableEq F]

omit [DecidableEq F] in
theorem markNested_length (frames : List (Frame F)) :
    (markNested frames).length = frames.length := by
  cases frames <;> rfl

theorem Does.serves {f : F} {addr : Nat → Nat} {received released : Nat}
    {busy : Prop} {action : Action F} {frames frames' : List (Frame F)}
    {s s' : Sched F} (h : Does action frames s frames' s')
    (hkill : action ≠ .kill f)
    (hs : s.Serves f addr received released busy) :
    s'.Serves f addr received released (busy ∨ Entered f frames frames') := by
  cases h with
  | run hdrain => exact ((hs.drain hdrain).enqueue _).congr rfl rfl (Or.imp_right .inl)
  | call => exact (hs.handlerCall _).congr rfl rfl (Or.imp_right .inl)
  | @kill _ _ s₁ g hdrain =>
      have hne : f ≠ g := fun heq => hkill (heq ▸ rfl)
      refine (hs.drain hdrain).interrupt.congr rfl rfl ?_
      rintro ((hrunq | hrest) | hbusy)
      · exact .inl (.inl ((List.mem_erase_of_ne hne).mpr hrunq))
      · exact .inl (.inr hrest)
      · exact .inr (.inl hbusy)
  | past _ => exact hs.congr rfl rfl (Or.imp_right .inl)
  | arm _ => exact hs.congr rfl rfl (Or.imp_right .inl)
  | @idle _ _ s₁ time hpass hcurrent =>
      have hpassed := hs.pass hpass
      rw [hcurrent] at hpassed
      refine hpassed.interrupt.congr rfl rfl (Or.imp_right ?_)
      rintro (hbusy | hnone)
      · exact .inl hbusy
      · cases hnone
  | @dispatch _ _ s₁ time g hpass hcurrent =>
      refine (hs.pass hpass).congr rfl rfl (Or.imp_right (Or.imp_right ?_))
      intro hf
      cases hcurrent.symm.trans hf
      refine ⟨?_, _, rfl, rfl⟩
      rw [List.length_cons, markNested_length]
      exact Nat.lt_succ_self _
  | yield => exact hs.congr rfl rfl (Or.imp_right .inl)
  | @ret frame _ _ state _ =>
      have hreturned : (s.returned frame.fibre state).Serves f addr received
          released busy := hs.congr rfl rfl id
      exact hreturned.interrupt.congr rfl rfl (Or.imp_right .inl)

end Sched

end Librfn
