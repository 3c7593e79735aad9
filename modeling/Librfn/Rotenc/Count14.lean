import Librfn.Rotenc.Quadrature
import Mathlib.Data.List.Induction
import Mathlib.Data.List.Infix

/-!
# The count of fourteen bits

Its high bits are those of the internal count, and its low ones those of the
count, which was taken over at the last rest.  They disagree from a rest at a
multiple of 256 on, as long as the encoder is turned back from it.
-/

namespace Librfn

/-- One sample, and the turns when a sample was last at rest. -/
def latch (x : Rotenc × UInt16) (s : UInt8) : Rotenc × UInt16 :=
  let r := rotencDecode x.1 s
  (r, if s = 0 then r.internalCount >>> 2 else x.2)

def latched (samples : List UInt8) : UInt16 := (samples.foldl latch ({}, 0)).2

/-- The counts agree at every point of the run, and change only at rest. -/
structure Stable (samples : List UInt8) : Prop where
  latched : ∀ done, done <+: samples → rotencCount14 (rotencRun {} done) = latched done
  low : ∀ done, done <+: samples →
    (rotencCount14 (rotencRun {} done)).toUInt8 = rotencCount (rotencRun {} done)
  turning : ∀ done s, done ++ [s] <+: samples → s ≠ 0 →
    rotencCount14 (rotencRun {} (done ++ [s])) = rotencCount14 (rotencRun {} done)
  close : ∀ done s, done ++ [s] <+: samples → ∃ d : Int, -1 ≤ d ∧ d ≤ 1 ∧
    ((rotencCount14 (rotencRun {} (done ++ [s]))).toNat : Int) =
      ((rotencCount14 (rotencRun {} done)).toNat + d) % 2 ^ 14

/-- The encoder is not turned back from rest at a multiple of 256. -/
def NoBorrow (samples : List UInt8) : Prop :=
  ∀ done, done ++ [2] <+: samples →
    ¬((rotencRun {} done).lastState = 0 ∧ rotencCount (rotencRun {} done) = 0)

instance (samples : List UInt8) : Decidable (NoBorrow samples) :=
  decidable_of_iff (∀ done ∈ samples.inits, done ++ [2] ∈ samples.inits →
      ¬((rotencRun {} done).lastState = 0 ∧ rotencCount (rotencRun {} done) = 0)) (by
    simp only [List.mem_inits]
    constructor
    · intro hall done hdone
      exact hall done ((List.prefix_append _ _).trans hdone) hdone
    · intro hnone done _ hdone
      exact hnone done hdone)

/-- The encoder is `d` quarter turns from its last rest. -/
structure Between (r : Rotenc) (turns : UInt16) (d : Int) : Prop where
  turns_lt : turns.toNat < 2 ^ 14
  count : r.count.toNat = turns.toNat % 256
  internalCount : (r.internalCount.toNat : Int) = (4 * turns.toNat + d) % 2 ^ 16
  lastState : r.lastState < 4
  phase_eq : d % 4 = phase r.lastState
  lo : -3 ≤ d
  hi : d ≤ 3

section

variable {r : Rotenc} {turns : UInt16} {d : Int} {s : UInt8}

theorem between_init : Between {} 0 0 where
  turns_lt := by decide
  count := rfl
  internalCount := rfl
  lastState := by decide
  phase_eq := rfl
  lo := by decide
  hi := by decide

namespace Between

theorem lastState_eq_zero_iff (h : Between r turns d) : r.lastState = 0 ↔ d = 0 := by
  have hphase := h.phase_eq
  have hlo := h.lo
  have hhi := h.hi
  rw [← phase_eq_zero_iff h.lastState]
  omega

theorem count14_eq_iff (h : Between r turns d) :
    rotencCount14 r = turns ↔ 0 ≤ d ∨ turns.toNat % 256 ≠ 0 := by
  have hturns := h.turns_lt
  have hcount := h.count
  have hinternal := h.internalCount
  have hlo := h.lo
  have hhi := h.hi
  rw [← UInt16.toNat_inj, toNat_rotencCount14]
  omega

theorem turning (h : Between r turns d) (hs : Adjacent r.lastState s) (hne : s ≠ 0) :
    Between (rotencDecode r s) turns (d + quarterStep r.lastState s) := by
  have hstep := quarterStep_phase h.lastState hs
  have hbounds := quarterStep_bounds r.lastState s
  have hphase := h.phase_eq
  have hlo := h.lo
  have hhi := h.hi
  have hnot : phase s ≠ 0 := fun hzero => hne ((phase_eq_zero_iff hs.1).mp hzero)
  have hlast := rotencDecode_lastState r s
  constructor
  · exact h.turns_lt
  · rw [rotencDecode_count, if_neg hne]
    exact h.count
  · rw [rotencDecode_internalCount h.lastState hs.1, h.internalCount]
    omega
  · rw [hlast]
    exact hs.1
  · rw [hlast]
    omega
  · omega
  · omega

theorem rest (h : Between r turns d) (hs : Adjacent r.lastState 0) :
    Between (rotencDecode r 0) ((rotencDecode r 0).internalCount >>> 2) 0 ∧
      ∃ e : Int, -1 ≤ e ∧ e ≤ 1 ∧
        (((rotencDecode r 0).internalCount >>> 2).toNat : Int) = (turns.toNat + e) % 2 ^ 14 := by
  have hstep := quarterStep_phase h.lastState hs
  have hbounds := quarterStep_bounds r.lastState 0
  have hphase := h.phase_eq
  have hlo := h.lo
  have hhi := h.hi
  have hturns := h.turns_lt
  have hlast := rotencDecode_lastState r 0
  have hinternal := rotencDecode_internalCount h.lastState hs.1
  have hbefore := h.internalCount
  have hshift := toNat_shiftRight_two (rotencDecode r 0).internalCount
  have hlt := (rotencDecode r 0).internalCount.toNat_lt
  rw [show phase 0 = 0 from rfl] at hstep
  constructor
  · constructor
    · omega
    · rw [rotencDecode_count, if_pos rfl, UInt16.toNat_toUInt8]
    · omega
    · rw [hlast]
      decide
    · rw [hlast]
      rfl
    · decide
    · decide
  · refine ⟨(d + quarterStep r.lastState 0) / 4, ?_, ?_, ?_⟩
    · omega
    · omega
    · omega

/-- The counts disagree from a turn back at a multiple of 256 on. -/
theorem turning_agrees (h : Between r turns d) (hs : Adjacent r.lastState s)
    (hagrees : 0 ≤ d ∨ turns.toNat % 256 ≠ 0)
    (hborrow : s = 2 → ¬(r.lastState = 0 ∧ rotencCount r = 0)) :
    0 ≤ d + quarterStep r.lastState s ∨ turns.toNat % 256 ≠ 0 := by
  have hbounds := quarterStep_bounds r.lastState s
  by_contra hnot
  rw [not_or, not_not] at hnot
  have hd : d = 0 := by omega
  have hrest := h.lastState_eq_zero_iff.mpr hd
  have hzero : rotencCount r = 0 := by
    rw [rotencCount, ← UInt8.toNat_inj, h.count]
    exact hnot.2
  have hback := forall_states (P := fun _ s => 0 ≤ quarterStep 0 s ∨ s = 2) (by decide)
    h.lastState hs.1
  rw [hrest] at hnot
  rcases hback with hforward | htwo
  · omega
  · exact hborrow htwo ⟨hrest, hzero⟩

end Between

end

/-! ## Runs -/

theorem foldl_latch (x : Rotenc × UInt16) (samples : List UInt8) :
    (samples.foldl latch x).1 = rotencRun x.1 samples := by
  induction samples generalizing x with
  | nil => rfl
  | cons s samples ih => exact ih (latch x s)

theorem rotencRun_concat (r : Rotenc) (samples : List UInt8) (s : UInt8) :
    rotencRun r (samples ++ [s]) = rotencDecode (rotencRun r samples) s :=
  rotencRun_append r samples [s]

theorem latched_concat (samples : List UInt8) (s : UInt8) : latched (samples ++ [s]) =
    if s = 0 then (rotencDecode (rotencRun {} samples) s).internalCount >>> 2
    else latched samples := by
  rw [latched, List.foldl_append, List.foldl_cons, List.foldl_nil, latch, foldl_latch]
  rfl

theorem legal_concat {a s : UInt8} {samples : List UInt8} (h : Legal a (samples ++ [s])) :
    Legal a samples ∧ Adjacent (samples.getLastD a) s := by
  obtain ⟨hsamples, hs, -⟩ := (legal_append _ _).mp h
  exact ⟨hsamples, hs⟩

theorem between_run {samples : List UInt8} (h : Legal 0 samples) :
    ∃ d, Between (rotencRun {} samples) (latched samples) d ∧
      (NoBorrow samples → 0 ≤ d ∨ (latched samples).toNat % 256 ≠ 0) := by
  induction samples using List.reverseRecOn with
  | nil => exact ⟨0, between_init, fun _ => .inl (by decide)⟩
  | append_singleton samples s ih =>
      obtain ⟨hsamples, hs⟩ := legal_concat h
      obtain ⟨d, hbetween, hagrees⟩ := ih hsamples
      rw [← rotencRun_lastState {} samples] at hs
      rw [rotencRun_concat, latched_concat]
      by_cases hrest : s = 0
      · subst hrest
        exact ⟨0, (hbetween.rest hs).1, fun _ => .inl (by decide)⟩
      · rw [if_neg hrest]
        refine ⟨_, hbetween.turning hs hrest, fun hnone => ?_⟩
        apply hbetween.turning_agrees hs
        · apply hagrees
          intro done hdone
          exact hnone done (hdone.trans (List.prefix_append _ _))
        · rintro rfl
          exact hnone samples (List.prefix_refl _)

theorem count14_low (r : Rotenc) : (rotencCount14 r).toUInt8 = rotencCount r := by
  have hlt := r.count.toNat_lt
  rw [rotencCount, ← UInt8.toNat_inj, UInt16.toNat_toUInt8, toNat_rotencCount14]
  omega

section

variable {samples done : List UInt8} {s : UInt8}

theorem Legal.of_prefix (h : Legal 0 samples) (hdone : done <+: samples) : Legal 0 done := by
  obtain ⟨rest, rfl⟩ := hdone
  exact ((legal_append _ _).mp h).1

theorem count14_latched (h : Legal 0 samples) (hnone : NoBorrow samples)
    (hdone : done <+: samples) : rotencCount14 (rotencRun {} done) = latched done := by
  obtain ⟨d, hbetween, hagrees⟩ := between_run (h.of_prefix hdone)
  apply hbetween.count14_eq_iff.mpr
  apply hagrees
  intro before hbefore
  exact hnone before (hbefore.trans hdone)

theorem latched_close (h : Legal 0 (done ++ [s])) : ∃ e : Int, -1 ≤ e ∧ e ≤ 1 ∧
    ((latched (done ++ [s])).toNat : Int) = ((latched done).toNat + e) % 2 ^ 14 := by
  obtain ⟨hdone, hs⟩ := legal_concat h
  obtain ⟨d, hbetween, -⟩ := between_run hdone
  rw [← rotencRun_lastState {} done] at hs
  rw [latched_concat]
  by_cases hrest : s = 0
  · subst hrest
    exact (hbetween.rest hs).2
  · have hlt := hbetween.turns_lt
    rw [if_neg hrest]
    exact ⟨0, by decide, by decide, by omega⟩

end

theorem count14_stable_iff {samples : List UInt8} (h : Legal 0 samples) :
    Stable samples ↔ NoBorrow samples := by
  constructor
  · rintro hstable done hdone ⟨hrest, hzero⟩
    have hbefore : done <+: samples := (List.prefix_append _ _).trans hdone
    obtain ⟨hlegal, hs⟩ := legal_concat (h.of_prefix hdone)
    obtain ⟨d, hbetween, -⟩ := between_run hlegal
    rw [← rotencRun_lastState {} done] at hs
    have hafter := hbetween.turning hs (by decide)
    have hlatched := hstable.latched _ hdone
    rw [rotencRun_concat, latched_concat, if_neg (by decide), hafter.count14_eq_iff] at hlatched
    have hd := hbetween.lastState_eq_zero_iff.mp hrest
    have hcount := hbetween.count
    have hback : quarterStep 0 2 = -1 := by decide
    rw [rotencCount] at hzero
    rw [hrest] at hlatched
    rw [hzero, UInt8.toNat_zero] at hcount
    omega
  · intro hnone
    constructor
    · intro done hdone
      exact count14_latched h hnone hdone
    · intro done _
      exact count14_low _
    · intro done s hdone hs
      have hbefore : done <+: samples := (List.prefix_append _ _).trans hdone
      rw [count14_latched h hnone hdone, count14_latched h hnone hbefore, latched_concat,
        if_neg hs]
    · intro done s hdone
      have hbefore : done <+: samples := (List.prefix_append _ _).trans hdone
      rw [count14_latched h hnone hdone, count14_latched h hnone hbefore]
      exact latched_close (h.of_prefix hdone)

/-- A turn and most of the way back. -/
theorem count14_stable_turn : Stable [1, 3, 2, 0, 2, 3, 1] := by
  have hlegal : Legal 0 [1, 3, 2, 0, 2, 3, 1] := by decide
  exact (count14_stable_iff hlegal).mpr (by decide)

/-- A quarter turn back from the start. -/
theorem not_stable_back : Legal 0 [2] ∧ ¬Stable [2] := by
  refine ⟨by decide, fun hstable => ?_⟩
  have hcount := hstable.latched [2] (List.prefix_refl _)
  exact absurd hcount (by decide)

end Librfn
