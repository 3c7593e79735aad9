import Librfn.Rotenc.Quadrature

/-!
# Detours

A detour leaves no trace in the internal count.  It can change the count only
where it passes through rest from elsewhere, and only up to the next rest.
-/

namespace Librfn

/-- A detour from `a` that returns the way it came, or samples that repeat. -/
inductive Detour : UInt8 → List UInt8 → Prop
  | nil (a : UInt8) : Detour a []
  | again {a : UInt8} {rest : List UInt8} (hrest : Detour a rest) : Detour a (a :: rest)
  | out {a b : UInt8} {away rest : List UInt8} (hab : Adjacent a b) (haway : Detour b away)
      (hrest : Detour a rest) : Detour a (b :: (away ++ a :: rest))

namespace Detour

variable {a : UInt8} {detour : List UInt8}

theorem getLastD (h : Detour a detour) : detour.getLastD a = a := by
  induction h with
  | nil => rfl
  | again _ ih => rwa [List.getLastD_cons]
  | out _ _ _ _ ih => rwa [List.getLastD_cons, getLastD_append, List.getLastD_cons]

theorem legal (ha : a < 4) (h : Detour a detour) : Legal a detour := by
  induction h with
  | nil => trivial
  | again _ ih =>
      refine ⟨⟨ha, .inl ?_⟩, ih ha⟩
      simp
  | out hab haway _ ihaway ihrest =>
      refine ⟨hab, (legal_append _ _).mpr ⟨ihaway hab.1, ?_⟩⟩
      rw [haway.getLastD]
      exact ⟨⟨ha, by rw [UInt8.xor_comm]; exact hab.2⟩, ihrest ha⟩

theorem net_eq_zero (h : Detour a detour) : net a detour = 0 := by
  induction h with
  | nil => rfl
  | again _ ih => rw [net, quarterStep_self, ih, Int.add_zero]
  | @out a b _ _ _ haway _ ihaway ihrest =>
      have hswap := quarterStep_swap a b
      rw [net, net_append, haway.getLastD, net, ihaway, ihrest]
      omega

end Detour

/-- The encoders differ at most in the count. -/
structure SamePlace (r r' : Rotenc) : Prop where
  lastState : r.lastState = r'.lastState
  internalCount : r.internalCount = r'.internalCount

theorem SamePlace.decode {r r' : Rotenc} (h : SamePlace r r') (s : UInt8) :
    SamePlace (rotencDecode r s) (rotencDecode r' s) where
  lastState := by rw [rotencDecode_lastState, rotencDecode_lastState]
  internalCount := by
    have hinternal := h.internalCount
    simp only [rotencDecode, h.lastState]
    split_ifs <;> simp [hinternal]

theorem SamePlace.decode_rest {r r' : Rotenc} (h : SamePlace r r') :
    rotencDecode r 0 = rotencDecode r' 0 := by
  have hdecode := h.decode 0
  apply Rotenc.ext hdecode.lastState _ hdecode.internalCount
  rw [rotencDecode_count, rotencDecode_count, if_pos rfl, if_pos rfl, hdecode.internalCount]

theorem SamePlace.run_rest {r r' : Rotenc} (h : SamePlace r r') {samples : List UInt8}
    (hrest : 0 ∈ samples) : rotencRun r samples = rotencRun r' samples := by
  induction samples generalizing r r' with
  | nil => cases hrest
  | cons s samples ih =>
      rw [rotencRun_cons, rotencRun_cons]
      rcases List.mem_cons.mp hrest with rfl | hlater
      · rw [h.decode_rest]
      · exact ih (h.decode s) hlater

theorem SamePlace.eq_of_count {r r' : Rotenc} (h : SamePlace r r') (hcount : r.count = r'.count) :
    r = r' :=
  Rotenc.ext h.lastState hcount h.internalCount

section

variable {r : Rotenc} {detour : List UInt8}

theorem Detour.samePlace (hr : r.lastState < 4) (h : Detour r.lastState detour) :
    SamePlace (rotencRun r detour) r where
  lastState := by rw [rotencRun_lastState, h.getLastD]
  internalCount := by
    have hlt := r.internalCount.toNat_lt
    have hrun := rotencRun_internalCount hr (h.legal hr)
    rw [h.net_eq_zero] at hrun
    apply UInt16.toNat_inj.mp
    omega

theorem Detour.run_eq (hr : r.lastState < 4) (hlatched : r.Latched)
    (h : Detour r.lastState detour) (hrest : r.lastState = 0 ∨ 0 ∉ detour) :
    rotencRun r detour = r := by
  have hplace := h.samePlace hr
  apply hplace.eq_of_count
  rcases hrest with hzero | hnot
  · have hcount := rotencRun_latched hlatched detour
    rw [hcount (hplace.lastState.trans hzero), hlatched hzero, hplace.internalCount]
  · exact rotencRun_count_of_not_mem hnot

end

theorem rotenc_path_independent {samples : List UInt8} (h : Legal 0 samples) :
    (rotencRun {} samples).internalCount.toNat % 4 = phase (samples.getLastD 0) ∧
      ((rotencRun {} samples).internalCount.toNat : Int) = net 0 samples % 2 ^ 16 ∧
      (samples.getLastD 0 = 0 → 4 ∣ net 0 samples ∧
        ((rotencCount (rotencRun {} samples)).toNat : Int) = net 0 samples / 4 % 2 ^ 8 ∧
        ((rotencCount14 (rotencRun {} samples)).toNat : Int) = net 0 samples / 4 % 2 ^ 14) ∧
      ∀ detour, Detour (samples.getLastD 0) detour →
        SamePlace (rotencRun {} (samples ++ detour)) (rotencRun {} samples) ∧
        (samples.getLastD 0 = 0 ∨ 0 ∉ detour →
          rotencRun {} (samples ++ detour) = rotencRun {} samples) ∧
        ∀ later, 0 ∈ later →
          rotencRun {} (samples ++ detour ++ later) = rotencRun {} (samples ++ later) := by
  have hcount : ((rotencRun {} samples).internalCount.toNat : Int) = net 0 samples % 2 ^ 16 := by
    have hrun := rotencRun_internalCount (r := {}) (by decide) h
    simpa using hrun
  have hphase : net 0 samples % 4 = phase (samples.getLastD 0) := by
    have hnet := h.net_phase (by decide)
    simpa [phase] using hnet
  have hlast : (rotencRun {} samples).lastState = samples.getLastD 0 :=
    rotencRun_lastState {} samples
  have hlatched : (rotencRun {} samples).Latched := by
    apply rotencRun_latched
    intro _
    rfl
  refine ⟨by omega, hcount, ?_, ?_⟩
  · intro hrest
    rw [hrest, show phase 0 = 0 from rfl] at hphase
    have heq := hlatched (hlast.trans hrest)
    have h8 : (rotencRun {} samples).count.toNat =
        (rotencRun {} samples).internalCount.toNat / 4 % 2 ^ 8 := by
      rw [heq, UInt16.toNat_toUInt8, toNat_shiftRight_two]
    refine ⟨by omega, ?_, ?_⟩
    · rw [rotencCount]
      omega
    · rw [toNat_rotencCount14]
      omega
  · intro detour hdetour
    have hlt : (rotencRun {} samples).lastState < 4 := by
      rw [hlast]
      exact h.getLastD_lt (by decide)
    rw [← hlast] at hdetour ⊢
    have hplace := hdetour.samePlace hlt
    rw [rotencRun_append]
    refine ⟨hplace, hdetour.run_eq hlt hlatched, ?_⟩
    intro later hlater
    rw [rotencRun_append, rotencRun_append, rotencRun_append]
    exact hplace.run_rest hlater

/-- A turn and a detour at its end. -/
theorem rotenc_path_independent_turn :
    rotencRun {} ([1, 3, 2, 0] ++ [1, 0]) = rotencRun {} [1, 3, 2, 0] :=
  have hlegal : Legal 0 [1, 3, 2, 0] := by decide
  have hdetour : Detour 0 [1, 0] := .out (by decide) (.nil 1) (.nil 0)
  ((rotenc_path_independent hlegal).2.2.2 [1, 0] hdetour).2.1 (.inl rfl)

/-- A detour through rest takes the count over before the turn is complete. -/
theorem detour_through_rest : Legal 0 ([2, 3, 1] ++ [0, 1]) ∧ Detour 1 [0, 1] ∧
    rotencCount (rotencRun {} ([2, 3, 1] ++ [0, 1])) = 255 ∧
    rotencCount (rotencRun {} [2, 3, 1]) = 0 :=
  ⟨by decide, .out (by decide) (.nil 0) (.nil 1), by decide, by decide⟩

end Librfn
