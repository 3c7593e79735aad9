import Librfn.Logic.Counting
import Librfn.Logic.Cyclic
import Librfn.Ratelimit

/-!
# Windows of a rate limit

The state holds the end of the window modulo 2 ^ 32.  As long as the clock has
not gone around once since then, the two comparisons together tell whether the
end has passed.
-/

namespace Librfn

open Librfn.Logic

/-- The length of a window in microseconds. -/
def windowLength (window : BitVec 32) : Nat := window.toNat * 1000000

/-- The clock does not go back, and the time between two calls is limited. -/
structure SteadyCalls (window : BitVec 32) (total : Nat) (calls : Nat → RatelimitCall) :
    Prop where
  again : ∀ i < total, (calls i).time ≤ (calls i).again
  next : ∀ i, i + 1 < total → (calls i).again ≤ (calls (i + 1)).time
  gap : ∀ i, i + 1 < total → (calls (i + 1)).time < (calls i).time + (2 ^ 32 - windowLength window)

section Windows

variable {n window : BitVec 32} {total : Nat} {calls : Nat → RatelimitCall}

theorem SteadyCalls.mono (h : SteadyCalls window total calls) {i j : Nat} (hij : i < j)
    (hj : j < total) : (calls i).again ≤ (calls j).time := by
  induction j, hij using Nat.le_induction with
  | base => exact h.next i hj
  | succ j hij ih =>
      have hle := ih (by omega)
      have hagain := h.again j (by omega)
      have hnext := h.next j hj
      omega

variable (hlo : 1 ≤ window.toNat) (hhi : window.toNat ≤ 2147)

include hlo hhi

omit hlo in
theorem windowLength_le : windowLength window ≤ 2147000000 := by
  unfold windowLength
  omega

theorem toNat_windowLength : (window * 1000000).toNat = windowLength window := by
  have hfactor : (1000000 : BitVec 32).toNat = 1000000 := rfl
  rw [BitVec.toNat_mul, hfactor, windowLength]
  omega

theorem toInt_windowLength : (window * 1000000).toInt = windowLength window := by
  have hnat := toNat_windowLength hlo hhi
  rw [BitVec.toInt_eq_toNat_of_lt, hnat]
  rw [hnat, windowLength]
  omega

theorem windowOver_iff {rs : RatelimitState} {stop now : Nat} (htime : rs.time = .ofNat 32 stop)
    (hstart : stop ≤ now + windowLength window)
    (haround : now + windowLength window < stop + 2 ^ 32) :
    windowOver rs window (.ofNat 32 now) = true ↔ stop < now := by
  have hlength := windowLength_le hhi
  rw [windowOver, htime, toInt_windowLength hlo hhi, decide_eq_true_iff]
  by_cases hnear : now ≤ stop + 2 ^ 31
  · rw [toInt_ofNat_sub (w := 31) (by omega) (by omega)]
    omega
  · have hwrap : BitVec.ofNat 32 stop = BitVec.ofNat 32 (stop + 2 ^ 32) := by
      rw [BitVec.ofNat_add]
      simp
    rw [hwrap, toInt_ofNat_sub (w := 31) (by omega) (by omega)]
    omega

end Windows

section Run

variable {n window : BitVec 32} {total : Nat} {calls : Nat → RatelimitCall}

/-! What one call does. -/

theorem ratelimit_opens {i : Nat} (h : opensWindow n window calls i = true) :
    ratelimitResult n window calls i = true ∧
      ratelimitState n window calls (i + 1) =
        { time := .ofNat 32 (calls i).again + window * 1000000, count := 1 } := by
  unfold opensWindow at h
  constructor
  · rw [ratelimitResult, ratelimitCheck, if_pos h]
  · rw [ratelimitState, ratelimitCheck, if_pos h]

theorem ratelimit_counts {i : Nat} (h : opensWindow n window calls i = false) :
    (ratelimitResult n window calls i = true ↔ (ratelimitState n window calls i).count < n) ∧
      ratelimitState n window calls (i + 1) =
        { time := (ratelimitState n window calls i).time
          count := (ratelimitState n window calls i).count + 1 } := by
  unfold opensWindow at h
  constructor
  · simp only [ratelimitResult, ratelimitCheck, h, Bool.false_eq_true, if_false,
      decide_eq_true_iff]
  · simp only [ratelimitState, ratelimitCheck, h, Bool.false_eq_true, if_false]

theorem count_lt_iff {count : Nat} (h : count < 2 ^ 32) :
    BitVec.ofNat 32 count < n ↔ count < n.toNat := by
  rw [BitVec.lt_def, BitVec.toNat_ofNat, Nat.mod_eq_of_lt h]

theorem ratelimitState_first {i : Nat} (h : ∀ j < i, opensWindow n window calls j = false) :
    ratelimitState n window calls i = { time := 0, count := .ofNat 32 i } := by
  induction i with
  | zero => rfl
  | succ i ih =>
      have hstate := ih fun j hj => h j (Nat.lt_succ_of_lt hj)
      rw [(ratelimit_counts (h i (Nat.lt_succ_self i))).2, hstate, BitVec.ofNat_add i 1]
      rfl

variable (hlo : 1 ≤ window.toNat) (hhi : window.toNat ≤ 2147)
  (hsteady : SteadyCalls window total calls)

include hlo hhi hsteady

theorem ratelimitState_window {i : Nat} (hopen : opensWindow n window calls i = true) (d : Nat)
    (hd : i + d < total) (hin : (calls (i + d)).time ≤ (calls i).again + windowLength window) :
    (0 < d → opensWindow n window calls (i + d) = false) ∧
      ratelimitState n window calls (i + d + 1) =
        { time := .ofNat 32 ((calls i).again + windowLength window)
          count := .ofNat 32 (d + 1) } := by
  induction d with
  | zero =>
      refine ⟨fun hpos => absurd hpos (Nat.lt_irrefl 0), ?_⟩
      have hlength : window * 1000000 = BitVec.ofNat 32 (windowLength window) := by
        rw [← toNat_windowLength hlo hhi, BitVec.ofNat_toNat, BitVec.setWidth_eq]
      rw [Nat.add_zero, (ratelimit_opens hopen).2, hlength, BitVec.ofNat_add (calls i).again]
      rfl
  | succ d ih =>
      rw [← Nat.add_assoc] at hd hin ⊢
      have hstart := hsteady.mono (i := i) (by omega) hd
      have hprev : (calls (i + d)).time ≤ (calls (i + d + 1)).time :=
        (hsteady.again (i + d) (by omega)).trans (hsteady.next (i + d) hd)
      obtain ⟨-, hstate⟩ := ih (by omega) (hprev.trans hin)
      have hlength := windowLength_le hhi
      have hclosed : opensWindow n window calls (i + d + 1) = false := by
        rw [Bool.eq_false_iff, opensWindow, hstate, Ne,
          windowOver_iff hlo hhi rfl (by omega) (by omega)]
        omega
      refine ⟨fun _ => hclosed, ?_⟩
      rw [(ratelimit_counts hclosed).2, hstate, BitVec.ofNat_add (d + 1) 1]
      rfl

theorem opensWindow_next {i : Nat} (hopen : opensWindow n window calls i = true) (d : Nat)
    (hd : i + d + 1 < total) (hin : (calls (i + d)).time ≤ (calls i).again + windowLength window)
    (hout : (calls i).again + windowLength window < (calls (i + d + 1)).time) :
    opensWindow n window calls (i + d + 1) = true := by
  obtain ⟨-, hstate⟩ := ratelimitState_window hlo hhi hsteady hopen d (by omega) hin
  have hgap := hsteady.gap (i + d) hd
  have hlength := windowLength_le hhi
  rw [opensWindow, hstate, windowOver_iff hlo hhi rfl (by omega) (by omega)]
  exact hout

end Run

/-- Of the calls in a window the first `n` return true, the first call behind it
opens the next one, and before the first window at most `n` calls return true. -/
theorem ratelimit_windows {n window : BitVec 32} {total : Nat} {calls : Nat → RatelimitCall}
    (hn : 1 ≤ n.toNat) (hlo : 1 ≤ window.toNat) (hhi : window.toNat ≤ 2147)
    (htotal : total < 2 ^ 32) (hsteady : SteadyCalls window total calls) :
    (∀ i < total, opensWindow n window calls i = true →
      (∀ j, i ≤ j → j < total → (calls j).time ≤ (calls i).again + windowLength window →
        (ratelimitResult n window calls j = true ↔ j - i < n.toNat) ∧
          (i < j → opensWindow n window calls j = false)) ∧
      ∀ j, i < j → j < total → (calls i).again + windowLength window < (calls j).time →
        (∀ k, i < k → k < j → (calls k).time ≤ (calls i).again + windowLength window) →
          ratelimitResult n window calls j = true ∧ opensWindow n window calls j = true) ∧
    ∀ m ≤ total, (∀ j < m, opensWindow n window calls j = false) →
      Nat.count (fun j => ratelimitResult n window calls j = true) m ≤ n.toNat := by
  refine ⟨fun i hi hopen => ⟨?_, ?_⟩, ?_⟩
  · intro j hij hj hin
    obtain ⟨d, rfl⟩ := Nat.exists_eq_add_of_le hij
    rw [Nat.add_sub_cancel_left]
    obtain ⟨hclosed, -⟩ := ratelimitState_window hlo hhi hsteady hopen d hj hin
    refine ⟨?_, fun hlt => hclosed (by omega)⟩
    cases d with
    | zero => exact ⟨fun _ => hn, fun _ => (ratelimit_opens hopen).1⟩
    | succ d =>
        have hprev : (calls (i + d)).time ≤ (calls (i + (d + 1))).time :=
          (hsteady.again (i + d) (by omega)).trans (hsteady.next (i + d) hj)
        obtain ⟨-, hstate⟩ :=
          ratelimitState_window hlo hhi hsteady hopen d (by omega) (hprev.trans hin)
        rw [(ratelimit_counts (hclosed (Nat.succ_pos d))).1, ← Nat.add_assoc, hstate]
        exact count_lt_iff (by omega)
  · intro j hij hj hout hbefore
    obtain ⟨d, rfl⟩ : ∃ d, j = i + d + 1 := ⟨j - i - 1, by omega⟩
    have hin : (calls (i + d)).time ≤ (calls i).again + windowLength window := by
      rcases Nat.eq_zero_or_pos d with rfl | hpos
      · exact (hsteady.again i hi).trans (Nat.le_add_right _ _)
      · exact hbefore (i + d) (by omega) (by omega)
    have hnext := opensWindow_next hlo hhi hsteady hopen d hj hin hout
    exact ⟨(ratelimit_opens hnext).1, hnext⟩
  · intro m hm hclosed
    rw [count_of_lt (t := n.toNat)]
    · exact Nat.min_le_left _ _
    · intro j hj
      rw [(ratelimit_counts (hclosed j hj)).1,
        ratelimitState_first fun k hk => hclosed k (hk.trans hj)]
      exact count_lt_iff (by omega)

/-- Two calls in ten seconds, with a call every four seconds while the clock goes
around. -/
theorem ratelimit_windows_wrap :
    let calls : Nat → RatelimitCall := fun i =>
      ⟨4284000000 + 4000000 * i, 4284000001 + 4000000 * i⟩
    ratelimitResult 2 10 calls 1 = true ∧ ratelimitResult 2 10 calls 2 = false ∧
      ratelimitResult 2 10 calls 3 = true ∧ opensWindow 2 10 calls 3 = true := by
  intro calls
  have hlength : windowLength 10 = 10000000 := rfl
  have hsteady : SteadyCalls 10 4 calls := by
    constructor
    · intro i _
      dsimp only [calls]
      omega
    · intro i _
      dsimp only [calls]
      omega
    · intro i _
      dsimp only [calls]
      omega
  have hwindow := (ratelimit_windows (n := 2) (by decide) (by decide) (by decide) (by decide)
    hsteady).1 0 (by decide) (by decide +kernel)
  obtain ⟨hcounted, hnext⟩ := hwindow
  refine ⟨?_, ?_, hnext 3 (by decide) (by decide) (by decide) ?_⟩
  · exact (hcounted 1 (by decide) (by decide) (by decide)).1.mpr (by decide)
  · exact Bool.eq_false_iff.mpr
      (mt (hcounted 2 (by decide) (by decide) (by decide)).1.mp (by decide))
  · intro k hlo hhi
    dsimp only [calls]
    omega

end Librfn
