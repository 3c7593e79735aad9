import Librfn.Wavheader.Layout

/-!
# Truncated headers

The result of the decoder tells whether the header was all there, unless the
extension that it skips is so long that the amount used wraps as an `int`.
-/

namespace Librfn

open Librfn.Logic Wavheader Bitstream

/-- What a result of the decoder promises of the bytes that were asked for. -/
def TruncationDetected (p sz : Nat) (r : Int) (t : Bitstream) : Prop :=
  (0 ≤ r → r ≤ sz → (∀ a, t.Asked a → p ≤ a ∧ a < p + sz) ∧ r = (t.p : Int) - p) ∧
    ((∃ a, t.Asked a ∧ p + sz ≤ a) → r < 0 ∨ sz < r)

/-- The buffer holds a header whose `fmt` chunk declares nearly four gigabytes, no
`cb_size` of 22, and a RIFF size that passes the check of the sizes. -/
def SkipWraps (bytes : List UInt8) : Prop :=
  fieldAt bytes 0 4 = riff ∧ fieldAt bytes 8 4 = wave ∧ u16Of (fieldAt bytes 36 2) ≠ 22 ∧
    2 ^ 32 ≤ (u32Of (fieldAt bytes 16 4)).toNat + 28 ∧
    (u32Of (fieldAt bytes 16 4)).toNat + 28 ≤ 2 ^ 32 + bytes.length ∧
    12 + u32Of (fieldAt bytes 16 4) ≤ u32Of (fieldAt bytes 4 4)

instance (bytes : List UInt8) : Decidable (SkipWraps bytes) :=
  inferInstanceAs (Decidable (_ ∧ _ ∧ _ ∧ _ ∧ _ ∧ _))

variable {mem : Memory} {p sz : Nat} {r : Int} {wh : Wavheader} {t : Bitstream}

theorem Decoded.result_of_nonneg (h : Decoded mem p sz r wh t) (hr : 0 ≤ r) :
    wh.Plausible ∧ r = asInt wh.encodedLength := by
  have hresult := h.result
  split at hresult
  · exact ⟨‹_›, hresult⟩
  · rw [hresult, einval] at hr
    omega

theorem Decoded.truncationDetected_iff (h : Decoded mem p sz r wh t) (hsz : sz < 2 ^ 31) :
    TruncationDetected p sz r t ↔
      ¬(wh.Plausible ∧ sz < wh.encodedLength ∧ 0 ≤ asInt wh.encodedLength ∧
        asInt wh.encodedLength ≤ sz) := by
  have hasked := h.used.asked_iff
  have hp := h.used.p_eq
  have hpast : (∃ a, t.Asked a ∧ p + sz ≤ a) ↔ sz < wh.encodedLength := by
    constructor
    · rintro ⟨a, ha, hend⟩
      have hspan := (hasked a).mp ha
      omega
    · intro hlt
      exact ⟨p + sz, (hasked _).mpr ⟨by omega, by omega⟩, Nat.le_refl _⟩
  rw [TruncationDetected, hpast]
  constructor
  · rintro ⟨-, hdetect⟩ ⟨hvalid, hlt, hlo, hhi⟩
    have hresult := h.result
    rw [if_pos hvalid] at hresult
    rcases hdetect hlt with hneg | hlarge <;> omega
  · intro hnot
    constructor
    · intro hlo hhi
      obtain ⟨hvalid, hresult⟩ := h.result_of_nonneg hlo
      have hle : ¬sz < wh.encodedLength := fun hlt =>
        hnot ⟨hvalid, hlt, by omega, by omega⟩
      rw [asInt_of_lt (by omega) (by omega)] at hresult
      constructor
      · intro a ha
        have hspan := (hasked a).mp ha
        omega
      · omega
    · intro hlt
      by_contra hwithin
      obtain ⟨hvalid, hresult⟩ := h.result_of_nonneg (by omega)
      exact hnot ⟨hvalid, hlt, by omega, by omega⟩

theorem parse_plausible_iff (bytes : List UInt8) : (parse bytes).Plausible ↔
    fieldAt bytes 0 4 = riff ∧
      12 + u32Of (fieldAt bytes 16 4) + (parse bytes).factChunkSize ≤
        u32Of (fieldAt bytes 4 4) ∧ fieldAt bytes 8 4 = wave := by
  rw [Plausible, parse_chunkId, parse_chunkSize, parse_fmtChunkSize, parse_format,
    UInt32.not_lt]

theorem parse_of_long_skip {bytes : List UInt8} (hlength : bytes.length < 2 ^ 31)
    (hcb : u16Of (fieldAt bytes 36 2) ≠ 22)
    (hlong : 2 ^ 31 + 64 ≤ (u32Of (fieldAt bytes 16 4)).toNat) :
    (parse bytes).encodedLength = (u32Of (fieldAt bytes 16 4)).toNat + 28 ∧
      (parse bytes).factChunkSize = 0 := by
  have hge : u32Of (fieldAt bytes 16 4) ≥ 18 := by
    apply UInt32.le_iff_toNat_le.mpr
    exact Nat.le_trans (by decide) hlong
  have hsub : (u32Of (fieldAt bytes 16 4) - 18).toNat = (u32Of (fieldAt bytes 16 4)).toNat - 18 :=
    UInt32.toNat_sub_of_le _ _ hge
  have hext := parse_extensionLength bytes
  rw [if_pos hge, if_neg hcb, hsub] at hext
  have hpast : fieldAt bytes (36 + (parse bytes).extensionLength) 4 ≠ fact := by
    rw [fieldAt_of_past (by omega)]
    decide
  obtain ⟨hfact, hsize, -, -⟩ := parse_of_not_fact bytes rfl hpast
  refine ⟨?_, hsize⟩
  rw [encodedLength, factLength, if_neg hfact, hext]
  omega

/-- The amount wraps only when the skipped bytes reach past four gigabytes. -/
theorem wraps_iff {bytes : List UInt8} (hlength : bytes.length < 2 ^ 31) :
    ((parse bytes).Plausible ∧ bytes.length < (parse bytes).encodedLength ∧
      0 ≤ asInt (parse bytes).encodedLength ∧
      asInt (parse bytes).encodedLength ≤ bytes.length) ↔ SkipWraps bytes := by
  rw [parse_plausible_iff]
  constructor
  · rintro ⟨⟨hriff, hsizes, hwave⟩, hlt, hlo, hhi⟩
    obtain ⟨k, hk, -, -⟩ := asInt_spec (parse bytes).encodedLength
    have hlarge : 2 ^ 32 ≤ (parse bytes).encodedLength := by omega
    have hle := (parse bytes).encodedLength_le
    have hmax := (u32Of (fieldAt bytes 16 4)).toNat_lt
    rw [parse_fmtChunkSize] at hle
    have hcb : u16Of (fieldAt bytes 36 2) ≠ 22 := by
      intro hcb
      have hext : (parse bytes).extensionLength ≤ 24 := by
        rw [parse_extensionLength, if_pos hcb]
        split <;> omega
      have hfact := (parse bytes).factLength_le
      rw [encodedLength] at hlarge
      omega
    obtain ⟨hused, hzero⟩ := parse_of_long_skip hlength hcb (by omega)
    rw [hzero, UInt32.add_zero] at hsizes
    exact ⟨hriff, hwave, hcb, by omega, by omega, hsizes⟩
  · rintro ⟨hriff, hwave, hcb, hlo, hhi, hsizes⟩
    obtain ⟨hused, hzero⟩ := parse_of_long_skip hlength hcb (by omega)
    obtain ⟨k, hk, hk'⟩ := asInt_spec (parse bytes).encodedLength
    rw [hzero, UInt32.add_zero]
    refine ⟨⟨hriff, hsizes, hwave⟩, ?_, ?_, ?_⟩ <;> omega

theorem truncation_detected_iff (p sz : Nat) (hsz : sz < 2 ^ 31) (s : Bitstream) :
    Prog.wp (rfWavheaderDecode p sz) (fun x t => TruncationDetected p sz x.1 t) s ↔
      ¬SkipWraps (span s.mem p sz) := by
  obtain ⟨⟨r, wh⟩, t, hrun, hdecoded⟩ := Prog.wp_iff_exists.mp (rfWavheaderDecode_spec p sz s)
  have hheader : wh = parse (span s.mem p sz) := hdecoded.header
  have hlength : (span s.mem p sz).length = sz := length_span
  have hwraps := @wraps_iff (span s.mem p sz) (by omega)
  rw [Prog.wp_iff_of_eq hrun]
  rw [hlength, ← hheader] at hwraps
  rw [← hwraps]
  exact hdecoded.truncationDetected_iff hsz

/-- A `fmt` chunk of sixteen bytes less than four gigabytes, in a buffer of 44. -/
def wrapping : List UInt8 :=
  riff.toList ++ [255, 255, 255, 255] ++ wave.toList ++ fmt.toList ++ [240, 255, 255, 255] ++
    List.replicate 24 0

def wrappingStream : Bitstream :=
  { Bitstream.blank with mem := overlay Bitstream.blank.mem 0 wrapping }

theorem truncation_detected_wrapping :
    ¬Prog.wp (rfWavheaderDecode 0 44) (fun x t => TruncationDetected 0 44 x.1 t)
      wrappingStream := by
  have hdecode : Prog.wp (rfWavheaderDecode 0 44)
      (fun x t => x.1 = 12 ∧ (38, 4294967262) ∈ t.asked) wrappingStream := by
    decide +kernel
  intro h
  obtain ⟨x, t, -, ⟨hresult, hasked⟩, hdetected⟩ :=
    Prog.wp_iff_exists.mp (Prog.wp_and hdecode h)
  obtain ⟨hinside, -⟩ := hdetected.1 (by rw [hresult]; decide) (by rw [hresult]; decide)
  have hlast := hinside 44 ⟨_, hasked, by decide, by decide⟩
  omega

/-- The first ten bytes of the same buffer do not say how long the chunk is. -/
theorem truncation_detected_short :
    Prog.wp (rfWavheaderDecode 0 10) (fun x t => TruncationDetected 0 10 x.1 t)
      wrappingStream :=
  (truncation_detected_iff 0 10 (by decide) _).mpr (by decide +kernel)

end Librfn
