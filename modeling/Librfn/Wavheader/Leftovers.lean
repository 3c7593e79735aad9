import Librfn.Wavheader.Generated

/-!
# What is left in a header

`rf_wavheader_init` assigns the fact chunk for one format only, and the encoder
and the validation read it for every format.  Two headers that were
initialised alike can therefore differ in what was in them before.
-/

namespace Librfn

open Librfn.Logic Wavheader Bitstream

def prepared (wh : Wavheader) (sfreq numChannels : Int32) (format : WavFormat)
    (frames : List UInt32) : Wavheader :=
  frames.foldl rfWavheaderSetNumFrames (rfWavheaderInit wh sfreq numChannels format)

/-- The encoder makes the same of both headers, whatever the buffer. -/
def SameBytes (wh₁ wh₂ : Wavheader) : Prop :=
  ∀ p sz s, Prog.wp (rfWavheaderEncode wh₁ p sz) (fun m t =>
    Prog.wp (rfWavheaderEncode wh₂ p sz) (fun n u => n = m ∧ u.mem = t.mem) s) s

def Determined (wh₁ wh₂ : Wavheader) (sfreq numChannels : Int32) (format : WavFormat)
    (frames : List UInt32) : Prop :=
  SameBytes (prepared wh₁ sfreq numChannels format frames)
      (prepared wh₂ sfreq numChannels format frames) ∧
    rfWavheaderValidate (prepared wh₁ sfreq numChannels format frames) = 0 ∧
    rfWavheaderValidate (prepared wh₂ sfreq numChannels format frames) = 0

def sampleBytes (numChannels : Int32) (format : WavFormat) (frames : List UInt32) : UInt32 :=
  frames.getLast?.getD 0 *
    ((if format = .s16le then 2 else 4) * numChannels).toUInt32.toUInt16.toUInt32

def SizesFit (fmtChunkSize factChunkSize samples : UInt32) : Prop :=
  12 + fmtChunkSize + factChunkSize ≤ 50 + samples

def SameFact (wh₁ wh₂ : Wavheader) (frames : List UInt32) : Prop :=
  (wh₁.factChunkId = fact ↔ wh₂.factChunkId = fact) ∧
    (wh₁.factChunkId = fact → wh₁.factChunkSize = wh₂.factChunkSize ∧
      (frames = [] → wh₁.sampleLength = wh₂.sampleLength))

/-! ## The encoder -/

section

variable {wh₁ wh₂ : Wavheader}

theorem sameBytes_of_items (h : wh₁.items = wh₂.items) : SameBytes wh₁ wh₂ := by
  intro p sz s
  rw [rfWavheaderEncode_items, h]
  simp only [rfWavheaderEncode_items, rfPackInit, rfPackRemaining, Prog.wp_bind,
    Prog.wp_modify, wp_packItems, Prog.wp_get, Prog.wp_pure, and_self]

theorem SameBytes.encoded_eq (h : SameBytes wh₁ wh₂) (h₁ : wh₁.encodedLength < 2 ^ 31)
    (h₂ : wh₂.encodedLength < 2 ^ 31) : wh₁.encoded = wh₂.encoded := by
  have hroom₁ : wh₁.encodedLength ≤ wh₁.encodedLength + wh₂.encodedLength := by omega
  have hroom₂ : wh₂.encodedLength ≤ wh₁.encodedLength + wh₂.encodedLength := by omega
  obtain ⟨m, t, -, hboth, hm, ht⟩ := Prog.wp_iff_exists.mp
    (Prog.wp_and (h 0 _ .blank) (rfWavheaderEncode_spec wh₁ .blank hroom₁))
  obtain ⟨n, u, -, ⟨hsame, hu⟩, hn, hu'⟩ := Prog.wp_iff_exists.mp
    (Prog.wp_and hboth (rfWavheaderEncode_spec wh₂ .blank hroom₂))
  rw [asInt_of_lt (by omega) (by omega)] at hm hn
  have hlength : wh₂.encoded.length = wh₁.encoded.length := by
    rw [length_encoded, length_encoded]
    omega
  calc
    wh₁.encoded = span t.mem 0 wh₁.encoded.length := by rw [ht, span_overlay]
    _ = span u.mem 0 wh₂.encoded.length := by rw [hu, hlength]
    _ = wh₂.encoded := by rw [hu', span_overlay]

theorem allData_factItems (h : allData wh₁.factItems = allData wh₂.factItems) :
    (wh₁.factChunkId = fact ↔ wh₂.factChunkId = fact) ∧
      (wh₁.factChunkId = fact → wh₁.factChunkSize = wh₂.factChunkSize ∧
        wh₁.sampleLength = wh₂.sampleLength) := by
  have hlength := congrArg List.length h
  simp only [length_allData, totalSize_factItems, factLength] at hlength
  by_cases h₁ : wh₁.factChunkId = fact
  · have h₂ : wh₂.factChunkId = fact := by
      by_contra h₂
      simp [h₁, h₂] at hlength
    simp [factItems, h₁, h₂] at h
    obtain ⟨hsize, hsamples⟩ := List.append_inj h (by simp)
    have hsize := congrArg u32Of (Vector.toList_inj.mp hsize)
    have hsamples := congrArg u32Of (Vector.toList_inj.mp hsamples)
    rw [u32Of_le32, u32Of_le32] at hsize hsamples
    simp [h₁, h₂, hsize, hsamples]
  · have h₂ : wh₂.factChunkId ≠ fact := by
      intro h₂
      simp [h₁, h₂] at hlength
    simp [h₁, h₂]

theorem factItems_congr
    (h : (wh₁.factChunkId = fact ↔ wh₂.factChunkId = fact) ∧
      (wh₁.factChunkId = fact → wh₁.factChunkSize = wh₂.factChunkSize ∧
        wh₁.sampleLength = wh₂.sampleLength)) : wh₁.factItems = wh₂.factItems := by
  by_cases h₁ : wh₁.factChunkId = fact
  · have h₂ := h.1.mp h₁
    obtain ⟨hsize, hsamples⟩ := h.2 h₁
    simp [factItems, h₁, h₂, hsize, hsamples]
  · have h₂ := mt h.1.mpr h₁
    simp [factItems, h₁, h₂]

end

/-! ## What is assigned -/

variable (wh wh₁ wh₂ : Wavheader) (sfreq numChannels : Int32) (format : WavFormat)
  (frames : List UInt32)

theorem prepared_concat (n : UInt32) : prepared wh sfreq numChannels format (frames ++ [n]) =
    rfWavheaderSetNumFrames (rfWavheaderInit wh sfreq numChannels format) n :=
  foldl_setNumFrames _ _ _

theorem prepared_items : (prepared wh sfreq numChannels format frames).items =
    (generated sfreq numChannels format frames).fixedItems ++
      (generated sfreq numChannels format frames).extensionItems ++
      (prepared wh sfreq numChannels format frames).factItems ++
      (generated sfreq numChannels format frames).dataItems := by
  rcases List.eq_nil_or_concat frames with rfl | ⟨init, n, rfl⟩
  · cases format <;> rfl
  · rw [List.concat_eq_append, generated_concat, prepared_concat]
    cases format <;> rfl

theorem prepared_fact : (prepared wh sfreq numChannels format frames).factChunkId =
      (if format = .float then fact else wh.factChunkId) ∧
    (prepared wh sfreq numChannels format frames).factChunkSize =
      (if format = .float then 12 else wh.factChunkSize) ∧
    (prepared wh sfreq numChannels format frames).sampleLength =
      if frames = [] then if format = .float then 0 else wh.sampleLength
      else frames.getLast?.getD 0 * numChannels.toUInt32.toUInt16.toUInt32 := by
  rcases List.eq_nil_or_concat frames with rfl | ⟨init, n, rfl⟩
  · cases format <;> exact ⟨rfl, rfl, rfl⟩
  · rw [List.concat_eq_append, prepared_concat]
    cases format <;> simp [rfWavheaderSetNumFrames, rfWavheaderInit]

theorem prepared_chunkSize : (prepared wh sfreq numChannels format frames).chunkSize =
    50 + sampleBytes numChannels format frames := by
  rcases List.eq_nil_or_concat frames with rfl | ⟨init, n, rfl⟩
  · cases format <;> simp [prepared, rfWavheaderInit, sampleBytes]
  · rw [List.concat_eq_append, prepared_concat]
    cases format <;> simp [rfWavheaderSetNumFrames, rfWavheaderInit, sampleBytes]

theorem prepared_ids : (prepared wh sfreq numChannels format frames).chunkId = riff ∧
    (prepared wh sfreq numChannels format frames).format = wave ∧
    (prepared wh sfreq numChannels format frames).fmtChunkId = fmt ∧
    (prepared wh sfreq numChannels format frames).dataChunkId = data ∧
    (prepared wh sfreq numChannels format frames).fmtChunkSize =
      if format = .float then 18 else 16 := by
  rcases List.eq_nil_or_concat frames with rfl | ⟨init, n, rfl⟩
  · cases format <;> exact ⟨rfl, rfl, rfl, rfl, rfl⟩
  · rw [List.concat_eq_append, prepared_concat]
    cases format <;> exact ⟨rfl, rfl, rfl, rfl, rfl⟩

theorem prepared_validate : rfWavheaderValidate (prepared wh sfreq numChannels format frames) = 0 ↔
    SizesFit (if format = .float then 18 else 16)
      (if format = .float then 12 else wh.factChunkSize)
      (sampleBytes numChannels format frames) := by
  obtain ⟨hriff, hwave, hfmt, hdata, hsize⟩ :=
    prepared_ids wh sfreq numChannels format frames
  obtain ⟨-, hfact, -⟩ := prepared_fact wh sfreq numChannels format frames
  rw [rfWavheaderValidate_eq_zero_iff, Plausible, hriff, hwave, hfmt, hdata, hsize, hfact,
    prepared_chunkSize, UInt32.not_lt, SizesFit]
  simp

theorem prepared_encodedLength :
    (prepared wh sfreq numChannels format frames).encodedLength < 2 ^ 31 := by
  have hle := (prepared wh sfreq numChannels format frames).encodedLength_le
  obtain ⟨-, -, -, -, hsize⟩ := prepared_ids wh sfreq numChannels format frames
  have hshort : (prepared wh sfreq numChannels format frames).fmtChunkSize.toNat ≤ 18 := by
    rw [hsize]
    split <;> decide
  omega

theorem prepared_sameBytes_iff : SameBytes (prepared wh₁ sfreq numChannels format frames)
      (prepared wh₂ sfreq numChannels format frames) ↔
    format = .float ∨ SameFact wh₁ wh₂ frames := by
  obtain ⟨hid₁, hsize₁, hsamples₁⟩ := prepared_fact wh₁ sfreq numChannels format frames
  obtain ⟨hid₂, hsize₂, hsamples₂⟩ := prepared_fact wh₂ sfreq numChannels format frames
  constructor
  · intro h
    have hbytes := h.encoded_eq (prepared_encodedLength _ _ _ _ _)
      (prepared_encodedLength _ _ _ _ _)
    simp only [encoded, prepared_items, allData_append, List.append_cancel_right_eq,
      List.append_cancel_left_eq] at hbytes
    have hsame := allData_factItems hbytes
    by_cases hformat : format = .float
    · exact .inl hformat
    · rw [hid₁, hid₂, hsize₁, hsize₂, hsamples₁, hsamples₂] at hsame
      simp only [if_neg hformat] at hsame
      refine .inr ⟨hsame.1, fun hfact => ⟨(hsame.2 hfact).1, ?_⟩⟩
      rintro rfl
      exact (hsame.2 hfact).2
  · intro h
    apply sameBytes_of_items
    rw [prepared_items, prepared_items wh₂]
    congr 2
    apply factItems_congr
    rw [hid₁, hid₂, hsize₁, hsize₂, hsamples₁, hsamples₂]
    by_cases hformat : format = .float
    · simp [hformat]
    · obtain ⟨hiff, hcontent⟩ := h.resolve_left hformat
      simp only [if_neg hformat]
      refine ⟨hiff, fun hfact => ⟨(hcontent hfact).1, ?_⟩⟩
      split
      · rename_i hnil
        exact (hcontent hfact).2 hnil
      · rfl

/-- What is left of a former fact chunk counts unless the format has one itself, and
so does a size of the samples that wraps. -/
theorem init_determines_iff : Determined wh₁ wh₂ sfreq numChannels format frames ↔
    if format = .float then SizesFit 18 12 (sampleBytes numChannels format frames)
    else SameFact wh₁ wh₂ frames ∧
      SizesFit 16 wh₁.factChunkSize (sampleBytes numChannels format frames) ∧
      SizesFit 16 wh₂.factChunkSize (sampleBytes numChannels format frames) := by
  rw [Determined, prepared_sameBytes_iff, prepared_validate, prepared_validate]
  by_cases hformat : format = .float
  · simp [hformat]
  · simp [hformat]

/-- A header that held a format with a fact chunk encodes it again. -/
theorem init_undetermined :
    ¬Determined {} (rfWavheaderInit {} 44100 1 .float) 44100 1 .s16le [] := by
  intro h
  rcases (prepared_sameBytes_iff _ _ _ _ _ _).mp h.1 with hformat | ⟨hfact, -⟩
  · cases hformat
  · exact absurd (hfact.mpr rfl) (by decide)

end Librfn
