import Librfn.Wavheader.Riff
import Librfn.Wavheader.RoundTrip

/-!
# Generated headers

The headers that `rf_wavheader_init` and `rf_wavheader_set_num_frames` make.
Only the last number of frames counts.  The sizes do not match what is
encoded: the RIFF size always counts a fact chunk and a long `fmt` chunk, and
the fact chunk declares its header as payload.
-/

namespace Librfn

open Librfn.Logic Wavheader Bitstream

def generated (sfreq numChannels : Int32) (format : WavFormat) (frames : List UInt32) :
    Wavheader :=
  frames.foldl rfWavheaderSetNumFrames (rfWavheaderInit {} sfreq numChannels format)

/-- What the bytes of a generated header should be. -/
def GeneratedWell (sfreq numChannels : Int32) (format : WavFormat) (frames : List UInt32)
    (bytes : List UInt8) : Prop :=
  (∃ w : RiffHeader, bytes = w.bytes ∧
    w.size.toNat + 8 = bytes.length + w.dataSize.toNat ∧
    w.dataSize.toNat = (frames.getLast?.getD 0).toNat *
      (generated sfreq numChannels format frames).blockAlign.toNat) ∧
  ∀ frames', frames'.getLast? = frames.getLast? →
    (generated sfreq numChannels format frames').encoded = bytes

/-! ## Setting the number of frames -/

theorem setNumFrames_setNumFrames (wh : Wavheader) (m n : UInt32) :
    rfWavheaderSetNumFrames (rfWavheaderSetNumFrames wh m) n =
      rfWavheaderSetNumFrames wh n := by
  simp [rfWavheaderSetNumFrames]

theorem foldl_setNumFrames (wh : Wavheader) (frames : List UInt32) (n : UInt32) :
    (frames ++ [n]).foldl rfWavheaderSetNumFrames wh = rfWavheaderSetNumFrames wh n := by
  induction frames generalizing wh with
  | nil => rfl
  | cons m frames ih => rw [List.cons_append, List.foldl_cons, ih, setNumFrames_setNumFrames]

variable (sfreq numChannels : Int32) (format : WavFormat)

theorem generated_concat (frames : List UInt32) (n : UInt32) :
    generated sfreq numChannels format (frames ++ [n]) =
      rfWavheaderSetNumFrames (rfWavheaderInit {} sfreq numChannels format) n :=
  foldl_setNumFrames _ _ _

/-- Only the last call counts. -/
theorem generated_congr {frames frames' : List UInt32}
    (h : frames'.getLast? = frames.getLast?) :
    generated sfreq numChannels format frames' =
      generated sfreq numChannels format frames := by
  rcases List.eq_nil_or_concat frames with rfl | ⟨init, n, rfl⟩
  · have hnil : frames' = [] := by simpa using h
    rw [hnil]
  · rcases List.eq_nil_or_concat frames' with rfl | ⟨init', n', rfl⟩
    · simp at h
    · have hlast : n' = n := by simpa using h
      rw [hlast, List.concat_eq_append, List.concat_eq_append, generated_concat,
        generated_concat]

structure Generated (format : WavFormat) (wh : Wavheader) : Prop where
  chunkSize : wh.chunkSize = 50 + wh.dataChunkSize
  fmtChunkSize : wh.fmtChunkSize = if format = .float then 18 else 16
  cbSize : wh.cbSize = 0
  factChunkId : wh.factChunkId = if format = .float then fact else Vector.replicate 4 0
  factChunkSize : wh.factChunkSize = if format = .float then 12 else 0

theorem Generated.init : Generated format (rfWavheaderInit {} sfreq numChannels format) := by
  cases format <;> constructor <;> rfl

theorem Generated.setNumFrames {format : WavFormat} {wh : Wavheader}
    (h : Generated format wh) (n : UInt32) :
    Generated format (rfWavheaderSetNumFrames wh n) where
  chunkSize := by simp [rfWavheaderSetNumFrames, h.chunkSize]
  fmtChunkSize := h.fmtChunkSize
  cbSize := h.cbSize
  factChunkId := h.factChunkId
  factChunkSize := h.factChunkSize

variable (frames : List UInt32)

theorem generated_generated : Generated format (generated sfreq numChannels format frames) := by
  have hrun : ∀ wh, Generated format wh →
      Generated format (frames.foldl rfWavheaderSetNumFrames wh) := by
    induction frames with
    | nil =>
        intro wh h
        exact h
    | cons n frames ih =>
        intro wh h
        apply ih
        exact h.setNumFrames n
  apply hrun
  apply Generated.init

theorem generated_blockAlign : (generated sfreq numChannels format frames).blockAlign =
    (rfWavheaderInit {} sfreq numChannels format).blockAlign := by
  rcases List.eq_nil_or_concat frames with rfl | ⟨init, n, rfl⟩
  · rfl
  · rw [List.concat_eq_append, generated_concat]
    rfl

theorem generated_dataChunkSize
    (h : (frames.getLast?.getD 0).toNat *
      (generated sfreq numChannels format frames).blockAlign.toNat < 2 ^ 32) :
    (generated sfreq numChannels format frames).dataChunkSize.toNat =
      (frames.getLast?.getD 0).toNat *
        (generated sfreq numChannels format frames).blockAlign.toNat := by
  rw [generated_blockAlign] at h ⊢
  rcases List.eq_nil_or_concat frames with rfl | ⟨init, n, rfl⟩
  · simp [generated, rfWavheaderInit]
  · rw [List.concat_eq_append, generated_concat]
    rw [List.concat_eq_append, List.getLast?_concat, Option.getD_some] at *
    simpa [rfWavheaderSetNumFrames] using Nat.mod_eq_of_lt h

/-! ## What the bytes are -/

section

variable (wh : Wavheader)

theorem encoded_chunkSize : u32Of (fieldAt wh.encoded 4 4) = wh.chunkSize := by
  rw [encoded_eq]
  exact congrArg Wavheader.chunkSize (wh.parseFixed_encoded _)

theorem encoded_fmtChunkSize : u32Of (fieldAt wh.encoded 16 4) = wh.fmtChunkSize := by
  rw [encoded_eq]
  exact congrArg Wavheader.fmtChunkSize (wh.parseFixed_encoded _)

theorem encoded_chunks (o n : Nat) : fieldAt wh.encoded (36 + wh.extensionLength + o) n =
    fieldAt (allData wh.factItems ++ allData wh.dataItems) o n := by
  rw [encoded_eq, fieldAt_extensionItems]

end

theorem Generated.encodedLength {format : WavFormat} {wh : Wavheader}
    (h : Generated format wh) :
    wh.extensionLength = (if format = .float then 2 else 0) ∧
      wh.encodedLength = if format = .float then 58 else 44 := by
  simp only [Wavheader.encodedLength, extensionLength, factLength, h.fmtChunkSize,
    h.cbSize, h.factChunkId]
  cases format <;> decide

variable {format : WavFormat} {wh : Wavheader} {w : RiffHeader}

theorem Generated.fmtPayload_length (h : Generated format wh) (hbytes : wh.encoded = w.bytes) :
    28 + w.bodyLength = (if format = .float then 58 else 44) ∧
      w.fmtPayload.length = if format = .float then 18 else 16 := by
  have hlength : 28 + w.bodyLength = if format = .float then 58 else 44 := by
    rw [← w.length_bytes, ← hbytes, length_encoded, h.encodedLength.2]
  have hshort : w.fmtPayload.length < 2 ^ 32 := by
    rw [RiffHeader.bodyLength] at hlength
    split at hlength <;> omega
  obtain ⟨-, -, -, -, hsize⟩ := w.fieldAt_front []
  rw [List.append_nil, ← hbytes] at hsize
  have hfmt := encoded_fmtChunkSize wh
  rw [hsize, u32Of_le32_ofNat hshort, h.fmtChunkSize] at hfmt
  have hnat : (UInt32.ofNat w.fmtPayload.length).toNat = w.fmtPayload.length :=
    UInt32.toNat_ofNat_of_lt hshort
  refine ⟨hlength, ?_⟩
  rw [← hnat, hfmt]
  split <;> rfl

/-- Without a fact chunk the RIFF size is fourteen too large. -/
theorem Generated.size_ne (h : Generated format wh) (hformat : format ≠ .float)
    (hbytes : wh.encoded = w.bytes) :
    w.size.toNat + 8 ≠ wh.encoded.length + w.dataSize.toNat := by
  obtain ⟨hlength, hfmt⟩ := h.fmtPayload_length hbytes
  have hdata := (w.fieldAt_dataChunk []).2
  obtain ⟨-, hsize, -, -, -⟩ := w.fieldAt_front []
  rw [if_neg hformat] at hlength
  have hbody : w.bodyLength = 16 := by omega
  have hfact : ¬wh.factChunkId = fact := by
    rw [h.factChunkId, if_neg hformat]
    decide
  have hext := h.encodedLength.1
  rw [if_neg hformat] at hext
  have hfield := encoded_chunks wh 4 4
  rw [factItems, if_neg hfact, hext] at hfield
  rw [List.append_nil, ← hbytes, hbody, hfield] at hdata
  rw [List.append_nil, ← hbytes, encoded_chunkSize, h.chunkSize] at hsize
  have hsame : wh.dataChunkSize = w.dataSize := by
    simpa [dataItems, fieldAt_behind] using hdata
  rw [← hsize, ← hsame, length_encoded, h.encodedLength.2, if_neg hformat, UInt32.toNat_add]
  have hlt := wh.dataChunkSize.toNat_lt
  simp only [UInt32.reduceToNat]
  omega

/-- The size of the fact chunk counts its own header. -/
theorem Generated.float_ne (h : Generated .float wh) : wh.encoded ≠ w.bytes := by
  intro hbytes
  obtain ⟨hlength, hfmt⟩ := h.fmtPayload_length hbytes
  rw [if_pos rfl] at hlength hfmt
  have hfact : wh.factChunkId = fact := h.factChunkId
  have hext : wh.extensionLength = 2 := h.encodedLength.1
  have hfield := encoded_chunks wh 4 4
  rw [factItems, if_pos hfact, hext] at hfield
  cases hpayload : w.factPayload with
  | none =>
      simp [RiffHeader.bodyLength, RiffHeader.factBytes, hpayload, hfmt] at hlength
  | some payload =>
      have hfour : payload.length = 4 := by
        simp [RiffHeader.bodyLength, RiffHeader.factBytes, hpayload, hfmt, chunkBytes] at hlength
        omega
      have hdeclared := (w.fieldAt_factChunk [] hpayload).2
      rw [List.append_nil, ← hbytes, hfmt, hfour, hfield] at hdeclared
      have htwelve : le32 wh.factChunkSize.toNat = le32 (4 : Nat) := by
        simpa [fieldAt_behind] using hdeclared
      rw [h.factChunkSize] at htwelve
      exact absurd htwelve (by decide)

theorem not_generatedWell (frames : List UInt32) :
    ¬GeneratedWell sfreq numChannels format frames
      (generated sfreq numChannels format frames).encoded := by
  rintro ⟨⟨w, hbytes, hsize, -⟩, -⟩
  have h := generated_generated sfreq numChannels format frames
  by_cases hformat : format = .float
  · subst hformat
    exact h.float_ne hbytes
  · exact h.size_ne hformat hbytes hsize

theorem generated_ill_formed (frames : List UInt32) {p sz : Nat}
    (hroom : (generated sfreq numChannels format frames).encodedLength ≤ sz)
    (s : Bitstream) :
    Prog.wp (rfWavheaderEncode (generated sfreq numChannels format frames) p sz)
      (fun n t => ¬GeneratedWell sfreq numChannels format frames (span t.mem p n.toNat)) s := by
  have hlength := (generated_generated sfreq numChannels format frames).encodedLength.2
  apply Prog.wp_mono (rfWavheaderEncode_spec _ s hroom)
  rintro n t ⟨hn, hmem⟩
  have hshort : (generated sfreq numChannels format frames).encodedLength < 2 ^ 31 := by
    rw [hlength]
    split <;> decide
  rw [hn, asInt_of_lt (by omega) (by omega), Int.toNat_natCast, hmem, ← length_encoded,
    span_overlay]
  apply not_generatedWell

theorem generated_ill_formed_mono :
    Prog.wp (rfWavheaderEncode (generated 44100 1 .s16le [100]) 0 128)
      (fun n t => ¬GeneratedWell 44100 1 .s16le [100] (span t.mem 0 n.toNat)) .blank :=
  generated_ill_formed 44100 1 [100] (by decide +kernel) .blank

theorem generated_not_well :
    ¬Prog.wp (rfWavheaderEncode (generated 44100 1 .s16le [100]) 0 128)
      (fun n t => GeneratedWell 44100 1 .s16le [100] (span t.mem 0 n.toNat)) .blank := by
  have hencode : Prog.wp (rfWavheaderEncode (generated 44100 1 .s16le [100]) 0 128)
      (fun n t => span t.mem 0 n.toNat = (generated 44100 1 .s16le [100]).encoded) .blank := by
    decide +kernel
  intro h
  obtain ⟨n, t, -, hbytes, hwell⟩ := Prog.wp_iff_exists.mp (Prog.wp_and hencode h)
  rw [hbytes] at hwell
  exact not_generatedWell 44100 1 [100] hwell

end Librfn
