import Librfn.Wavheader.Leftovers

/-!
# Headers as text

The number of samples is the size of the data divided by the block size.  No
check looks at the block size of a decoded header, and that of an initialised
header is a product that was cut to sixteen bits.
-/

namespace Librfn

open Librfn.Logic Wavheader Bitstream

theorem rfWavheaderTostring_eq_none_iff (wh : Wavheader) :
    rfWavheaderTostring wh = none ↔ wh.blockAlign = 0 := by
  have hzero : wh.blockAlign.toUInt32 = 0 ↔ wh.blockAlign = 0 := by
    rw [← UInt32.toNat_inj, ← UInt16.toNat_inj]
    simp
  rw [rfWavheaderTostring, divide]
  by_cases h : wh.blockAlign = 0
  · simp [h]
  · simp [h, hzero]

theorem length_of_dataChunkId {bytes : List UInt8} (h : (parse bytes).dataChunkId = data) :
    40 ≤ bytes.length := by
  have hread : ∀ o, 36 ≤ o → fieldAt bytes o 4 = data → 40 ≤ bytes.length := by
    intro o ho hdata
    by_contra hshort
    rw [fieldAt_of_past (by omega)] at hdata
    exact absurd hdata (by decide)
  by_cases hfact : fieldAt bytes (36 + (parse bytes).extensionLength) 4 = fact
  · obtain ⟨-, -, hid, -⟩ := parse_of_fact bytes rfl hfact
    exact hread _ (by omega) (hid ▸ h)
  · obtain ⟨-, -, hid, -⟩ := parse_of_not_fact bytes rfl hfact
    exact hread _ (by omega) (hid ▸ h)

theorem Decoded.blockAlign_eq_zero_iff {mem : Memory} {p sz : Nat} {r : Int} {wh : Wavheader}
    {t : Bitstream} (h : Decoded mem p sz r wh t) (hvalid : rfWavheaderValidate wh = 0) :
    wh.blockAlign = 0 ↔ mem (p + 32) = 0 ∧ mem (p + 33) = 0 := by
  obtain ⟨-, -, hdata⟩ := (rfWavheaderValidate_eq_zero_iff wh).mp hvalid
  rw [h.header] at hdata ⊢
  have hlength := length_of_dataChunkId hdata
  rw [parse_blockAlign, u16Of_eq_zero_iff, getElem_fieldAt (by omega), getElem_fieldAt (by omega),
    getElem_span, getElem_span]

/-! ## The block size of initialised headers -/

theorem toNat_numChannels {numChannels : Int32} (hlo : 0 < numChannels)
    (hhi : numChannels < 65536) :
    (numChannels.toUInt32.toUInt16.toNat : Int) = numChannels.toInt := by
  rw [Int32.lt_iff_toInt_lt] at hlo hhi
  have hlo : 0 < numChannels.toInt := hlo
  have hhi : numChannels.toInt < 65536 := hhi
  have hsign := BitVec.toInt_eq_toNat_cond numChannels.toBitVec
  have hint : numChannels.toInt = numChannels.toBitVec.toInt := rfl
  have hnat : numChannels.toUInt32.toNat = numChannels.toBitVec.toNat := rfl
  rw [UInt32.toNat_toUInt16, hnat]
  split at hsign <;> omega

theorem init_blockAlign (wh : Wavheader) (sfreq numChannels : Int32) (format : WavFormat) :
    (rfWavheaderInit wh sfreq numChannels format).blockAlign =
      (if format = .s16le then 2 else 4) * numChannels.toUInt32.toUInt16 := by
  have htwo : (Int32.toUInt32 2).toUInt16 = 2 := by decide
  have hfour : (Int32.toUInt32 4).toUInt16 = 4 := by decide
  cases format <;> simp [rfWavheaderInit, htwo, hfour]

theorem prepared_blockAlign (wh : Wavheader) (sfreq numChannels : Int32) (format : WavFormat)
    (frames : List UInt32) : (prepared wh sfreq numChannels format frames).blockAlign =
      (rfWavheaderInit wh sfreq numChannels format).blockAlign := by
  rcases List.eq_nil_or_concat frames with rfl | ⟨init, n, rfl⟩
  · rfl
  · rw [List.concat_eq_append, prepared_concat]
    rfl

theorem init_blockAlign_eq_zero_iff (wh : Wavheader) (sfreq : Int32) {numChannels : Int32}
    (format : WavFormat) (hlo : 0 < numChannels) (hhi : numChannels < 65536) :
    (rfWavheaderInit wh sfreq numChannels format).blockAlign = 0 ↔
      numChannels.toInt % (if format = .s16le then 32768 else 16384) = 0 := by
  have hchannels := toNat_numChannels hlo hhi
  rw [init_blockAlign, ← UInt16.toNat_inj, UInt16.toNat_mul, ← hchannels]
  have hlt := numChannels.toUInt32.toUInt16.toNat_lt
  by_cases hformat : format = .s16le
  · simp only [if_pos hformat, UInt16.reduceToNat]
    omega
  · simp only [if_neg hformat, UInt16.reduceToNat]
    omega

/-- Of an accepted buffer only the two bytes of the block size count, and of an
initialised header whether the number of channels is a multiple of 32768 or 16384. -/
theorem tostring_defined_iff (p sz : Nat) (s : Bitstream) :
    Prog.wp (rfWavheaderDecode p sz) (fun (r, wh) _ =>
      0 ≤ r → rfWavheaderValidate wh = 0 →
        (rfWavheaderTostring wh ≠ none ↔ ¬(s.mem (p + 32) = 0 ∧ s.mem (p + 33) = 0))) s ∧
    ∀ wh sfreq numChannels format frames, 0 < numChannels → numChannels < 65536 →
      (rfWavheaderTostring (prepared wh sfreq numChannels format frames) ≠ none ↔
        numChannels.toInt % (if format = .s16le then 32768 else 16384) ≠ 0) := by
  constructor
  · apply Prog.wp_mono (rfWavheaderDecode_spec p sz s)
    rintro ⟨r, wh⟩ t hdecoded - hvalid
    rw [Ne, rfWavheaderTostring_eq_none_iff, hdecoded.blockAlign_eq_zero_iff hvalid]
  · intro wh sfreq numChannels format frames hlo hhi
    rw [Ne, rfWavheaderTostring_eq_none_iff, prepared_blockAlign,
      init_blockAlign_eq_zero_iff wh sfreq format hlo hhi]

def unblocked : Wavheader := { generated 44100 1 .s16le [] with blockAlign := 0 }

def streamOf (wh : Wavheader) : Bitstream :=
  { Bitstream.blank with mem := overlay Bitstream.blank.mem 0 wh.encoded }

theorem tostring_undefined :
    Prog.wp (rfWavheaderDecode 0 44) (fun x _ => x.1 = 44 ∧ rfWavheaderValidate x.2 = 0 ∧
      rfWavheaderTostring x.2 = none) (streamOf unblocked) ∧
    rfWavheaderTostring (rfWavheaderInit {} 44100 16384 .s32le) = none := by
  decide +kernel

theorem tostring_defined_mono :
    Prog.wp (rfWavheaderDecode 0 44) (fun x _ => rfWavheaderTostring x.2 ≠ none)
      (streamOf (generated 44100 1 .s16le [])) ∧
    rfWavheaderTostring (prepared {} 44100 1 .s16le []) ≠ none := by
  have hdecode : Prog.wp (rfWavheaderDecode 0 44)
      (fun x _ => x.1 = 44 ∧ rfWavheaderValidate x.2 = 0)
      (streamOf (generated 44100 1 .s16le [])) := by decide +kernel
  constructor
  · apply Prog.wp_mono (Prog.wp_and hdecode (tostring_defined_iff 0 44 _).1)
    rintro ⟨r, wh⟩ t ⟨⟨hr, hvalid⟩, hiff⟩
    simp only at hr hvalid hiff
    exact (hiff (by omega) hvalid).mpr (by decide +kernel)
  · exact ((tostring_defined_iff 0 44 .blank).2 {} 44100 1 .s16le [] (by decide)
      (by decide)).mpr (by decide)

end Librfn
