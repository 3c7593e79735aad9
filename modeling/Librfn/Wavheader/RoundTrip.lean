import Librfn.Wavheader.Layout

/-!
# Decoding and encoding

Decoding undoes encoding on the headers that the encoder writes completely.
Encoding undoes decoding on the buffers that hold the whole header, up to the
bytes of an extension that the decoder skips.
-/

namespace Librfn

open Librfn.Logic Wavheader Bitstream

namespace Wavheader

/-- A header with nothing in the fields that are not encoded, and with the
sizes that the decoder expects. -/
structure Canonical (wh : Wavheader) : Prop where
  chunkId : wh.chunkId = riff
  format : wh.format = wave
  sizes : 12 + wh.fmtChunkSize.toNat + wh.factChunkSize.toNat ≤ wh.chunkSize.toNat
  noExtension : wh.fmtChunkSize < 18 → wh.cbSize = 0
  noFormat : wh.fmtChunkSize < 18 ∨ wh.cbSize ≠ 22 →
    wh.validBitsPerSample = 0 ∧ wh.channelMask = 0 ∧ wh.subFormat = Vector.replicate 16 0
  noFact : wh.factChunkId ≠ fact →
    wh.factChunkId = Vector.replicate 4 0 ∧ wh.factChunkSize = 0 ∧ wh.sampleLength = 0 ∧
      wh.dataChunkId ≠ fact

theorem Canonical.valid {wh : Wavheader} (h : wh.Canonical) : wh.Plausible := by
  refine ⟨h.chunkId, ?_, h.format⟩
  have hsizes := h.sizes
  have hlt := wh.chunkSize.toNat_lt
  rw [UInt32.not_lt, UInt32.le_iff_toNat_le]
  simp only [UInt32.toNat_add, UInt32.reduceToNat]
  omega

variable (wh : Wavheader)

theorem encoded_eq : wh.encoded = allData wh.fixedItems ++ (allData wh.extensionItems ++
    (allData wh.factItems ++ allData wh.dataItems)) := by
  simp [encoded, items]

theorem parseFixed_encoded (rest : List UInt8) :
    parseFixed (allData wh.fixedItems ++ rest) = wh.beforeExtension := by
  simp [parseFixed, fixedItems, beforeExtension, beforeChunks, fieldAt_behind]

theorem fieldAt_fixedItems (rest : List UInt8) (o n : Nat) :
    fieldAt (allData wh.fixedItems ++ rest) (36 + o) n = fieldAt rest o n := by
  have hlength : (allData wh.fixedItems).length = 36 := by
    rw [length_allData, totalSize_fixedItems]
  rw [fieldAt_append_right (by omega), hlength, Nat.add_sub_cancel_left]

theorem fieldAt_extensionItems (rest : List UInt8) (o n : Nat) :
    fieldAt (allData wh.fixedItems ++ (allData wh.extensionItems ++ rest))
      (36 + wh.extensionLength + o) n = fieldAt rest o n := by
  have hlength : (allData wh.extensionItems).length = wh.extensionLength := by
    rw [length_allData, totalSize_extensionItems]
  rw [Nat.add_assoc, fieldAt_fixedItems, fieldAt_append_right (by omega), hlength,
    Nat.add_sub_cancel_left]

variable {wh}

theorem Canonical.parseExtension_encoded (h : wh.Canonical) (rest : List UInt8) :
    parseExtension (allData wh.fixedItems ++ (allData wh.extensionItems ++ rest))
      wh.beforeExtension = wh.beforeChunks := by
  have h36 := wh.fieldAt_fixedItems (allData wh.extensionItems ++ rest) 0 2
  have h38 := wh.fieldAt_fixedItems (allData wh.extensionItems ++ rest) 2 2
  have h40 := wh.fieldAt_fixedItems (allData wh.extensionItems ++ rest) 4 4
  have h44 := wh.fieldAt_fixedItems (allData wh.extensionItems ++ rest) 8 16
  simp only [Nat.reduceAdd] at h36 h38 h40 h44
  have hsize : wh.beforeExtension.fmtChunkSize = wh.fmtChunkSize := rfl
  simp only [parseExtension, h36, h38, h40, h44, hsize]
  by_cases hlong : wh.fmtChunkSize ≥ 18
  · by_cases hcb : wh.cbSize = 22
    · have hread : u16Of (le16 22) = 22 := u16Of_le16 22
      simp [extensionItems, hlong, hcb, hread, fieldAt_behind, beforeExtension, beforeChunks]
    · obtain ⟨hvalid, hmask, hsub⟩ := h.noFormat (.inr hcb)
      simp [extensionItems, hlong, hcb, hvalid, hmask, hsub, beforeExtension, beforeChunks]
  · have hshort : wh.fmtChunkSize < 18 := UInt32.not_le.mp hlong
    obtain ⟨hvalid, hmask, hsub⟩ := h.noFormat (.inl hshort)
    have hcb := h.noExtension hshort
    simp [hlong, beforeExtension, beforeChunks, hvalid, hmask, hsub, hcb]

theorem Canonical.parseChunks_encoded (h : wh.Canonical) :
    parseChunks wh.encoded (36 + wh.extensionLength) wh.beforeChunks = wh := by
  have hfield := wh.fieldAt_extensionItems (allData wh.factItems ++ allData wh.dataItems)
  have h0 := hfield 0 4
  rw [Nat.add_zero] at h0
  simp only [parseChunks, encoded_eq, h0, hfield]
  by_cases hfact : wh.factChunkId = fact
  · have hitems : wh.factItems = [.bytes 4 wh.factChunkId, .u32le wh.factChunkSize,
        .u32le wh.sampleLength] := if_pos hfact
    simp [hitems, dataItems, hfact, fieldAt_behind, beforeChunks, Wavheader.ext_iff]
  · obtain ⟨hid, hsize, hlength, hdata⟩ := h.noFact hfact
    have hitems : wh.factItems = [] := if_neg hfact
    simp [hitems, dataItems, hdata, fieldAt_behind, beforeChunks, Wavheader.ext_iff, hid,
      hsize, hlength]

theorem Canonical.parse_encoded (h : wh.Canonical) : parse wh.encoded = wh := by
  have hext := h.parseExtension_encoded (allData wh.factItems ++ allData wh.dataItems)
  rw [← encoded_eq] at hext
  have hfixed : parseFixed wh.encoded = wh.beforeExtension := by
    rw [encoded_eq, parseFixed_encoded]
  simp only [parse, hfixed, hext]
  exact h.parseChunks_encoded

end Wavheader

theorem decode_encode {wh : Wavheader} (h : wh.Canonical) {p sz : Nat} (hsz : sz < 2 ^ 31)
    (hroom : wh.encodedLength ≤ sz) (s : Bitstream) :
    Prog.wp (do
        let n ← rfWavheaderEncode wh p sz
        let (r, wh') ← rfWavheaderDecode p n.toNat
        return (n, r, wh'))
      (fun (n, r, wh') _ => n = wh.encodedLength ∧ r = n ∧ wh' = wh) s := by
  simp only [Prog.wp_bind]
  apply Prog.wp_mono (rfWavheaderEncode_spec wh s hroom)
  rintro n t ⟨hn, hmem⟩
  rw [asInt_of_lt (by omega) (by omega)] at hn
  subst hn
  apply Prog.wp_mono (rfWavheaderDecode_spec p wh.encodedLength t)
  rintro ⟨r, wh'⟩ u hdecoded
  have hspan : span t.mem p wh.encodedLength = wh.encoded := by
    rw [hmem, ← length_encoded, span_overlay]
  have hsame : wh' = wh := by
    rw [← h.parse_encoded, ← hspan]
    exact hdecoded.header
  have hresult : r = if wh'.Plausible then asInt wh'.encodedLength else -einval :=
    hdecoded.result
  rw [hsame, if_pos h.valid, asInt_of_lt (by omega) (by omega)] at hresult
  exact ⟨rfl, hresult, hsame⟩

def extensible : Wavheader where
  chunkId := riff
  chunkSize := 100
  format := wave
  fmtChunkId := fmt
  fmtChunkSize := 40
  audioFormat := 0xfffe
  numChannels := 2
  sampleRate := 44100
  byteRate := 176400
  blockAlign := 4
  bitsPerSample := 16
  cbSize := 22
  validBitsPerSample := 16
  channelMask := 3
  subFormat := #v[1, 0, 0, 0, 0, 0, 16, 0, 128, 0, 0, 170, 0, 56, 155, 113]
  factChunkId := fact
  factChunkSize := 4
  sampleLength := 5
  dataChunkId := data
  dataChunkSize := 20

theorem extensible_canonical : extensible.Canonical where
  chunkId := rfl
  format := rfl
  sizes := by decide
  noExtension := by decide
  noFormat := by decide
  noFact := by decide

theorem decode_encode_extensible :
    Prog.wp (do
        let n ← rfWavheaderEncode extensible 1000 128
        let (r, wh) ← rfWavheaderDecode 1000 n.toNat
        return (n, r, wh))
      (fun (n, r, wh) _ => n = 80 ∧ r = n ∧ wh = extensible) .blank :=
  decode_encode extensible_canonical (by decide) (by decide) .blank

/-! ## Encoding what was decoded -/

namespace Wavheader

variable (bytes : List UInt8)

theorem beforeChunks_extensionItems (wh : Wavheader) :
    wh.beforeChunks.extensionItems = wh.extensionItems := rfl

theorem beforeExtension_fixedItems (wh : Wavheader) :
    wh.beforeExtension.fixedItems = wh.fixedItems := rfl

theorem allData_parseFixed (h : 36 ≤ bytes.length) :
    allData (parseFixed bytes).fixedItems = slice bytes 0 36 := by
  have hfield : ∀ o n, o + n ≤ 36 → (fieldAt bytes o n).toList = slice bytes o n :=
    fun o n hle => toList_fieldAt (by omega)
  simp only [fixedItems, parseFixed, allData_bytes, allData_u32le, allData_u16le, le32_u32Of,
    le16_u16Of, allData_nil, List.append_nil]
  simp [hfield, slice_append_slice]

/-- The bytes of a header with zeros in place of an extension that is skipped. -/
def blankSkipped (wh : Wavheader) (bytes : List UInt8) : List UInt8 :=
  if wh.fmtChunkSize ≥ 18 ∧ wh.cbSize ≠ 22 then
    let skipped := (wh.fmtChunkSize - 18).toNat
    bytes.take 38 ++ List.replicate skipped 0 ++ bytes.drop (38 + skipped)
  else bytes

theorem allData_parseExtension (wh : Wavheader)
    (h : 36 + (parseExtension bytes wh).extensionLength ≤ bytes.length) :
    allData (parseExtension bytes wh).extensionItems =
      if wh.fmtChunkSize ≥ 18 ∧ (parseExtension bytes wh).cbSize ≠ 22 then
        slice bytes 36 2 ++ List.replicate (wh.fmtChunkSize - 18).toNat 0
      else slice bytes 36 (parseExtension bytes wh).extensionLength := by
  have hfield : ∀ o n, o + n ≤ bytes.length → (fieldAt bytes o n).toList = slice bytes o n :=
    fun _ _ => toList_fieldAt
  unfold parseExtension at h ⊢
  by_cases hlong : wh.fmtChunkSize ≥ 18
  · by_cases hcb : u16Of (fieldAt bytes 36 2) = 22
    · simp only [if_pos hlong, if_pos hcb, extensionLength] at h
      simp only [extensionItems, extensionLength, if_pos hlong, if_pos hcb, allData_u16le,
        allData_u32le, allData_bytes, allData_nil, List.append_nil, le16_u16Of, le32_u32Of]
      rw [hfield 36 2 (by omega), hfield 38 2 (by omega), hfield 40 4 (by omega),
        hfield 44 16 (by omega)]
      simp [hlong, hcb, slice_append_slice]
    · simp only [if_pos hlong, if_neg hcb, extensionLength] at h
      simp only [extensionItems, if_pos hlong, if_neg hcb, allData_u16le, allData_bytes,
        allData_nil, List.append_nil, le16_u16Of]
      rw [hfield 36 2 (by omega)]
      simp [hlong, hcb]
  · simp [extensionItems, extensionLength, hlong, slice]

theorem allData_parseChunks {wh : Wavheader} {o : Nat} (hfact : wh.factChunkId ≠ fact)
    (h : o + (parseChunks bytes o wh).factLength + 8 ≤ bytes.length) :
    allData (parseChunks bytes o wh).factItems ++ allData (parseChunks bytes o wh).dataItems =
      slice bytes o ((parseChunks bytes o wh).factLength + 8) := by
  have hfield : ∀ o n, o + n ≤ bytes.length → (fieldAt bytes o n).toList = slice bytes o n :=
    fun _ _ => toList_fieldAt
  unfold parseChunks at h ⊢
  by_cases hid : fieldAt bytes o 4 = fact
  · simp only [if_pos hid, factLength] at h
    simp only [if_pos hid, factItems, factLength, dataItems, allData_bytes, allData_u32le,
      allData_nil, List.append_nil, List.append_assoc, le32_u32Of]
    rw [hfield o 4 (by omega), hfield (o + 4) 4 (by omega), hfield (o + 8) 4 (by omega),
      hfield (o + 12) 4 (by omega), hfield (o + 16) 4 (by omega)]
    simp [slice_append_slice]
  · simp only [if_neg hid, factLength, if_neg hfact] at h
    simp only [if_neg hid, factItems, factLength, if_neg hfact, dataItems, allData_bytes,
      allData_u32le, allData_nil, List.append_nil, List.nil_append, le32_u32Of]
    rw [hfield o 4 (by omega), hfield (o + 4) 4 (by omega)]
    simp [slice_append_slice]

theorem slice_take {k o n : Nat} (h : o + n = k) :
    (bytes.take k).drop o = slice bytes o n := by
  rw [List.drop_take, ← h, Nat.add_sub_cancel_left]
  rfl

theorem encoded_parse {bytes : List UInt8} (h : (parse bytes).encodedLength ≤ bytes.length) :
    (parse bytes).encoded =
      (parse bytes).blankSkipped (bytes.take (parse bytes).encodedLength) := by
  have hchunks := allData_parseChunks bytes (parse_factChunkId_ne bytes)
    (by rwa [parse_encodedLength] at h)
  have hfixed := allData_parseFixed bytes (by rw [parse_encodedLength] at h; omega)
  have hext := allData_parseExtension bytes (parseFixed bytes)
    (by rw [parse_encodedLength] at h; omega)
  have hfixedItems : (parse bytes).fixedItems = (parseFixed bytes).fixedItems := by
    rw [← beforeExtension_fixedItems, parse_beforeExtension]
  have hextItems : (parse bytes).extensionItems =
      (parseExtension bytes (parseFixed bytes)).extensionItems := by
    rw [← beforeChunks_extensionItems, parse_beforeChunks]
  have hlong : (parse bytes).fmtChunkSize = (parseFixed bytes).fmtChunkSize := by
    rw [← beforeExtension_fmtChunkSize, parse_beforeExtension]
  have hcb : (parse bytes).cbSize = (parseExtension bytes (parseFixed bytes)).cbSize := by
    rw [← beforeChunks_cbSize, parse_beforeChunks]
  change allData (parse bytes).factItems ++ allData (parse bytes).dataItems =
    slice bytes _ ((parse bytes).factLength + 8) at hchunks
  rw [encoded_eq, hfixedItems, hextItems, hfixed, hext, hchunks, blankSkipped,
    parse_encodedLength, hlong, hcb]
  by_cases hskip : (parseFixed bytes).fmtChunkSize ≥ 18 ∧
      (parseExtension bytes (parseFixed bytes)).cbSize ≠ 22
  · have hlength : (parseExtension bytes (parseFixed bytes)).extensionLength =
        2 + ((parseFixed bytes).fmtChunkSize - 18).toNat := by
      rw [← parse_beforeChunks, beforeChunks_extensionLength, extensionLength, hlong, hcb,
        if_pos hskip.1, if_neg hskip.2]
    generalize ((parseFixed bytes).fmtChunkSize - 18).toNat = skipped at hlength
    have htotal : 38 + skipped + ((parse bytes).factLength + 8) =
        36 + (2 + skipped) + (parse bytes).factLength + 8 := by omega
    rw [if_pos hskip, if_pos hskip, hlength]
    simp only [slice_take bytes htotal, List.take_take, ← List.append_assoc]
    rw [Nat.min_eq_left (by omega), slice_append_slice rfl, slice_zero, ← Nat.add_assoc]
  · rw [if_neg hskip, if_neg hskip, slice_append_slice rfl, slice_append_slice (by omega),
      slice_zero, Nat.add_assoc, Nat.add_assoc]

end Wavheader

theorem encode_decode (p sz : Nat) (hsz : sz < 2 ^ 31) (s : Bitstream) :
    Prog.wp (rfWavheaderDecode p sz) (fun (r, wh) t =>
      0 ≤ r → r ≤ sz → wh.fmtChunkSize.toNat ≤ sz → ∀ q room : Nat, r ≤ room →
        Prog.wp (rfWavheaderEncode wh q room) (fun n u =>
          n = r ∧ span u.mem q r.toNat = wh.blankSkipped (span s.mem p r.toNat)) t) s := by
  apply Prog.wp_mono (rfWavheaderDecode_spec p sz s)
  rintro ⟨r, wh⟩ t hdecoded hr hrsz hfmt q room hroom
  have hheader : wh = parse (span s.mem p sz) := hdecoded.header
  have hlt := wh.encodedLength_le
  -- A result that is not negative is the length, which has not wrapped.
  have hlength : r = wh.encodedLength := by
    have hresult : r = if wh.Plausible then asInt wh.encodedLength else -einval :=
      hdecoded.result
    split at hresult
    · obtain ⟨k, hk, hlo, hhi⟩ := asInt_spec wh.encodedLength
      omega
    · rw [hresult, einval] at hr
      omega
  subst hlength
  have hbytes : wh.encoded = wh.blankSkipped (span s.mem p wh.encodedLength) := by
    have hle : (parse (span s.mem p sz)).encodedLength ≤ (span s.mem p sz).length := by
      rw [length_span, ← hheader]
      omega
    have hencoded := encoded_parse hle
    rwa [← hheader, span_take (by omega)] at hencoded
  apply Prog.wp_mono (rfWavheaderEncode_spec wh t (by omega))
  rintro n u ⟨hn, hmem⟩
  constructor
  · rw [hn, asInt_of_lt (by omega) (by omega)]
  · rw [hmem, Int.toNat_natCast, ← hbytes, ← length_encoded, span_overlay]

def skipping : Wavheader where
  chunkId := riff
  chunkSize := 40
  format := wave
  fmtChunkId := fmt
  fmtChunkSize := 20
  dataChunkId := data

def skippingStream : Bitstream :=
  { Bitstream.blank with
    mem := overlay Bitstream.blank.mem 0
      (skipping.encoded.take 38 ++ [7, 9] ++ skipping.encoded.drop 40) }

theorem encode_decode_skipping :
    Prog.wp (do
        let (r, wh) ← rfWavheaderDecode 0 48
        let n ← rfWavheaderEncode wh 100 60
        return (r, n))
      (fun (r, n) u => r = 48 ∧ n = 48 ∧ span u.mem 100 48 = skipping.encoded)
      skippingStream := by
  have hdecode : Prog.wp (rfWavheaderDecode 0 48) (fun x _ => x.1 = 48 ∧ x.2 = skipping)
      skippingStream := by decide +kernel
  rw [Prog.wp_bind]
  apply Prog.wp_mono (Prog.wp_and hdecode (encode_decode 0 48 (by decide) skippingStream))
  rintro ⟨r, wh⟩ t ⟨⟨hr, hwh⟩, hencode⟩
  simp only at hr hwh
  subst hr
  subst hwh
  simp only [Prog.wp_bind, Prog.wp_pure, true_and]
  apply Prog.wp_mono (hencode (by decide) (by decide) (by decide) 100 60 (by decide))
  rintro n u ⟨hn, hspan⟩
  have hblank : skipping.blankSkipped (span skippingStream.mem 0 48) = skipping.encoded := by
    decide +kernel
  exact ⟨hn, hspan.trans hblank⟩

end Librfn
