import Librfn.Pack.Items
import Librfn.Wavheader

/-!
# The layout of a header

What the decoder makes of a buffer as a function of its bytes, and what the
encoder writes as a list of bytes.  Both use the same amount for the same
header.
-/

namespace Librfn

open Librfn.Logic

namespace Wavheader

def extensionLength (wh : Wavheader) : Nat :=
  if wh.fmtChunkSize ≥ 18 then
    if wh.cbSize = 22 then 24 else 2 + (wh.fmtChunkSize - 18).toNat
  else 0

def factLength (wh : Wavheader) : Nat := if wh.factChunkId = fact then 12 else 0

def encodedLength (wh : Wavheader) : Nat := 44 + wh.extensionLength + wh.factLength

theorem factLength_le (wh : Wavheader) : wh.factLength ≤ 12 := by
  unfold factLength
  split <;> omega

theorem encodedLength_le (wh : Wavheader) :
    wh.encodedLength ≤ 80 + wh.fmtChunkSize.toNat := by
  have hext : wh.extensionLength ≤ 24 + wh.fmtChunkSize.toNat := by
    unfold extensionLength
    split
    · rename_i hlong
      have hsub : (wh.fmtChunkSize - 18).toNat = wh.fmtChunkSize.toNat - 18 :=
        UInt32.toNat_sub_of_le _ _ hlong
      rw [hsub]
      split <;> omega
    · omega
  have hfact := wh.factLength_le
  unfold encodedLength
  omega

/-! ## Decoding -/

variable (bytes : List UInt8)

def parseFixed : Wavheader where
  chunkId := fieldAt bytes 0 4
  chunkSize := u32Of (fieldAt bytes 4 4)
  format := fieldAt bytes 8 4
  fmtChunkId := fieldAt bytes 12 4
  fmtChunkSize := u32Of (fieldAt bytes 16 4)
  audioFormat := u16Of (fieldAt bytes 20 2)
  numChannels := u16Of (fieldAt bytes 22 2)
  sampleRate := u32Of (fieldAt bytes 24 4)
  byteRate := u32Of (fieldAt bytes 28 4)
  blockAlign := u16Of (fieldAt bytes 32 2)
  bitsPerSample := u16Of (fieldAt bytes 34 2)

def parseExtension (wh : Wavheader) : Wavheader :=
  if wh.fmtChunkSize ≥ 18 then
    let cbSize := u16Of (fieldAt bytes 36 2)
    if cbSize = 22 then
      { wh with
        cbSize
        validBitsPerSample := u16Of (fieldAt bytes 38 2)
        channelMask := u32Of (fieldAt bytes 40 4)
        subFormat := fieldAt bytes 44 16 }
    else { wh with cbSize }
  else wh

def parseChunks (o : Nat) (wh : Wavheader) : Wavheader :=
  let chunkId := fieldAt bytes o 4
  if chunkId = fact then
    { wh with
      factChunkId := chunkId
      factChunkSize := u32Of (fieldAt bytes (o + 4) 4)
      sampleLength := u32Of (fieldAt bytes (o + 8) 4)
      dataChunkId := fieldAt bytes (o + 12) 4
      dataChunkSize := u32Of (fieldAt bytes (o + 16) 4) }
  else
    { wh with
      dataChunkId := chunkId
      dataChunkSize := u32Of (fieldAt bytes (o + 4) 4) }

def parse : Wavheader :=
  let wh := parseExtension bytes (parseFixed bytes)
  parseChunks bytes (36 + wh.extensionLength) wh

/-- What is known of a header before its last chunks are read. -/
def beforeChunks (wh : Wavheader) : Wavheader :=
  { wh with
    factChunkId := Vector.replicate 4 0, factChunkSize := 0, sampleLength := 0
    dataChunkId := Vector.replicate 4 0, dataChunkSize := 0 }

/-- What is known of it before its extension is read. -/
def beforeExtension (wh : Wavheader) : Wavheader :=
  { wh.beforeChunks with
    cbSize := 0, validBitsPerSample := 0, channelMask := 0
    subFormat := Vector.replicate 16 0 }

section

variable (wh : Wavheader)

theorem beforeExtension_beforeChunks : wh.beforeChunks.beforeExtension = wh.beforeExtension :=
  rfl
theorem beforeChunks_extensionLength : wh.beforeChunks.extensionLength = wh.extensionLength :=
  rfl
theorem beforeChunks_cbSize : wh.beforeChunks.cbSize = wh.cbSize := rfl
theorem beforeChunks_factChunkId : wh.beforeChunks.factChunkId = Vector.replicate 4 0 := rfl
theorem beforeExtension_chunkId : wh.beforeExtension.chunkId = wh.chunkId := rfl
theorem beforeExtension_chunkSize : wh.beforeExtension.chunkSize = wh.chunkSize := rfl
theorem beforeExtension_format : wh.beforeExtension.format = wh.format := rfl
theorem beforeExtension_fmtChunkId : wh.beforeExtension.fmtChunkId = wh.fmtChunkId := rfl
theorem beforeExtension_fmtChunkSize : wh.beforeExtension.fmtChunkSize = wh.fmtChunkSize := rfl
theorem beforeExtension_blockAlign : wh.beforeExtension.blockAlign = wh.blockAlign := rfl

theorem parseFixed_beforeChunks : (parseFixed bytes).beforeChunks = parseFixed bytes := rfl

theorem parseFixed_beforeExtension : (parseFixed bytes).beforeExtension = parseFixed bytes :=
  rfl

theorem parseExtension_beforeChunks :
    (parseExtension bytes wh).beforeChunks = parseExtension bytes wh.beforeChunks := by
  simp only [parseExtension]
  split
  · rename_i hlong
    rw [if_pos (show wh.beforeChunks.fmtChunkSize ≥ 18 from hlong)]
    split <;> rfl
  · rename_i hshort
    rw [if_neg (show ¬wh.beforeChunks.fmtChunkSize ≥ 18 from hshort)]

theorem parseExtension_beforeExtension :
    (parseExtension bytes wh).beforeExtension = wh.beforeExtension := by
  simp only [parseExtension]
  split
  · split <;> rfl
  · rfl

theorem parseChunks_beforeChunks (o : Nat) :
    (parseChunks bytes o wh).beforeChunks = wh.beforeChunks := by
  simp only [parseChunks]
  split <;> rfl

end

theorem parse_beforeChunks :
    (parse bytes).beforeChunks = parseExtension bytes (parseFixed bytes) := by
  rw [parse, parseChunks_beforeChunks, parseExtension_beforeChunks, parseFixed_beforeChunks]

theorem parse_beforeExtension : (parse bytes).beforeExtension = parseFixed bytes := by
  rw [← beforeExtension_beforeChunks, parse_beforeChunks, parseExtension_beforeExtension,
    parseFixed_beforeExtension]

/-! The fields of what was decoded. -/

theorem parse_chunkId : (parse bytes).chunkId = fieldAt bytes 0 4 := by
  rw [← beforeExtension_chunkId, parse_beforeExtension]
  rfl

theorem parse_chunkSize : (parse bytes).chunkSize = u32Of (fieldAt bytes 4 4) := by
  rw [← beforeExtension_chunkSize, parse_beforeExtension]
  rfl

theorem parse_format : (parse bytes).format = fieldAt bytes 8 4 := by
  rw [← beforeExtension_format, parse_beforeExtension]
  rfl

theorem parse_fmtChunkId : (parse bytes).fmtChunkId = fieldAt bytes 12 4 := by
  rw [← beforeExtension_fmtChunkId, parse_beforeExtension]
  rfl

theorem parse_fmtChunkSize : (parse bytes).fmtChunkSize = u32Of (fieldAt bytes 16 4) := by
  rw [← beforeExtension_fmtChunkSize, parse_beforeExtension]
  rfl

theorem parse_blockAlign : (parse bytes).blockAlign = u16Of (fieldAt bytes 32 2) := by
  rw [← beforeExtension_blockAlign, parse_beforeExtension]
  rfl

theorem parse_cbSize (h : u32Of (fieldAt bytes 16 4) ≥ 18) :
    (parse bytes).cbSize = u16Of (fieldAt bytes 36 2) := by
  have hlong : (parseFixed bytes).fmtChunkSize ≥ 18 := h
  rw [← beforeChunks_cbSize, parse_beforeChunks]
  simp only [parseExtension, if_pos hlong]
  split <;> rfl

theorem parse_extensionLength : (parse bytes).extensionLength =
    if u32Of (fieldAt bytes 16 4) ≥ 18 then
      if u16Of (fieldAt bytes 36 2) = 22 then 24
      else 2 + (u32Of (fieldAt bytes 16 4) - 18).toNat
    else 0 := by
  rw [extensionLength, parse_fmtChunkSize]
  split
  · rename_i hlong
    rw [parse_cbSize bytes hlong]
  · rfl

theorem parse_eq : parse bytes =
    parseChunks bytes (36 + (parse bytes).extensionLength) (parse bytes).beforeChunks := by
  rw [← beforeChunks_extensionLength, parse_beforeChunks]
  rfl

theorem parse_of_fact {o : Nat} (ho : o = 36 + (parse bytes).extensionLength)
    (h : fieldAt bytes o 4 = fact) :
    (parse bytes).factChunkId = fact ∧
      (parse bytes).factChunkSize = u32Of (fieldAt bytes (o + 4) 4) ∧
      (parse bytes).dataChunkId = fieldAt bytes (o + 12) 4 ∧
      (parse bytes).dataChunkSize = u32Of (fieldAt bytes (o + 16) 4) := by
  rw [parse_eq, ← ho, parseChunks, if_pos h]
  exact ⟨h, rfl, rfl, rfl⟩

theorem parse_of_not_fact {o : Nat} (ho : o = 36 + (parse bytes).extensionLength)
    (h : fieldAt bytes o 4 ≠ fact) :
    (parse bytes).factChunkId ≠ fact ∧ (parse bytes).factChunkSize = 0 ∧
      (parse bytes).dataChunkId = fieldAt bytes o 4 ∧
      (parse bytes).dataChunkSize = u32Of (fieldAt bytes (o + 4) 4) := by
  have hzero : (parse bytes).beforeChunks.factChunkId ≠ fact := by
    rw [beforeChunks_factChunkId]
    decide
  rw [parse_eq, ← ho, parseChunks, if_neg h]
  exact ⟨hzero, rfl, rfl, rfl⟩

def Plausible (wh : Wavheader) : Prop :=
  wh.chunkId = riff ∧ ¬wh.chunkSize < 12 + wh.fmtChunkSize + wh.factChunkSize ∧
    wh.format = wave

instance (wh : Wavheader) : Decidable wh.Plausible := inferInstanceAs (Decidable (_ ∧ _ ∧ _))

end Wavheader

open Wavheader Bitstream

variable {mem : Memory} {p sz o : Nat} {s : Bitstream} {wh : Wavheader}

theorem decodeExtension_spec (h : At mem p sz 36 s) (wh : Wavheader) :
    Prog.wp (decodeExtension wh) (fun wh' t =>
      wh' = parseExtension (span mem p sz) wh ∧ At mem p sz (36 + wh'.extensionLength) t) s := by
  have h38 := h.advance 2
  have h40 := h38.advance 2
  have h44 := h40.advance 4
  have h60 := h44.advance 16
  have hskip := h38.advance (wh.fmtChunkSize - 18).toNat
  simp only [decodeExtension, Prog.wp_ite, Prog.wp_bind, wp_rfUnpackU16le, wp_rfUnpackU32le,
    wp_rfUnpackBytes, wp_rfUnpackNull, Prog.wp_pure, h.next, h38.next, h40.next, h44.next]
  unfold parseExtension
  split
  · rename_i hlong
    split
    · rename_i hcb
      simp only [if_pos hcb, true_and]
      simpa [extensionLength, hlong, hcb] using h60
    · rename_i hcb
      simp only [if_neg hcb, true_and]
      rw [Nat.add_assoc] at hskip
      simpa [extensionLength, hlong, hcb] using hskip
  · rename_i hshort
    exact ⟨rfl, by simpa [extensionLength, hshort] using h⟩

theorem decodeChunks_spec {β : Type} (next : Wavheader → Prog Bitstream β)
    {Q : β → Bitstream → Prop} (h : At mem p sz o s) {wh : Wavheader}
    (hfact : wh.factChunkId ≠ fact)
    (hnext : ∀ t, At mem p sz (o + (parseChunks (span mem p sz) o wh).factLength + 8) t →
      Prog.wp (next (parseChunks (span mem p sz) o wh)) Q t) :
    Prog.wp (do
        let dataChunkId ← rfUnpackBytes 4
        let wh ← decodeFact { wh with dataChunkId }
        let dataChunkSize ← rfUnpackU32le
        next { wh with dataChunkSize }) Q s := by
  have h4 := h.advance 4
  have h8 := h4.advance 4
  have h12 := h8.advance 4
  have h16 := h12.advance 4
  have h20 := h16.advance 4
  unfold parseChunks at hnext
  simp only [decodeFact, Prog.wp_ite, Prog.wp_bind, wp_rfUnpackU32le, wp_rfUnpackBytes,
    Prog.wp_pure, h.next, h4.next, h8.next, h12.next, h16.next]
  split
  · rename_i hid
    simp only [if_pos hid] at hnext
    apply hnext
    simpa [factLength, hid, Nat.add_assoc] using h20
  · rename_i hid
    simp only [if_neg hid] at hnext
    apply hnext
    simpa [factLength, hfact] using h8

theorem asInt_sub_remaining (used sz : Int) : asInt (sz - asInt (sz - used)) = asInt used := by
  simp only [asInt, Int.sub_bmod_bmod]
  congr 1
  omega

/-- What the decoder returns, and how far it got. -/
structure Decoded (mem : Memory) (p sz : Nat) (r : Int) (wh : Wavheader) (t : Bitstream) :
    Prop where
  header : wh = parse (span mem p sz)
  used : At mem p sz wh.encodedLength t
  result : r = if wh.Plausible then asInt wh.encodedLength else -einval

theorem decodeReturn_spec (hused : At mem p sz wh.encodedLength s)
    (hheader : wh = parse (span mem p sz)) :
    Prog.wp (decodeReturn sz wh) (fun x t => Decoded mem p sz x.1 x.2 t) s := by
  have hremaining : (s.endp : Int) - s.p = sz - wh.encodedLength := by
    rw [hused.p_eq, hused.endp_eq]
    omega
  simp only [decodeReturn, rfPackRemaining, Prog.wp_bind, Prog.wp_get, Prog.wp_ite,
    Prog.wp_pure, hremaining, asInt_sub_remaining]
  split
  · rename_i hriff
    exact ⟨hheader, hused, (if_neg fun h => hriff h.1).symm⟩
  split
  · rename_i hsizes
    exact ⟨hheader, hused, (if_neg fun h => h.2.1 hsizes).symm⟩
  split
  · rename_i hwave
    exact ⟨hheader, hused, (if_neg fun h => hwave h.2.2).symm⟩
  · rename_i hriff hsizes hwave
    exact ⟨hheader, hused, (if_pos ⟨not_not.mp hriff, hsizes, not_not.mp hwave⟩).symm⟩

theorem parse_factChunkId_ne (bytes : List UInt8) :
    (parseExtension bytes (parseFixed bytes)).factChunkId ≠ fact := by
  rw [← parse_beforeChunks, beforeChunks_factChunkId]
  decide

theorem parse_encodedLength (bytes : List UInt8) :
    (parse bytes).encodedLength =
      36 + (parseExtension bytes (parseFixed bytes)).extensionLength +
        (parse bytes).factLength + 8 := by
  rw [encodedLength, ← beforeChunks_extensionLength, parse_beforeChunks]
  omega

theorem rfWavheaderDecode_spec (p sz : Nat) (s : Bitstream) :
    Prog.wp (rfWavheaderDecode p sz) (fun x t => Decoded s.mem p sz x.1 x.2 t) s := by
  have h0 := At.init s p sz
  have h4 : At s.mem p sz 4 _ := h0.advance 4
  have h8 : At s.mem p sz 8 _ := h4.advance 4
  have h12 : At s.mem p sz 12 _ := h8.advance 4
  have h16 : At s.mem p sz 16 _ := h12.advance 4
  have h20 : At s.mem p sz 20 _ := h16.advance 4
  have h22 : At s.mem p sz 22 _ := h20.advance 2
  have h24 : At s.mem p sz 24 _ := h22.advance 2
  have h28 : At s.mem p sz 28 _ := h24.advance 4
  have h32 : At s.mem p sz 32 _ := h28.advance 4
  have h34 : At s.mem p sz 34 _ := h32.advance 2
  have h36 : At s.mem p sz 36 _ := h34.advance 2
  simp only [rfWavheaderDecode, rfPackInit, Prog.wp_bind, Prog.wp_modify,
    wp_rfUnpackBytes, wp_rfUnpackU16le, wp_rfUnpackU32le, h0.next, h4.next, h8.next,
    h12.next, h16.next, h20.next, h22.next, h24.next, h28.next, h32.next, h34.next]
  apply Prog.wp_mono (decodeExtension_spec h36 (parseFixed (span s.mem p sz)))
  rintro _ t ⟨rfl, ht⟩
  have hchunks := decodeChunks_spec (decodeReturn sz)
    (Q := fun x t => Decoded s.mem p sz x.1 x.2 t) ht
    (parse_factChunkId_ne (span s.mem p sz)) (by
      intro t' ht'
      apply decodeReturn_spec _ rfl
      rw [parse_encodedLength]
      exact ht')
  simpa only [Prog.wp_bind, wp_rfUnpackBytes, wp_rfUnpackU32le] using hchunks

/-! ## Encoding -/

namespace Wavheader

variable (wh : Wavheader)

def fixedItems : List Item :=
  [.bytes 4 wh.chunkId, .u32le wh.chunkSize, .bytes 4 wh.format, .bytes 4 wh.fmtChunkId,
    .u32le wh.fmtChunkSize, .u16le wh.audioFormat, .u16le wh.numChannels,
    .u32le wh.sampleRate, .u32le wh.byteRate, .u16le wh.blockAlign, .u16le wh.bitsPerSample]

def extensionItems : List Item :=
  if wh.fmtChunkSize ≥ 18 then
    if wh.cbSize = 22 then
      [.u16le wh.cbSize, .u16le wh.validBitsPerSample, .u32le wh.channelMask,
        .bytes 16 wh.subFormat]
    else
      [.u16le wh.cbSize, .bytes (wh.fmtChunkSize - 18).toNat (Vector.replicate _ 0)]
  else []

def factItems : List Item :=
  if wh.factChunkId = fact then
    [.bytes 4 wh.factChunkId, .u32le wh.factChunkSize, .u32le wh.sampleLength]
  else []

def dataItems : List Item := [.bytes 4 wh.dataChunkId, .u32le wh.dataChunkSize]

def items : List Item := wh.fixedItems ++ wh.extensionItems ++ wh.factItems ++ wh.dataItems

def encoded : List UInt8 := allData wh.items

theorem totalSize_fixedItems : totalSize wh.fixedItems = 36 := rfl

theorem totalSize_extensionItems : totalSize wh.extensionItems = wh.extensionLength := by
  unfold extensionItems extensionLength
  split
  · split
    · rfl
    · simp [totalSize, Item.shape, Shape.size]
  · rfl

theorem totalSize_factItems : totalSize wh.factItems = wh.factLength := by
  unfold factItems factLength
  split <;> rfl

theorem totalSize_items : totalSize wh.items = wh.encodedLength := by
  have hdata : totalSize wh.dataItems = 8 := rfl
  rw [items, totalSize_append, totalSize_append, totalSize_append, totalSize_fixedItems,
    totalSize_extensionItems, totalSize_factItems, hdata, encodedLength]
  omega

@[simp] theorem length_encoded : wh.encoded.length = wh.encodedLength := by
  rw [encoded, length_allData, totalSize_items]

end Wavheader

theorem rfWavheaderEncode_items (wh : Wavheader) (p sz : Nat) (s : Bitstream)
    (Q : Int → Bitstream → Prop) :
    Prog.wp (rfWavheaderEncode wh p sz) Q s ↔
      Prog.wp (do
        rfPackInit p sz
        packItems wh.items
        let remaining ← rfPackRemaining
        return asInt (sz - remaining)) Q s := by
  simp only [rfWavheaderEncode, Prog.wp_bind, Prog.wp_ite, wp_rfPackBytes, wp_rfPackU16le,
    wp_rfPackU32le, wp_packItems, items, fixedItems, extensionItems, factItems, dataItems]
  split
  · split
    · split <;> rfl
    · split <;> rfl
  · split <;> rfl

theorem rfWavheaderEncode_spec (wh : Wavheader) {p sz : Nat} (s : Bitstream)
    (hroom : wh.encodedLength ≤ sz) :
    Prog.wp (rfWavheaderEncode wh p sz) (fun r t =>
      r = asInt wh.encodedLength ∧ t.mem = overlay s.mem p wh.encoded) s := by
  rw [← totalSize_items] at hroom
  simp only [rfWavheaderEncode_items, rfPackInit, rfPackRemaining, Prog.wp_bind,
    Prog.wp_modify, wp_packItems, Prog.wp_get, Prog.wp_pure, writeItems_endp, writeItems_p]
  constructor
  · have hremaining : ((p + sz : Nat) : Int) - (p + totalSize wh.items : Nat) =
        sz - wh.encodedLength := by
      rw [← totalSize_items]
      omega
    rw [hremaining, asInt_sub_remaining]
  · rw [writeItems_mem _ (Nat.le_add_right p sz), Nat.add_sub_cancel_left, fitting_of_le hroom]
    rfl

end Librfn
