import Librfn.Wavheader.Layout

/-!
# RIFF headers

A WAV header as a sequence of chunks, each with the size of its payload, and
when the decoder finds its way through them.
-/

namespace Librfn

open Librfn.Logic Wavheader Bitstream

/-- What stands in front of the samples. -/
structure RiffHeader where
  size : UInt32
  fmtPayload : List UInt8
  factPayload : Option (List UInt8)
  dataSize : UInt32

def chunkBytes (id : Vector UInt8 4) (payload : List UInt8) : List UInt8 :=
  id.toList ++ ((le32 payload.length).toList ++ payload)

namespace RiffHeader

variable (w : RiffHeader)

def factBytes : List UInt8 := w.factPayload.elim [] (chunkBytes fact)

def dataBytes : List UInt8 := data.toList ++ (le32 w.dataSize.toNat).toList

def bytes : List UInt8 :=
  riff.toList ++ ((le32 w.size.toNat).toList ++ (wave.toList ++
    (chunkBytes fmt w.fmtPayload ++ (w.factBytes ++ w.dataBytes))))

/-- The bytes between the size of the `fmt` chunk and the data chunk. -/
def bodyLength : Nat := w.fmtPayload.length + w.factBytes.length

theorem length_bytes : w.bytes.length = 28 + w.bodyLength := by
  simp [bytes, chunkBytes, dataBytes, bodyLength]
  omega

variable (samples : List UInt8)

theorem fieldAt_front : fieldAt (w.bytes ++ samples) 0 4 = riff ∧
    u32Of (fieldAt (w.bytes ++ samples) 4 4) = w.size ∧
    fieldAt (w.bytes ++ samples) 8 4 = wave ∧
    fieldAt (w.bytes ++ samples) 12 4 = fmt ∧
    fieldAt (w.bytes ++ samples) 16 4 = le32 w.fmtPayload.length := by
  simp [bytes, chunkBytes, fieldAt_behind]

theorem fieldAt_body (o n : Nat) : fieldAt (w.bytes ++ samples) (20 + o) n =
    fieldAt (w.fmtPayload ++ (w.factBytes ++ (w.dataBytes ++ samples))) o n := by
  have hsplit : w.bytes ++ samples = (riff.toList ++ (le32 w.size.toNat).toList ++
      wave.toList ++ fmt.toList ++ (le32 w.fmtPayload.length).toList) ++
      (w.fmtPayload ++ (w.factBytes ++ (w.dataBytes ++ samples))) := by
    simp [bytes, chunkBytes]
  have hlength : (riff.toList ++ (le32 w.size.toNat).toList ++ wave.toList ++ fmt.toList ++
      (le32 w.fmtPayload.length).toList).length = 20 := by
    simp
  rw [hsplit, fieldAt_append_right (by omega), hlength, Nat.add_sub_cancel_left]

theorem fieldAt_fmtPayload {o n : Nat} (h : o + n ≤ w.fmtPayload.length) :
    fieldAt (w.bytes ++ samples) (20 + o) n = fieldAt w.fmtPayload o n := by
  rw [fieldAt_body, fieldAt_append_left h]

theorem fieldAt_factBytes (o n : Nat) :
    fieldAt (w.bytes ++ samples) (20 + w.fmtPayload.length + o) n =
      fieldAt (w.factBytes ++ (w.dataBytes ++ samples)) o n := by
  rw [Nat.add_assoc, fieldAt_body, fieldAt_append_right (by omega), Nat.add_sub_cancel_left]

theorem fieldAt_dataBytes (o n : Nat) :
    fieldAt (w.bytes ++ samples) (20 + w.bodyLength + o) n =
      fieldAt (w.dataBytes ++ samples) o n := by
  rw [bodyLength, ← Nat.add_assoc, Nat.add_assoc _ _ o, fieldAt_factBytes,
    fieldAt_append_right (by omega), Nat.add_sub_cancel_left]

theorem fieldAt_dataChunk :
    fieldAt (w.bytes ++ samples) (20 + w.bodyLength) 4 = data ∧
      u32Of (fieldAt (w.bytes ++ samples) (20 + w.bodyLength + 4) 4) = w.dataSize := by
  have hid := w.fieldAt_dataBytes samples 0 4
  have hsize := w.fieldAt_dataBytes samples 4 4
  rw [Nat.add_zero] at hid
  rw [hid, hsize]
  simp [dataBytes, fieldAt_behind]

theorem fieldAt_factChunk {payload : List UInt8} (h : w.factPayload = some payload) :
    fieldAt (w.bytes ++ samples) (20 + w.fmtPayload.length) 4 = fact ∧
      fieldAt (w.bytes ++ samples) (20 + w.fmtPayload.length + 4) 4 = le32 payload.length := by
  have hid := w.fieldAt_factBytes samples 0 4
  have hsize := w.fieldAt_factBytes samples 4 4
  rw [Nat.add_zero] at hid
  rw [hid, hsize]
  simp [factBytes, h, chunkBytes, fieldAt_behind]

end RiffHeader

/-- The header of a well-formed file: even sizes, the fields that every format
has, and a RIFF size that covers the rest. -/
structure WellFormedRiff extends RiffHeader where
  fmt_even : fmtPayload.length % 2 = 0
  fmt_long : 16 ≤ fmtPayload.length
  fact_even : ∀ payload ∈ factPayload, payload.length % 2 = 0
  fact_long : ∀ payload ∈ factPayload, 4 ≤ payload.length
  covers : toRiffHeader.bytes.length ≤ size.toNat + 8

namespace WellFormedRiff

variable (w : WellFormedRiff)

def Extensible : Prop :=
  18 ≤ w.fmtPayload.length ∧ u16Of (fieldAt w.fmtPayload 16 2) = 22

instance : Decidable w.Extensible := inferInstanceAs (Decidable (_ ∧ _))

/-- When the decoder finds the data chunk: the sizes are those that it assumes
of the chunks, or there is a fact chunk for it where it looks for one. -/
def Found : Prop :=
  if w.Extensible then
    w.bodyLength = 40 ∨ w.bodyLength = 52 ∧ fieldAt w.bytes 60 4 = fact ∧
      12 + UInt32.ofNat w.fmtPayload.length + u32Of (fieldAt w.bytes 64 4) ≤ w.size
  else ∀ payload ∈ w.factPayload, payload.length = 4

instance : Decidable w.Found := inferInstanceAs (Decidable (if w.Extensible then _ else _))

end WellFormedRiff

theorem rfWavheaderValidate_eq_zero_iff (wh : Wavheader) : rfWavheaderValidate wh = 0 ↔
    wh.Plausible ∧ wh.fmtChunkId = fmt ∧ wh.dataChunkId = data := by
  have herror : -einval ≠ 0 := by decide
  unfold rfWavheaderValidate Plausible
  split
  · simp [*]
  split
  · simp [*]
  split
  · simp [*]
  split
  · simp [*]
  split
  · simp [*]
  · simp_all

def DataChunkFound (w : RiffHeader) (r : Int) (wh : Wavheader) : Prop :=
  r = w.bytes.length ∧ wh.dataChunkId = data ∧ wh.dataChunkSize = w.dataSize ∧
    rfWavheaderValidate wh = 0

theorem dataChunkFound_iff {w : RiffHeader} {mem : Memory} {p sz : Nat} {r : Int}
    {wh : Wavheader} {t : Bitstream} {samples : List UInt8} (h : Decoded mem p sz r wh t)
    (hbytes : span mem p sz = w.bytes ++ samples) :
    DataChunkFound w r wh ↔
      wh.Plausible ∧ asInt wh.encodedLength = w.bytes.length ∧ wh.dataChunkId = data ∧
        wh.dataChunkSize = w.dataSize := by
  have hfmt : wh.fmtChunkId = fmt := by
    rw [h.header, hbytes, parse_fmtChunkId]
    exact (w.fieldAt_front samples).2.2.2.1
  have hresult := h.result
  rw [DataChunkFound, rfWavheaderValidate_eq_zero_iff]
  constructor
  · rintro ⟨hr, hid, hsize, hvalid, -, -⟩
    rw [if_pos hvalid] at hresult
    exact ⟨hvalid, hresult ▸ hr, hid, hsize⟩
  · rintro ⟨hvalid, hr, hid, hsize⟩
    rw [if_pos hvalid] at hresult
    exact ⟨hresult.trans hr, hid, hsize, hvalid, hfmt, hid⟩

namespace WellFormedRiff

variable (w : WellFormedRiff) {samples : List UInt8}

theorem length_le (samples : List UInt8) :
    w.fmtPayload.length ≤ (w.bytes ++ samples).length := by
  rw [List.length_append, w.length_bytes, RiffHeader.bodyLength]
  omega

theorem parse_fmtChunkSize_eq (hlength : (w.bytes ++ samples).length < 2 ^ 31) :
    u32Of (fieldAt (w.bytes ++ samples) 16 4) = UInt32.ofNat w.fmtPayload.length := by
  have hle := w.length_le samples
  obtain ⟨-, -, -, -, hsize⟩ := w.fieldAt_front samples
  rw [hsize, u32Of_le32_ofNat (by omega)]

theorem toNat_fmtChunkSize (hlength : (w.bytes ++ samples).length < 2 ^ 31) :
    (UInt32.ofNat w.fmtPayload.length).toNat = w.fmtPayload.length := by
  have hle := w.length_le samples
  exact UInt32.toNat_ofNat_of_lt (show _ < 2 ^ 32 by omega)

theorem parse_extensionLength_eq (hlength : (w.bytes ++ samples).length < 2 ^ 31) :
    (parse (w.bytes ++ samples)).extensionLength =
      if w.Extensible then 24 else w.fmtPayload.length - 16 := by
  have hsize := w.toNat_fmtChunkSize hlength
  have hlong : UInt32.ofNat w.fmtPayload.length ≥ 18 ↔ 18 ≤ w.fmtPayload.length := by
    rw [ge_iff_le, UInt32.le_iff_toNat_le, hsize]
    rfl
  rw [parse_extensionLength, w.parse_fmtChunkSize_eq hlength]
  by_cases h18 : 18 ≤ w.fmtPayload.length
  · have hcb := w.fieldAt_fmtPayload samples (show 16 + 2 ≤ w.fmtPayload.length from h18)
    have hsub : (UInt32.ofNat w.fmtPayload.length - 18).toNat = w.fmtPayload.length - 18 := by
      rw [UInt32.toNat_sub_of_le _ _ (hlong.mpr h18), hsize]
      rfl
    rw [if_pos (hlong.mpr h18), hcb, hsub]
    by_cases h22 : u16Of (fieldAt w.fmtPayload 16 2) = 22
    · rw [if_pos h22, if_pos ⟨h18, h22⟩]
    · rw [if_neg h22, if_neg fun h => h22 h.2]
      omega
  · have heven := w.fmt_even
    have hmin := w.fmt_long
    rw [if_neg (fun h => h18 (hlong.mp h)), if_neg fun h => h18 h.1]
    omega

/-- The size check of the decoder passes for a fact chunk that is covered. -/
theorem sizes_le (hlength : (w.bytes ++ samples).length < 2 ^ 31) {k : UInt32}
    (hk : w.fmtPayload.length + k.toNat ≤ w.bodyLength) :
    12 + UInt32.ofNat w.fmtPayload.length + k ≤ w.size := by
  have hsize := w.toNat_fmtChunkSize hlength
  have hcovers := w.covers
  have htotal := w.length_bytes
  rw [List.length_append] at hlength
  rw [UInt32.le_iff_toNat_le, UInt32.toNat_add, UInt32.toNat_add, hsize]
  simp only [UInt32.reduceToNat]
  omega

theorem plausible_iff (hlength : (w.bytes ++ samples).length < 2 ^ 31) :
    (parse (w.bytes ++ samples)).Plausible ↔
      12 + UInt32.ofNat w.fmtPayload.length +
        (parse (w.bytes ++ samples)).factChunkSize ≤ w.size := by
  obtain ⟨hriff, hsize, hwave, -, -⟩ := w.fieldAt_front samples
  rw [Plausible, parse_chunkId, parse_chunkSize, parse_fmtChunkSize, parse_format, hriff,
    hsize, hwave, w.parse_fmtChunkSize_eq hlength, UInt32.not_lt]
  simp

/-- What `DataChunkFound` comes to for the header of a buffer. -/
def DataChunkParsed (w : RiffHeader) (samples : List UInt8) : Prop :=
  (parse (w.bytes ++ samples)).Plausible ∧
    asInt (parse (w.bytes ++ samples)).encodedLength = w.bytes.length ∧
    (parse (w.bytes ++ samples)).dataChunkId = data ∧
    (parse (w.bytes ++ samples)).dataChunkSize = w.dataSize

theorem parsed_of_data (hlength : (w.bytes ++ samples).length < 2 ^ 31)
    (hoffset : 36 + (parse (w.bytes ++ samples)).extensionLength = 20 + w.bodyLength) :
    DataChunkParsed w.toRiffHeader samples := by
  obtain ⟨hid, hsize⟩ := w.fieldAt_dataChunk samples
  have hdata : fieldAt (w.bytes ++ samples) (20 + w.bodyLength) 4 ≠ fact := by
    rw [hid]
    decide
  obtain ⟨hfact, hzero, hdataId, hdataSize⟩ :=
    parse_of_not_fact (w.bytes ++ samples) hoffset.symm hdata
  have htotal := w.length_bytes
  rw [List.length_append] at hlength
  refine ⟨?_, ?_, hdataId.trans hid, hdataSize.trans hsize⟩
  · rw [w.plausible_iff (by rwa [List.length_append]), hzero]
    apply w.sizes_le (by rwa [List.length_append])
    simp [RiffHeader.bodyLength]
  · rw [encodedLength, factLength, if_neg hfact, asInt_of_lt (by omega) (by omega)]
    omega

theorem offset_lt (hlength : (w.bytes ++ samples).length < 2 ^ 31) :
    36 + (parse (w.bytes ++ samples)).extensionLength < 2 ^ 31 + 20 := by
  have hle := w.length_le samples
  rw [w.parse_extensionLength_eq hlength]
  split <;> omega

theorem parsed_iff_of_not_fact (hlength : (w.bytes ++ samples).length < 2 ^ 31)
    (h : fieldAt (w.bytes ++ samples) (36 + (parse (w.bytes ++ samples)).extensionLength) 4 ≠
      fact) :
    DataChunkParsed w.toRiffHeader samples ↔
      36 + (parse (w.bytes ++ samples)).extensionLength = 20 + w.bodyLength := by
  constructor
  · rintro ⟨-, hused, -, -⟩
    obtain ⟨hfact, -, -, -⟩ := parse_of_not_fact (w.bytes ++ samples) rfl h
    obtain ⟨k, hk, -, -⟩ := asInt_spec (parse (w.bytes ++ samples)).encodedLength
    have htotal := w.length_bytes
    have hoffset := w.offset_lt hlength
    rw [List.length_append] at hlength
    rw [encodedLength, factLength, if_neg hfact] at hk hused
    omega
  · exact w.parsed_of_data hlength

theorem parsed_iff_of_fact (hlength : (w.bytes ++ samples).length < 2 ^ 31) {o : Nat}
    (ho : o = 36 + (parse (w.bytes ++ samples)).extensionLength)
    (h : fieldAt (w.bytes ++ samples) o 4 = fact) :
    DataChunkParsed w.toRiffHeader samples ↔ o + 12 = 20 + w.bodyLength ∧
      12 + UInt32.ofNat w.fmtPayload.length + u32Of (fieldAt (w.bytes ++ samples) (o + 4) 4) ≤
        w.size := by
  obtain ⟨hfact, hfactSize, hdataId, hdataSize⟩ := parse_of_fact (w.bytes ++ samples) ho h
  have htotal := w.length_bytes
  have hoffset := w.offset_lt hlength
  have hused : (parse (w.bytes ++ samples)).encodedLength = o + 20 := by
    rw [encodedLength, factLength, if_pos hfact]
    omega
  rw [DataChunkParsed, w.plausible_iff hlength, hfactSize, hused]
  rw [List.length_append] at hlength
  constructor
  · rintro ⟨hsizes, hend, -, -⟩
    obtain ⟨k, hk, -, -⟩ := asInt_spec (o + 20 : Nat)
    exact ⟨by omega, hsizes⟩
  · rintro ⟨hend, hsizes⟩
    obtain ⟨hid, hsize⟩ := w.fieldAt_dataChunk samples
    rw [← hend] at hid hsize
    refine ⟨hsizes, ?_, hdataId.trans hid, hdataSize.trans hsize⟩
    rw [asInt_of_lt (by omega) (by omega)]
    omega

theorem parsed_iff_of_extensible (hlength : (w.bytes ++ samples).length < 2 ^ 31)
    (hextensible : w.Extensible) :
    DataChunkParsed w.toRiffHeader samples ↔ w.bodyLength = 40 ∨
      w.bodyLength = 52 ∧ fieldAt w.bytes 60 4 = fact ∧
        12 + UInt32.ofNat w.fmtPayload.length + u32Of (fieldAt w.bytes 64 4) ≤ w.size := by
  have hext := w.parse_extensionLength_eq hlength
  rw [if_pos hextensible] at hext
  have hoffset : 60 = 36 + (parse (w.bytes ++ samples)).extensionLength := by omega
  have hinside : ∀ o, o + 4 ≤ 80 → w.bodyLength = 52 →
      fieldAt (w.bytes ++ samples) o 4 = fieldAt w.bytes o 4 := by
    intro o ho hbody
    rw [fieldAt_append_left (by rw [w.length_bytes]; omega)]
  by_cases hid : fieldAt (w.bytes ++ samples) 60 4 = fact
  · rw [w.parsed_iff_of_fact hlength hoffset hid]
    constructor
    · rintro ⟨hend, hsizes⟩
      have hbody : w.bodyLength = 52 := by omega
      rw [hinside _ (by decide) hbody] at hid hsizes
      exact .inr ⟨hbody, hid, hsizes⟩
    · rintro (hbody | ⟨hbody, -, hsizes⟩)
      · have hdata := (w.fieldAt_dataChunk samples).1
        rw [hbody, hid] at hdata
        exact absurd hdata (by decide)
      · rw [← hinside _ (by decide) hbody] at hsizes
        exact ⟨by omega, hsizes⟩
  · rw [w.parsed_iff_of_not_fact hlength (by rwa [← hoffset]), ← hoffset]
    constructor
    · intro hend
      exact .inl (by omega)
    · rintro (hbody | ⟨hbody, hfact, -⟩)
      · omega
      · rw [hinside _ (by decide) hbody] at hid
        exact absurd hfact hid

theorem parsed_iff_of_not_extensible (hlength : (w.bytes ++ samples).length < 2 ^ 31)
    (hplain : ¬w.Extensible) :
    DataChunkParsed w.toRiffHeader samples ↔ ∀ payload ∈ w.factPayload, payload.length = 4 := by
  have hext := w.parse_extensionLength_eq hlength
  have hmin := w.fmt_long
  rw [if_neg hplain] at hext
  have hoffset : 20 + w.fmtPayload.length =
      36 + (parse (w.bytes ++ samples)).extensionLength := by omega
  cases hpayload : w.factPayload with
  | none =>
      have hbody : w.bodyLength = w.fmtPayload.length := by
        simp [RiffHeader.bodyLength, RiffHeader.factBytes, hpayload]
      simp only [Option.mem_def, reduceCtorEq, false_implies, implies_true, iff_true]
      exact w.parsed_of_data hlength (by omega)
  | some payload =>
      obtain ⟨hid, hsize⟩ := w.fieldAt_factChunk samples hpayload
      have hbody : w.bodyLength = w.fmtPayload.length + 8 + payload.length := by
        simp [RiffHeader.bodyLength, RiffHeader.factBytes, hpayload, chunkBytes]
        omega
      have hbound : payload.length < 2 ^ 32 := by
        rw [List.length_append, w.length_bytes] at hlength
        omega
      rw [w.parsed_iff_of_fact hlength hoffset hid, hsize, u32Of_le32_ofNat hbound]
      simp only [Option.mem_def, Option.some.injEq, forall_eq']
      constructor
      · rintro ⟨hend, -⟩
        omega
      · intro hfour
        have hsame : (UInt32.ofNat payload.length).toNat = payload.length :=
          UInt32.toNat_ofNat_of_lt hbound
        exact ⟨by omega, w.sizes_le hlength (by omega)⟩

theorem parsed_iff_found (hlength : (w.bytes ++ samples).length < 2 ^ 31) :
    DataChunkParsed w.toRiffHeader samples ↔ w.Found := by
  unfold Found
  split
  · rename_i hextensible
    exact w.parsed_iff_of_extensible hlength hextensible
  · rename_i hplain
    exact w.parsed_iff_of_not_extensible hlength hplain

end WellFormedRiff

theorem decode_riff_iff (w : WellFormedRiff) (samples : List UInt8)
    (hlength : (w.bytes ++ samples).length < 2 ^ 31) (p : Nat) (s : Bitstream)
    (hmem : span s.mem p (w.bytes ++ samples).length = w.bytes ++ samples) :
    Prog.wp (rfWavheaderDecode p (w.bytes ++ samples).length) (fun x _ =>
      DataChunkFound w.toRiffHeader x.1 x.2) s ↔ w.Found := by
  obtain ⟨⟨r, wh⟩, t, hrun, hdecoded⟩ := Prog.wp_iff_exists.mp
    (rfWavheaderDecode_spec p (w.bytes ++ samples).length s)
  have hheader : wh = parse (w.bytes ++ samples) := by
    rw [← hmem]
    exact hdecoded.header
  rw [Prog.wp_iff_of_eq hrun, dataChunkFound_iff hdecoded hmem, ← w.parsed_iff_found hlength,
    WellFormedRiff.DataChunkParsed, hheader]

def longFact : WellFormedRiff where
  size := 68
  fmtPayload := [1, 0, 1, 0, 68, 172, 0, 0, 136, 88, 1, 0, 2, 0, 16, 0]
  factPayload := some [4, 0, 0, 0, 0, 0, 0, 0, 0, 0, 0, 0]
  dataSize := 8
  fmt_even := by decide
  fmt_long := by decide
  fact_even := by decide
  fact_long := by decide
  covers := by decide

def longFactStream : Bitstream :=
  { Bitstream.blank with mem := overlay Bitstream.blank.mem 0 longFact.bytes }

theorem decode_riff_longFact :
    ¬Prog.wp (rfWavheaderDecode 0 64) (fun x _ =>
      DataChunkFound longFact.toRiffHeader x.1 x.2) longFactStream := by
  have hdecode : Prog.wp (rfWavheaderDecode 0 64)
      (fun x _ => x.1 = 56 ∧ x.2.dataChunkId = Vector.replicate 4 0) longFactStream := by
    decide +kernel
  intro h
  obtain ⟨x, t, -, ⟨hresult, hid⟩, hfound⟩ :=
    Prog.wp_iff_exists.mp (Prog.wp_and hdecode h)
  have hdata : Vector.replicate 4 0 = data := hid.symm.trans hfound.2.1
  exact absurd hdata (by decide)

def shortFact : WellFormedRiff where
  size := 60
  fmtPayload := [1, 0, 1, 0, 68, 172, 0, 0, 136, 88, 1, 0, 2, 0, 16, 0]
  factPayload := some [4, 0, 0, 0]
  dataSize := 8
  fmt_even := by decide
  fmt_long := by decide
  fact_even := by decide
  fact_long := by decide
  covers := by decide

def shortFactStream : Bitstream :=
  { Bitstream.blank with mem := overlay Bitstream.blank.mem 0 (shortFact.bytes ++ [1, 2]) }

theorem decode_riff_shortFact :
    Prog.wp (rfWavheaderDecode 0 58) (fun x _ =>
      DataChunkFound shortFact.toRiffHeader x.1 x.2) shortFactStream := by
  have hspan : span shortFactStream.mem 0 (shortFact.bytes ++ [1, 2]).length =
      shortFact.bytes ++ [1, 2] := @span_overlay Bitstream.blank.mem 0 _
  exact (decode_riff_iff shortFact [1, 2] (by decide) 0 shortFactStream hspan).mpr (by decide)

end Librfn
