import Librfn.Pack

/-!
# WAV file headers

`wavheader.c`.  The decoder and the encoder unpack and pack one field after
the other; what is past the `fmt` fields depends on the fields before.
-/

namespace Librfn

open Librfn.Logic

def riff : Vector UInt8 4 := #v[82, 73, 70, 70]

def wave : Vector UInt8 4 := #v[87, 65, 86, 69]

def fmt : Vector UInt8 4 := #v[102, 109, 116, 32]

def fact : Vector UInt8 4 := #v[102, 97, 99, 116]

def data : Vector UInt8 4 := #v[100, 97, 116, 97]

/-- `rf_wavheader_t`, zeroed by default. -/
@[ext] structure Wavheader where
  chunkId : Vector UInt8 4 := Vector.replicate 4 0
  chunkSize : UInt32 := 0
  format : Vector UInt8 4 := Vector.replicate 4 0
  fmtChunkId : Vector UInt8 4 := Vector.replicate 4 0
  fmtChunkSize : UInt32 := 0
  audioFormat : UInt16 := 0
  numChannels : UInt16 := 0
  sampleRate : UInt32 := 0
  byteRate : UInt32 := 0
  blockAlign : UInt16 := 0
  bitsPerSample : UInt16 := 0
  cbSize : UInt16 := 0
  validBitsPerSample : UInt16 := 0
  channelMask : UInt32 := 0
  subFormat : Vector UInt8 16 := Vector.replicate 16 0
  factChunkId : Vector UInt8 4 := Vector.replicate 4 0
  factChunkSize : UInt32 := 0
  sampleLength : UInt32 := 0
  dataChunkId : Vector UInt8 4 := Vector.replicate 4 0
  dataChunkSize : UInt32 := 0
  deriving DecidableEq

inductive WavFormat where
  | unknown
  | s16le
  | s32le
  | float
  deriving DecidableEq, Repr

def einval : Int := 22

/-! ## Decoding -/

/-- The part of the decoder under `if (wh->fmt_chunk_size >= 18)`. -/
def decodeExtension (wh : Wavheader) : Prog Bitstream Wavheader :=
  if wh.fmtChunkSize ≥ 18 then do
    let cbSize ← rfUnpackU16le
    if cbSize = 22 then
      let validBitsPerSample ← rfUnpackU16le
      let channelMask ← rfUnpackU32le
      let subFormat ← rfUnpackBytes 16
      return { wh with cbSize, validBitsPerSample, channelMask, subFormat }
    else
      rfUnpackNull (wh.fmtChunkSize - 18).toNat
      return { wh with cbSize }
  else return wh

/-- The part under `if (0 == memcmp(fact, wh->data_chunk_id, 4))`. -/
def decodeFact (wh : Wavheader) : Prog Bitstream Wavheader :=
  if wh.dataChunkId = fact then do
    let factChunkSize ← rfUnpackU32le
    let sampleLength ← rfUnpackU32le
    let dataChunkId ← rfUnpackBytes 4
    return { wh with
      factChunkId := wh.dataChunkId, factChunkSize, sampleLength, dataChunkId }
  else return wh

/-- The validation and the return value. -/
def decodeReturn (sz : Nat) (wh : Wavheader) : Prog Bitstream (Int × Wavheader) := do
  if wh.chunkId ≠ riff then
    return (-einval, wh)
  if wh.chunkSize < 12 + wh.fmtChunkSize + wh.factChunkSize then
    return (-einval, wh)
  if wh.format ≠ wave then
    return (-einval, wh)
  let remaining ← rfPackRemaining
  return (asInt (sz - remaining), wh)

def rfWavheaderDecode (p sz : Nat) : Prog Bitstream (Int × Wavheader) := do
  rfPackInit p sz
  let chunkId ← rfUnpackBytes 4
  let chunkSize ← rfUnpackU32le
  let format ← rfUnpackBytes 4
  let fmtChunkId ← rfUnpackBytes 4
  let fmtChunkSize ← rfUnpackU32le
  let audioFormat ← rfUnpackU16le
  let numChannels ← rfUnpackU16le
  let sampleRate ← rfUnpackU32le
  let byteRate ← rfUnpackU32le
  let blockAlign ← rfUnpackU16le
  let bitsPerSample ← rfUnpackU16le
  let wh ← decodeExtension
    { chunkId, chunkSize, format, fmtChunkId, fmtChunkSize, audioFormat, numChannels,
      sampleRate, byteRate, blockAlign, bitsPerSample }
  let dataChunkId ← rfUnpackBytes 4
  let wh ← decodeFact { wh with dataChunkId }
  let dataChunkSize ← rfUnpackU32le
  decodeReturn sz { wh with dataChunkSize }

/-! ## Encoding -/

def rfWavheaderEncode (wh : Wavheader) (p sz : Nat) : Prog Bitstream Int := do
  rfPackInit p sz
  rfPackBytes 4 (some wh.chunkId)
  rfPackU32le wh.chunkSize
  rfPackBytes 4 (some wh.format)
  rfPackBytes 4 (some wh.fmtChunkId)
  rfPackU32le wh.fmtChunkSize
  rfPackU16le wh.audioFormat
  rfPackU16le wh.numChannels
  rfPackU32le wh.sampleRate
  rfPackU32le wh.byteRate
  rfPackU16le wh.blockAlign
  rfPackU16le wh.bitsPerSample
  if wh.fmtChunkSize ≥ 18 then
    rfPackU16le wh.cbSize
    if wh.cbSize = 22 then
      rfPackU16le wh.validBitsPerSample
      rfPackU32le wh.channelMask
      rfPackBytes 16 (some wh.subFormat)
    else
      rfPackBytes (wh.fmtChunkSize - 18).toNat none
  if wh.factChunkId = fact then
    rfPackBytes 4 (some wh.factChunkId)
    rfPackU32le wh.factChunkSize
    rfPackU32le wh.sampleLength
  rfPackBytes 4 (some wh.dataChunkId)
  rfPackU32le wh.dataChunkSize
  let remaining ← rfPackRemaining
  return asInt (sz - remaining)

/-! ## The other functions -/

def rfWavheaderGetFormat (wh : Wavheader) : WavFormat :=
  if wh.audioFormat = 1 then
    if wh.bitsPerSample = 16 then .s16le
    else if wh.bitsPerSample = 32 then .s32le
    else .unknown
  else if wh.audioFormat = 3 then
    if wh.bitsPerSample = 32 then .float else .unknown
  else if wh.audioFormat = 0xfffe then
    if wh.bitsPerSample = 16 then .s16le else .s32le
  else .unknown

/-- `sfreq` and `num_channels` are `int`, and so are their products. -/
def rfWavheaderInit (wh : Wavheader) (sfreq numChannels : Int32) (format : WavFormat) :
    Wavheader :=
  let bytesPerSample : Int32 := if format = .s16le then 2 else 4
  let wh := { wh with
    chunkId := riff
    chunkSize := 12 + 18 + 12 + 8
    format := wave
    fmtChunkId := fmt
    fmtChunkSize := if format = WavFormat.float then 18 else 16
    audioFormat := if format = WavFormat.float then 3 else 1
    numChannels := numChannels.toUInt32.toUInt16
    sampleRate := sfreq.toUInt32
    byteRate := (sfreq * bytesPerSample * numChannels).toUInt32
    blockAlign := (bytesPerSample * numChannels).toUInt32.toUInt16
    bitsPerSample := (bytesPerSample * 8).toUInt32.toUInt16
    cbSize := 0 }
  let wh :=
    if format = .float then
      { wh with factChunkId := fact, factChunkSize := 12, sampleLength := 0 }
    else wh
  { wh with dataChunkId := data, dataChunkSize := 0 }

def rfWavheaderSetNumFrames (wh : Wavheader) (numFrames : UInt32) : Wavheader :=
  let wh := { wh with chunkSize := wh.chunkSize - wh.dataChunkSize }
  let wh := { wh with dataChunkSize := numFrames * wh.blockAlign.toUInt32 }
  let wh := { wh with sampleLength := numFrames * wh.numChannels.toUInt32 }
  { wh with chunkSize := wh.chunkSize + numFrames * wh.blockAlign.toUInt32 }

def formatTostring : WavFormat → String
  | .s16le => "S16LE"
  | .s32le => "S32LE"
  | .float => "FLOAT"
  | .unknown => "UNKNOWN"

def divide (m n : UInt32) : Option UInt32 := if n = 0 then none else some (m / n)

/-- `%d` takes its argument for an `int`. -/
def formatD (n : UInt32) : String := toString n.toInt32.toInt

/-- Nothing where the behaviour is undefined. -/
def rfWavheaderTostring (wh : Wavheader) : Option String := do
  let samples ← divide wh.dataChunkSize wh.blockAlign.toUInt32
  return "WAVE file: " ++ formatD samples ++ " samples in " ++
    formatTostring (rfWavheaderGetFormat wh) ++ " " ++
    formatD wh.numChannels.toUInt32 ++ "ch " ++ formatD wh.sampleRate ++ "Hz"

def rfWavheaderValidate (wh : Wavheader) : Int :=
  if wh.chunkId ≠ riff then -einval
  else if wh.chunkSize < 12 + wh.fmtChunkSize + wh.factChunkSize then -einval
  else if wh.format ≠ wave then -einval
  else if wh.fmtChunkId ≠ fmt then -einval
  else if wh.dataChunkId ≠ data then -einval
  else 0

end Librfn
