import LogEngine.Io.Disk

/-!
# Record batches

`src/storage/record_batch.{h,cpp}`: the 52-byte batch header, the check every byte
read off a disk or a socket passes through, and the builder that frames one batch.
The fields of a header are naturals that the encoding cuts to their width.
`nextOffset` is not reduced modulo `2 ^ 64`, which is how a log uses it, whose offsets do
not get there; `nextOffset64` is `next_offset` in the 64 bits of the source.
-/

namespace LogEngine.Storage

open Base Io

def kBatchHeaderBytes : Nat := 52
def kBatchLengthPrefixBytes : Nat := 12
def kCrcCoveredFrom : Nat := 16
def kMagicV0 : Nat := 0
def kAttrCompressed : Nat := 1
def kAttrControl : Nat := 2
def kMaxBatchBytes : Nat := 0x800000
def kRecordLengthBytes : Nat := 4

structure BatchHeader where
  baseOffset : Nat := 0
  batchLength : Nat := 0
  leaderEpoch : Nat := 0
  magic : Nat := kMagicV0
  attributes : Nat := 0
  crc : Nat := 0
  lastOffsetDelta : Nat := 0
  timestampMs : Int := 0
  producerId : Nat := 0
  producerEpoch : Nat := 0
  baseSequence : Nat := 0
  recordCount : Nat := 0
  deriving DecidableEq, Repr

namespace BatchHeader

/-- Bytes the batch occupies on disk. -/
def totalBytes (h : BatchHeader) : Nat := kBatchLengthPrefixBytes + h.batchLength

def lastOffset (h : BatchHeader) : Nat := h.baseOffset + h.lastOffsetDelta

/-- The offset the next batch starts at. -/
def nextOffset (h : BatchHeader) : Nat := h.lastOffset + 1

/-- `next_offset`, which wraps around. -/
def nextOffset64 (h : BatchHeader) : Nat := h.nextOffset % 0x10000000000000000

end BatchHeader

/-- What the caller decides about a batch. -/
structure BatchMeta where
  leaderEpoch : Nat := 0
  control : Bool := false
  timestampMs : Int := 0
  producerId : Nat := 0
  producerEpoch : Nat := 0
  baseSequence : Nat := 0
  deriving DecidableEq, Repr

/-- The fields of a header that the checksum covers. -/
def encodeCovered (h : BatchHeader) : Bytes :=
  storeLe 4 h.leaderEpoch ++ storeLe 1 h.magic ++ storeLe 1 h.attributes ++
    storeLe 4 h.lastOffsetDelta ++ storeI64 h.timestampMs ++ storeLe 8 h.producerId ++
    storeLe 2 h.producerEpoch ++ storeLe 4 h.baseSequence ++ storeLe 4 h.recordCount

/-- `encode_header`. -/
def encodeHeader (h : BatchHeader) : Bytes :=
  storeLe 8 h.baseOffset ++ storeLe 4 h.batchLength ++ storeLe 4 h.crc ++ encodeCovered h

/-- The header's fields as they stand in the bytes. -/
def loadHeader (bytes : Bytes) : BatchHeader where
  baseOffset := field bytes 0 8
  batchLength := field bytes 8 4
  crc := field bytes 12 4
  leaderEpoch := field bytes 16 4
  magic := field bytes 20 1
  attributes := field bytes 21 1
  lastOffsetDelta := field bytes 22 4
  timestampMs := loadI64 (subslice bytes 26 8)
  producerId := field bytes 34 8
  producerEpoch := field bytes 42 2
  baseSequence := field bytes 44 4
  recordCount := field bytes 48 4

/-- `decode_header`. -/
def decodeHeader (bytes : Bytes) : Except ErrorCode BatchHeader :=
  if bytes.length < kBatchHeaderBytes then .error .corruptRecord
  else
    let h := loadHeader bytes
    if h.magic ≠ kMagicV0 then .error .corruptRecord
    else if h.totalBytes < kBatchHeaderBytes then .error .corruptRecord
    else if kMaxBatchBytes < h.totalBytes then .error .corruptRecord
    else .ok h

/-- `compute_crc`. -/
def computeCrc (framed : Bytes) (total : Nat) : Nat :=
  (crc32c 0 (subslice framed kCrcCoveredFrom (total - kCrcCoveredFrom))).toNat

/-- The walk over the records in `validate_batch`: where it ends, `none` if a record
does not fit. -/
def walkRecords (framed : Bytes) (total : Nat) : Nat → Nat → Option Nat
  | 0, pos => some pos
  | count + 1, pos =>
      if total - pos < kRecordLengthBytes then none
      else
        let len := field framed pos 4
        let pos := pos + kRecordLengthBytes
        if total - pos < len then none else walkRecords framed total count (pos + len)

/-- `validate_batch`. -/
def validateBatch (framed : Bytes) : Except ErrorCode Unit :=
  match decodeHeader framed with
  | .error e => .error e
  | .ok h =>
      let total := h.totalBytes
      if framed.length < total then .error .corruptRecord
      else if computeCrc framed total ≠ h.crc then .error .corruptRecord
      else if h.recordCount = 0 then .error .corruptRecord
      else if h.lastOffsetDelta ≠ h.recordCount - 1 then .error .corruptRecord
      else if h.attributes &&& kAttrCompressed ≠ 0 then .error .corruptRecord
      else if walkRecords framed total h.recordCount kBatchHeaderBytes ≠ some total then
        .error .corruptRecord
      else .ok ()

/-! ## The builder -/

/-- The bytes of one record. -/
def frameRecord (value : Bytes) : Bytes := storeLe kRecordLengthBytes value.length ++ value

/-- `BatchBuilder`: the records added so far, never more than fit in one batch. -/
structure BatchBuilder where
  records : List Bytes := []
  fits : kBatchHeaderBytes + (records.flatMap frameRecord).length ≤ kMaxBatchBytes := by decide

namespace BatchBuilder

/-- The part of the buffer after the header. -/
def body (b : BatchBuilder) : Bytes := b.records.flatMap frameRecord

def recordCount (b : BatchBuilder) : Nat := b.records.length

def empty (b : BatchBuilder) : Bool := b.records.isEmpty

/-- `framed_bytes`. -/
def framedBytes (b : BatchBuilder) : Nat := kBatchHeaderBytes + b.body.length

/-- `add_record`. -/
def addRecord (b : BatchBuilder) (value : Bytes) : Except ErrorCode BatchBuilder :=
  if h : b.framedBytes + (frameRecord value).length ≤ kMaxBatchBytes then
    .ok { records := b.records ++ [value]
          fits := by
            simp only [framedBytes, body] at h
            simpa [List.flatMap_append, Nat.add_assoc] using h }
  else .error .messageTooLarge

/-- The header `finish` stamps, before its checksum. -/
def header (b : BatchBuilder) (baseOffset : Nat) (info : BatchMeta) : BatchHeader where
  baseOffset := baseOffset
  batchLength := b.framedBytes - kBatchLengthPrefixBytes
  leaderEpoch := info.leaderEpoch
  attributes := if info.control then kAttrControl else 0
  lastOffsetDelta := b.recordCount - 1
  timestampMs := info.timestampMs
  producerId := info.producerId
  producerEpoch := info.producerEpoch
  baseSequence := info.baseSequence
  recordCount := b.recordCount

/-- `finish`: the checksum is taken over the bytes behind its own field. -/
def finish (b : BatchBuilder) (baseOffset : Nat) (info : BatchMeta) : Bytes :=
  let h := b.header baseOffset info
  let crc := computeCrc (encodeHeader h ++ b.body) b.framedBytes
  encodeHeader { h with crc := crc } ++ b.body

end BatchBuilder

end LogEngine.Storage
