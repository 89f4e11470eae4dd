import LogEngine.Storage.RecordBatch
import LogEngine.Verified.Framing

/-!
# Framed batches

A `Frame` is the bytes of one batch that passes `validate_batch` and is as long as
its header says.  The checks of `src/storage/record_batch.cpp` look at no byte behind
the batch, which makes frames self-delimiting: a segment's file is read as a row of
frames by `Verified.Framing`.

`BatchBuilder.frame` is the frame that `finish` makes.
-/

namespace LogEngine.Storage

open Base Io Verified.Tiling Verified.Framing

/-! ## What the checks look at -/

section Locality

variable {a b : Bytes}

private theorem loadHeader_append (h : kBatchHeaderBytes ≤ a.length) :
    loadHeader (a ++ b) = loadHeader a := by
  have hlen : 52 ≤ a.length := h
  simp only [loadHeader]
  rw [field_append_left (by omega), field_append_left (by omega), field_append_left (by omega),
    field_append_left (by omega), field_append_left (by omega), field_append_left (by omega),
    field_append_left (by omega), subslice_append_left (by omega), field_append_left (by omega),
    field_append_left (by omega), field_append_left (by omega), field_append_left (by omega)]

/-- The header is in the first 52 bytes. -/
theorem decodeHeader_append (h : kBatchHeaderBytes ≤ a.length) :
    decodeHeader (a ++ b) = decodeHeader a := by
  have hab : kBatchHeaderBytes ≤ (a ++ b).length := by
    rw [List.length_append]
    omega
  unfold decodeHeader
  rw [if_neg (Nat.not_lt.2 hab), if_neg (Nat.not_lt.2 h), loadHeader_append h]

/-- What `decode_header` accepts. -/
theorem decodeHeader_eq_ok {h : BatchHeader} :
    decodeHeader a = .ok h ↔ kBatchHeaderBytes ≤ a.length ∧ loadHeader a = h ∧
      h.magic = kMagicV0 ∧ kBatchHeaderBytes ≤ h.totalBytes ∧ h.totalBytes ≤ kMaxBatchBytes := by
  unfold decodeHeader
  dsimp only
  constructor
  · intro heq
    split at heq
    · cases heq
    split at heq
    · cases heq
    split at heq
    · cases heq
    split at heq
    · cases heq
    cases heq
    refine ⟨by omega, rfl, ?_, by omega, by omega⟩
    exact not_not.1 ‹_›
  · rintro ⟨hlen, rfl, hmagic, hmin, hmax⟩
    rw [if_neg (by omega), if_neg (not_not.2 hmagic), if_neg (by omega), if_neg (by omega)]

/-- Reading only as much as the header takes shows the same header. -/
theorem decodeHeader_take {n : Nat} (h : kBatchHeaderBytes ≤ n) :
    decodeHeader (a.take n) = decodeHeader a := by
  by_cases hlen : n ≤ a.length
  · conv_rhs => rw [← List.take_append_drop n a]
    rw [decodeHeader_append]
    rw [List.length_take]
    omega
  · rw [List.take_of_length_le (by omega)]

theorem computeCrc_append {total : Nat} (h : total ≤ a.length) :
    computeCrc (a ++ b) total = computeCrc a total := by
  unfold computeCrc
  by_cases hle : kCrcCoveredFrom ≤ total
  · rw [subslice_append_left]
    omega
  · have hz : total - kCrcCoveredFrom = 0 := by omega
    simp [hz, subslice]

private theorem walkRecords_append {total : Nat} (h : total ≤ a.length) (count pos : Nat) :
    walkRecords (a ++ b) total count pos = walkRecords a total count pos := by
  induction count generalizing pos with
  | zero => rfl
  | succ count ih =>
      unfold walkRecords
      split
      · rfl
      case isFalse hfits =>
        have hpos : pos + 4 ≤ a.length := by
          unfold kRecordLengthBytes at hfits
          omega
        simp only [field_append_left hpos, ih]

/-- What `validate_batch` accepts. -/
theorem validateBatch_eq_ok : validateBatch a = .ok () ↔
    ∃ h, decodeHeader a = .ok h ∧ h.totalBytes ≤ a.length ∧
      computeCrc a h.totalBytes = h.crc ∧ h.recordCount ≠ 0 ∧
      h.lastOffsetDelta = h.recordCount - 1 ∧ h.attributes &&& kAttrCompressed = 0 ∧
      walkRecords a h.totalBytes h.recordCount kBatchHeaderBytes = some h.totalBytes := by
  unfold validateBatch
  constructor
  · intro hv
    cases hd : decodeHeader a with
    | error e =>
        rw [hd] at hv
        cases hv
    | ok h =>
        rw [hd] at hv
        dsimp only at hv
        split at hv
        · cases hv
        case isFalse hlen =>
        split at hv
        · cases hv
        case isFalse hcrc =>
        split at hv
        · cases hv
        case isFalse hcount =>
        split at hv
        · cases hv
        case isFalse hdelta =>
        split at hv
        · cases hv
        case isFalse hattr =>
        split at hv
        · cases hv
        case isFalse hwalk =>
        exact ⟨h, rfl, Nat.not_lt.1 hlen, not_not.1 hcrc, hcount, not_not.1 hdelta,
          not_not.1 hattr, not_not.1 hwalk⟩
  · rintro ⟨h, hd, hlen, hcrc, hcount, hdelta, hattr, hwalk⟩
    rw [hd]
    dsimp only
    rw [if_neg (Nat.not_lt.2 hlen), if_neg (not_not.2 hcrc), if_neg hcount,
      if_neg (not_not.2 hdelta), if_neg (not_not.2 hattr), if_neg (not_not.2 hwalk)]

/-- A batch is checked without a look at what follows it. -/
theorem validateBatch_append {h : BatchHeader} (hd : decodeHeader a = .ok h)
    (hlen : h.totalBytes ≤ a.length) : validateBatch (a ++ b) = validateBatch a := by
  have hbytes := (decodeHeader_eq_ok.1 hd).1
  have hab : h.totalBytes ≤ (a ++ b).length := by
    rw [List.length_append]
    omega
  unfold validateBatch
  rw [decodeHeader_append hbytes, hd]
  dsimp only
  rw [if_neg (Nat.not_lt.2 hab), if_neg (Nat.not_lt.2 hlen), computeCrc_append hlen,
    walkRecords_append hlen]

end Locality

/-! ## Frames -/

/-- The bytes of one valid batch, no more and no less. -/
structure Frame where
  bytes : Bytes
  header : BatchHeader
  decode : decodeHeader bytes = .ok header
  whole : bytes.length = header.totalBytes
  valid : validateBatch bytes = .ok ()

namespace Frame

theorem header_le (f : Frame) : kBatchHeaderBytes ≤ f.bytes.length :=
  (decodeHeader_eq_ok.1 f.decode).1

theorem length_le (f : Frame) : f.bytes.length ≤ kMaxBatchBytes := by
  rw [f.whole]
  exact (decodeHeader_eq_ok.1 f.decode).2.2.2.2

theorem bytes_ne (f : Frame) : f.bytes ≠ [] := by
  intro h
  have := f.header_le
  rw [h] at this
  exact absurd this (by decide)

/-- A frame is its bytes. -/
theorem ext {f g : Frame} (h : f.bytes = g.bytes) : f = g := by
  have hheader : f.header = g.header := by
    have hd := f.decode
    rw [h, g.decode] at hd
    exact (Except.ok.inj hd).symm
  cases f
  cases g
  cases h
  cases hheader
  rfl

instance : DecidableEq Frame := fun f g =>
  decidable_of_iff (f.bytes = g.bytes) ⟨ext, congrArg Frame.bytes⟩

/-- The batch at the head of a stream of bytes. -/
def ofBytes (image : Bytes) : Option Frame :=
  match hd : decodeHeader image with
  | .error _ => none
  | .ok h =>
      if hlen : h.totalBytes ≤ image.length then
        match hv : validateBatch image with
        | .error _ => none
        | .ok _ =>
            have hmin : kBatchHeaderBytes ≤ h.totalBytes := (decodeHeader_eq_ok.1 hd).2.2.2.1
            have hd' : decodeHeader (image.take h.totalBytes) = .ok h :=
              (decodeHeader_take hmin).trans hd
            have hlen' : (image.take h.totalBytes).length = h.totalBytes := by
              rw [List.length_take, Nat.min_eq_left hlen]
            some
              { bytes := image.take h.totalBytes
                header := h
                decode := hd'
                whole := hlen'
                valid := by
                  rw [← hv]
                  conv_rhs => rw [← List.take_append_drop h.totalBytes image]
                  exact (validateBatch_append hd' hlen'.ge).symm }
      else none

private theorem ofBytes_eq_some (image : Bytes) (f : Frame) :
    ofBytes image = some f ↔ f.bytes <+: image := by
  constructor
  · intro h
    unfold ofBytes at h
    split at h
    · cases h
    split at h
    · split at h
      · cases h
      · cases h
        exact List.take_prefix _ _
    · cases h
  · rintro ⟨rest, rfl⟩
    have hd : decodeHeader (f.bytes ++ rest) = .ok f.header :=
      (decodeHeader_append f.header_le).trans f.decode
    have hv : validateBatch (f.bytes ++ rest) = .ok () :=
      (validateBatch_append f.decode f.whole.ge).trans f.valid
    unfold ofBytes
    split
    case h_1 e he => cases he.symm.trans hd
    case h_2 h hh =>
      obtain rfl : h = f.header := Except.ok.inj (hh.symm.trans hd)
      rw [dif_pos (by rw [← f.whole, List.length_append]; omega)]
      split
      case h_1 e he => cases he.symm.trans hv
      · refine congrArg some (ext ?_)
        show (f.bytes ++ rest).take f.header.totalBytes = f.bytes
        rw [← f.whole, List.take_left]

instance : Extent Frame where
  base f := f.header.baseOffset
  stop f := f.header.nextOffset

instance : Proper Frame where
  base_lt _ := Nat.lt_succ_of_le (Nat.le_add_right _ _)

instance : Delimited Frame UInt8 where
  bytes := Frame.bytes
  bytes_ne := Frame.bytes_ne
  head := ofBytes
  head_eq_some := ofBytes_eq_some

/-- What passes the checks of a scan is a frame at the head. -/
theorem head_ne_none {l : Bytes} {h : BatchHeader} (hd : decodeHeader l = .ok h)
    (htotal : h.totalBytes ≤ l.length) (hv : validateBatch (l.take h.totalBytes) = .ok ()) :
    (Delimited.head l : Option Frame) ≠ none := by
  have hmin := (decodeHeader_eq_ok.1 hd).2.2.2.1
  have hsome := (Delimited.head_eq_some l (⟨l.take h.totalBytes, h,
    (decodeHeader_take hmin).trans hd,
    by rw [List.length_take, Nat.min_eq_left htotal], hv⟩ : Frame)).2 (List.take_prefix _ _)
  rw [hsome]
  exact Option.some_ne_none _

/-- Every stream has its row of frames. -/
theorem parses (a : Nat) (l : Bytes) : Parses a l (parse a l : List Frame) := parses_parse a l

/-- The number of records is what the frame adds to the next offset. -/
theorem nextOffset_eq (f : Frame) :
    f.header.nextOffset = f.header.baseOffset + f.header.recordCount := by
  have hv := f.valid
  unfold validateBatch at hv
  rw [f.decode] at hv
  dsimp only at hv
  split at hv
  · cases hv
  split at hv
  · cases hv
  split at hv
  · cases hv
  case isFalse hcount =>
    split at hv
    · cases hv
    case isFalse hdelta =>
      rw [not_not] at hdelta
      rw [BatchHeader.nextOffset, BatchHeader.lastOffset, hdelta]
      omega

end Frame

theorem encode_cons_length (f : Frame) (fs : List Frame) :
    (encode (f :: fs)).length = f.bytes.length + (encode fs).length := by
  rw [encode_cons, List.length_append]
  rfl

/-! ## What the builder makes -/

section Builder

/-- A stored field at the head is read back as far as its width goes. -/
theorem field_storeLe_append (n v : Nat) (rest : Bytes) :
    field (storeLe n v ++ rest) 0 n = v % 256 ^ n := by
  rw [field_append_left (by rw [storeLe_length]; omega), field, subslice_all (by simp),
    loadLe_storeLe]

private theorem storeI64_length (v : Int) : (storeI64 v).length = 8 := storeLe_length 8 _

theorem encodeHeader_length (h : BatchHeader) : (encodeHeader h).length = kBatchHeaderBytes := by
  simp [encodeHeader, encodeCovered, storeI64_length, kBatchHeaderBytes]

/-- A header as the widths of its fields cut it. -/
def BatchHeader.cut (h : BatchHeader) : BatchHeader where
  baseOffset := h.baseOffset % 256 ^ 8
  batchLength := h.batchLength % 256 ^ 4
  leaderEpoch := h.leaderEpoch % 256 ^ 4
  magic := h.magic % 256
  attributes := h.attributes % 256
  crc := h.crc % 256 ^ 4
  lastOffsetDelta := h.lastOffsetDelta % 256 ^ 4
  timestampMs := loadI64 (storeI64 h.timestampMs)
  producerId := h.producerId % 256 ^ 8
  producerEpoch := h.producerEpoch % 256 ^ 2
  baseSequence := h.baseSequence % 256 ^ 4
  recordCount := h.recordCount % 256 ^ 4

/-- An encoded header is read back up to the widths of its fields. -/
theorem loadHeader_encodeHeader (h : BatchHeader) (body : Bytes) :
    loadHeader (encodeHeader h ++ body) = h.cut := by
  have htime : subslice (encodeHeader h ++ body) 26 8 = storeI64 h.timestampMs := by
    simp only [encodeHeader, encodeCovered, List.append_assoc]
    simp (disch := simp) only [subslice_append_right, storeLe_length, Nat.reduceSub]
    rw [subslice_append_left (by simp [storeI64_length]),
      subslice_all (by simp [storeI64_length])]
  unfold loadHeader BatchHeader.cut
  rw [htime]
  simp only [encodeHeader, encodeCovered, List.append_assoc]
  simp (disch := simp [storeI64_length]) only [field_append_right, storeLe_length,
    storeI64_length, Nat.reduceSub, field_storeLe_append, Nat.pow_one]

/-- The checksum does not depend on the field it is stored in. -/
theorem computeCrc_encodeHeader (h : BatchHeader) (crc : Nat) (body : Bytes) (total : Nat) :
    computeCrc (encodeHeader { h with crc := crc } ++ body) total =
      computeCrc (encodeHeader h ++ body) total := by
  have hcov : ∀ h' : BatchHeader, subslice (encodeHeader h' ++ body) kCrcCoveredFrom
      (total - kCrcCoveredFrom) = subslice (encodeCovered h' ++ body) 0
        (total - kCrcCoveredFrom) := by
    intro h'
    simp only [encodeHeader, List.append_assoc, kCrcCoveredFrom]
    simp (disch := simp) only [subslice_append_right, storeLe_length, Nat.reduceSub]
  unfold computeCrc
  rw [hcov, hcov]
  rfl

namespace BatchBuilder

variable (b : BatchBuilder)

private theorem recordCount_le : b.recordCount * kRecordLengthBytes ≤ b.body.length := by
  unfold recordCount body
  induction b.records with
  | nil => rfl
  | cons v records ih =>
      rw [List.flatMap_cons, List.length_append, List.length_cons]
      have : kRecordLengthBytes ≤ (frameRecord v).length := by
        simp [frameRecord]
      unfold kRecordLengthBytes at *
      omega

theorem framedBytes_le : b.framedBytes ≤ kMaxBatchBytes := b.fits

/-- The walk over the records of a batch ends at its end. -/
theorem walkRecords_records (head : Bytes) (records : List Bytes) (total : Nat)
    (htotal : total = (head ++ records.flatMap frameRecord).length)
    (hmax : total ≤ kMaxBatchBytes) :
    walkRecords (head ++ records.flatMap frameRecord) total records.length head.length =
      some total := by
  induction records generalizing head with
  | nil =>
      rw [List.flatMap_nil, List.append_nil] at htotal
      rw [List.length_nil, walkRecords, htotal]
  | cons v records ih =>
      have hsplit : head ++ (v :: records).flatMap frameRecord =
          (head ++ frameRecord v) ++ records.flatMap frameRecord := by
        rw [List.flatMap_cons, List.append_assoc]
      have hlen : (frameRecord v).length = kRecordLengthBytes + v.length := by
        simp [frameRecord]
      have hlen' : (head ++ (v :: records).flatMap frameRecord).length =
          head.length + (kRecordLengthBytes + v.length) +
            (records.flatMap frameRecord).length := by
        rw [hsplit, List.length_append, List.length_append, hlen]
      have hv : v.length < 256 ^ 4 := by
        unfold kMaxBatchBytes at hmax
        omega
      have hfield : field (head ++ (v :: records).flatMap frameRecord) head.length 4 =
          v.length := by
        rw [field_append_right le_rfl, Nat.sub_self, List.flatMap_cons, frameRecord,
          List.append_assoc]
        exact (field_storeLe_append 4 v.length _).trans (Nat.mod_eq_of_lt hv)
      rw [List.length_cons, walkRecords, if_neg (by omega)]
      dsimp only
      rw [hfield, if_neg (by omega)]
      have hpos : head.length + kRecordLengthBytes + v.length = (head ++ frameRecord v).length := by
        rw [List.length_append, hlen]
        omega
      rw [hpos, hsplit]
      exact ih _ (htotal.trans (congrArg List.length hsplit))

/-- The header that `finish` writes. -/
def stamped (base : Nat) (info : BatchMeta) : BatchHeader :=
  { b.header base info with
    crc := computeCrc (encodeHeader (b.header base info) ++ b.body) b.framedBytes }

theorem finish_eq (base : Nat) (info : BatchMeta) :
    b.finish base info = encodeHeader (b.stamped base info) ++ b.body := rfl

theorem finish_length (base : Nat) (info : BatchMeta) :
    (b.finish base info).length = b.framedBytes := by
  rw [finish_eq, List.length_append, encodeHeader_length]
  rfl

theorem stamped_totalBytes (base : Nat) (info : BatchMeta) :
    (b.stamped base info).cut.totalBytes = b.framedBytes := by
  have hmax := b.framedBytes_le
  have hcut : (b.stamped base info).cut.batchLength =
      (b.framedBytes - kBatchLengthPrefixBytes) % 256 ^ 4 := rfl
  have hmin : kBatchLengthPrefixBytes ≤ b.framedBytes := by
    unfold framedBytes kBatchHeaderBytes kBatchLengthPrefixBytes
    omega
  rw [BatchHeader.totalBytes, hcut, Nat.mod_eq_of_lt]
  · omega
  · unfold kMaxBatchBytes at hmax
    omega

theorem decodeHeader_finish (base : Nat) (info : BatchMeta) :
    decodeHeader (b.finish base info) = .ok (b.stamped base info).cut := by
  have htotal := b.stamped_totalBytes base info
  refine decodeHeader_eq_ok.2 ⟨?_, ?_, rfl, ?_, ?_⟩
  · rw [finish_length]
    exact Nat.le_add_right _ _
  · rw [finish_eq, loadHeader_encodeHeader]
  · rw [htotal]
    exact Nat.le_add_right _ _
  · rw [htotal]
    exact b.framedBytes_le

theorem recordCount_lt : b.recordCount < 256 ^ 4 := by
  have hmax := b.framedBytes_le
  have h₁ := b.recordCount_le
  have h₂ : b.body.length ≤ b.framedBytes := Nat.le_add_left _ _
  unfold kMaxBatchBytes at hmax
  unfold kRecordLengthBytes at h₁
  omega

theorem cut_recordCount (base : Nat) (info : BatchMeta) :
    (b.stamped base info).cut.recordCount = b.recordCount :=
  Nat.mod_eq_of_lt b.recordCount_lt

theorem validateBatch_finish (hne : b.records ≠ []) (base : Nat) (info : BatchMeta) :
    validateBatch (b.finish base info) = .ok () := by
  have hmax := b.framedBytes_le
  have hcount := b.recordCount_lt
  have hpos : 0 < b.recordCount := List.length_pos_of_ne_nil hne
  have hrecords := b.cut_recordCount base info
  have hdelta : (b.stamped base info).cut.lastOffsetDelta = b.recordCount - 1 :=
    Nat.mod_eq_of_lt (by
      have : (b.stamped base info).lastOffsetDelta = b.recordCount - 1 := rfl
      omega)
  have hcrc : computeCrc (b.finish base info) b.framedBytes =
      (b.stamped base info).cut.crc := by
    have hlt : computeCrc (encodeHeader (b.header base info) ++ b.body) b.framedBytes <
        256 ^ 4 := UInt32.toNat_lt _
    rw [finish_eq, stamped, computeCrc_encodeHeader]
    exact (Nat.mod_eq_of_lt hlt).symm
  have hattr : (b.stamped base info).cut.attributes &&& kAttrCompressed = 0 := by
    have : (b.stamped base info).cut.attributes =
        (if info.control then kAttrControl else 0) % 256 := rfl
    rw [this]
    cases info.control <;> decide
  have hwalk : walkRecords (b.finish base info) b.framedBytes b.recordCount kBatchHeaderBytes =
      some b.framedBytes := by
    have hlen := b.finish_length base info
    rw [finish_eq] at hlen ⊢
    rw [← encodeHeader_length (b.stamped base info)]
    exact walkRecords_records _ _ _ hlen.symm hmax
  refine validateBatch_eq_ok.2 ⟨_, b.decodeHeader_finish base info, ?_⟩
  rw [b.stamped_totalBytes, hrecords, finish_length]
  exact ⟨le_rfl, hcrc, hpos.ne', hdelta, hattr, hwalk⟩

/-- The frame that `finish` makes of a builder that is not empty. -/
def frame (hne : b.records ≠ []) (base : Nat) (info : BatchMeta) : Frame where
  bytes := b.finish base info
  header := (b.stamped base info).cut
  decode := b.decodeHeader_finish base info
  whole := (b.finish_length base info).trans (b.stamped_totalBytes base info).symm
  valid := b.validateBatch_finish hne base info

end BatchBuilder

end Builder

end LogEngine.Storage
