import LogEngine.Storage.Frame

/-!
# The records of a batch

`RecordIterator` of `src/storage/record_batch.{h,cpp}`, and the round trip of the batch
format.  What `BatchBuilder::finish` writes passes `validate_batch`, has the header that
was written and gives the records back (`BatchBuilder.finish_records`); whatever passes
`validate_batch` is such a header followed by such records (`validated_records`).

The walk of `validate_batch` and the iterator take the same steps, so that a walk that ends
at the end of the batch is an iteration that yields one record for each step
(`yields_of_walk`).
-/

namespace LogEngine.Storage

open Base Io

/-! ## The iterator -/

structure RecordIterator where
  framed : Bytes
  pos : Nat := kBatchHeaderBytes
  stop : Nat := kBatchHeaderBytes
  deriving DecidableEq, Repr

namespace RecordIterator

/-- The constructor: the batch's declared length, clamped both ways. -/
def new (framed : Bytes) : RecordIterator :=
  if framed.length < kBatchHeaderBytes then { framed := framed }
  else
    let total := kBatchLengthPrefixBytes + field framed 8 4
    let total := if total < kBatchHeaderBytes then kBatchHeaderBytes else total
    { framed := framed, stop := if total < framed.length then total else framed.length }

/-- `next`: a record, `none` where there is none left, and where the iterator is then. -/
def next (it : RecordIterator) : Option Bytes × RecordIterator :=
  if it.stop - it.pos < kRecordLengthBytes then (none, it)
  else
    let len := field it.framed it.pos 4
    let it := { it with pos := it.pos + kRecordLengthBytes }
    if it.stop - it.pos < len then (none, it)
    else (some (subslice it.framed it.pos len), { it with pos := it.pos + len })

/-- The iterator yields these records, and then stops. -/
inductive Yields : RecordIterator → List Bytes → Prop
  | stop {it : RecordIterator} (h : it.next.1 = none) : Yields it []
  | more {it it' : RecordIterator} {v : Bytes} {vs : List Bytes}
      (h : it.next = (some v, it')) (hrest : Yields it' vs) : Yields it (v :: vs)

/-- The iterator over a batch with its header at the front and all its bytes there. -/
theorem new_eq {framed : Bytes} {h : BatchHeader} (hd : decodeHeader framed = .ok h)
    (hlen : h.totalBytes ≤ framed.length) :
    new framed = { framed := framed, stop := h.totalBytes } := by
  obtain ⟨hbytes, hload, -, hmin, -⟩ := decodeHeader_eq_ok.1 hd
  have hfield : kBatchLengthPrefixBytes + field framed 8 4 = h.totalBytes := by
    rw [← hload]
    rfl
  unfold new
  rw [if_neg (by omega)]
  dsimp only
  rw [hfield, if_neg (Nat.not_lt.2 hmin)]
  split
  · rfl
  · have heq : framed.length = h.totalBytes := by omega
    rw [heq]

end RecordIterator

/-! ## The walk and the iteration -/

section Walk

variable {framed : Bytes} {total : Nat}

/-- A walk over the records that ends at the end of the batch is an iteration that yields
one record for each step, and the records with their lengths are the bytes walked over. -/
theorem yields_of_walk (hlen : total ≤ framed.length) {count pos : Nat} (hpos : pos ≤ total)
    (h : walkRecords framed total count pos = some total) :
    ∃ records : List Bytes, records.length = count ∧
      RecordIterator.Yields { framed := framed, pos := pos, stop := total } records ∧
      records.flatMap frameRecord = subslice framed pos (total - pos) := by
  induction count generalizing pos with
  | zero =>
      obtain rfl : pos = total := Option.some.inj h
      refine ⟨[], rfl, .stop ?_, ?_⟩
      · unfold RecordIterator.next
        rw [if_pos (by rw [Nat.sub_self]; decide)]
      · rw [Nat.sub_self]
        rfl
  | succ count ih =>
      unfold walkRecords at h
      split at h
      · cases h
      case isFalse hfits =>
      dsimp only at h
      split at h
      · cases h
      case isFalse hrecord =>
        unfold kRecordLengthBytes at hfits hrecord h
        obtain ⟨records, hcount, hyields, hbytes⟩ := ih (by omega) h
        -- the record this step is over
        have hvlen : (subslice framed (pos + 4) (field framed pos 4)).length =
            field framed pos 4 := by
          rw [subslice_length]
          omega
        refine ⟨subslice framed (pos + 4) (field framed pos 4) :: records, by simp [hcount],
          .more ?_ hyields, ?_⟩
        · unfold RecordIterator.next kRecordLengthBytes
          dsimp only
          rw [if_neg hfits, if_neg hrecord]
        · have hsplit : total - pos = 4 + (field framed pos 4 +
              (total - (pos + 4 + field framed pos 4))) := by omega
          rw [List.flatMap_cons, hbytes, frameRecord, hvlen, hsplit, subslice_split,
            subslice_split, ← List.append_assoc]
          unfold kRecordLengthBytes
          rw [storeLe_field (by omega)]

/-- Records can be told from their bytes. -/
theorem flatMap_frameRecord_injective {a b : List Bytes} (ha : ∀ v ∈ a, v.length < 256 ^ 4)
    (hb : ∀ v ∈ b, v.length < 256 ^ 4)
    (h : a.flatMap frameRecord = b.flatMap frameRecord) : a = b := by
  have hne : ∀ v : Bytes, frameRecord v ≠ [] := by
    intro v hnil
    have hlen := congrArg List.length hnil
    rw [frameRecord, List.length_append, storeLe_length] at hlen
    unfold kRecordLengthBytes at hlen
    simp at hlen
  induction a generalizing b with
  | nil =>
      cases b with
      | nil => rfl
      | cons w b =>
          rw [List.flatMap_nil, List.flatMap_cons] at h
          exact absurd (List.append_eq_nil_iff.1 h.symm).1 (hne w)
  | cons v a ih =>
      cases b with
      | nil =>
          rw [List.flatMap_nil, List.flatMap_cons] at h
          exact absurd (List.append_eq_nil_iff.1 h).1 (hne v)
      | cons w b =>
          rw [List.flatMap_cons, List.flatMap_cons, frameRecord, frameRecord, List.append_assoc,
            List.append_assoc] at h
          -- the lengths come first
          obtain ⟨hsize, hrest⟩ := List.append_inj h (by rw [storeLe_length, storeLe_length])
          have hlen : v.length = w.length := by
            have hload := congrArg loadLe hsize
            unfold kRecordLengthBytes at hload
            rwa [loadLe_storeLe_of_lt (ha v List.mem_cons_self),
              loadLe_storeLe_of_lt (hb w List.mem_cons_self)] at hload
          obtain ⟨rfl, htail⟩ := List.append_inj hrest hlen
          rw [ih (fun u hu => ha u (List.mem_cons_of_mem _ hu))
            (fun u hu => hb u (List.mem_cons_of_mem _ hu)) htail]

end Walk

/-! ## Headers -/

private theorem storeI64_loadI64 {bytes : Bytes} (h : bytes.length = 8) :
    storeI64 (loadI64 bytes) = bytes := by
  have hlt := loadLe_lt bytes
  rw [h] at hlt
  have hmod : (loadI64 bytes % 0x10000000000000000).toNat = loadLe bytes := by
    unfold loadI64
    split <;> omega
  unfold storeI64
  rw [hmod, ← h]
  exact storeLe_loadLe bytes

private theorem loadI64_storeI64 {v : Int} (hlo : -0x8000000000000000 ≤ v)
    (hhi : v < 0x8000000000000000) : loadI64 (storeI64 v) = v := by
  have hload : loadLe (storeI64 v) = (v % 0x10000000000000000).toNat := by
    unfold storeI64
    apply loadLe_storeLe_of_lt
    omega
  unfold loadI64
  rw [hload]
  split <;> omega

/-- A header that was read is written back as it was. -/
theorem encodeHeader_loadHeader {bytes : Bytes} (h : kBatchHeaderBytes ≤ bytes.length) :
    encodeHeader (loadHeader bytes) = bytes.take kBatchHeaderBytes := by
  have hlen : 52 ≤ bytes.length := h
  have htake : bytes.take kBatchHeaderBytes = subslice bytes 0 52 := rfl
  rw [htake, subslice_split bytes 0 8 44, subslice_split bytes 8 4 40, subslice_split bytes 12 4 36,
    subslice_split bytes 16 4 32, subslice_split bytes 20 1 31, subslice_split bytes 21 1 30,
    subslice_split bytes 22 4 26, subslice_split bytes 26 8 18, subslice_split bytes 34 8 10,
    subslice_split bytes 42 2 8, subslice_split bytes 44 4 4]
  unfold encodeHeader encodeCovered loadHeader
  dsimp only
  rw [storeLe_field (by omega), storeLe_field (by omega), storeLe_field (by omega),
    storeLe_field (by omega), storeLe_field (by omega), storeLe_field (by omega),
    storeLe_field (by omega), storeI64_loadI64 (by rw [subslice_length]; omega),
    storeLe_field (by omega), storeLe_field (by omega), storeLe_field (by omega),
    storeLe_field (by omega)]
  simp only [List.append_assoc]

/-- The values a `BatchMeta` of the source can hold. -/
structure BatchMeta.InRange (info : BatchMeta) : Prop where
  leaderEpoch : info.leaderEpoch < 0x100000000
  timestampLo : -0x8000000000000000 ≤ info.timestampMs
  timestampHi : info.timestampMs < 0x8000000000000000
  producerId : info.producerId < 0x10000000000000000
  producerEpoch : info.producerEpoch < 0x10000
  baseSequence : info.baseSequence < 0x100000000

/-- `add_record` for each of a list of records. -/
def BatchBuilder.addRecords (b : BatchBuilder) : List Bytes → Except ErrorCode BatchBuilder
  | [] => .ok b
  | v :: vs =>
      match b.addRecord v with
      | .error e => .error e
      | .ok b => b.addRecords vs

namespace BatchBuilder

private theorem addRecord_records {b b' : BatchBuilder} {v : Bytes} (h : b.addRecord v = .ok b') :
    b'.records = b.records ++ [v] := by
  unfold addRecord at h
  split at h
  · cases h
    rfl
  · cases h

private theorem addRecords_records {b b' : BatchBuilder} {records : List Bytes}
    (h : b.addRecords records = .ok b') : b'.records = b.records ++ records := by
  induction records generalizing b with
  | nil =>
      cases h
      exact (List.append_nil _).symm
  | cons v records ih =>
      unfold addRecords at h
      split at h
      · cases h
      case h_2 c hc =>
        rw [ih h, addRecord_records hc, List.append_assoc]
        rfl

variable {b : BatchBuilder} {base : Nat} {info : BatchMeta}

/-- The header that `finish` writes has room for its values. -/
theorem stamped_cut (hbase : base < 0x10000000000000000) (hinfo : info.InRange) :
    (b.stamped base info).cut = b.stamped base info := by
  have hmax := b.framedBytes_le
  have hcount := b.recordCount_lt
  unfold kMaxBatchBytes at hmax
  have hcrc : computeCrc (encodeHeader (b.header base info) ++ b.body) b.framedBytes <
      256 ^ 4 := UInt32.toNat_lt _
  have hattr : (if info.control then kAttrControl else 0) % 256 =
      if info.control then kAttrControl else 0 := by
    cases info.control <;> rfl
  have hoffset : base % 256 ^ 8 = base := Nat.mod_eq_of_lt hbase
  have hlength : (b.framedBytes - kBatchLengthPrefixBytes) % 256 ^ 4 =
      b.framedBytes - kBatchLengthPrefixBytes := Nat.mod_eq_of_lt (by omega)
  have hepoch : info.leaderEpoch % 256 ^ 4 = info.leaderEpoch := Nat.mod_eq_of_lt hinfo.leaderEpoch
  have hdelta : (b.recordCount - 1) % 256 ^ 4 = b.recordCount - 1 := Nat.mod_eq_of_lt (by omega)
  have hproducer : info.producerId % 256 ^ 8 = info.producerId := Nat.mod_eq_of_lt hinfo.producerId
  have hproducerEpoch : info.producerEpoch % 256 ^ 2 = info.producerEpoch :=
    Nat.mod_eq_of_lt hinfo.producerEpoch
  have hsequence : info.baseSequence % 256 ^ 4 = info.baseSequence :=
    Nat.mod_eq_of_lt hinfo.baseSequence
  have htime := loadI64_storeI64 hinfo.timestampLo hinfo.timestampHi
  have hmod := Nat.mod_eq_of_lt hcrc
  have hrecords := Nat.mod_eq_of_lt hcount
  unfold BatchHeader.cut stamped
  simp only [header] at hmod ⊢
  simp only [hoffset, hlength, hepoch, hattr, hmod, hdelta, htime, hproducer, hproducerEpoch,
    hsequence, hrecords]
  rfl

/-- Each record of a builder is short enough for its length field. -/
theorem record_lt {v : Bytes} (hv : v ∈ b.records) : v.length < 256 ^ 4 := by
  have hmax := b.framedBytes_le
  obtain ⟨p, q, hsplit⟩ := List.append_of_mem hv
  have hbody : b.body.length = (p.flatMap frameRecord).length + ((frameRecord v).length +
      (q.flatMap frameRecord).length) := by
    rw [body, hsplit, List.flatMap_append, List.flatMap_cons, List.length_append,
      List.length_append]
  have hframed : b.framedBytes = kBatchHeaderBytes + b.body.length := rfl
  have hrecord : (frameRecord v).length = kRecordLengthBytes + v.length := by
    rw [frameRecord, List.length_append, storeLe_length]
  unfold kMaxBatchBytes at hmax
  omega

end BatchBuilder

/-! ## The round trip -/

/-- Bytes that pass `validate_batch` are a header followed by as many records as it says,
which the iterator yields. -/
theorem validated_records {framed : Bytes} (hv : validateBatch framed = .ok ()) :
    ∃ h records, decodeHeader framed = .ok h ∧ records.length = h.recordCount ∧
      RecordIterator.Yields (RecordIterator.new framed) records ∧
      encodeHeader h ++ records.flatMap frameRecord = framed.take h.totalBytes := by
  obtain ⟨h, hd, hlen, -, -, -, -, hwalk⟩ := validateBatch_eq_ok.1 hv
  obtain ⟨hbytes, hload, -, hmin, -⟩ := decodeHeader_eq_ok.1 hd
  obtain ⟨records, hcount, hyields, hrecords⟩ := yields_of_walk hlen hmin hwalk
  refine ⟨h, records, hd, hcount, ?_, ?_⟩
  · rw [RecordIterator.new_eq hd hlen]
    exact hyields
  · have hsum : h.totalBytes = kBatchHeaderBytes + (h.totalBytes - kBatchHeaderBytes) := by omega
    rw [hrecords, ← hload, encodeHeader_loadHeader hbytes, hload]
    conv_rhs => rw [hsum, List.take_add]
    rfl

namespace BatchBuilder

variable {b : BatchBuilder} {base : Nat} {info : BatchMeta} {records : List Bytes}

/-- What `finish` writes is a valid batch with the header that was written, and the iterator
gives the records back, whatever follows the batch. -/
theorem finish_records (hb : addRecords {} records = .ok b) (hne : records ≠ [])
    (hbase : base < 0x10000000000000000) (hinfo : info.InRange) (rest : Bytes) :
    validateBatch (b.finish base info ++ rest) = .ok () ∧
      decodeHeader (b.finish base info ++ rest) = .ok (b.stamped base info) ∧
      RecordIterator.Yields (RecordIterator.new (b.finish base info ++ rest)) records := by
  have hrecords : b.records = records := addRecords_records hb
  have hne' : b.records ≠ [] := hrecords ▸ hne
  have hcut := stamped_cut (b := b) hbase hinfo
  have hd := b.decodeHeader_finish base info
  have hlen : (b.stamped base info).cut.totalBytes = (b.finish base info).length := by
    rw [b.stamped_totalBytes, b.finish_length]
  have hv : validateBatch (b.finish base info ++ rest) = .ok () := by
    rw [validateBatch_append hd hlen.le, b.validateBatch_finish hne']
  have hd' : decodeHeader (b.finish base info ++ rest) = .ok (b.stamped base info) := by
    rw [decodeHeader_append (decodeHeader_eq_ok.1 hd).1, hd, hcut]
  refine ⟨hv, hd', ?_⟩
  obtain ⟨h, yielded, hh, -, hyields, hbytes⟩ := validated_records hv
  obtain rfl : h = b.stamped base info := Except.ok.inj (hh.symm.trans hd')
  -- the bytes behind the header are those of the records
  have hbody : yielded.flatMap frameRecord = b.records.flatMap frameRecord := by
    rw [hcut] at hlen
    rw [hlen, List.take_left, finish_eq] at hbytes
    exact List.append_cancel_left hbytes
  have hyielded : ∀ v ∈ yielded, v.length < 256 ^ 4 := by
    intro v hmem
    have hmax := b.framedBytes_le
    have hframed : b.framedBytes = kBatchHeaderBytes + (yielded.flatMap frameRecord).length := by
      rw [hbody]
      rfl
    obtain ⟨p, q, rfl⟩ := List.append_of_mem hmem
    rw [List.flatMap_append, List.flatMap_cons, List.length_append, List.length_append,
      frameRecord, List.length_append] at hframed
    unfold kMaxBatchBytes at hmax
    omega
  rw [← hrecords, ← flatMap_frameRecord_injective hyielded (fun v hv => record_lt hv) hbody]
  exact hyields

/-- The round trip of the batch format.  What `finish` writes is valid, whatever follows it,
has the header that was written and yields the records; and what is valid is the encoding of
its header followed by the records it yields. -/
theorem roundTrip (hb : addRecords {} records = .ok b) (hne : records ≠ [])
    (hbase : base < 0x10000000000000000) (hinfo : info.InRange) :
    (∀ rest, validateBatch (b.finish base info ++ rest) = .ok () ∧
      ∃ h, decodeHeader (b.finish base info ++ rest) = .ok h ∧ h = b.stamped base info ∧
        h.totalBytes = b.framedBytes ∧
        h.nextOffset64 = (base + records.length) % 0x10000000000000000 ∧
        RecordIterator.Yields (RecordIterator.new (b.finish base info ++ rest)) records) ∧
    ∀ framed, validateBatch framed = .ok () →
      ∃ h yielded, decodeHeader framed = .ok h ∧ yielded.length = h.recordCount ∧
        RecordIterator.Yields (RecordIterator.new framed) yielded ∧
        encodeHeader h ++ yielded.flatMap frameRecord = framed.take h.totalBytes := by
  constructor
  · intro rest
    obtain ⟨hv, hd, hyields⟩ := finish_records hb hne hbase hinfo rest
    refine ⟨hv, _, hd, rfl, ?_, ?_, hyields⟩
    · rw [← stamped_cut (b := b) hbase hinfo, b.stamped_totalBytes]
    · have hcount : b.recordCount = records.length := by
        rw [recordCount, addRecords_records hb]
        rfl
      have hpos : 0 < records.length := List.length_pos_of_ne_nil hne
      have hnext : (b.stamped base info).nextOffset = base + records.length := by
        show base + (b.recordCount - 1) + 1 = base + records.length
        omega
      rw [BatchHeader.nextOffset64, hnext]
  · intro framed hv
    exact validated_records hv

/-- Three records, one of them empty, at the last offset of all. -/
def atTheEnd : BatchBuilder := { records := [[1], [], [2, 3]] }

private theorem atTheEnd_added : addRecords {} [[1], [], [2, 3]] = .ok atTheEnd := rfl

def lateInfo : BatchMeta := { leaderEpoch := 7, control := true, timestampMs := -1 }

private theorem lateInfo_inRange : lateInfo.InRange :=
  ⟨by decide, by decide, by decide, by decide, by decide, by decide⟩

theorem roundTrip_atTheEnd :
    validateBatch (atTheEnd.finish 0xffffffffffffffff lateInfo ++ [0, 0]) = .ok () ∧
      ∃ h, decodeHeader (atTheEnd.finish 0xffffffffffffffff lateInfo ++ [0, 0]) = .ok h ∧
        h.nextOffset64 = 2 := by
  have hbase : 0xffffffffffffffff < 0x10000000000000000 := by decide
  obtain ⟨hv, h, hd, -, -, hnext, -⟩ :=
    (roundTrip atTheEnd_added (by decide) hbase lateInfo_inRange).1 [0, 0]
  exact ⟨hv, h, hd, hnext⟩

end BatchBuilder

end LogEngine.Storage
