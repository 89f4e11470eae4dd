import LogEngine.Storage.Records

/-!
# Batches from a hostile source

The functions of `src/storage/record_batch.cpp` once more, with what C++ leaves to the
programmer made visible: a load outside the bytes and a subtraction of unsigned numbers that
would underflow have no result here (`loadAt`, `minus`).

On any bytes whatsoever they have one, and it is the one of the functions themselves
(`hostile_bytes`).  How long they run is a
matter of the bytes that are there, and not of what a field of the batch claims: a record
takes four bytes at least.
-/

namespace LogEngine.Storage

open Base Io

/-! ## Loads and subtractions -/

/-- A load of `width` bytes, which have to be there. -/
def loadAt (bytes : Bytes) (offset width : Nat) : Option Nat :=
  if offset + width ≤ bytes.length then some (field bytes offset width) else none

/-- `load_i64_le`. -/
def loadI64At (bytes : Bytes) (offset : Nat) : Option Int :=
  if offset + 8 ≤ bytes.length then some (loadI64 (subslice bytes offset 8)) else none

/-- The difference of two unsigned numbers, where it does not underflow. -/
def minus (a b : Nat) : Option Nat := if b ≤ a then some (a - b) else none

/-- A view of the bytes, which have to be there. -/
def viewAt (bytes : Bytes) (offset count : Nat) : Option Bytes :=
  if offset + count ≤ bytes.length then some (subslice bytes offset count) else none

section Primitives

variable {bytes : Bytes} {offset width a b : Nat}

private theorem loadAt_of_le (h : offset + width ≤ bytes.length) :
    loadAt bytes offset width = some (field bytes offset width) := if_pos h

private theorem loadI64At_of_le (h : offset + 8 ≤ bytes.length) :
    loadI64At bytes offset = some (loadI64 (subslice bytes offset 8)) := if_pos h

private theorem minus_of_le (h : b ≤ a) : minus a b = some (a - b) := if_pos h

private theorem viewAt_of_le (h : offset + width ≤ bytes.length) :
    viewAt bytes offset width = some (subslice bytes offset width) := if_pos h

end Primitives

/-! ## The checks -/

/-- The fields of a header, each one loaded. -/
def loadHeaderAt (bytes : Bytes) : Option BatchHeader := do
  let baseOffset ← loadAt bytes 0 8
  let batchLength ← loadAt bytes 8 4
  let crc ← loadAt bytes 12 4
  let leaderEpoch ← loadAt bytes 16 4
  let magic ← loadAt bytes 20 1
  let attributes ← loadAt bytes 21 1
  let lastOffsetDelta ← loadAt bytes 22 4
  let timestampMs ← loadI64At bytes 26
  let producerId ← loadAt bytes 34 8
  let producerEpoch ← loadAt bytes 42 2
  let baseSequence ← loadAt bytes 44 4
  let recordCount ← loadAt bytes 48 4
  return {
    baseOffset, batchLength, crc, leaderEpoch, magic, attributes, lastOffsetDelta, timestampMs,
    producerId, producerEpoch, baseSequence, recordCount }

/-- `decode_header`. -/
def decodeHeaderAt (bytes : Bytes) : Option (Except ErrorCode BatchHeader) :=
  if bytes.length < kBatchHeaderBytes then some (.error .corruptRecord)
  else do
    let h ← loadHeaderAt bytes
    if h.magic ≠ kMagicV0 then return .error .corruptRecord
    if h.totalBytes < kBatchHeaderBytes then return .error .corruptRecord
    if kMaxBatchBytes < h.totalBytes then return .error .corruptRecord
    return .ok h

/-- `compute_crc`. -/
def computeCrcAt (framed : Bytes) (total : Nat) : Option Nat := do
  let count ← minus total kCrcCoveredFrom
  let covered ← viewAt framed kCrcCoveredFrom count
  return (crc32c 0 covered).toNat

/-- The walk of `validate_batch`, with the number of records it has begun. -/
def walkRecordsAt (framed : Bytes) (total : Nat) : Nat → Nat → Option (Nat × Option Nat)
  | 0, pos => some (0, some pos)
  | count + 1, pos => do
      let left ← minus total pos
      if left < kRecordLengthBytes then return (1, none)
      let len ← loadAt framed pos 4
      let left ← minus total (pos + kRecordLengthBytes)
      if left < len then return (1, none)
      let (steps, stop) ← walkRecordsAt framed total count (pos + kRecordLengthBytes + len)
      return (steps + 1, stop)

/-- `validate_batch`, with the number of records it has begun. -/
def validateBatchAt (framed : Bytes) : Option (Nat × Except ErrorCode Unit) := do
  match ← decodeHeaderAt framed with
  | .error e => return (0, .error e)
  | .ok h =>
      if framed.length < h.totalBytes then return (0, .error .corruptRecord)
      let crc ← computeCrcAt framed h.totalBytes
      if crc ≠ h.crc then return (0, .error .corruptRecord)
      if h.recordCount = 0 then return (0, .error .corruptRecord)
      -- not zero, so this does not underflow either
      let last ← minus h.recordCount 1
      if h.lastOffsetDelta ≠ last then return (0, .error .corruptRecord)
      if h.attributes &&& kAttrCompressed ≠ 0 then return (0, .error .corruptRecord)
      let (steps, stop) ← walkRecordsAt framed h.totalBytes h.recordCount kBatchHeaderBytes
      if stop ≠ some h.totalBytes then return (steps, .error .corruptRecord)
      return (steps, .ok ())

private theorem loadHeaderAt_eq {bytes : Bytes} (h : kBatchHeaderBytes ≤ bytes.length) :
    loadHeaderAt bytes = some (loadHeader bytes) := by
  unfold kBatchHeaderBytes at h
  unfold loadHeaderAt
  rw [loadAt_of_le (by omega), loadAt_of_le (by omega), loadAt_of_le (by omega),
    loadAt_of_le (by omega), loadAt_of_le (by omega), loadAt_of_le (by omega),
    loadAt_of_le (by omega), loadI64At_of_le (by omega), loadAt_of_le (by omega),
    loadAt_of_le (by omega), loadAt_of_le (by omega), loadAt_of_le (by omega)]
  rfl

private theorem decodeHeaderAt_eq (bytes : Bytes) :
    decodeHeaderAt bytes = some (decodeHeader bytes) := by
  unfold decodeHeaderAt decodeHeader
  split
  · rfl
  · rw [loadHeaderAt_eq (by omega)]
    dsimp only [Option.bind_eq_bind, Option.bind_some]
    split
    · rfl
    split
    · rfl
    split
    · rfl
    · rfl

/-- A walk that begins inside the batch stays inside it, and begins no more records than
there is room for, and one. -/
theorem walkRecordsAt_eq {framed : Bytes} {total : Nat} (hlen : total ≤ framed.length)
    {count pos : Nat} (hpos : pos ≤ total) :
    ∃ steps, walkRecordsAt framed total count pos =
        some (steps, walkRecords framed total count pos) ∧
      steps ≤ (total - pos) / kRecordLengthBytes + 1 := by
  induction count generalizing pos with
  | zero => exact ⟨0, rfl, Nat.zero_le _⟩
  | succ count ih =>
      unfold walkRecordsAt walkRecords
      unfold kRecordLengthBytes at *
      rw [minus_of_le hpos]
      dsimp only [Option.bind_eq_bind, Option.bind_some]
      split
      · exact ⟨1, rfl, by omega⟩
      case isFalse hfits =>
      rw [loadAt_of_le (by omega), minus_of_le (by omega)]
      dsimp only [Option.bind_some]
      split
      · exact ⟨1, rfl, by omega⟩
      case isFalse hrecord =>
        have hnext : pos + 4 + field framed pos 4 ≤ total := by omega
        obtain ⟨steps, hwalk, hsteps⟩ := ih hnext
        refine ⟨steps + 1, ?_, by omega⟩
        rw [hwalk]
        rfl

private theorem computeCrcAt_eq {framed : Bytes} {total : Nat} (hmin : kBatchHeaderBytes ≤ total)
    (hlen : total ≤ framed.length) :
    computeCrcAt framed total = some (computeCrc framed total) := by
  have hcovered : kCrcCoveredFrom ≤ total := Nat.le_trans (by decide) hmin
  unfold computeCrcAt
  rw [minus_of_le hcovered]
  dsimp only [Option.bind_eq_bind, Option.bind_some]
  rw [viewAt_of_le (by omega)]
  rfl

/-- `validate_batch` has its result on any bytes, after no more records than the batch has
room for, and one, whatever its record count says. -/
theorem validateBatchAt_eq (framed : Bytes) :
    ∃ steps, validateBatchAt framed = some (steps, validateBatch framed) ∧
      ∀ h, decodeHeader framed = .ok h →
        steps ≤ (h.totalBytes - kBatchHeaderBytes) / kRecordLengthBytes + 1 := by
  unfold validateBatchAt validateBatch
  rw [decodeHeaderAt_eq]
  dsimp only [Option.bind_eq_bind, Option.bind_some]
  cases hdecode : decodeHeader framed with
  | error e => exact ⟨0, rfl, fun h hok => by cases hok⟩
  | ok h =>
      obtain ⟨-, -, -, hmin, -⟩ := decodeHeader_eq_ok.1 hdecode
      dsimp only
      split
      · exact ⟨0, rfl, fun _ _ => Nat.zero_le _⟩
      case isFalse hshort =>
      have hlen : h.totalBytes ≤ framed.length := by omega
      rw [computeCrcAt_eq hmin hlen]
      dsimp only [Option.bind_some]
      split
      · exact ⟨0, rfl, fun _ _ => Nat.zero_le _⟩
      split
      · exact ⟨0, rfl, fun _ _ => Nat.zero_le _⟩
      case isFalse hcount =>
      rw [minus_of_le (by omega)]
      dsimp only [Option.bind_some]
      split
      · exact ⟨0, rfl, fun _ _ => Nat.zero_le _⟩
      split
      · exact ⟨0, rfl, fun _ _ => Nat.zero_le _⟩
      obtain ⟨steps, hwalk, hsteps⟩ := @walkRecordsAt_eq framed _ hlen h.recordCount _ hmin
      rw [hwalk]
      dsimp only [Option.bind_some]
      refine ⟨steps, ?_, ?_⟩
      · split
        · rfl
        · rfl
      · intro h' hok
        cases hok
        exact hsteps

/-! ## The iterator -/

namespace RecordIterator

/-- The constructor. -/
def newAt (framed : Bytes) : Option RecordIterator :=
  if framed.length < kBatchHeaderBytes then some { framed := framed }
  else do
    let len ← loadAt framed 8 4
    let total := kBatchLengthPrefixBytes + len
    let total := if total < kBatchHeaderBytes then kBatchHeaderBytes else total
    return { framed := framed, stop := if total < framed.length then total else framed.length }

/-- `next`: where in the bytes the record is, and its length. -/
def nextAt (it : RecordIterator) : Option (Option (Nat × Nat) × RecordIterator) := do
  let left ← minus it.stop it.pos
  if left < kRecordLengthBytes then return (none, it)
  let len ← loadAt it.framed it.pos 4
  let it := { it with pos := it.pos + kRecordLengthBytes }
  let left ← minus it.stop it.pos
  if left < len then return (none, it)
  let _ ← viewAt it.framed it.pos len
  return (some (it.pos, len), { it with pos := it.pos + len })

/-- So many calls of `next`, whatever the calls before have returned: the records found. -/
def callsAt : Nat → RecordIterator → Option (List (Nat × Nat))
  | 0, _ => some []
  | calls + 1, it => do
      let (found, it) ← nextAt it
      let later ← callsAt calls it
      return found.toList ++ later

/-- The same calls of the iterator itself. -/
def calls : Nat → RecordIterator → List Bytes
  | 0, _ => []
  | n + 1, it => it.next.1.toList ++ calls n it.next.2

/-- What an iterator keeps: it is not behind its end, and where it is not there yet the end
is inside the bytes. -/
structure Inside (it : RecordIterator) : Prop where
  pos_le : it.pos ≤ it.stop
  stop_le : it.pos < it.stop → it.stop ≤ it.framed.length

private theorem newAt_eq (framed : Bytes) : newAt framed = some (new framed) := by
  unfold newAt new
  split
  · rfl
  case isFalse h =>
    unfold kBatchHeaderBytes at h
    rw [loadAt_of_le (by omega)]
    rfl

private theorem new_of_le {framed : Bytes} (h : kBatchHeaderBytes ≤ framed.length) :
    new framed =
      { framed := framed
        stop := min (max (kBatchLengthPrefixBytes + field framed 8 4) kBatchHeaderBytes)
          framed.length } := by
  unfold new
  rw [if_neg (by omega)]
  dsimp only
  congr 1
  split <;> split <;> omega

private theorem new_of_lt {framed : Bytes} (h : framed.length < kBatchHeaderBytes) :
    new framed = { framed := framed } := if_pos h

private theorem inside_new (framed : Bytes) : (new framed).Inside := by
  by_cases h : framed.length < kBatchHeaderBytes
  · rw [new_of_lt h]
    exact ⟨Nat.le_refl _, fun h => absurd h (Nat.lt_irrefl _)⟩
  · rw [new_of_le (by omega)]
    constructor
    · dsimp only
      omega
    · intro _
      exact Nat.min_le_right _ _

/-- One call: it is the one of the iterator, and the record it finds takes its length and
four bytes of what is left. -/
theorem Inside.next {it : RecordIterator} (hit : it.Inside) :
    ∃ found it', it.nextAt = some (found, it') ∧
      it.next = (found.map fun span => subslice it.framed span.1 span.2, it') ∧
      it'.Inside ∧ it'.framed = it.framed ∧ it'.stop = it.stop ∧ it.pos ≤ it'.pos ∧
      ∀ pos len, found = some (pos, len) →
        pos = it.pos + kRecordLengthBytes ∧ it'.pos = pos + len := by
  obtain ⟨hpos, hstop⟩ := hit
  unfold nextAt RecordIterator.next
  unfold kRecordLengthBytes at *
  rw [minus_of_le hpos]
  dsimp only [Option.bind_eq_bind, Option.bind_some]
  split
  · exact ⟨none, it, rfl, rfl, ⟨hpos, hstop⟩, rfl, rfl, Nat.le_refl _, fun _ _ h => by cases h⟩
  case isFalse hfits =>
  have hroom := hstop (by omega)
  rw [loadAt_of_le (by omega), minus_of_le (by omega)]
  dsimp only [Option.bind_some]
  split
  · refine ⟨none, _, rfl, rfl, ⟨?_, fun _ => hroom⟩, rfl, rfl, Nat.le_add_right _ _,
      fun _ _ h => by cases h⟩
    dsimp only
    omega
  case isFalse hrecord =>
    rw [viewAt_of_le (by omega)]
    refine ⟨some (it.pos + 4, field it.framed it.pos 4), _, rfl, rfl, ⟨?_, fun _ => hroom⟩, rfl,
      rfl, ?_, ?_⟩
    · dsimp only
      omega
    · dsimp only
      omega
    · intro pos len h
      cases h
      exact ⟨rfl, rfl⟩

/-- Any number of calls: the records found are those of the iterator, they are before its
end, and there are no more of them than there is room for. -/
theorem Inside.calls {n : Nat} {it : RecordIterator} (hit : it.Inside) :
    ∃ found, callsAt n it = some found ∧
      it.calls n = found.map (fun span => subslice it.framed span.1 span.2) ∧
      found.length ≤ (it.stop - it.pos) / kRecordLengthBytes ∧
      ∀ span ∈ found, it.pos < it.stop ∧ span.1 + span.2 ≤ it.stop := by
  induction n generalizing it with
  | zero =>
      refine ⟨[], rfl, rfl, Nat.zero_le _, ?_⟩
      intro span h
      cases h
  | succ n ih =>
      obtain ⟨found, it', hat, hnext, hit', hframed, hstop, hpos, hfound⟩ := hit.next
      obtain ⟨later, hlater, hcalls, hcount, hinside⟩ := ih hit'
      rw [hframed] at hcalls
      rw [hstop] at hcount hinside
      have hend := hit'.pos_le
      rw [hstop] at hend
      unfold callsAt RecordIterator.calls
      rw [hat, hnext]
      dsimp only [Option.bind_eq_bind, Option.bind_some]
      rw [hlater, hcalls]
      refine ⟨found.toList ++ later, rfl, ?_, ?_, ?_⟩
      · rw [List.map_append]
        cases found with
        | none => rfl
        | some _ => rfl
      · unfold kRecordLengthBytes at *
        cases found with
        | none =>
            have : (it.stop - it'.pos) / 4 ≤ (it.stop - it.pos) / 4 := by omega
            exact Nat.le_trans hcount this
        | some span =>
            obtain ⟨hat', hnext'⟩ := hfound span.1 span.2 rfl
            rw [List.length_append]
            simp only [Option.toList_some, List.length_cons, List.length_nil]
            omega
      · intro span h
        rw [List.mem_append] at h
        rcases h with h | h
        · rw [Option.mem_toList] at h
          obtain ⟨hat', hnext'⟩ := hfound span.1 span.2 h
          unfold kRecordLengthBytes at hat'
          omega
        · obtain ⟨hlt, hle⟩ := hinside span h
          omega

end RecordIterator

/-- Whatever the bytes are, nothing outside them is loaded and no subtraction underflows:
the checked functions have a result, the one of the functions themselves.  `validate_batch`
begins at most one record more than the batch has room for.  An iterator over the bytes,
called as often as one likes, finds no more records than fit behind the header, and each of
them lies in the bytes, and in those the length field declares. -/
theorem hostile_bytes (bytes : Bytes) :
    decodeHeaderAt bytes = some (decodeHeader bytes) ∧
    (∃ steps, validateBatchAt bytes = some (steps, validateBatch bytes) ∧
      ∀ h, decodeHeader bytes = .ok h →
        steps ≤ (h.totalBytes - kBatchHeaderBytes) / kRecordLengthBytes + 1) ∧
    ∀ n, ∃ it found, RecordIterator.newAt bytes = some it ∧ it = RecordIterator.new bytes ∧
      it.callsAt n = some found ∧
      it.calls n = found.map (fun span => subslice bytes span.1 span.2) ∧
      found.length ≤ (bytes.length - kBatchHeaderBytes) / kRecordLengthBytes ∧
      (bytes.length < kBatchHeaderBytes → found = []) ∧
      ∀ span ∈ found, span.1 + span.2 ≤ bytes.length ∧
        span.1 + span.2 ≤ kBatchLengthPrefixBytes + field bytes 8 4 := by
  refine ⟨decodeHeaderAt_eq bytes, validateBatchAt_eq bytes, ?_⟩
  intro n
  obtain ⟨found, hfound, hcalls, hcount, hinside⟩ :=
    (RecordIterator.inside_new bytes).calls (n := n)
  refine ⟨_, found, RecordIterator.newAt_eq bytes, rfl, hfound, ?_⟩
  by_cases h : bytes.length < kBatchHeaderBytes
  · rw [RecordIterator.new_of_lt h] at hcalls hcount ⊢
    obtain rfl : found = [] := by
      dsimp only at hcount
      rw [Nat.sub_self, Nat.zero_div] at hcount
      exact List.eq_nil_of_length_eq_zero (Nat.le_zero.1 hcount)
    refine ⟨hcalls, Nat.zero_le _, fun _ => rfl, ?_⟩
    intro span hmem
    cases hmem
  · rw [RecordIterator.new_of_le (by omega)] at hcalls hcount hinside ⊢
    dsimp only at hcount hinside
    refine ⟨hcalls, Nat.le_trans hcount (Nat.div_le_div_right (by omega)),
      fun hshort => absurd hshort h, ?_⟩
    intro span hmem
    obtain ⟨hlt, hle⟩ := hinside span hmem
    omega

end LogEngine.Storage
