import LogEngine.Storage.RecordBatch
import LogEngine.Storage.SparseIndex

/-!
# Segments

`src/storage/segment.{h,cpp}`.  A loop over the headers of a segment's file advances by a
header's `total_bytes`, in the 32 bits of a position; its fuel is the size of the segment.
Sizes stay below `max_bytes` and do not wrap, and so does the position of `recover`, which
checks that a batch is inside the file; the casts of a relative offset to 32 bits are kept.
-/

namespace LogEngine.Storage

open Base Io Io.Disk Verified.Fallible

/-! ## Segments -/

structure RecoveryReport where
  batchesScanned : Nat := 0
  bytesTruncated : Nat := 0
  validBytes : Nat := 0
  nextOffset : Nat := 0
  indexWasUsable : Bool := false
  truncated : Bool := false
  deriving DecidableEq, Repr

/-- `Segment::Options`. -/
structure SegmentOptions where
  maxBytes : Nat := 0x2000000
  indexIntervalBytes : Nat := kDefaultIndexIntervalBytes
  deriving DecidableEq, Repr

structure Segment where
  baseOffset : Nat
  nextOffset : Nat
  options : SegmentOptions := {}
  sizeBytes : Nat := 0
  index : SparseIndex := []
  recovery : RecoveryReport := {}
  deriving DecidableEq, Repr

/-- A position in a file after `total` more bytes. -/
def advance (pos total : Nat) : Nat := (pos + total) % 0x100000000

theorem advance_eq {pos total : Nat} (h : pos + total < 0x100000000) :
    advance pos total = pos + total :=
  Nat.mod_eq_of_lt h

/-- A relative offset as the index holds it. -/
def relative (offset baseOffset : Nat) : Nat := (offset - baseOffset) % 0x100000000

/-- The arithmetic of `recover` on offsets. -/
structure Offsets where
  /-- `base_offset_ + rel_offset`. -/
  resume : Nat → Nat → Nat
  /-- `next_offset`. -/
  next : BatchHeader → Nat
  /-- The offset relative to the base, in the 32 bits of an index entry. -/
  relative : Nat → Nat → Nat

/-- Offsets that do not wrap: the arithmetic of logs whose offsets stay below 2^64. -/
def Offsets.unbounded : Offsets where
  resume baseOffset relOffset := baseOffset + relOffset
  next := BatchHeader.nextOffset
  relative := Storage.relative

/-- Offsets in the 64 bits of the source. -/
def Offsets.wrapping : Offsets where
  resume baseOffset relOffset := (baseOffset + relOffset) % 0x10000000000000000
  next := BatchHeader.nextOffset64
  relative offset baseOffset := (offset + 0x10000000000000000 - baseOffset) % 0x100000000

namespace Segment

def logFile (s : Segment) : FileName := .log s.baseOffset

def indexFile (s : Segment) : FileName := .index s.baseOffset

def empty (s : Segment) : Bool := s.sizeBytes == 0

section Operations

variable [Faults]

/-- The first step of `recover`: the index, as far as it can be read. -/
def readIndex (baseOffset fileSize : Nat) : DiskM SparseIndex := do
  match ← attempt (openRead (.index baseOffset)) with
  | .error _ => return []
  | .ok _ =>
      match ← attempt (Disk.size (.index baseOffset)) with
      | .error _ => return []
      | .ok indexSize =>
          if indexSize = 0 then return [] else
          match ← attempt (pread (.index baseOffset) indexSize 0) with
          | .error _ => return []
          | .ok bytes => return SparseIndex.decode bytes fileSize

/-- Does a batch that fits the entry begin where the entry says? -/
def usable (o : Offsets) (baseOffset : Nat) (candidate : IndexEntry)
    (got : Except ErrorCode Bytes) : Bool :=
  match got with
  | .error _ => false
  | .ok bytes =>
      bytes.length == kBatchHeaderBytes &&
        match decodeHeader bytes with
        | .error _ => false
        | .ok h => h.baseOffset == o.resume baseOffset candidate.relOffset

/-- The second step of `recover`: the last entry that holds, and the index up to it;
`fuel` bounds the entries still to be tried. -/
def pickStart (o : Offsets) (baseOffset : Nat) :
    Nat → SparseIndex → DiskM (SparseIndex × Option IndexEntry)
  | 0, index => return (index, none)
  | fuel + 1, index =>
      match index.getLast? with
      | none => return (index, none)
      | some candidate => do
          let got ← attempt (pread (.log baseOffset) kBatchHeaderBytes candidate.filePos)
          if usable o baseOffset candidate got then return (index, some candidate)
          else pickStart o baseOffset fuel (index.truncateFrom candidate.filePos)

/-- Where the third step of `recover` has got to. -/
structure Scan where
  pos : Nat
  expectOffset : Nat
  index : SparseIndex
  batches : Nat := 0
  deriving DecidableEq, Repr

/-- What `recover` reads at one position: the header of a batch that is whole, valid
and next in line; `none` ends the scan. -/
def scanBatch (baseOffset fileSize pos expectOffset : Nat) : DiskM (Option BatchHeader) := do
  let bytes ← pread (.log baseOffset) kBatchHeaderBytes pos
  if bytes.length < kBatchHeaderBytes then return none else
  match decodeHeader bytes with
  | .error _ => return none
  | .ok h =>
      if fileSize - pos < h.totalBytes then return none else
      let body ← pread (.log baseOffset) h.totalBytes pos
      if body.length < h.totalBytes then return none else
      match validateBatch body with
      | .error _ => return none
      | .ok _ => if h.baseOffset ≠ expectOffset then return none else return some h

/-- The third step of `recover`: forward over valid batches. -/
def scanForward (o : Offsets) (baseOffset interval fileSize : Nat) : Nat → Scan → DiskM Scan
  | 0, s => return s
  | fuel + 1, s =>
      if fileSize ≤ s.pos then return s
      else do
        match ← scanBatch baseOffset fileSize s.pos s.expectOffset with
        | none => return s
        | some h =>
            scanForward o baseOffset interval fileSize fuel
              { pos := s.pos + h.totalBytes
                expectOffset := o.next h
                index := s.index.maybeAdd (o.relative h.baseOffset baseOffset) s.pos interval
                batches := s.batches + 1 }

/-- The last step of `recover`: what the scan did not reach is cut off. -/
def settle (baseOffset fileSize : Nat) (options : SegmentOptions) (usable : Bool)
    (s : Scan) : DiskM Segment := do
  let seg : Segment :=
    { baseOffset := baseOffset
      nextOffset := s.expectOffset
      options := options
      sizeBytes := s.pos
      index := s.index
      recovery :=
        { batchesScanned := s.batches
          validBytes := s.pos
          nextOffset := s.expectOffset
          indexWasUsable := usable } }
  if s.pos < fileSize then
    truncate (.log baseOffset) s.pos
    return { seg with
      index := s.index.truncateFrom s.pos
      recovery := { seg.recovery with truncated := true, bytesTruncated := fileSize - s.pos } }
  else return seg

/-- `Segment::open` and `Segment::recover`. -/
def openIn (o : Offsets) (baseOffset : Nat) (options : SegmentOptions) : DiskM Segment := do
  openCreate (.log baseOffset)
  let fileSize ← Disk.size (.log baseOffset)
  if options.maxBytes < fileSize then throw .corruptRecord else
  let index ← readIndex baseOffset fileSize
  let (index, start) ← pickStart o baseOffset index.length index
  let scan ← scanForward o baseOffset options.indexIntervalBytes fileSize fileSize
    { pos := start.elim 0 IndexEntry.filePos
      expectOffset := start.elim baseOffset fun e => o.resume baseOffset e.relOffset
      index := index }
  settle baseOffset fileSize options start.isSome scan

/-- `Segment::open` on a log whose offsets stay below 2^64. -/
def «open» (baseOffset : Nat) (options : SegmentOptions) : DiskM Segment :=
  openIn .unbounded baseOffset options

def append (s : Segment) (framed : Bytes) (header : BatchHeader) : DiskM Segment := do
  if header.baseOffset ≠ s.nextOffset then throw .invalidArgument else
  if s.options.maxBytes - s.sizeBytes < framed.length then throw .messageTooLarge else
  let written ← pwrite s.logFile framed s.sizeBytes
  if written ≠ framed.length then throw .ioError else
  return { s with
    index := s.index.maybeAdd (relative header.baseOffset s.baseOffset) s.sizeBytes
      s.options.indexIntervalBytes
    sizeBytes := s.sizeBytes + framed.length
    nextOffset := header.nextOffset }

def fsync (s : Segment) : DiskM Unit := Disk.fsync s.logFile

/-- One header of a walk through the segment: too few bytes, or bytes that are no
header, are corruption; a refused read is not. -/
def readHeader (s : Segment) (pos : Nat) : DiskM BatchHeader := do
  let bytes ← pread s.logFile kBatchHeaderBytes pos
  if bytes.length < kBatchHeaderBytes then throw .corruptRecord else
  match decodeHeader bytes with
  | .error _ => throw .corruptRecord
  | .ok h => return h

/-- The first loop of `read`: the position of the batch that holds `want` and the
batch's size, or no batch. -/
def findBatch (s : Segment) (want : Nat) : Nat → Nat → DiskM (Option (Nat × Nat))
  | 0, _ => return none
  | fuel + 1, pos =>
      if s.sizeBytes ≤ pos then return none
      else do
        let h ← s.readHeader pos
        if want < h.nextOffset then return some (pos, h.totalBytes)
        else s.findBatch want fuel (advance pos h.totalBytes)

/-- The second loop of `read`: how many of the bytes are whole batches. -/
def wholeBatches (bytes : Bytes) : Nat → Nat → Except ErrorCode Nat
  | 0, whole => .ok whole
  | fuel + 1, whole =>
      if bytes.length < whole + kBatchHeaderBytes then .ok whole
      else
        match decodeHeader (bytes.drop whole) with
        | .error _ => .error .corruptRecord
        | .ok h =>
            if bytes.length < whole + h.totalBytes then .ok whole
            else
              match validateBatch (bytes.drop whole) with
              | .error _ => .error .corruptRecord
              | .ok _ => wholeBatches bytes fuel (whole + h.totalBytes)

/-- `read` into a buffer of `capacity` bytes: the bytes it hands back. -/
def read (s : Segment) (offset capacity : Nat) : DiskM Bytes := do
  if s.nextOffset ≤ offset then return [] else
  let want := max offset s.baseOffset
  let start := (s.index.lookup (relative want s.baseOffset)).filePos
  match ← s.findBatch want s.sizeBytes start with
  | none => return []
  | some (pos, firstTotal) =>
      if capacity < firstTotal then throw .messageTooLarge else
      let bytes ← pread s.logFile (min (s.sizeBytes - pos) capacity) pos
      match wholeBatches bytes bytes.length 0 with
      | .error e => throw e
      | .ok whole => return bytes.take whole

/-- The loop of `scan_headers` that visits every header. -/
def scanHeadersFrom (s : Segment) : Nat → Nat → DiskM (List BatchHeader)
  | 0, _ => return []
  | fuel + 1, pos =>
      if s.sizeBytes ≤ pos then return []
      else do
        let h ← s.readHeader pos
        let rest ← s.scanHeadersFrom fuel (advance pos h.totalBytes)
        return h :: rest

/-- `scan_headers`. -/
def scanHeaders (s : Segment) : DiskM (List BatchHeader) := s.scanHeadersFrom s.sizeBytes 0

/-- The loop of `truncate_to`: the position of the batch that begins at `offset`. -/
def findCut (s : Segment) (offset : Nat) : Nat → Nat → DiskM Nat
  | 0, _ => throw .invalidArgument
  | fuel + 1, pos =>
      if s.sizeBytes ≤ pos then throw .invalidArgument
      else do
        let h ← s.readHeader pos
        if h.baseOffset = offset then return pos else
        if offset < h.baseOffset then throw .invalidArgument else
        s.findCut offset fuel (advance pos h.totalBytes)

/-- Where `truncate_to` cuts the file. -/
def cutAt (s : Segment) (offset : Nat) : DiskM Nat :=
  if offset ≤ s.baseOffset then pure 0
  else s.findCut offset s.sizeBytes (s.index.lookup (relative offset s.baseOffset)).filePos

/-- `truncate_to`. -/
def truncateTo (s : Segment) (offset : Nat) : DiskM Segment := do
  if s.nextOffset ≤ offset then return s else
  let cut ← s.cutAt offset
  truncate s.logFile cut
  return { s with
    sizeBytes := cut, nextOffset := offset, index := s.index.truncateFrom cut }

/-- `flush_index`. -/
def flushIndex (s : Segment) : DiskM Unit := do
  openCreate s.indexFile
  truncate s.indexFile 0
  if s.index.encode = [] then return () else
  let _ ← pwrite s.indexFile s.index.encode 0
  return ()

end Operations

/-! ## What the operations leave alone -/

section Frames

variable [Faults] {g : FileName}

theorem readIndex_untouched (baseOffset fileSize : Nat) :
    Keeps (Untouched g) (readIndex baseOffset fileSize) := by
  refine Untouched.bind (Keeps.attempt (Untouched.openRead _)) fun opened => ?_
  cases opened with
  | error _ => exact Untouched.pure _
  | ok _ =>
      refine Untouched.bind (Keeps.attempt (Untouched.size _)) fun size => ?_
      cases size with
      | error _ => exact Untouched.pure _
      | ok n =>
          refine Keeps.ite (Untouched.pure _)
            (Untouched.bind (Keeps.attempt (Untouched.pread _ _ _)) fun bytes => ?_)
          cases bytes with
          | error _ => exact Untouched.pure _
          | ok _ => exact Untouched.pure _

theorem pickStart_untouched (o : Offsets) (baseOffset fuel : Nat) (index : SparseIndex) :
    Keeps (Untouched g) (pickStart o baseOffset fuel index) := by
  induction fuel generalizing index with
  | zero => exact Untouched.pure _
  | succ fuel ih =>
      unfold pickStart
      cases index.getLast? with
      | none => exact Untouched.pure _
      | some candidate =>
          exact Untouched.bind (Keeps.attempt (Untouched.pread _ _ _)) fun _ =>
            Keeps.ite (Untouched.pure _) (ih _)

private theorem scanBatch_untouched (baseOffset fileSize pos expectOffset : Nat) :
    Keeps (Untouched g) (scanBatch baseOffset fileSize pos expectOffset) := by
  refine Untouched.bind (Untouched.pread _ _ _) fun bytes =>
    Keeps.ite (Untouched.pure _) ?_
  cases decodeHeader bytes with
  | error _ => exact Untouched.pure _
  | ok h =>
      refine Keeps.ite (Untouched.pure _) (Untouched.bind (Untouched.pread _ _ _)
        fun body => Keeps.ite (Untouched.pure _) ?_)
      cases validateBatch body with
      | error _ => exact Untouched.pure _
      | ok _ => exact Keeps.ite (Untouched.pure _) (Untouched.pure _)

theorem scanForward_untouched (o : Offsets) (baseOffset interval fileSize fuel : Nat)
    (scan : Scan) : Keeps (Untouched g) (scanForward o baseOffset interval fileSize fuel scan) := by
  induction fuel generalizing scan with
  | zero => exact Untouched.pure _
  | succ fuel ih =>
      unfold scanForward
      refine Keeps.ite (Untouched.pure _)
        (Untouched.bind (scanBatch_untouched _ _ _ _) fun found => ?_)
      cases found with
      | none => exact Untouched.pure _
      | some h => exact ih _

theorem open_untouched {baseOffset : Nat} (hg : g ≠ .log baseOffset)
    (options : SegmentOptions) : Keeps (Untouched g) (Segment.open baseOffset options) := by
  refine Untouched.bind (Untouched.openCreate hg) fun _ =>
    Untouched.bind (Untouched.size _) fun fileSize => Keeps.ite (Untouched.throw _)
    (Untouched.bind (readIndex_untouched _ _) fun index =>
    Untouched.bind (pickStart_untouched _ _ _ _) fun start =>
    Untouched.bind (scanForward_untouched _ _ _ _ _ _) fun scan => ?_)
  unfold settle
  exact Keeps.ite (Untouched.bind (Untouched.truncate hg _) fun _ => Untouched.pure _)
    (Untouched.pure _)

variable {s : Segment}

theorem append_untouched (hg : g ≠ s.logFile) (framed : Bytes) (header : BatchHeader) :
    Keeps (Untouched g) (s.append framed header) :=
  Keeps.ite (Untouched.throw _) (Keeps.ite (Untouched.throw _)
    (Untouched.bind (Untouched.pwrite hg _ _) fun _ =>
      Keeps.ite (Untouched.throw _) (Untouched.pure _)))

private theorem readHeader_untouched (s : Segment) (pos : Nat) :
    Keeps (Untouched g) (s.readHeader pos) := by
  refine Untouched.bind (Untouched.pread _ _ _) fun bytes =>
    Keeps.ite (Untouched.throw _) ?_
  cases decodeHeader bytes with
  | error _ => exact Untouched.throw _
  | ok h => exact Untouched.pure _

private theorem findBatch_untouched (s : Segment) (want fuel pos : Nat) :
    Keeps (Untouched g) (s.findBatch want fuel pos) := by
  induction fuel generalizing pos with
  | zero => exact Untouched.pure _
  | succ fuel ih =>
      unfold findBatch
      exact Keeps.ite (Untouched.pure _) (Untouched.bind (readHeader_untouched _ _) fun _ =>
        Keeps.ite (Untouched.pure _) (ih _))

theorem read_untouched (s : Segment) (offset capacity : Nat) :
    Keeps (Untouched g) (s.read offset capacity) := by
  refine Keeps.ite (Untouched.pure _)
    (Untouched.bind (findBatch_untouched _ _ _ _) fun found => ?_)
  cases found with
  | none => exact Untouched.pure _
  | some p =>
      refine Keeps.ite (Untouched.throw _)
        (Untouched.bind (Untouched.pread _ _ _) fun bytes => ?_)
      cases wholeBatches bytes bytes.length 0 with
      | error _ => exact Untouched.throw _
      | ok _ => exact Untouched.pure _

theorem scanHeaders_untouched (s : Segment) : Keeps (Untouched g) s.scanHeaders := by
  have key : ∀ fuel pos, Keeps (Untouched g) (s.scanHeadersFrom fuel pos) := by
    intro fuel
    induction fuel with
    | zero => exact fun _ => Untouched.pure _
    | succ fuel ih =>
        intro pos
        unfold scanHeadersFrom
        exact Keeps.ite (Untouched.pure _) (Untouched.bind (readHeader_untouched _ _) fun _ =>
          Untouched.bind (ih _) fun _ => Untouched.pure _)
  exact key _ _

private theorem findCut_untouched (s : Segment) (offset fuel pos : Nat) :
    Keeps (Untouched g) (s.findCut offset fuel pos) := by
  induction fuel generalizing pos with
  | zero => exact Untouched.throw _
  | succ fuel ih =>
      unfold findCut
      exact Keeps.ite (Untouched.throw _) (Untouched.bind (readHeader_untouched _ _) fun _ =>
        Keeps.ite (Untouched.pure _) (Keeps.ite (Untouched.throw _) (ih _)))

theorem truncateTo_untouched (hg : g ≠ s.logFile) (offset : Nat) :
    Keeps (Untouched g) (s.truncateTo offset) :=
  Keeps.ite (Untouched.pure _)
    (Untouched.bind (Keeps.ite (Untouched.pure _) (findCut_untouched _ _ _ _)) fun _ =>
      Untouched.bind (Untouched.truncate hg _) fun _ => Untouched.pure _)

theorem flushIndex_untouched (hg : g ≠ s.indexFile) : Keeps (Untouched g) s.flushIndex :=
  Untouched.bind (Untouched.openCreate hg) fun _ =>
    Untouched.bind (Untouched.truncate hg _) fun _ => Keeps.ite (Untouched.pure _)
      (Untouched.bind (Untouched.pwrite hg _ _) fun _ => Untouched.pure _)

end Frames

end Segment

end LogEngine.Storage
