import LogEngine.Storage.Segment
import Mathlib.Data.List.Sort

/-!
# The log

`src/storage/log.{h,cpp}`: segments in a row, the last of which takes the appends.

An operation that fails halfway may leave the log object changed, a segment rolled or
dropped, as well as the disk.  The programs here therefore run over both, `Store`.
-/

namespace LogEngine.Storage

open Base Io Io.Disk Verified.Fallible Verified.Bisection

structure EpochBoundary where
  epoch : Nat := 0
  startOffset : Nat := 0
  deriving DecidableEq, Repr

structure LogRecoveryReport where
  segmentsOpened : Nat := 0
  segmentsDiscarded : Nat := 0
  batchesScanned : Nat := 0
  bytesTruncated : Nat := 0
  truncated : Bool := false
  deriving DecidableEq, Repr

/-- `Log::Options`. -/
structure LogOptions where
  segmentMaxBytes : Nat := 0x2000000
  indexIntervalBytes : Nat := kDefaultIndexIntervalBytes
  deriving DecidableEq, Repr

def LogOptions.segment (o : LogOptions) : SegmentOptions where
  maxBytes := o.segmentMaxBytes
  indexIntervalBytes := o.indexIntervalBytes

/-- The segments are those before the active one, and the active one: there is always
a segment to append to. -/
structure Log where
  options : LogOptions := {}
  /-- The segments before the last, in order. -/
  sealed : List Segment := []
  /-- `segments_.back()`. -/
  active : Segment
  startOffset : Nat
  nextOffset : Nat
  recovery : LogRecoveryReport := {}
  deriving DecidableEq, Repr

/-- A log and the disk it lives on. -/
structure Store where
  log : Log
  disk : Disk

/-- A program that works on a log. -/
abbrev LogM := EStateM ErrorCode Store

namespace Log

/-- A program that only talks to the disk. -/
def onDisk {α : Type} (x : DiskM α) : LogM α := zoom Store.disk (fun d s => { s with disk := d }) x

/-- The log object is replaced. -/
def setLog (l : Log) : LogM Unit := fun s => .ok () { s with log := l }

/-- The log object is read. -/
def getLog : LogM Log := fun s => .ok s.log s

/-- `segments_`. -/
def segments (l : Log) : List Segment := l.sealed ++ [l.active]

/-- `Segment::parse_log_name`. -/
def parseLogName : FileName → Option Nat
  | .log baseOffset => some baseOffset
  | .index _ => none
  | .state => none

section Operations

variable [Faults]

/-- `existing_segment_offsets`. -/
def existingSegmentOffsets : DiskM (List Nat) := do
  let names ← listDirectory
  return (names.filterMap parseLogName).insertionSort (· ≤ ·)

/-- `remove_segment_files`: failures are ignored. -/
def removeSegmentFiles (baseOffset : Nat) : DiskM Unit := do
  let _ ← attempt (remove (.log baseOffset))
  let _ ← attempt (remove (.index baseOffset))
  return ()

/-- The totals of a recovery with one more segment opened. -/
def LogRecoveryReport.add (r : LogRecoveryReport) (s : RecoveryReport) :
    LogRecoveryReport :=
  { r with
    segmentsOpened := r.segmentsOpened + 1
    batchesScanned := r.batchesScanned + s.batchesScanned
    bytesTruncated := r.bytesTruncated + s.bytesTruncated
    truncated := r.truncated || s.truncated }

/-- The first loop of `recover`: segments as long as each begins where the one
before it ended and none has lost its tail.  What it returns last are the
bases that are left over. -/
def openSegments (options : SegmentOptions) :
    List Nat → List Segment → LogRecoveryReport →
      DiskM (List Segment × LogRecoveryReport × List Nat)
  | [], segments, report => return (segments, report, [])
  | base :: bases, segments, report =>
      if segments.getLast?.any fun s => base ≠ s.nextOffset then
        return (segments, report, base :: bases)
      else do
        let seg ← Segment.open base options
        let report := LogRecoveryReport.add report seg.recovery
        if seg.recovery.truncated then return (segments ++ [seg], report, bases)
        else openSegments options bases (segments ++ [seg]) report

/-- The second loop of `recover`. -/
def discardSegments : List Nat → DiskM Unit
  | [] => return ()
  | base :: bases => do
      removeSegmentFiles base
      discardSegments bases

/-- `Log::open` and `Log::recover`.  Where they fail, `~Log` also writes the sidecars of the
segments opened until then, which is left out here. -/
def «open» (options : LogOptions) : DiskM Log := do
  makeDirectories
  let bases ← existingSegmentOffsets
  let (segments, report, rest) ← openSegments options.segment bases [] {}
  discardSegments rest
  let report := { report with segmentsDiscarded := rest.length }
  match segments.getLast? with
  | none =>
      let seg ← Segment.open 0 options.segment
      pure
        { options := options
          active := seg
          startOffset := seg.baseOffset
          nextOffset := seg.nextOffset
          recovery := { report with segmentsOpened := report.segmentsOpened + 1 } }
  | some active =>
      pure
        { options := options
          sealed := segments.dropLast
          active := active
          startOffset := (segments.headD active).baseOffset
          nextOffset := active.nextOffset
          recovery := report }

/-- `roll`: the active segment is made durable before the next one is opened. -/
def roll : LogM Unit := do
  let l ← getLog
  onDisk l.active.fsync
  onDisk l.active.flushIndex
  let seg ← onDisk (Segment.open l.nextOffset l.options.segment)
  setLog { l with sealed := l.segments, active := seg }

/-- The roll that an append of `size` bytes asks for. -/
def makeRoom (size : Nat) : LogM Unit := do
  let l ← getLog
  if !l.active.empty && l.options.segmentMaxBytes - l.active.sizeBytes < size then roll
  else return ()

/-- The end of both appends: the framed batch goes to the active segment. -/
def appendFramed (framed : Bytes) (header : BatchHeader) : LogM Unit := do
  let l ← getLog
  let seg ← onDisk (l.active.append framed header)
  setLog { l with active := seg, nextOffset := header.nextOffset }

/-- The end of `append`: the batch is stamped with the next offset. -/
def appendNext (builder : BatchBuilder) (info : BatchMeta) : LogM Nat := do
  let l ← getLog
  match decodeHeader (builder.finish l.nextOffset info) with
  | .error e => throw e
  | .ok header =>
      appendFramed (builder.finish l.nextOffset info) header
      return l.nextOffset

/-- `append`: the base offset assigned. -/
def append (builder : BatchBuilder) (info : BatchMeta) : LogM Nat := do
  let l ← getLog
  if builder.empty then throw .invalidRequest else
  if l.options.segmentMaxBytes < builder.framedBytes then throw .messageTooLarge else
  makeRoom builder.framedBytes
  appendNext builder info

/-- `append_replicated`. -/
def appendReplicated (framed : Bytes) : LogM Unit := do
  let l ← getLog
  match decodeHeader framed with
  | .error e => throw e
  | .ok header =>
      if framed.length ≠ header.totalBytes then throw .invalidRequest else
      if header.baseOffset ≠ l.nextOffset then throw .invalidArgument else
      match validateBatch framed with
      | .error _ => throw .corruptRecord
      | .ok _ =>
          if l.options.segmentMaxBytes < framed.length then throw .messageTooLarge else
          makeRoom framed.length
          appendFramed framed header

/-- The loop of `truncate_to`: whole segments go, newest first, but never the
last one left. -/
def popSegments (offset : Nat) : Nat → LogM Unit
  | 0 => return ()
  | fuel + 1 => do
      let l ← getLog
      match l.sealed.getLast? with
      | none => return ()
      | some before =>
          if offset ≤ l.active.baseOffset then
            setLog { l with sealed := l.sealed.dropLast, active := before }
            onDisk (removeSegmentFiles l.active.baseOffset)
            popSegments offset fuel
          else return ()

/-- The end of `truncate_to`: the segment that straddles the cut. -/
def cutActive (offset : Nat) : LogM Unit := do
  let l ← getLog
  let seg ← onDisk (l.active.truncateTo offset)
  setLog { l with active := seg, nextOffset := seg.nextOffset }

/-- `truncate_to`. -/
def truncateTo (offset : Nat) : LogM Unit := do
  let l ← getLog
  if l.nextOffset < offset then throw .invalidArgument else
  if offset < l.startOffset then throw .invalidArgument else
  if offset = l.nextOffset then return () else
  popSegments offset l.sealed.length
  cutActive offset

/-- The headers of all segments, in order. -/
def scanSegments : List Segment → DiskM (List BatchHeader)
  | [] => return []
  | s :: rest => do
      let headers ← s.scanHeaders
      let more ← scanSegments rest
      return headers ++ more

/-- One boundary for each change of epoch. -/
def boundaries (headers : List BatchHeader) : List EpochBoundary :=
  headers.foldl
    (fun epochs h =>
      if epochs.getLast?.any fun e => e.epoch == h.leaderEpoch then epochs
      else epochs ++ [⟨h.leaderEpoch, h.baseOffset⟩]) []

/-- `scan_epochs`. -/
def scanEpochs (l : Log) : DiskM (List EpochBoundary) := do
  let headers ← scanSegments l.segments
  return boundaries headers

def fsync : LogM Unit := do
  let l ← getLog
  onDisk l.active.fsync

/-- The loop of `flush_indexes`: every segment has its turn, and the last error is the
one that counts. -/
def flushSegments : List Segment → Option ErrorCode → DiskM (Option ErrorCode)
  | [], result => return result
  | s :: rest, result => do
      match ← attempt s.flushIndex with
      | .error e => flushSegments rest (some e)
      | .ok _ => flushSegments rest result

/-- `flush_indexes`. -/
def flushIndexes : LogM Unit := do
  let l ← getLog
  match ← onDisk (flushSegments l.segments none) with
  | none => return ()
  | some e => throw e

/-- The loop of `read`: the first segment that has something to hand back. -/
def readSegments (offset capacity : Nat) : List Segment → DiskM Bytes
  | [] => return []
  | s :: rest => do
      let bytes ← s.read offset capacity
      if bytes = [] then readSegments offset capacity rest else return bytes

/-- The segments from the one before the `std::upper_bound` of `offset` on. -/
def segmentsFrom (l : Log) (offset : Nat) : List Segment :=
  l.segments.drop (partitionPoint (fun s => !decide (offset < s.baseOffset)) l.segments - 1)

/-- `read` into a buffer of `capacity` bytes. -/
def read (l : Log) (offset capacity : Nat) : DiskM Bytes :=
  if l.nextOffset ≤ offset then return []
  else if offset < l.startOffset then throw .offsetOutOfRange
  else readSegments offset capacity (l.segmentsFrom offset)

end Operations

/-! ## What the operations leave alone -/

section Frames

variable [Faults]

/-- A relation of disks that holds wherever only the file of one segment changes, and is kept
by what is done to the sidecars.  Every operation of a log keeps it. -/
structure Framed (R : Disk → Disk → Prop) : Prop where
  refl : ∀ d, R d d
  trans : ∀ {d t u}, R d t → R t u → R d u
  log : ∀ (b : Nat) {d t}, (∀ g ≠ .log b, Untouched g d t) → R d t
  flushIndex : ∀ s : Segment, Keeps R s.flushIndex
  removeIndex : ∀ b : Nat, Keeps R (remove (.index b))

namespace Framed

variable {R : Disk → Disk → Prop}

/-- A program that leaves all but the file of one segment. -/
theorem of_log {α : Type} {x : DiskM α} (hR : Framed R) (b : Nat)
    (h : ∀ g ≠ .log b, Keeps (Untouched g) x) : Keeps R x := by
  intro d
  have hall := Keeps.forall_ (fun g : { g : FileName // g ≠ .log b } => h g g.2) d
  exact hall.mono (fun _ _ ht => hR.log b fun g hg => ht ⟨g, hg⟩)
    fun _ ht => hR.log b fun g hg => ht ⟨g, hg⟩

private theorem pure {α : Type} (hR : Framed R) (a : α) : Keeps R (Pure.pure a : DiskM α) :=
  Keeps.pure hR.refl a

private theorem bind {α β : Type} (hR : Framed R) {x : DiskM α} {k : α → DiskM β} (hx : Keeps R x)
    (hk : ∀ a, Keeps R (k a)) : Keeps R (x >>= k) :=
  Keeps.bind (R := R) (fun h h' => hR.trans h h') hx hk

private theorem openSegments (hR : Framed R) (options : SegmentOptions) (bases : List Nat)
    (segments : List Segment) (report : LogRecoveryReport) :
    Keeps R (openSegments options bases segments report) := by
  induction bases generalizing segments report with
  | nil => exact hR.pure _
  | cons base bases ih =>
      unfold Log.openSegments
      have hopen := hR.of_log base fun g hg => Segment.open_untouched hg options
      exact Keeps.ite (hR.pure _) (hR.bind hopen fun _ => Keeps.ite (hR.pure _) (ih _ _))

private theorem removeSegmentFiles (hR : Framed R) (base : Nat) :
    Keeps R (removeSegmentFiles base) := by
  have hlog := hR.of_log base fun g hg => Untouched.remove hg
  exact hR.bind (Keeps.attempt hlog) fun _ =>
    hR.bind (Keeps.attempt (hR.removeIndex base)) fun _ => hR.pure _

private theorem discardSegments (hR : Framed R) (bases : List Nat) :
    Keeps R (discardSegments bases) := by
  induction bases with
  | nil => exact hR.pure _
  | cons base bases ih => exact hR.bind (hR.removeSegmentFiles base) fun _ => ih

protected theorem «open» (hR : Framed R) (options : LogOptions) : Keeps R (Log.open options) := by
  refine hR.bind (hR.of_log 0 fun _ _ => Untouched.attemptOp _) fun _ =>
    hR.bind (hR.bind (hR.of_log 0 fun _ _ => Untouched.listDirectory) fun _ => hR.pure _) fun _ =>
    hR.bind (hR.openSegments _ _ _ _) fun opened => hR.bind (hR.discardSegments _) fun _ => ?_
  cases opened.1.getLast? with
  | none =>
      exact hR.bind (hR.of_log 0 fun g hg => Segment.open_untouched hg _) fun _ => hR.pure _
  | some active => exact hR.pure _

end Framed

/-- The disks of two stores are related. -/
def OnStore (R : Disk → Disk → Prop) (s t : Store) : Prop := R s.disk t.disk

namespace OnStore

variable {R : Disk → Disk → Prop}

theorem pure {α : Type} (hR : Framed R) (a : α) : Keeps (OnStore R) (Pure.pure a : LogM α) :=
  Keeps.pure (fun s => hR.refl s.disk) a

theorem throw {α : Type} (hR : Framed R) (e : ErrorCode) :
    Keeps (OnStore R) (MonadExcept.throw e : LogM α) :=
  Keeps.throw (fun s => hR.refl s.disk) e

theorem bind {α β : Type} (hR : Framed R) {x : LogM α} {k : α → LogM β} (hx : Keeps (OnStore R) x)
    (hk : ∀ a, Keeps (OnStore R) (k a)) : Keeps (OnStore R) (x >>= k) :=
  Keeps.bind (R := OnStore R) (fun h h' => hR.trans h h') hx hk

omit [Faults] in
private theorem onDisk {α : Type} {x : DiskM α} (hx : Keeps R x) : Keeps (OnStore R) (onDisk x) :=
  hx.zoom fun _ _ h => h

private theorem getLog (hR : Framed R) : Keeps (OnStore R) Log.getLog := fun s => hR.refl s.disk

private theorem setLog (hR : Framed R) (l : Log) : Keeps (OnStore R) (Log.setLog l) :=
  fun s => hR.refl s.disk

private theorem makeRoom (hR : Framed R) (size : Nat) : Keeps (OnStore R) (makeRoom size) := by
  refine bind hR (getLog hR) fun l => Keeps.ite ?_ (pure hR _)
  refine bind hR (getLog hR) fun l => ?_
  have hsync := hR.of_log l.active.baseOffset fun g hg => Untouched.fsync hg
  have hopen := hR.of_log l.nextOffset fun g hg =>
    Segment.open_untouched hg l.options.segment
  exact bind hR (onDisk hsync) fun _ => bind hR (onDisk (hR.flushIndex _)) fun _ =>
    bind hR (onDisk hopen) fun _ => setLog hR _

private theorem appendFramed (hR : Framed R) (framed : Bytes) (header : BatchHeader) :
    Keeps (OnStore R) (appendFramed framed header) := by
  refine bind hR (getLog hR) fun l => ?_
  have happend := hR.of_log l.active.baseOffset fun g hg =>
    Segment.append_untouched hg framed header
  exact bind hR (onDisk happend) fun _ => setLog hR _

private theorem appendNext (hR : Framed R) (builder : BatchBuilder) (info : BatchMeta) :
    Keeps (OnStore R) (appendNext builder info) := by
  refine bind hR (getLog hR) fun l => ?_
  generalize builder.finish l.nextOffset info = framed
  cases decodeHeader framed with
  | error _ => exact throw hR _
  | ok header => exact bind hR (appendFramed hR _ _) fun _ => pure hR _

theorem append (hR : Framed R) (builder : BatchBuilder) (info : BatchMeta) :
    Keeps (OnStore R) (append builder info) :=
  bind hR (getLog hR) fun _ => Keeps.ite (throw hR _) (Keeps.ite (throw hR _)
    (bind hR (makeRoom hR _) fun _ => appendNext hR _ _))

theorem appendReplicated (hR : Framed R) (framed : Bytes) :
    Keeps (OnStore R) (appendReplicated framed) := by
  refine bind hR (getLog hR) fun l => ?_
  cases decodeHeader framed with
  | error _ => exact throw hR _
  | ok header =>
      refine Keeps.ite (throw hR _) (Keeps.ite (throw hR _) ?_)
      cases validateBatch framed with
      | error _ => exact throw hR _
      | ok _ =>
          exact Keeps.ite (throw hR _) (bind hR (makeRoom hR _) fun _ => appendFramed hR _ _)

private theorem popSegments (hR : Framed R) (offset fuel : Nat) :
    Keeps (OnStore R) (popSegments offset fuel) := by
  induction fuel with
  | zero => exact pure hR _
  | succ fuel ih =>
      refine bind hR (getLog hR) fun l => ?_
      cases l.sealed.getLast? with
      | none => exact pure hR _
      | some before =>
          exact Keeps.ite (bind hR (setLog hR _) fun _ =>
            bind hR (onDisk (hR.removeSegmentFiles _)) fun _ => ih) (pure hR _)

theorem truncateTo (hR : Framed R) (offset : Nat) : Keeps (OnStore R) (truncateTo offset) := by
  refine bind hR (getLog hR) fun _ => Keeps.ite (throw hR _) (Keeps.ite (throw hR _)
    (Keeps.ite (pure hR _) (bind hR (popSegments hR _ _) fun _ => bind hR (getLog hR) fun l => ?_)))
  have hcut := hR.of_log l.active.baseOffset fun g hg =>
    Segment.truncateTo_untouched (s := l.active) hg offset
  exact bind hR (onDisk hcut) fun _ => setLog hR _

theorem fsync (hR : Framed R) : Keeps (OnStore R) fsync :=
  bind hR (getLog hR) fun l =>
    onDisk (hR.of_log l.active.baseOffset fun _ hg => Untouched.fsync hg)

end OnStore

/-! ## The state file -/

/-- `raft.state` is as it was. -/
def StateUntouched (s t : Store) : Prop := Untouched .state s.disk t.disk

theorem framed_state : Framed (Untouched .state) where
  refl := Untouched.refl
  trans := Untouched.trans
  log _ _ _ h := h .state FileName.noConfusion
  flushIndex _ := Segment.flushIndex_untouched FileName.noConfusion
  removeIndex _ := Untouched.remove FileName.noConfusion

theorem open_untouched (options : LogOptions) : Keeps (Untouched .state) (Log.open options) :=
  framed_state.open options

theorem append_untouched (builder : BatchBuilder) (info : BatchMeta) :
    Keeps StateUntouched (append builder info) :=
  OnStore.append framed_state builder info

theorem fsync_untouched : Keeps StateUntouched fsync := OnStore.fsync framed_state

/-! ## Programs that only read -/

theorem scanEpochs_untouched (g : FileName) (l : Log) : Keeps (Untouched g) l.scanEpochs := by
  have key : ∀ segments, Keeps (Untouched g) (scanSegments segments) := by
    intro segments
    induction segments with
    | nil => exact Untouched.pure _
    | cons s rest ih =>
        exact Untouched.bind (Segment.scanHeaders_untouched s) fun _ =>
          Untouched.bind ih fun _ => Untouched.pure _
  exact Untouched.bind (key _) fun _ => Untouched.pure _

theorem read_untouched (g : FileName) (l : Log) (offset capacity : Nat) :
    Keeps (Untouched g) (l.read offset capacity) := by
  have key : ∀ segments, Keeps (Untouched g) (readSegments offset capacity segments) := by
    intro segments
    induction segments with
    | nil => exact Untouched.pure _
    | cons s rest ih =>
        exact Untouched.bind (Segment.read_untouched s _ _) fun _ =>
          Keeps.ite ih (Untouched.pure _)
  exact Keeps.ite (Untouched.pure _) (Keeps.ite (Untouched.throw _) (key _))

end Frames

end Log

end LogEngine.Storage
