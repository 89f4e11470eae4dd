import LogEngine.Storage.Progress
import LogEngine.Verified.Blindness

/-!
# The log of a leader and the log of a follower

A leader appends what a builder has gathered, a follower the framed bytes that it was sent.
These are two functions of `src/storage/log.cpp` with their own checks, and both have to
build the same log.

The argument has two parts.  From one and the same state, `append_replicated` of the bytes
that `append` wrote leads to the same state (`appendReplicated_of_append`).  And the states of
two brokers differ in what no function of the log looks at: the other files of the
directory, and how often the disk has been used (`Alongside`).  On disks that refuse nothing
every function of the log is blind to that.
-/

namespace LogEngine.Storage

open Base Io Io.Disk Verified.Fallible Verified.Tiling Verified.Framing

/-! ## What a log looks at -/

/-- Two disks with the same segments and sidecars. -/
def Alongside (d d' : Disk) : Prop := ∀ f, f ≠ .state → d.file f = d'.file f

namespace Alongside

variable {d d' : Disk}

private theorem of_file (h : Alongside d d') {e e' : Disk} (he : e.file = d.file)
    (he' : e'.file = d'.file) : Alongside e e' := by
  intro f hf
  rw [he, he']
  exact h f hf

private theorem put (h : Alongside d d') (f : FileName) (x : File) :
    Alongside (d.put f x) (d'.put f x) := by
  intro g hg
  rw [file_put, file_put, Function.update_apply, Function.update_apply, h g hg]

private theorem erase (h : Alongside d d') (f : FileName) :
    Alongside { d with files := d.files.erase f } { d' with files := d'.files.erase f } := by
  intro g hg
  rw [file_erase, file_erase, Function.update_apply, Function.update_apply, h g hg]

end Alongside

section Blind

variable [Faults]

/-- On a disk that refuses nothing, an operation is carried out. -/
theorem attemptOp_ok (hno : ∀ op, ¬ Refuses op) (op : Operation) (d : Disk) :
    attemptOp op d = .ok () { d with clock := d.clock + 1 } := by
  unfold attemptOp
  dsimp only
  rw [if_neg fun h => hno op ⟨_, h⟩]

namespace Disk

variable (hno : ∀ op, ¬ Refuses op) {f : FileName} (hf : f ≠ .state)

include hno in
private theorem attemptOp_blind (op : Operation) : Blind Alongside (attemptOp op) := by
  intro d d' h
  rw [attemptOp_ok hno, attemptOp_ok hno]
  exact .ok () (h.of_file rfl rfl)

include hf in
omit [Faults] in
private theorem resolve_blind : Blind Alongside (resolve f) := by
  intro d d' h
  unfold resolve
  rw [← h f hf]
  cases d.file f with
  | none => exact .error _ h
  | some x => exact .ok x h

omit [Faults] in
private theorem store_blind (f : FileName) (x : File) : Blind Alongside (store f x) :=
  fun _ _ h => .ok () (h.put f x)

include hno hf

private theorem openCreate_blind : Blind Alongside (openCreate f) := by
  refine (attemptOp_blind hno _).bind fun _ => (resolve_blind hf).attempt.bind fun found => ?_
  cases found with
  | ok _ => exact .pure _
  | error _ => exact store_blind f {}

private theorem openRead_blind : Blind Alongside (openRead f) :=
  (attemptOp_blind hno _).bind fun _ => (resolve_blind hf).bind fun _ => .pure _

private theorem pread_blind (count offset : Nat) : Blind Alongside (pread f count offset) :=
  (resolve_blind hf).bind fun _ => (attemptOp_blind hno _).bind fun _ => .pure _

private theorem fsync_blind : Blind Alongside (Disk.fsync f) :=
  (resolve_blind hf).bind fun _ => (attemptOp_blind hno _).bind fun _ => store_blind f _

private theorem truncate_blind (size : Nat) : Blind Alongside (truncate f size) :=
  (resolve_blind hf).bind fun _ => (attemptOp_blind hno _).bind fun _ =>
    .ite (.throw _) (store_blind f _)

private theorem size_blind : Blind Alongside (Disk.size f) :=
  (resolve_blind hf).bind fun _ => (attemptOp_blind hno _).bind fun _ => .pure _

private theorem remove_blind : Blind Alongside (remove f) :=
  (attemptOp_blind hno _).bind fun _ => (resolve_blind hf).bind fun _ =>
    fun _ _ h => .ok _ (h.erase f)

/-- `pwrite` looks at the clock only where it is refused. -/
theorem pwrite_blind (data : Bytes) (offset : Nat) : Blind Alongside (pwrite f data offset) := by
  refine (resolve_blind hf).bind fun x d d' h => ?_
  have hcarried : Blind Alongside (if data = [] then (pure 0 : DiskM Nat) else
      if kMaxFileBytes < offset + data.length then throw .invalidArgument else do
        store f (x.write offset data)
        return data.length) :=
    .ite (.pure _) (.ite (.throw _) ((store_blind f _).bind fun _ => .pure _))
  have hget : ∀ e : Disk, (get : DiskM Disk) e = .ok e e := fun _ => rfl
  rw [bind_of_ok (hget d), bind_of_ok (hget d'),
    bind_of_ok (attempt_of_ok (attemptOp_ok hno .pwrite d)),
    bind_of_ok (attempt_of_ok (attemptOp_ok hno .pwrite d'))]
  exact hcarried _ _ (h.of_file rfl rfl)

end Disk

namespace Segment

variable (hno : ∀ op, ¬ Refuses op)

include hno

private theorem readIndex_blind (baseOffset fileSize : Nat) :
    Blind Alongside (readIndex baseOffset fileSize) := by
  have hfile : FileName.index baseOffset ≠ .state := FileName.noConfusion
  refine (Disk.openRead_blind hno hfile).attempt.bind fun opened => ?_
  cases opened with
  | error _ => exact .pure _
  | ok _ =>
      refine (Disk.size_blind hno hfile).attempt.bind fun size => ?_
      cases size with
      | error _ => exact .pure _
      | ok n =>
          refine .ite (.pure _) ((Disk.pread_blind hno hfile _ _).attempt.bind fun bytes => ?_)
          cases bytes with
          | error _ => exact .pure _
          | ok _ => exact .pure _

private theorem pickStart_blind (o : Offsets) (baseOffset fuel : Nat) (index : SparseIndex) :
    Blind Alongside (pickStart o baseOffset fuel index) := by
  induction fuel generalizing index with
  | zero => exact .pure _
  | succ fuel ih =>
      unfold pickStart
      cases index.getLast? with
      | none => exact .pure _
      | some candidate =>
          exact (Disk.pread_blind hno FileName.noConfusion _ _).attempt.bind fun _ =>
            .ite (.pure _) (ih _)

private theorem scanBatch_blind (baseOffset fileSize pos expectOffset : Nat) :
    Blind Alongside (scanBatch baseOffset fileSize pos expectOffset) := by
  have hfile : FileName.log baseOffset ≠ .state := FileName.noConfusion
  refine (Disk.pread_blind hno hfile _ _).bind fun bytes => .ite (.pure _) ?_
  cases decodeHeader bytes with
  | error _ => exact .pure _
  | ok h =>
      refine .ite (.pure _) ((Disk.pread_blind hno hfile _ _).bind fun body =>
        .ite (.pure _) ?_)
      cases validateBatch body with
      | error _ => exact .pure _
      | ok _ => exact .ite (.pure _) (.pure _)

private theorem scanForward_blind (o : Offsets)
    (baseOffset interval fileSize fuel : Nat) (scan : Scan) :
    Blind Alongside (scanForward o baseOffset interval fileSize fuel scan) := by
  induction fuel generalizing scan with
  | zero => exact .pure _
  | succ fuel ih =>
      unfold scanForward
      refine .ite (.pure _) ((scanBatch_blind hno _ _ _ _).bind fun found => ?_)
      cases found with
      | none => exact .pure _
      | some h => exact ih _

private theorem open_blind (baseOffset : Nat) (options : SegmentOptions) :
    Blind Alongside (Segment.open baseOffset options) := by
  have hfile : FileName.log baseOffset ≠ .state := FileName.noConfusion
  refine (Disk.openCreate_blind hno hfile).bind fun _ => (Disk.size_blind hno hfile).bind
    fun fileSize => .ite (.throw _) ((readIndex_blind hno _ _).bind fun index =>
    (pickStart_blind hno _ _ _ _).bind fun start => (scanForward_blind hno _ _ _ _ _ _).bind
    fun scan => ?_)
  unfold settle
  exact .ite ((Disk.truncate_blind hno hfile _).bind fun _ => .pure _) (.pure _)

variable (s : Segment)

private theorem append_blind (framed : Bytes) (header : BatchHeader) :
    Blind Alongside (s.append framed header) :=
  .ite (.throw _) (.ite (.throw _) ((Disk.pwrite_blind hno FileName.noConfusion _ _).bind fun _ =>
    .ite (.throw _) (.pure _)))

private theorem readHeader_blind (pos : Nat) : Blind Alongside (s.readHeader pos) := by
  refine (Disk.pread_blind hno FileName.noConfusion _ _).bind fun bytes => .ite (.throw _) ?_
  cases decodeHeader bytes with
  | error _ => exact .throw _
  | ok h => exact .pure _

private theorem scanHeaders_blind : Blind Alongside s.scanHeaders := by
  have key : ∀ fuel pos, Blind Alongside (s.scanHeadersFrom fuel pos) := by
    intro fuel
    induction fuel with
    | zero => exact fun _ => .pure _
    | succ fuel ih =>
        intro pos
        unfold scanHeadersFrom
        exact .ite (.pure _) ((readHeader_blind hno s _).bind fun _ => (ih _).bind fun _ => .pure _)
  exact key _ _

private theorem flushIndex_blind : Blind Alongside s.flushIndex :=
  (Disk.openCreate_blind hno FileName.noConfusion).bind fun _ =>
    (Disk.truncate_blind hno FileName.noConfusion _).bind fun _ => .ite (.pure _)
      ((Disk.pwrite_blind hno FileName.noConfusion _ _).bind fun _ => .pure _)

end Segment

/-! ## Logs side by side -/

omit [Faults] in
/-- Two logs that are the same object on disks with the same segments. -/
structure Store.Alongside (s s' : Store) : Prop where
  log : s.log = s'.log
  disk : Storage.Alongside s.disk s'.disk

omit [Faults] in
theorem Store.Alongside.intact {s s' : Store} (h : s.Alongside s') (hi : s.view.Intact) :
    s'.view.Intact := by
  obtain ⟨l, d⟩ := s
  obtain ⟨l', d'⟩ := s'
  obtain rfl : l = l' := h.log
  have hfile : ∀ b, d'.file (.log b) = d.file (.log b) :=
    fun b => (h.disk (.log b) FileName.noConfusion).symm
  apply hi.congr
  · exact fun g _ => hfile g.baseOffset
  · exact fun b hb x hx => hi.strays b hb x ((hfile b).symm.trans hx)

namespace Log

omit [Faults] in
private theorem onDisk_blind {α : Type} {x : DiskM α} (hx : Blind Alongside x) :
    Blind Store.Alongside (onDisk x) :=
  hx.zoom (fun _ _ h => h.disk) fun _ _ _ _ h hdisk => ⟨h.log, hdisk⟩

omit [Faults] in
private theorem getLog_blind : Blind Store.Alongside getLog := by
  rintro ⟨l, d⟩ ⟨l', d'⟩ ⟨rfl, h⟩
  exact .ok l ⟨rfl, h⟩

omit [Faults] in
private theorem setLog_blind (l : Log) : Blind Store.Alongside (setLog l) :=
  fun _ _ h => .ok () ⟨rfl, h.disk⟩

variable (hno : ∀ op, ¬ Refuses op)

include hno

private theorem roll_blind : Blind Store.Alongside roll :=
  getLog_blind.bind fun l =>
    (onDisk_blind (Disk.fsync_blind hno FileName.noConfusion)).bind fun _ =>
    (onDisk_blind (Segment.flushIndex_blind hno l.active)).bind fun _ =>
    (onDisk_blind (Segment.open_blind hno _ _)).bind fun _ => setLog_blind _

private theorem makeRoom_blind (size : Nat) : Blind Store.Alongside (makeRoom size) :=
  getLog_blind.bind fun _ => .ite (roll_blind hno) (.pure _)

private theorem appendFramed_blind (framed : Bytes) (header : BatchHeader) :
    Blind Store.Alongside (appendFramed framed header) :=
  getLog_blind.bind fun l => (onDisk_blind (l.active.append_blind hno framed header)).bind
    fun _ => setLog_blind _

private theorem appendReplicated_blind (framed : Bytes) :
    Blind Store.Alongside (appendReplicated framed) := by
  refine getLog_blind.bind fun l => ?_
  cases decodeHeader framed with
  | error e => exact .throw e
  | ok header =>
      refine .ite (.throw _) (.ite (.throw _) ?_)
      cases validateBatch framed with
      | error _ => exact .throw _
      | ok _ =>
          exact .ite (.throw _) ((makeRoom_blind hno _).bind fun _ =>
            appendFramed_blind hno framed header)

private theorem scanEpochs_blind (l : Log) : Blind Alongside l.scanEpochs := by
  have key : ∀ segments, Blind Alongside (scanSegments segments) := by
    intro segments
    induction segments with
    | nil => exact .pure _
    | cons s rest ih =>
        exact (s.scanHeaders_blind hno).bind fun _ => ih.bind fun _ => .pure _
  exact (key _).bind fun _ => .pure _

/-- The segments are listed in order, wherever the directory has them. -/
theorem existingSegmentOffsets_blind : Blind Alongside existingSegmentOffsets := by
  intro d d' h
  obtain ⟨bases, t, hd, ht, hsorted, hmem⟩ :=
    (existingSegmentOffsets_sat d).exists_ok fun _ hr => hno _ hr.2
  obtain ⟨bases', t', hd', ht', hsorted', hmem'⟩ :=
    (existingSegmentOffsets_sat d').exists_ok fun _ hr => hno _ hr.2
  obtain rfl : bases = bases' := by
    apply hsorted.eq_of_mem_iff hsorted'
    intro b
    rw [hmem, hmem', h (.log b) FileName.noConfusion]
  rw [hd, hd']
  exact .ok bases (h.of_file ht ht')

private theorem openSegments_blind (options : SegmentOptions) (bases : List Nat)
    (segments : List Segment)
    (report : LogRecoveryReport) :
    Blind Alongside (openSegments options bases segments report) := by
  induction bases generalizing segments report with
  | nil => exact .pure _
  | cons base bases ih =>
      unfold openSegments
      exact .ite (.pure _) ((Segment.open_blind hno base options).bind fun _ =>
        .ite (.pure _) (ih _ _))

private theorem discardSegments_blind (bases : List Nat) :
    Blind Alongside (discardSegments bases) := by
  induction bases with
  | nil => exact .pure _
  | cons base bases ih =>
      have hremove : Blind Alongside (removeSegmentFiles base) :=
        (Disk.remove_blind hno FileName.noConfusion).attempt.bind fun _ =>
          (Disk.remove_blind hno FileName.noConfusion).attempt.bind fun _ => .pure _
      exact hremove.bind fun _ => ih

private theorem open_blind (options : LogOptions) : Blind Alongside (Log.open options) := by
  refine (Disk.attemptOp_blind hno _).bind fun _ => (existingSegmentOffsets_blind hno).bind
    fun bases => (openSegments_blind hno _ _ _ _).bind ?_
  rintro ⟨segments, report, rest⟩
  refine (discardSegments_blind hno rest).bind fun _ => ?_
  dsimp only
  cases segments.getLast? with
  | none => exact (Segment.open_blind hno _ _).bind fun _ => .pure _
  | some active => exact .pure _

end Log

end Blind

/-! ## One log, two ways to append -/

namespace Log

section Appends

variable [Faults] {s t : Store}

/-- What a leader appends, one batch after the other, and the bytes that it writes. -/
def appendAll : List (BatchBuilder × BatchMeta) → LogM (List Bytes)
  | [] => return []
  | (builder, info) :: rest => do
      let base ← append builder info
      let more ← appendAll rest
      return builder.finish base info :: more

/-- What a follower appends. -/
def replicateAll : List Bytes → LogM Unit
  | [] => return ()
  | framed :: rest => do
      appendReplicated framed
      replicateAll rest

/-- What is left of `append_replicated` for a batch in its place. -/
theorem appendReplicated_frame {f : Frame} (hbase : Extent.base f = s.log.nextOffset)
    (hlen : f.bytes.length ≤ s.log.options.segmentMaxBytes) :
    appendReplicated f.bytes s =
      (makeRoom f.bytes.length >>= fun _ => appendFramed f.bytes f.header) s := by
  have hget : getLog s = .ok s.log s := rfl
  have hplace : f.header.baseOffset = s.log.nextOffset := hbase
  unfold appendReplicated
  rw [bind_of_ok hget, f.decode]
  dsimp only
  rw [if_neg (not_not.2 f.whole), if_neg (not_not.2 hplace), f.valid]
  dsimp only
  rw [if_neg (Nat.not_lt.2 hlen)]

/-- What is left of `append` for a builder that has something, and not too much. -/
theorem append_ok {builder : BatchBuilder} {info : BatchMeta} {base : Nat}
    (h : append builder info s = .ok base t) :
    ∃ u, makeRoom builder.framedBytes s = .ok () u ∧ base = u.log.nextOffset ∧
      appendFramed (builder.finish base info) (builder.stamped base info).cut u = .ok () t := by
  unfold append at h
  have hget : ∀ s : Store, getLog s = .ok s.log s := fun _ => rfl
  rw [bind_of_ok (hget s)] at h
  split at h
  · cases h
  split at h
  · cases h
  obtain ⟨_, u, hmake, h⟩ := bind_ok h
  unfold appendNext at h
  rw [bind_of_ok (hget u), builder.decodeHeader_finish] at h
  obtain ⟨_, t', happend, h⟩ := bind_ok h
  cases h
  exact ⟨u, hmake, rfl, happend⟩

/-- From the same state, both ways lead to the same state. -/
theorem appendReplicated_of_append (hi : s.view.Intact) (hc : s.log.Chained)
    {builder : BatchBuilder} {info : BatchMeta} {base : Nat}
    (h : append builder info s = .ok base t) :
    appendReplicated (builder.finish base info) s = .ok () t := by
  obtain ⟨x, hx, -⟩ := hi.active_holds
  have hspec := Log.append_sat hi.width hx builder info
  rw [h] at hspec
  obtain ⟨rfl, hne, w, hroom, hstep⟩ := hspec
  have hgains := hi.gains hc hroom hstep
  obtain ⟨u, hmake, -, happend⟩ := append_ok h
  have hlength : (builder.frame hne s.log.nextOffset info).bytes.length = builder.framedBytes :=
    builder.finish_length _ _
  rw [← hlength] at hmake
  calc appendReplicated (builder.finish s.log.nextOffset info) s
      = _ := appendReplicated_frame (f := builder.frame hne s.log.nextOffset info)
        hgains.base hgains.short
    _ = _ := bind_of_ok hmake _
    _ = .ok () t := happend

/-- A byte string that a log may take: one whole batch that begins where the log ends and is
no longer than a segment may be. -/
structure Acceptable (l : Log) (framed : Bytes) : Prop where
  whole : ∃ header, decodeHeader framed = .ok header ∧ framed.length = header.totalBytes ∧
    header.baseOffset = l.nextOffset
  valid : validateBatch framed = .ok ()
  short : framed.length ≤ l.options.segmentMaxBytes

/-- `append_replicated` looks at nothing else. -/
theorem acceptable_of_ok {framed : Bytes} (h : appendReplicated framed s = .ok () t) :
    s.log.Acceptable framed := by
  have hget : getLog s = .ok s.log s := rfl
  unfold appendReplicated at h
  rw [bind_of_ok hget] at h
  cases hheader : decodeHeader framed with
  | error e =>
      rw [hheader] at h
      cases h
  | ok header =>
      rw [hheader] at h
      dsimp only at h
      split at h
      · cases h
      rename_i hwhole
      split at h
      · cases h
      rename_i hbase
      cases hvalid : validateBatch framed with
      | error e =>
          rw [hvalid] at h
          cases h
      | ok _ =>
          rw [hvalid] at h
          dsimp only at h
          split at h
          · cases h
          rename_i hshort
          exact ⟨⟨header, hheader, not_not.1 hwhole, not_not.1 hbase⟩, hvalid, Nat.not_lt.1 hshort⟩

/-- On a disk that refuses nothing and has room, `append_replicated` takes exactly that. -/
theorem appendReplicated_iff (hno : ∀ op, ¬ Refuses op) (hi : s.view.Intact) (hc : s.log.Chained)
    {framed : Bytes} (hspace : s.log.Spacious framed.length) :
    (∃ t, appendReplicated framed s = .ok () t) ↔ s.log.Acceptable framed := by
  constructor
  · rintro ⟨t, h⟩
    exact acceptable_of_ok h
  · rintro ⟨⟨header, hheader, hwhole, hbase⟩, hvalid, hshort⟩
    let f : Frame := ⟨framed, header, hheader, hwhole, hvalid⟩
    obtain ⟨_, t, h, -⟩ := (appendReplicated_progress (f := f) hno hi hc hbase hshort
      hspace).exists_ok fun _ h => h
    exact ⟨t, h⟩

/-- A follower that is sent what a leader with the same segments wrote has the same segments
again. -/
theorem replicateAll_of_appendAll (hno : ∀ op, ¬ Refuses op)
    {batches : List (BatchBuilder × BatchMeta)} {frames : List Bytes} {s' : Store}
    (hi : s.view.Intact) (hc : s.log.Chained) (hside : s.Alongside s')
    (h : appendAll batches s = .ok frames t) :
    ∃ t', replicateAll frames s' = .ok () t' ∧ t.Alongside t' ∧ t.view.Intact ∧ t.log.Chained := by
  induction batches generalizing s s' frames with
  | nil =>
      cases h
      exact ⟨s', rfl, hside, hi, hc⟩
  | cons batch rest ih =>
      obtain ⟨builder, info⟩ := batch
      unfold appendAll at h
      obtain ⟨base, s₁, hfirst, h⟩ := bind_ok h
      obtain ⟨more, t₁, hrest, h⟩ := bind_ok h
      cases h
      have hboth := appendReplicated_of_append hi hc hfirst
      have halike := appendReplicated_blind hno (builder.finish base info) s s' hside
      rw [hboth] at halike
      obtain ⟨s₁', hfirst', hside₁⟩ := halike.of_ok
      have hdone : (Call.appendReplicated (builder.finish base info)).Done s.view s₁.view :=
        Carried.done hi (fun _ h => by cases h) hboth
      obtain ⟨t', hrest', hside', hi', hc'⟩ :=
        ih (hi.done (fun _ h => by cases h) hdone).1
          (Chained.done (v := s.view) hc hi hdone) hside₁ hrest
      refine ⟨t', ?_, hside', hi', hc'⟩
      unfold replicateAll
      rw [bind_of_ok hfirst']
      exact hrest'

end Appends

/-- A directory without segments and sidecars. -/
def Fresh (d : Disk) : Prop := ∀ f, f ≠ .state → d.file f = none

/-- A log that was built by `append` on one fresh directory is built again by
`append_replicated` on another, from the bytes that were written; and both logs take the
same byte strings from then on. -/
theorem leader_follower {options : LogOptions} (hwidth : options.segmentMaxBytes < 0x100000000)
    {d d' e e' : Disk} {l l' : Log} (hd : Fresh d) (hd' : Fresh d')
    (hopen : @Log.open healthy options d = .ok l e)
    (hopen' : @Log.open healthy options d' = .ok l' e')
    {batches : List (BatchBuilder × BatchMeta)} {frames : List Bytes} {t : Store}
    (happend : @appendAll healthy batches ⟨l, e⟩ = .ok frames t) :
    ∃ t', @replicateAll healthy frames ⟨l', e'⟩ = .ok () t' ∧
      t'.log.nextOffset = t.log.nextOffset ∧ t'.log.segments = t.log.segments ∧
      (∀ g ∈ t.log.segments, ∃ x, t.disk.file g.logFile = some x ∧
        t'.disk.file g.logFile = some x) ∧
      (∃ epochs, outcome (@scanEpochs healthy t.log t.disk) = .ok epochs ∧
        outcome (@scanEpochs healthy t'.log t'.disk) = .ok epochs) ∧
      ∀ u, u = t ∨ u = t' → ∀ framed : Bytes, u.log.Spacious framed.length →
        ((∃ v, @appendReplicated healthy framed u = .ok () v) ↔ u.log.Acceptable framed) := by
  have hno : ∀ op, ¬ @Refuses healthy op := not_refuses_healthy
  have hside : Alongside d d' := fun f hf => (hd f hf).trans (hd' f hf).symm
  have hblank : Blank d.file := by
    intro b y hy
    rw [hd _ FileName.noConfusion] at hy
    cases hy
  have halike := @open_blind healthy hno options d d' hside
  rw [hopen, hopen'] at halike
  cases halike with
  | ok l hside =>
      obtain ⟨hi, hc⟩ := intact_of_runs hwidth hblank (hno _) hopen .refl
      have hstart : Store.Alongside ⟨l, e⟩ ⟨l, e'⟩ := ⟨rfl, hside⟩
      obtain ⟨t', hrun, hside', hi', hc'⟩ :=
        @replicateAll_of_appendAll healthy _ _ hno _ _ _ hi hc hstart happend
      obtain ⟨_, _, hscan, -, rfl⟩ :=
        (@scanEpochs_sat healthy t.view hi' t.disk rfl).exists_ok fun _ hr => hno _ hr
      have hscan' := (@scanEpochs_blind healthy hno t.log t.disk t'.disk hside'.disk).outcome_eq
      change @scanEpochs healthy t.log t.disk = _ at hscan
      rw [hscan] at hscan'
      refine ⟨t', hrun, congrArg Log.nextOffset hside'.log.symm,
        congrArg Log.segments hside'.log.symm, ?_, ⟨_, congrArg outcome hscan, ?_⟩, ?_⟩
      · intro g hg
        obtain ⟨x, fs, hx, -⟩ := hi'.sits g hg
        refine ⟨x, hx, ?_⟩
        rw [← hside'.disk _ FileName.noConfusion]
        exact hx
      · rw [← hside'.log]
        exact hscan'.symm
      · rintro u (rfl | rfl) framed hspace
        · exact @appendReplicated_iff healthy u hno hi' hc' framed hspace
        · exact @appendReplicated_iff healthy u hno (hside'.intact hi') (hside'.log ▸ hc') framed
            hspace

/-- Two batches, the second of which asks for a segment of its own. -/
def ledBatches : List (BatchBuilder × BatchMeta) :=
  [({ records := [[9], [8]] }, {}), ({ records := [[7, 6]] }, { leaderEpoch := 4 })]

/-- A leader in an empty directory: its log at the beginning, what it wrote, and its log at
the end. -/
def led (batches : List (BatchBuilder × BatchMeta)) : Option (Store × List Bytes × Store) :=
  match @Log.open healthy { segmentMaxBytes := 100 } {} with
  | .error _ _ => none
  | .ok l e =>
      match @appendAll healthy batches ⟨l, e⟩ with
      | .error _ _ => none
      | .ok frames t => some (⟨l, e⟩, frames, t)

theorem leader_follower_rolled :
    ∃ (s : Store) (frames : List Bytes) (t t' : Store),
      @appendAll healthy ledBatches s = .ok frames t ∧ t.log.sealed.length = 1 ∧
      @replicateAll healthy frames s = .ok () t' ∧ t'.log.segments = t.log.segments := by
  have hled : (led ledBatches).any (fun r => r.2.2.log.sealed.length == 1) = true := by
    decide +kernel
  obtain ⟨⟨s, frames, t⟩, hrun, hsealed⟩ := (Option.any_eq_true _ _).1 hled
  have hfresh : Fresh {} := fun _ _ => rfl
  unfold led at hrun
  split at hrun
  · cases hrun
  · rename_i l e hopen
    split at hrun
    · cases hrun
    · rename_i happend
      cases hrun
      obtain ⟨t', hreplicate, -, hsegments, -⟩ :=
        leader_follower (by decide) hfresh hfresh hopen hopen happend
      exact ⟨⟨l, e⟩, frames, t, t', happend, beq_iff_eq.1 hsealed, hreplicate, hsegments⟩

end Log

end LogEngine.Storage
