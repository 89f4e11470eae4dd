import LogEngine.Storage.Platter
import LogEngine.Storage.Progress

/-!
# A log that nothing has gone wrong with

The log of an owner whose disk refuses nothing, who flushes every append, and who cuts only
where a batch begins.  Such a log has no loose ends between two operations (`View.Steady`):
the files of the directory are those of its segments, each of them ends with its batches, and
nothing waits for a flush.

Both appends and `truncate_to` keep a log steady, and succeed wherever they should.  A power
cut leaves all of it, and a directory that a steady log was closed or lost in is opened as
that log.
-/

namespace LogEngine.Storage

open Base Io Io.Disk Verified.Fallible Verified.Tiling Verified.Framing

namespace View

/-- A log without loose ends, which begins at offset zero. -/
structure Steady (options : LogOptions) (v : View) : Prop where
  config : v.log.options = options
  intact : v.Intact
  chained : v.log.Chained
  zero : v.log.startOffset = 0
  firm : v.Firm
  whole : v.Whole
  bare : ∀ b, ¬ v.Stray b
  flushed : v.Flushed

section Steady

variable {options : LogOptions} {v w : View}

theorem Steady.ready (h : v.Steady options) : v.Ready :=
  ⟨h.whole, fun b hb => absurd hb (h.bare b)⟩

theorem Steady.tiles (h : v.Steady options) : Tiles 0 v.frames := by
  rw [← h.zero]
  exact (h.chained.toLinked.tiles_frames h.intact).1

theorem Steady.end_eq (h : v.Steady options) : endFrom 0 v.frames = v.log.nextOffset := by
  rw [← h.zero, h.chained.ends]
  exact (h.chained.toLinked.tiles_frames h.intact).2

/-- Every log file is the file of a segment. -/
theorem Steady.exists_segment (h : v.Steady options) {b : Nat} {x : File}
    (hx : v.files (.log b) = some x) : ∃ s ∈ v.log.segments, s.baseOffset = b := by
  by_contra hnone
  refine h.bare b ⟨fun s hs heq => hnone ⟨s, hs, heq⟩, ?_⟩
  rw [logSize_eq hx]
  exact Option.some_ne_none _

theorem Steady.size_eq (h : v.Steady options) {s : Segment} (hs : s ∈ v.log.segments) {x : File}
    (hx : v.files (.log s.baseOffset) = some x) : x.visible.length = s.sizeBytes := by
  rw [← Option.some.injEq, ← logSize_eq hx]
  rcases mem_segments.1 hs with hs | rfl
  · exact h.firm.orderly.whole s hs
  · exact h.whole

/-- No file of a segment is longer than a file may be. -/
theorem Steady.length_le (h : v.Steady options) {b : Nat} {x : File}
    (hx : v.files (.log b) = some x) : x.visible.length ≤ kMaxFileBytes := by
  obtain ⟨s, hs, rfl⟩ := h.exists_segment hx
  rw [h.size_eq hs hx]
  exact h.firm.orderly.capped s hs

/-- The file of a segment has its batches and nothing behind them. -/
theorem Steady.parse_segment (h : v.Steady options) {s : Segment} (hs : s ∈ v.log.segments) :
    parse s.baseOffset (logBytes v.files s.baseOffset) = s.frames v.files := by
  obtain ⟨x, hx, hholds⟩ := (h.intact.sits s hs).holds
  have hx' : v.files (.log s.baseOffset) = some x := hx
  have hsize := (h.size_eq hs hx').trans hholds.size
  rw [logBytes, hx', Option.getD_some, ← hholds.content.eq_of_length hsize.symm,
    parse_encode hholds.tiles]

/-- Nothing waits for a flush. -/
theorem Steady.settled (h : v.Steady options) {b : Nat} {x : File}
    (hx : v.files (.log b) = some x) : x.Consistent ∧ x.pending = [] := by
  refine ⟨h.firm.sturdy.consistent b x hx, ?_⟩
  obtain ⟨s, hs, rfl⟩ := h.exists_segment hx
  rcases mem_segments.1 hs with hs | rfl
  · exact h.firm.sturdy.sealed s hs x hx
  · obtain ⟨y, hy, hpending⟩ := h.flushed
    obtain rfl := Option.some.inj (hy.symm.trans hx)
    exact hpending

/-- Whether a log is steady is a matter of the files of its segments. -/
theorem Steady.congr (h : v.Steady options) (hlog : w.log = v.log)
    (hfiles : ∀ b, w.files (.log b) = v.files (.log b)) : w.Steady options := by
  obtain ⟨log, files⟩ := w
  obtain rfl : log = v.log := hlog
  have hsize : logSize files = logSize v.files := funext fun b => by
    rw [logSize, logSize, ← hfiles]
  obtain ⟨x, fs, hx, hdurable⟩ := h.firm.durable
  obtain ⟨y, hy, hpending⟩ := h.flushed
  constructor
  · exact h.config
  · exact h.intact.congr (fun s _ => hfiles s.baseOffset)
      fun b hb x hx => h.intact.strays b hb x ((hfiles b).symm.trans hx)
  · exact h.chained
  · exact h.zero
  · refine ⟨h.firm.orderly.congr rfl hsize, ⟨fun b x hx => ?_, fun s hs x hx => ?_⟩, ?_⟩
    · exact h.firm.sturdy.consistent b x ((hfiles b).symm.trans hx)
    · exact h.firm.sturdy.sealed s hs x ((hfiles s.baseOffset).symm.trans hx)
    · exact ⟨x, fs, (hfiles _).trans hx, hdurable⟩
  · show logSize files _ = _
    rw [hsize]
    exact h.whole
  · intro b hb
    rw [Stray, hsize] at hb
    exact h.bare b hb
  · exact ⟨y, (hfiles _).trans hy, hpending⟩

theorem Steady.frames_congr (hlog : w.log = v.log)
    (hfiles : ∀ b, w.files (.log b) = v.files (.log b)) : w.frames = v.frames :=
  View.frames_congr (by rw [hlog]) fun s _ => hfiles s.baseOffset

/-- A segment of a steady log never outgrows a file, if it may not outgrow one. -/
theorem Steady.spacious (h : v.Steady options) (hcap : options.segmentMaxBytes ≤ kMaxFileBytes)
    (size : Nat) : v.log.Spacious size := by
  intro hle
  rw [h.config] at hle
  omega

end Steady

/-! ## Files that belong to no segment -/

section Strays

variable [Faults] {v w : View}

omit [Faults] in
/-- The active segment and its file may change. -/
theorem stray_replace {seg : Segment} {y : File} {nextOffset b : Nat}
    (hbase : seg.baseOffset = v.log.active.baseOffset)
    (h : (View.mk { v.log with active := seg, nextOffset := nextOffset }
      (Function.update v.files v.log.active.logFile (some y))).Stray b) : v.Stray b := by
  obtain ⟨hother, hsome⟩ := h
  have hne : b ≠ v.log.active.baseOffset := fun heq =>
    hother seg (active_mem _) (hbase.trans heq.symm)
  have hsize : logSize (Function.update v.files v.log.active.logFile (some y)) =
      Function.update (logSize v.files) v.log.active.baseOffset (some y.visible.length) :=
    logSize_update _ _ _
  dsimp only at hsome
  rw [hsize, Function.update_of_ne hne] at hsome
  refine ⟨fun s hs => ?_, hsome⟩
  rcases mem_segments.1 hs with hs | rfl
  · exact hother s (mem_segments.2 (.inl hs))
  · exact hne.symm

/-- On a disk that removes what it is told to, only an append that fails leaves a stray
file. -/
theorem stray_of_step (hremove : ¬ Refuses .remove) (hi : v.Intact) {label : Label}
    (hlabel : label ≠ .spill) (hs : Step v label w) {b : Nat} (h : w.Stray b) : v.Stray b := by
  cases hs with
  | flush hx =>
      obtain ⟨hlog, hsize⟩ := sync_size (.flush hx)
      rw [Stray, hlog, hsize] at h
      exact h
  | sidecar hs hy =>
      obtain ⟨hlog, hsize⟩ := sync_size (.sidecar hs hy)
      rw [Stray, hlog, hsize] at h
      exact h
  | @roll hne hflushed x y seg hx ho =>
      obtain ⟨hother, hsome⟩ := h
      have hnew : b ≠ v.log.nextOffset := fun heq =>
        hother seg (active_mem _) (ho.base.trans heq.symm)
      dsimp only at hsome
      rw [logSize_update, Function.update_of_ne hnew] at hsome
      exact ⟨fun s hs => hother s (mem_segments.2 (.inl hs)), hsome⟩
  | create => exact absurd rfl hlabel
  | spill => exact absurd rfl hlabel
  | append hx hbase hroom hcap =>
      refine stray_replace ?_ h
      rfl
  | drop hsealed hge hy hz => exact (drop_sizes hi hremove (.drop hsealed hge hy hz)).2.2 b h
  | retreat hle => exact h
  | cut hx hholds hlt hcut =>
      refine stray_replace ?_ h
      rfl

private theorem stray_of_quiet (hremove : ¬ Refuses .remove) (hi : v.Intact)
    (hs : Quiet v w) {b : Nat}
    (h : w.Stray b) : v.Stray b := by
  induction hs with
  | refl => exact h
  | tail hfirst hlast ih =>
      obtain ⟨rolls, hstep⟩ := hlast
      exact ih (stray_of_step hremove (hi.quiets hfirst).1 Label.noConfusion hstep h)

private theorem stray_of_drops (hremove : ¬ Refuses .remove) (hi : v.Intact) {offset : Nat}
    (hs : Drops offset v w) {b : Nat} (h : w.Stray b) : v.Stray b := by
  induction hs with
  | refl => exact h
  | tail hfirst hlast ih =>
      exact ih (stray_of_step hremove (hi.drops hremove hfirst).1 Label.noConfusion hlast h)

end Strays

/-! ## Cuts -/

section Cuts

variable [Faults] {options : LogOptions} {v w : View} {offset : Nat}

/-- The segment before one that is dropped was flushed. -/
theorem Steady.flushed_drops (h : v.Steady options) (hremove : ¬ Refuses .remove)
    (hs : Drops offset v w) : w.Flushed := by
  induction hs with
  | refl => exact h.flushed
  | @tail u w hfirst hlast ih =>
      have hu := (h.intact.drops hremove hfirst).1
      have hw := (hu.drop hremove hlast).1
      have hsturdy := (h.firm.durable.drops h.firm.sturdy h.intact hremove hfirst).1
      obtain ⟨x, hx, -⟩ := hw.active_holds
      refine ⟨x, hx, ?_⟩
      cases hlast with
      | @drop init before _ y z hsealed hge hy hz =>
          have hbefore : before ∈ u.log.sealed := hsealed ▸ List.mem_append_right _ (by simp)
          have hne : before.logFile ≠ u.log.active.logFile := fun heq =>
            hu.sealed_ne hbefore (FileName.log.inj heq)
          dsimp only at hx
          rw [Function.update_of_ne FileName.noConfusion, Function.update_of_ne hne] at hx
          exact hsturdy.sealed before hbefore x hx

theorem Flushed.cut (h : v.Flushed) (hs : Step v (.cut offset) w) : w.Flushed := by
  obtain ⟨x, hx, hpending⟩ := h
  cases hs with
  | retreat hle => exact ⟨x, hx, hpending⟩
  | @cut y fs _ hy hfs hlt hcut =>
      obtain rfl := Option.some.inj (hy.symm.trans hx)
      refine ⟨_, Function.update_self .., ?_⟩
      show (y.pending.map _).filter _ = []
      rw [hpending]
      rfl

/-- A `truncate_to` that succeeds. -/
theorem Steady.truncated (h : v.Steady options) (hremove : ¬ Refuses .remove)
    (hd : (Call.truncateTo offset).Done v w) :
    w.Steady options ∧ w.frames = upTo v.frames offset := by
  obtain ⟨hw, hframes, hstart⟩ := h.intact.truncated hremove hd
  obtain ⟨hfirm, hready⟩ := h.firm.truncated h.intact h.ready hremove hd
  refine ⟨⟨hd.options.trans h.config, hw, h.chained.done h.intact hd, hstart.trans h.zero, hfirm,
    hready.whole, fun b hb => ?_, ?_⟩, hframes⟩
  · rcases hd with ⟨-, rfl⟩ | ⟨u, hpopped, hcut⟩
    · exact h.bare b hb
    · have hu := (h.intact.popped hremove hpopped).1
      have hold := stray_of_step hremove hu Label.noConfusion hcut hb
      exact h.bare b (stray_of_drops hremove h.intact hpopped.drops hold)
  · rcases hd with ⟨-, rfl⟩ | ⟨u, hpopped, hcut⟩
    · exact h.flushed
    · exact (h.flushed_drops hremove hpopped.drops).cut hcut

omit [Faults] in
/-- A row of batches that ends where a cut is to be made goes on with a batch that begins
there. -/
theorem exists_base_of_upTo {fs : List Frame} (h : Tiles 0 fs)
    (hcut : endFrom 0 (upTo fs offset) = offset) (hlt : offset < endFrom 0 fs) :
    ∃ f ∈ fs, Extent.base f = offset := by
  obtain ⟨r, hr⟩ := upTo_isPrefix fs offset
  cases r with
  | nil =>
      rw [List.append_nil] at hr
      rw [hr] at hcut
      omega
  | cons f r =>
      rw [← hr] at h
      have hbase := (tiles_append.1 h).2.1
      exact ⟨f, hr ▸ List.mem_append_right _ List.mem_cons_self, hbase.trans hcut⟩

/-- What the loop of `truncate_to` has left ends before the cut, or is cut where a batch
begins. -/
theorem Intact.cutsAt_of_popped (hi : v.Intact) (hc : v.log.Chained) (hremove : ¬ Refuses .remove)
    (hp : Call.Popped v offset w) {f : Frame} (hf : f ∈ v.frames) (hbase : Extent.base f = offset)
    (hlt : offset < w.log.active.nextOffset) :
    Segment.CutsAt w.log.active.baseOffset (w.log.active.frames w.files) offset := by
  obtain ⟨hw, -, hstart, gone, hframes, -⟩ := hi.popped hremove hp
  have hle := hw.base_le (hstart ▸ hp.start) hp.last
  have hlinked := hc.toLinked.drops hp.drops
  have htiles := (hc.toLinked.tiles_frames hi).1
  rw [hframes, ← hstart] at htiles
  obtain ⟨-, hgone⟩ := tiles_append.1 htiles
  rw [(hlinked.tiles_frames hw).2] at hgone
  -- the batch is neither in a segment that was dropped nor in one before the last
  have hkept : f ∈ w.frames := by
    rw [hframes] at hf
    refine (List.mem_append.1 hf).resolve_right fun hmem => ?_
    have := hgone.le_base hmem
    omega
  rw [frames_eq] at hkept
  refine .inr ⟨f, (List.mem_append.1 hkept).resolve_left fun hmem => ?_, hbase⟩
  have := hw.sealedFrames_lt hmem
  omega

end Cuts

end View

/-! ## Operations on a disk that refuses nothing -/

namespace Log

variable [Faults] {options : LogOptions} {s t : Store}

/-- `truncate_to` succeeds where a batch begins, and at the end of the log. -/
theorem truncateTo_progress (hno : ∀ op, ¬ Refuses op) (h : s.view.Steady options) {offset : Nat}
    (hcut : endFrom 0 (upTo s.view.frames offset) = offset) (hle : offset ≤ s.log.nextOffset) :
    Sat (truncateTo offset s) (fun _ _ => True) (fun _ => False) := by
  refine getLog_sat ?_
  rw [if_neg (Nat.not_lt.2 hle)]
  have hstart : ¬ offset < s.log.startOffset := by
    rw [show s.log.startOffset = 0 from h.zero]
    exact Nat.not_lt_zero _
  rw [if_neg hstart]
  refine Sat.ite (fun _ => trivial) fun hne => ?_
  have hlt : offset < s.log.nextOffset := lt_of_le_of_ne hle hne
  refine (popSegments_sat offset s.log.sealed.length le_rfl).sure.bind ?_
  rintro _ t ⟨hdrops, hlast⟩
  have hpopped : Call.Popped s.view offset t.view := ⟨Nat.not_lt.1 hstart, hlt, hdrops, hlast⟩
  have ht := (h.intact.popped (hno _) hpopped).1
  obtain ⟨x, hx, hholds⟩ := ht.active_holds
  have hcapped := (h.firm.orderly.drops h.intact (hno _) hdrops).capped _ (View.active_mem _)
  refine getLog_sat ((onDisk_sat (Q := fun _ _ => True) (E := fun _ => False)
    (((Segment.truncateTo_ends hholds hx offset).sat ?_).imp fun _ _ _ => trivial)).bind
      fun _ _ _ => trivial)
  rintro e d ⟨-, hinside, hr | hr | ⟨-, hbad | hlong⟩⟩
  · exact hno _ hr
  · exact hno _ hr
  · obtain ⟨f, hf, hbase⟩ := View.exists_base_of_upTo h.tiles hcut (h.end_eq.symm ▸ hlt)
    exact hbad (h.intact.cutsAt_of_popped h.chained (hno _) hpopped hf hbase hinside)
  · have hpre := (encode_isPrefix
      (upTo_isPrefix (t.log.active.frames t.view.files) offset)).length_le
    exact Nat.not_lt.2 ((hpre.trans_eq hholds.size.symm).trans hcapped) hlong

/-- `truncate_to` on a steady log. -/
theorem truncateTo_steady (hno : ∀ op, ¬ Refuses op) (h : s.view.Steady options) {offset : Nat}
    (hcut : endFrom 0 (upTo s.view.frames offset) = offset) (hle : offset ≤ s.log.nextOffset) :
    Sat (truncateTo offset s)
      (fun _ t => t.view.Steady options ∧ t.view.frames = upTo s.view.frames offset)
      (fun _ => False) := by
  obtain ⟨_, t, hrun, -⟩ := (truncateTo_progress hno h hcut hle).exists_ok fun _ hf => hf
  have hcall : (Call.truncateTo offset).run s = .ok () t := hrun
  have hdone := Carried.done h.intact (fun _ _ => hno _) hcall
  rw [hrun]
  exact h.truncated (hno _) hdone

end Log

/-- An append and the `fsync` behind it. -/
theorem View.Steady.appended [Faults] (hno : ∀ op, ¬ Refuses op) {options : LogOptions}
    {s t : Store} (h : s.view.Steady options) {size : Nat} {u : View} {f : Frame}
    (hroom : Room s.view size u) (hstep : Step u (.append f) t.view) :
    Sat (Log.fsync t) (fun _ w => w.view.Steady options ∧ s.view.Gains f w.view)
      (fun _ => False) := by
  have hu := (h.intact.quiets hroom.quiet).1
  have ht := (hu.append hstep).1
  obtain ⟨_, w, hsync, -⟩ := (Log.fsync_progress hno ht).exists_ok fun _ hf => hf
  obtain ⟨hfirm, hwhole⟩ := h.firm.flushed h.intact h.ready hroom hstep hsync
  obtain ⟨x, hx, -⟩ := ht.active_holds
  have hview := Log.fsync_sat hx
  rw [hsync] at hview ⊢
  have hflush : Step t.view (.quiet false) w.view := by
    rw [show w.view = _ from hview]
    exact .flush hx
  have hgains := (h.intact.gains h.chained hroom hstep).flushed ht hflush
  refine ⟨⟨?_, (ht.quiet hflush).1, ?_, hgains.start.trans h.zero, hfirm, hwhole,
    fun b hb => ?_, ?_⟩,
    hgains⟩
  · exact hflush.options.trans (hstep.options.trans (hroom.quiet.log.2.1.trans h.config))
  · exact ((h.chained.quiets h.intact hroom.quiet).append hstep).1.quiet ht hflush
  · have hstray := stray_of_step (hno _) ht Label.noConfusion hflush hb
    have hstray' := stray_of_step (hno _) hu Label.noConfusion hstep hstray
    exact h.bare b (stray_of_quiet (hno _) h.intact hroom.quiet hstray')
  · rw [show w.view = _ from hview]
    exact ⟨x.flush, Function.update_self .., rfl⟩

namespace Log

variable [Faults] {options : LogOptions} {s t : Store}

/-- A batch that is framed already goes behind a steady log. -/
theorem replicate_steady (hno : ∀ op, ¬ Refuses op) (h : s.view.Steady options)
    (hcap : options.segmentMaxBytes ≤ kMaxFileBytes) {f : Frame}
    (hbase : Extent.base f = s.log.nextOffset) (hlen : f.bytes.length ≤ options.segmentMaxBytes) :
    Sat ((appendReplicated f.bytes >>= fun _ => fsync) s)
      (fun _ t => t.view.Steady options ∧ s.view.Gains f t.view) (fun _ => False) := by
  have hmax : f.bytes.length ≤ s.log.options.segmentMaxBytes := by
    rw [show s.log.options = options from h.config]
    exact hlen
  obtain ⟨x, hx, -⟩ := h.intact.active_holds
  have happend := (appendReplicated_sat h.intact.width hx f.bytes).and
    (appendReplicated_progress hno h.intact h.chained hbase hmax (h.spacious hcap _))
  refine (happend.mono (fun _ _ ht => ht.1) fun _ hf => hf.2).bind ?_
  rintro _ t ⟨g, u, hbytes, -, hroom, hstep⟩
  obtain rfl := Frame.ext hbytes
  exact h.appended hno hroom hstep

/-- An append that is refused has not begun. -/
theorem append_refused (hno : ∀ op, ¬ Refuses op) (h : s.view.Steady options)
    (hcap : options.segmentMaxBytes ≤ kMaxFileBytes)
    (hnext : s.log.nextOffset < 0x10000000000000000) {builder : BatchBuilder} {info : BatchMeta}
    {e : ErrorCode} (hr : append builder info s = .error e t) : t = s := by
  have hrun : append builder info s =
      (if builder.empty then throw .invalidRequest else
        if s.log.options.segmentMaxBytes < builder.framedBytes then throw .messageTooLarge else
          makeRoom builder.framedBytes >>= fun _ => appendNext builder info : LogM Nat) s := rfl
  by_cases hempty : builder.empty = true
  · rw [hrun, if_pos hempty] at hr
    cases hr
    rfl
  by_cases hlong : s.log.options.segmentMaxBytes < builder.framedBytes
  · rw [hrun, if_neg hempty, if_pos hlong] at hr
    cases hr
    rfl
  have hne : builder.records ≠ [] := fun hnil => hempty (by rw [BatchBuilder.empty, hnil]; rfl)
  have hprogress := append_progress hno h.intact h.chained hne info hnext (Nat.not_lt.1 hlong)
    (h.spacious hcap _)
  rw [hr] at hprogress
  exact hprogress.elim

/-- What a builder has gathered goes behind a steady log. -/
theorem append_steady (hno : ∀ op, ¬ Refuses op) (h : s.view.Steady options)
    {builder : BatchBuilder}
    {info : BatchMeta} {k : Nat} (hr : append builder info s = .ok k t) :
    k = s.log.nextOffset ∧ ∃ hne : builder.records ≠ [],
      Sat (fsync t) (fun _ w => w.view.Steady options ∧
        s.view.Gains (builder.frame hne s.log.nextOffset info) w.view) (fun _ => False) := by
  obtain ⟨x, hx, -⟩ := h.intact.active_holds
  have hspec := append_sat h.intact.width hx builder info
  rw [hr] at hspec
  obtain ⟨rfl, hne, u, hroom, hstep⟩ := hspec
  exact ⟨rfl, hne, h.appended hno hroom hstep⟩

end Log

/-! ## Going down and coming up -/

section Reopening

variable {options : LogOptions} {v : View} {d : Disk}

/-- A power cut leaves all of a steady log. -/
theorem File.crash_settled {x : File} (h : x.Consistent ∧ x.pending = []) (kept torn : Nat) :
    x.crash kept torn = x := by
  obtain ⟨hconsistent, hpending⟩ := h
  have hdurable := durable_of_settled hconsistent hpending
  obtain ⟨durable, visible, pending⟩ := x
  dsimp only at hdurable hpending
  subst hdurable hpending
  simp [File.crash, replay]

theorem View.Steady.crash (h : v.Steady options) (hd : ∀ b, d.file (.log b) = v.files (.log b))
    (kept torn : FileName → Nat) (b : Nat) :
    (d.crash kept torn).file (.log b) = v.files (.log b) := by
  rw [Disk.crash, file_mapFiles, hd]
  cases hx : v.files (.log b) with
  | none => rfl
  | some x => exact congrArg some (File.crash_settled (h.settled hx) _ _)

variable [Faults]

/-- The file of a segment that has just been opened ends with its batches. -/
theorem Reopened.whole {files : FileName → Option File} (h : Reopened options files v) :
    v.Whole := by
  obtain ⟨-, hfile, hholds⟩ := h.segment _ (View.active_mem _)
  rw [h.frames_eq (View.active_mem _)] at hfile hholds
  show logSize v.files v.log.active.baseOffset = some v.log.active.sizeBytes
  rw [logSize_eq hfile, hholds.size]
  exact congrArg some (congrArg List.length (recovered_visible _ _))

/-- A log that has just been opened, on a disk where nothing is pending. -/
theorem Reopened.steady {files : FileName → Option File} (h : Reopened options files v)
    (hno : ∀ op, ¬ Refuses op) (hwidth : options.segmentMaxBytes < 0x100000000)
    (hzero : ∀ b, (files (.log b)).isSome → (files (.log 0)).isSome)
    (hcap : ∀ b, ∀ n ∈ logSize files b, n ≤ kMaxFileBytes)
    (hsettled : ∀ b x, files (.log b) = some x → x.Consistent ∧ x.pending = []) :
    v.Steady options := by
  have hi := h.intact hwidth (hno _)
  refine ⟨h.config, hi, h.chained, h.start_zero hzero, h.firm hi (hno _) hcap hsettled, h.whole,
    fun b hb => ?_, ?_⟩
  · rcases h.strays b hb.1 with hnone | ⟨-, hr⟩
    · exact hb.2 (by rw [logSize, hnone]; rfl)
    · exact hno _ hr
  · obtain ⟨-, hfile, -⟩ := h.segment _ (View.active_mem _)
    refine ⟨_, hfile, (recovered_settled ?_ _).2⟩
    cases hx : files v.log.active.logFile with
    | none => exact ⟨File.consistent_empty, rfl⟩
    | some x => exact hsettled _ x hx

omit [Faults] in
/-- A steady log has a segment at offset zero. -/
theorem View.Steady.isSome_zero (h : v.Steady options) : (v.files (.log 0)).isSome := by
  obtain ⟨s, rest, hs⟩ : ∃ s rest, v.log.segments = s :: rest := by
    apply List.exists_cons_of_ne_nil
    exact List.append_ne_nil_of_right_ne_nil _ (List.cons_ne_nil _ _)
  have hbase : s.baseOffset = 0 := (h.intact.start s (by rw [hs]; rfl)).trans h.zero
  obtain ⟨x, hx, -⟩ := (h.intact.sits s (hs ▸ List.mem_cons_self)).holds
  rw [← hbase, show v.files (.log s.baseOffset) = some x from hx]
  rfl

/-- The log files of a steady log are opened as that log. -/
theorem View.Steady.reopens (h : v.Steady options) (hno : ∀ op, ¬ Refuses op)
    (hd : ∀ b, d.file (.log b) = v.files (.log b))
    (hcredible : ∀ b, Credible options.segment d.file b) :
    Sat (Log.open options d)
      (fun l t => (View.mk l t.file).Steady options ∧ (View.mk l t.file).frames = v.frames)
      (fun _ => False) := by
  have hwidth : options.segmentMaxBytes < 0x100000000 := h.config ▸ h.intact.width
  refine (Log.open_credible hwidth hcredible).mono (fun l t hr => ?_) ?_
  · constructor
    · apply hr.steady hno hwidth
      · intro b _
        rw [hd]
        exact h.isSome_zero
      · intro b n hn
        obtain ⟨x, hx, rfl⟩ := Option.map_eq_some_iff.1 (show logSize d.file b = some n from hn)
        exact h.length_le ((hd b).symm.trans hx)
      · intro b x hx
        exact h.settled ((hd b).symm.trans hx)
    · rw [← h.config] at hr
      have hsame := h.firm.orderly.reopened h.intact h.chained (hno _) (fun b => by rw [hd])
        (h.parse_segment (View.active_mem _)) hr
      exact hsame.1
  · rintro t ⟨-, ⟨op, hop⟩ | ⟨b, y, hy, hbad⟩⟩
    · exact hno op hop
    · rw [hd] at hy
      exact h.firm.orderly.not_hopeless h.intact (h.parse_segment (View.active_mem _))
        hy rfl (h.config.symm ▸ hbad)

/-- A directory without log files is opened as an empty log. -/
theorem Log.open_empty (hno : ∀ op, ¬ Refuses op) (hwidth : options.segmentMaxBytes < 0x100000000)
    (hnone : ∀ b, d.file (.log b) = none) :
    Sat (Log.open options d)
      (fun l t => (View.mk l t.file).Steady options ∧ (View.mk l t.file).frames = [])
      (fun _ => False) := by
  have hbytes : ∀ b, logBytes d.file b = [] := fun b => by rw [logBytes, hnone]; rfl
  have hcredible : ∀ b, Credible options.segment d.file b := fun b _ y _ =>
    trusted_of_empty (hbytes b) _ _ _
  refine (Log.open_credible hwidth hcredible).mono (fun l t hr => ?_) ?_
  · constructor
    · apply hr.steady hno hwidth
      · intro b hb
        rw [hnone] at hb
        cases hb
      · intro b n hn
        rw [logSize, hnone] at hn
        cases hn
      · intro b x hx
        rw [hnone] at hx
        cases hx
    · obtain ⟨bases, -, hrow⟩ := hr.row
      rw [View.frames_of_row, hrow]
      exact recoverRow_empty none fun b _ => hbytes b
  · rintro t ⟨-, ⟨op, hop⟩ | ⟨b, y, hy, -⟩⟩
    · exact hno op hop
    · rw [hnone] at hy
      cases hy

end Reopening

end LogEngine.Storage
