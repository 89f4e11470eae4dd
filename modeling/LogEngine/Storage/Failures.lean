import LogEngine.Storage.Consumer
import LogEngine.Storage.Leftovers

/-!
# Calls that fail

An append that fails may have rolled, and may have left bytes or a file behind; a
`truncate_to` that fails has dropped whole segments by then.  What a reader on a healthy disk
sees of a log is decided by the rows of batches of its segments (`View.rows`), and by where
the log begins and ends.  A row more without a batch, at the end, is not seen (`View.Pads`).

A failed call changes nothing that can be read, unless it is a `truncate_to` that dropped
batches before it failed (`Log.Forfeits`): the log then still claims to reach to its old end.
-/

namespace LogEngine.Storage

open Base Io Io.Disk Verified.Fallible Verified.Tiling Verified.Framing Verified.Machine

/-! ## Rows of batches -/

section Rows

variable {fs : List Frame} {rows blank : List (List Frame)} {offset : Nat}

/-- Nothing is read from batches that end before the offset. -/
theorem readFrom_below (h : ∀ f ∈ fs, Extent.stop f ≤ offset) (capacity : Nat) :
    Segment.readFrom fs offset capacity = .ok [] := by
  have hnone : after fs offset = [] := by
    apply List.dropWhile_eq_nil_iff.2
    intro f hf
    simpa using h f hf
  rw [Segment.readFrom, hnone]

private theorem readRow_below (h : ∀ fs ∈ rows, ∀ f ∈ fs, Extent.stop f ≤ offset) (capacity : Nat)
    (rest : List (List Frame)) :
    readRow offset capacity (rows ++ rest) = readRow offset capacity rest := by
  induction rows with
  | nil => rfl
  | cons fs rows ih =>
      rw [List.forall_mem_cons] at h
      rw [List.cons_append, readRow, readFrom_below h.1]
      exact ih h.2

/-- Rows without a batch at the end make no difference. -/
theorem readRow_blank (h : ∀ fs ∈ blank, fs = []) (offset capacity : Nat) :
    readRow offset capacity (rows ++ blank) = readRow offset capacity rows := by
  induction rows with
  | nil =>
      have hbelow : ∀ fs ∈ blank, ∀ f ∈ fs, Extent.stop f ≤ offset := by
        intro fs hfs f hf
        rw [h fs hfs] at hf
        cases hf
      have hread := readRow_below hbelow capacity []
      rw [List.append_nil] at hread
      exact hread
  | cons fs rows ih =>
      rw [List.cons_append, readRow, readRow, ih]

end Rows

/-! ## What a reader sees -/

namespace View

/-- The batches of the segments, a row for each. -/
def rows (v : View) : List (List Frame) := v.log.segments.map fun s => s.frames v.files

/-- The segments stand one behind another, and each has its batches. -/
structure Rising (v : View) : Prop where
  apart : v.log.segments.Pairwise fun s t =>
    s.baseOffset < t.baseOffset ∧ s.nextOffset ≤ t.baseOffset
  sits : ∀ s ∈ v.log.segments, s.Sits v.files

variable {v w u : View}

theorem Intact.rising (h : v.Intact) : v.Rising where
  apart := by
    refine List.pairwise_append.2 ⟨?_, List.pairwise_singleton _ _, ?_⟩
    · have hsorted := List.pairwise_map.1 h.rises.sorted
      exact hsorted.and h.rises.apart
    · intro s hs t ht
      obtain rfl := List.mem_singleton.1 ht
      have hbounds := h.sealed_bounds hs
      omega
  sits := h.sits

theorem Rising.next_le (h : v.Rising) {offset : Nat} {s : Segment}
    (hs : s ∈ v.log.segments.take
      ((v.log.segments.takeWhile fun s => s.baseOffset ≤ offset).length - 1)) :
    s.nextOffset ≤ offset := by
  have hsplit := List.takeWhile_append_dropWhile
    (p := fun s : Segment => decide (s.baseOffset ≤ offset)) (l := v.log.segments)
  rcases List.eq_nil_or_concat
    (v.log.segments.takeWhile fun s => decide (s.baseOffset ≤ offset)) with hnil | ⟨q, t, hq⟩
  · rw [hnil] at hs
    cases hs
  · -- the segments that begin at or before the offset, and the last of them
    rw [List.concat_eq_append] at hq
    have ht : t ∈ v.log.segments.takeWhile fun s => decide (s.baseOffset ≤ offset) :=
      hq ▸ List.mem_append_right q (List.mem_singleton.2 rfl)
    have hle : t.baseOffset ≤ offset := by simpa using List.mem_takeWhile_imp ht
    have hapart := h.apart
    rw [hq] at hs hsplit
    rw [← hsplit, List.append_assoc, List.length_append, List.length_singleton,
      Nat.add_sub_cancel, List.take_left] at hs
    rw [← hsplit, List.append_assoc] at hapart
    have hst := (List.pairwise_append.1 hapart).2.2 s hs t
      (List.mem_append_left _ List.mem_cons_self)
    omega

/-- Segments that end before the one a read begins with are passed over. -/
theorem Rising.reads_eq (h : v.Rising) (offset capacity : Nat) :
    v.log.reads v.files offset capacity =
      if v.log.nextOffset ≤ offset then .ok []
      else if offset < v.log.startOffset then .error .offsetOutOfRange
      else readRow offset capacity v.rows := by
  have hrow : readRow offset capacity ((v.log.segmentsFrom offset).map fun s => s.frames v.files) =
      readRow offset capacity v.rows := by
    rw [Log.segmentsFrom_eq (h.apart.imp fun hst => hst.1.le), rows]
    generalize hk : (v.log.segments.takeWhile fun s => s.baseOffset ≤ offset).length - 1 = k
    have hbelow : ∀ fs ∈ (v.log.segments.take k).map fun s => s.frames v.files, ∀ f ∈ fs,
        Extent.stop f ≤ offset := by
      intro fs hfs f hf
      obtain ⟨s, hs, rfl⟩ := List.mem_map.1 hfs
      have hbounds := (h.sits s (List.mem_of_mem_take hs)).frame_bounds hf
      have hnext := h.next_le (hk ▸ hs)
      omega
    calc readRow offset capacity ((v.log.segments.drop k).map fun s => s.frames v.files)
        = readRow offset capacity (((v.log.segments.take k).map fun s => s.frames v.files) ++
            (v.log.segments.drop k).map fun s => s.frames v.files) :=
          (readRow_below hbelow capacity _).symm
      _ = readRow offset capacity (v.log.segments.map fun s => s.frames v.files) := by
          rw [← List.map_append, List.take_append_drop]
  rw [Log.reads, hrow]

/-- On a healthy disk a read hands back just that. -/
theorem Rising.read_outcome (h : v.Rising) {d : Disk} (hd : d.file = v.files)
    (offset capacity : Nat) :
    outcome (@Log.read healthy v.log offset capacity d) = v.log.reads v.files offset capacity := by
  have hends := @Log.read_ends healthy d v.log
    (fun s hs => hd ▸ (h.sits s hs).readable) offset capacity
  rw [hd] at hends
  cases hr : @Log.read healthy v.log offset capacity d with
  | ok bytes t =>
      rw [hr] at hends
      exact hends.2.symm
  | error e t =>
      rw [hr] at hends
      rcases hends.2 with hrefused | herror
      · exact absurd hrefused (not_refuses_healthy _)
      · exact herror.symm

/-- As far as a reader is concerned, `w` is `v`: it may have more segments at its end, but
there are no batches in them. -/
structure Pads (v w : View) : Prop where
  start : w.log.startOffset = v.log.startOffset
  next : w.log.nextOffset = v.log.nextOffset
  rows : ∃ blank, (∀ fs ∈ blank, fs = []) ∧ w.rows = v.rows ++ blank

theorem Pads.refl (v : View) : Pads v v := by
  refine ⟨rfl, rfl, [], List.forall_mem_nil _, ?_⟩
  rw [List.append_nil]

theorem Pads.trans (h : Pads v w) (h' : Pads w u) : Pads v u := by
  obtain ⟨blank, hblank, hrows⟩ := h.rows
  obtain ⟨blank', hblank', hrows'⟩ := h'.rows
  refine ⟨h'.start.trans h.start, h'.next.trans h.next, blank ++ blank', ?_, ?_⟩
  · intro fs hfs
    exact (List.mem_append.1 hfs).elim (hblank fs) (hblank' fs)
  · rw [hrows', hrows, List.append_assoc]

theorem Pads.reads_eq (h : Pads v w) (hv : v.Rising) (hw : w.Rising) (offset capacity : Nat) :
    w.log.reads w.files offset capacity = v.log.reads v.files offset capacity := by
  obtain ⟨blank, hblank, hrows⟩ := h.rows
  rw [hv.reads_eq, hw.reads_eq, h.start, h.next, hrows, readRow_blank hblank]

/-- The same segments, with the same batches. -/
theorem pads_of_frames (hlog : w.log = v.log)
    (hframes : ∀ s ∈ v.log.segments, s.frames w.files = s.frames v.files) : Pads v w := by
  refine ⟨by rw [hlog], by rw [hlog], [], List.forall_mem_nil _, ?_⟩
  unfold View.rows
  rw [hlog, List.append_nil]
  exact List.map_congr_left hframes

/-! ## Appends that fail -/

section Appends

/-- Bytes behind the batches of the active segment are not seen. -/
theorem Intact.pads_rewritten (h : v.Intact) {y : File}
    (hy : encode (v.log.active.frames v.files) <+: y.visible) :
    Pads v ⟨v.log, Function.update v.files v.log.active.logFile (some y)⟩ := by
  refine pads_of_frames rfl fun s hs => ?_
  rcases mem_segments.1 hs with hsealed | rfl
  · refine Segment.frames_congr (Function.update_of_ne (fun heq => ?_) ..)
    exact h.sealed_ne hsealed (FileName.log.inj heq)
  · obtain ⟨x, -, hholds⟩ := h.active_holds
    exact (hholds.congr_file hy).frames_eq (Function.update_self ..)

theorem Intact.frames_created (h : v.Intact) (hne : v.log.active.empty = false) {s : Segment}
    (hs : s ∈ v.log.segments) (y : Option File) :
    s.frames (Function.update v.files (.log v.log.nextOffset) y) = s.frames v.files := by
  refine Segment.frames_congr (Function.update_of_ne (fun heq => ?_) ..)
  exact (h.lt_next hne hs).ne (FileName.log.inj heq)

variable [Faults]

theorem Intact.pads_quiet (h : v.Intact) {rolls : Bool} (hs : Step v (.quiet rolls) w) :
    Pads v w := by
  obtain ⟨x, hx, hholds⟩ := h.active_holds
  cases hs with
  | flush hy =>
      rw [hx, Option.some.injEq] at hy
      subst hy
      exact h.pads_rewritten hholds.content
  | @sidecar g hg y hy =>
      refine pads_of_frames rfl fun s _ => ?_
      have hfile : Function.update v.files g.indexFile (some y) s.logFile = v.files s.logFile :=
        Function.update_of_ne (Segment.logFile_ne_indexFile s g) ..
      exact Segment.frames_congr hfile
  | @roll hempty hflushed x y seg hy ho =>
      have hne : ∀ s ∈ v.log.segments, s.baseOffset ≠ v.log.nextOffset :=
        fun s hs => (h.lt_next hempty hs).ne
      obtain ⟨rfl, hblank⟩ := ho.empty (hy ▸ h.stray hne)
      have hseg : seg.frames (Function.update v.files (.log v.log.nextOffset) (some y)) = [] := by
        apply hblank.frames_eq
        rw [Segment.logFile, ho.base, Function.update_self]
      refine ⟨rfl, rfl, [[]], ?_, ?_⟩
      · simp
      · have hsame := List.map_congr_left fun s hs => h.frames_created hempty (s := s) hs (some y)
        show (v.log.segments ++ [seg]).map
          (fun s => s.frames (Function.update v.files (.log v.log.nextOffset) (some y))) = _
        rw [List.map_append, List.map_singleton, hseg, hsame]
        rfl

theorem Intact.pads_quiets (h : v.Intact) (hs : Quiet v w) : Pads v w := by
  induction hs with
  | refl => exact .refl v
  | tail hquiet hlast ih =>
      obtain ⟨rolls, hstep⟩ := hlast
      exact ih.trans ((h.quiets hquiet).1.pads_quiet hstep)

theorem Intact.pads_spill (h : v.Intact) (hs : Step v .spill w) : Pads v w := by
  obtain ⟨x, hx, hholds⟩ := h.active_holds
  cases hs with
  | create hempty hflushed hy hr =>
      exact pads_of_frames rfl fun s hs => h.frames_created hempty hs _
  | spill hy hroom ha =>
      rw [hx, Option.some.injEq] at hy
      subst hy
      exact h.pads_rewritten (hholds.attempted ha).content

/-- An append that fails is not seen. -/
theorem Intact.pads_spoilt (h : v.Intact) {size : Nat} (hs : Spoilt v size w) : Pads v w := by
  obtain ⟨u, hroom, rfl | hspill⟩ := hs
  · exact h.pads_quiets hroom.quiet
  · exact (h.pads_quiets hroom.quiet).trans ((h.quiets hroom.quiet).1.pads_spill hspill)

end Appends

end View

/-! ## Truncations that fail -/

theorem Drops.start [Faults] {v w : View} {offset : Nat} (h : Drops offset v w) :
    w.log.startOffset = v.log.startOffset := by
  induction h with
  | refl => rfl
  | tail _ hlast ih =>
      cases hlast with
      | drop hsealed hge hy hz => exact ih

namespace View

section Truncations

variable {v w : View} [Faults] {offset : Nat}

/-- The files of the segments that are kept stay as they are. -/
theorem Rising.drop_files (h : v.Rising) (hs : Drops offset v w) :
    ∀ s ∈ w.log.segments, w.files s.logFile = v.files s.logFile := by
  induction hs with
  | refl => exact fun _ _ => rfl
  | @tail u w hdrops hlast ih =>
      obtain ⟨-, gone, hsegments, -⟩ := Drops.segments hdrops
      have hapart := h.apart
      rw [hsegments] at hapart
      have hactive := List.pairwise_append.1 (List.pairwise_append.1 hapart).1
      cases hlast with
      | @drop init before _ y z hsealed hge hy hz =>
          intro s hs
          have hmem : s ∈ u.log.sealed := hsealed ▸ hs
          have hlt := hactive.2.2 s hmem u.log.active (List.mem_singleton.2 rfl)
          dsimp only
          rw [Function.update_of_ne (Segment.logFile_ne_indexFile s _), Function.update_of_ne]
          · exact ih s (mem_segments.2 (.inl hmem))
          · exact fun heq => hlt.1.ne (FileName.log.inj heq)

theorem Rising.drops (h : v.Rising) (hs : Drops offset v w) : w.Rising := by
  obtain ⟨-, gone, hsegments, -⟩ := hs.segments
  constructor
  · have hapart := h.apart
    rw [hsegments] at hapart
    exact (List.pairwise_append.1 hapart).1
  · intro s hmem
    refine (h.sits s ?_).congr (h.drop_files hs s hmem)
    rw [hsegments]
    exact List.mem_append_left gone hmem

/-- The rows of a log whose last segments were dropped. -/
theorem Rising.drop_rows (h : v.Rising) (hs : Drops offset v w) {gone : List Segment}
    (hgone : v.log.segments = w.log.segments ++ gone) :
    v.rows = w.rows ++ gone.map fun s => s.frames v.files := by
  unfold rows
  rw [hgone, List.map_append]
  congr 1
  exact List.map_congr_left fun s hmem => (Segment.frames_congr (h.drop_files hs s hmem)).symm

omit [Faults] in
theorem Intact.start_le (h : v.Intact) {s : Segment} (hs : s ∈ v.log.segments) :
    v.log.startOffset ≤ s.baseOffset := by
  rcases mem_segments.1 hs with hsealed | rfl
  · exact h.rises.le_base hsealed
  · exact h.rises.le_end.trans h.base

/-- A `truncate_to` that fails without having dropped a batch is not seen. -/
theorem Intact.pads_popped (h : v.Intact) (hp : Call.Popped v offset w)
    (hkept : ¬ v.log.Forfeits offset) : Pads w v := by
  obtain ⟨hnext, gone, hsegments, -⟩ := hp.drops.segments
  have hend : v.log.nextOffset ≤ w.log.active.nextOffset := by
    rw [hp.active_eq]
    exact Nat.not_lt.1 fun hlt => hkept ⟨hp.start, hp.next, hlt⟩
  have hapart := h.rising.apart
  rw [hsegments] at hapart
  refine ⟨hp.drops.start.symm, hnext.symm, _, ?_, h.rising.drop_rows hp.drops hsegments⟩
  intro fs hfs
  obtain ⟨s, hs, rfl⟩ := List.mem_map.1 hfs
  -- a batch of a dropped segment would begin behind the end of the log
  have hs' : s ∈ v.log.segments := hsegments ▸ List.mem_append_right _ hs
  have hbase := ((List.pairwise_append.1 hapart).2.2 _ (active_mem _) s hs).2
  refine List.eq_nil_iff_forall_not_mem.2 fun f hf => ?_
  have hinside := (h.sits s hs').frame_bounds hf
  have hlt := h.frame_lt (List.mem_flatMap.2 ⟨s, hs', hf⟩)
  omega

/-- One that has dropped batches is: at the end of what is left, nothing can be read any
more. -/
theorem Intact.reads_forfeited (h : v.Intact) (hc : v.log.Chained) (hp : Call.Popped v offset w)
    (hkept : v.log.Forfeits offset) :
    ∃ capacity, w.log.reads w.files w.log.active.nextOffset capacity ≠
      v.log.reads v.files w.log.active.nextOffset capacity := by
  obtain ⟨hnext, gone, hsegments, -⟩ := hp.drops.segments
  have hlt : w.log.active.nextOffset < v.log.nextOffset := by
    rw [hp.active_eq]
    exact hkept.2.2
  have hrising := h.rising.drops hp.drops
  have hmem : w.log.active ∈ v.log.segments := hsegments ▸ List.mem_append_left _ (active_mem _)
  have hstart : v.log.startOffset ≤ w.log.active.nextOffset :=
    (h.start_le hmem).trans (h.sits _ hmem).le
  -- before the call there is a batch
  obtain ⟨before, s, later, p, f, r, hsplit, hframes, hlo, hhi, hfrom⟩ :=
    (serves h hc).covering hstart hlt
  have hs : s ∈ v.log.segments := hsplit ▸ List.mem_append_right _ List.mem_cons_self
  have hread := Log.reads_cover (serves h hc) hs hstart hlt hfrom hframes hlo hhi f.bytes.length
  rw [if_neg (Nat.lt_irrefl _)] at hread
  -- and afterwards all batches end there
  have hbelow : ∀ fs ∈ w.rows, ∀ g ∈ fs, Extent.stop g ≤ w.log.active.nextOffset := by
    intro fs hfs g hg
    obtain ⟨t, ht, rfl⟩ := List.mem_map.1 hfs
    have hbounds := (hrising.sits t ht).frame_bounds hg
    rcases mem_segments.1 ht with hsealed | rfl
    · have hbase := ((List.pairwise_append.1 hrising.apart).2.2 t hsealed _
        (List.mem_singleton.2 rfl)).2
      have hle := (hrising.sits _ (active_mem _)).le
      omega
    · exact hbounds.2.2
  have hnone := readRow_below hbelow f.bytes.length []
  rw [List.append_nil] at hnone
  have hstart' : ¬ w.log.active.nextOffset < w.log.startOffset := by
    rw [hp.drops.start]
    exact Nat.not_lt.2 hstart
  have hlt' : ¬ w.log.nextOffset ≤ w.log.active.nextOffset := by omega
  refine ⟨f.bytes.length, ?_⟩
  rw [hread, hrising.reads_eq, if_neg hlt', if_neg hstart', hnone]
  intro heq
  exact Segment.fitting_ne_nil (Nat.lt_irrefl f.bytes.length) r
    (encode_eq_nil.1 (Except.ok.inj heq).symm)

end Truncations

end View

/-! ## Any call -/

namespace Store

variable [Faults] {s t : Store} {call : Call} {e : ErrorCode}

private theorem run_of_intact (h : s.view.Intact) (call : Call) :
    Sat (call.run s) (fun _ t => call.Done s.view t.view) (fun t => call.Undone s.view t.view) := by
  obtain ⟨x, hx, -⟩ := h.active_holds
  exact Call.run_sat (s := s) h.width ⟨x, hx⟩ call fun offset w _ hw =>
    (h.rising.drops hw.drops).sits _ (View.active_mem _)

/-- What a call has done to an intact log, whatever was refused. -/
theorem done_of_ok (h : s.view.Intact) (hok : call.run s = .ok () t) :
    call.Done s.view t.view := by
  have hrun := run_of_intact h call
  rw [hok] at hrun
  exact hrun

/-- And what a failed call may have done. -/
theorem undone_of_error (h : s.view.Intact) (hfail : call.run s = .error e t) :
    call.Undone s.view t.view := by
  have hrun := run_of_intact h call
  rw [hfail] at hrun
  exact hrun

/-- A failed `truncate_to` inside the log has dropped what it drops. -/
theorem popped_of_error (h : s.view.Intact) {offset : Nat}
    (hfail : (Call.truncateTo offset).run s = .error e t) (hstart : s.log.startOffset ≤ offset)
    (hnext : offset < s.log.nextOffset) : Call.Popped s.view offset t.view := by
  have hinside := Log.truncateTo_inside (s := s) hstart hnext fun w hw _ =>
    (h.rising.drops hw).sits _ (View.active_mem _)
  have hrun : Log.truncateTo offset s = .error e t := hfail
  rw [hrun] at hinside
  exact ⟨hstart, hnext, hinside.1, hinside.2⟩

end Store

/-- The log ends at the same offset, and on a healthy disk every read hands back the same. -/
def Store.ReadsAs (s t : Store) : Prop :=
  t.log.nextOffset = s.log.nextOffset ∧ ∀ offset capacity,
    outcome (@Log.read healthy t.log offset capacity t.disk) =
      outcome (@Log.read healthy s.log offset capacity s.disk)

theorem Store.readsAs_of_reads {s t : Store} (hs : s.view.Rising) (ht : t.view.Rising)
    (hnext : t.log.nextOffset = s.log.nextOffset)
    (hreads : ∀ offset capacity, t.log.reads t.disk.file offset capacity =
      s.log.reads s.disk.file offset capacity) : s.ReadsAs t := by
  refine ⟨hnext, fun offset capacity => ?_⟩
  exact (ht.read_outcome (d := t.disk) rfl offset capacity).trans
    ((hreads offset capacity).trans (hs.read_outcome (d := s.disk) rfl offset capacity).symm)

/-- A failed call that is no `truncate_to`, or one that drops no batch, is not seen. -/
theorem Store.readsAs_of_error [Faults] {s t : Store} {call : Call} {e : ErrorCode}
    (h : s.view.Intact) (hfail : call.run s = .error e t)
    (hkept : ∀ offset, call = .truncateTo offset → ¬ s.log.Forfeits offset) : s.ReadsAs t := by
  have hundone := undone_of_error h hfail
  have hsame : t.view = s.view → s.ReadsAs t := fun heq =>
    readsAs_of_reads h.rising (heq ▸ h.rising) (congrArg (fun v => v.log.nextOffset) heq)
      fun offset capacity => congrArg (fun v : View => v.log.reads v.files offset capacity) heq
  have hpads : t.view.Rising → View.Pads s.view t.view → s.ReadsAs t := fun ht hp =>
    readsAs_of_reads h.rising ht hp.next (hp.reads_eq h.rising ht)
  cases call with
  | append builder info => exact hpads (h.spoilt hundone).1.rising (h.pads_spoilt hundone)
  | appendReplicated framed => exact hpads (h.spoilt hundone).1.rising (h.pads_spoilt hundone)
  | truncateTo offset =>
      rcases hundone with heq | hpopped
      · exact hsame heq
      · have ht := h.rising.drops hpopped.drops
        have hp := h.pads_popped hpopped (hkept offset rfl)
        exact readsAs_of_reads h.rising ht hp.next.symm fun offset capacity =>
          (hp.reads_eq ht h.rising offset capacity).symm
  | fsync => exact hsame hundone
  | flushIndexes =>
      have hquiet := Syncs.quiet hundone
      exact hpads (h.quiets hquiet).1.rising (h.pads_quiets hquiet)
  | read offset capacity => exact hsame hundone

namespace Log

/-- The states of a run in which no `truncate_to` fails once it has dropped batches. -/
theorem intact_of_sparing {faults : Faults} {options : LogOptions} {d d' : Disk} {l : Log}
    {s : Store} (hwidth : options.segmentMaxBytes < 0x100000000)
    (hcredible : ∀ b, Credible options.segment d.file b) (hremove : ¬ @Refuses faults .remove)
    (hopen : @Log.open faults options d = .ok l d')
    (hrun : Runs Store.next Store.Sparing ⟨l, d'⟩ s) : s.view.Intact ∧ s.log.Chained := by
  have hstart := @Log.open_credible faults d options hwidth hcredible
  rw [hopen] at hstart
  exact hrun.invariant (I := fun s => s.view.Intact ∧ s.log.Chained)
    ⟨hstart.intact hwidth hremove, hstart.chained⟩
    fun _ _ _ h hn ha => Store.next_sparing h.1 h.2 ha hn

/-- A failed call changes nothing that can be read, unless it is a `truncate_to` that has
dropped batches. -/
theorem failed_call_iff {opening : Faults} {options : LogOptions} {d d' : Disk} {l : Log}
    {s : Store} (hwidth : options.segmentMaxBytes < 0x100000000)
    (hcredible : ∀ b, Credible options.segment d.file b) (hremove : ¬ @Refuses opening .remove)
    (hopen : @Log.open opening options d = .ok l d')
    (hrun : Runs Store.next Store.Sparing ⟨l, d'⟩ s) {faults : Faults} {call : Call}
    {e : ErrorCode} {t : Store} (hfail : @Call.run faults call s = .error e t) :
    s.ReadsAs t ↔ ∀ offset, call = .truncateTo offset → ¬ s.log.Forfeits offset := by
  obtain ⟨hi, hc⟩ := intact_of_sparing hwidth hcredible hremove hopen hrun
  constructor
  · rintro ⟨-, hreads⟩ offset rfl hforfeits
    have hpopped := Store.popped_of_error hi hfail hforfeits.1 hforfeits.2.1
    obtain ⟨capacity, hne⟩ := hi.reads_forfeited hc hpopped hforfeits
    have ht := hi.rising.drops hpopped.drops
    apply hne
    exact (ht.read_outcome (d := t.disk) rfl _ capacity).symm.trans
      ((hreads _ capacity).trans (hi.rising.read_outcome (d := s.disk) rfl _ capacity))
  · exact Store.readsAs_of_error hi hfail

/-- Two records that make up one batch. -/
def lowerTwo : BatchBuilder := { records := [[20], [21]] }

/-- A record for a segment of its own. -/
def upperOne : BatchBuilder := { records := [[22]] }

private theorem exists_rolled {p : Store → Bool}
    (h : (begun { segmentMaxBytes := 100 }
      [.append lowerTwo {}, .append upperOne {}]).any p = true) :
    ∃ l d s, @Log.open healthy { segmentMaxBytes := 100 } {} = .ok l d ∧
      Runs Store.next Store.Sparing ⟨l, d⟩ s ∧ p s = true := by
  apply exists_of_begun _ _ _ _ h
  intro c _ s t hrun offset _
  exact ⟨not_refuses_healthy _, .inl ⟨t, hrun⟩⟩

/-- What `truncate_to` answers. -/
def refusal (offset : Nat) (s : Store) : Option (ErrorCode × Store) :=
  match @Call.run healthy (.truncateTo offset) s with
  | .ok _ _ => none
  | .error e t => some (e, t)

private theorem refusal_eq {offset : Nat} {s t : Store} {e : ErrorCode}
    (h : refusal offset s = some (e, t)) :
    @Call.run healthy (.truncateTo offset) s = .error e t := by
  unfold refusal at h
  split at h
  · cases h
  · rename_i hrun
    cases h
    exact hrun

/-- An offset behind the end of the log is refused, and nothing happens. -/
theorem failed_call_behind : ∃ s t : Store,
    @Call.run healthy (.truncateTo 4) s = .error .invalidArgument t ∧ s.log.nextOffset = 3 ∧
      s.ReadsAs t := by
  obtain ⟨l, d, s, hopen, hrun, hs⟩ := exists_rolled (p := fun s =>
    s.log.nextOffset == 3 && (refusal 4 s).any fun r => r.1 == .invalidArgument) (by decide +kernel)
  rw [Bool.and_eq_true, beq_iff_eq] at hs
  obtain ⟨⟨e, t⟩, hrefusal, he⟩ := (Option.any_eq_true _ _).1 hs.2
  obtain rfl : e = .invalidArgument := beq_iff_eq.1 he
  have hfail := refusal_eq hrefusal
  refine ⟨s, t, hfail, hs.1, (failed_call_iff (by decide) (Blank.credible ?_ _)
    (not_refuses_healthy _) hopen hrun hfail).2 ?_⟩
  · intro b y hy
    cases hy
  · rintro offset heq ⟨-, hlt, -⟩
    cases heq
    omega

/-- An offset inside the first batch is refused as well, but the second batch is gone by
then. -/
theorem failed_truncation_forfeits : ∃ (l : Log) (d : Disk) (s t : Store),
    @Log.open healthy { segmentMaxBytes := 100 } {} = .ok l d ∧
      Runs Store.next Store.Sparing ⟨l, d⟩ s ∧
      @Call.run healthy (.truncateTo 1) s = .error .invalidArgument t ∧
      outcome (@read healthy s.log 2 100 s.disk) = .ok (upperOne.finish 2 {}) ∧
      outcome (@read healthy t.log 2 100 t.disk) = .ok [] ∧
      s.log.nextOffset = 3 ∧ t.log.nextOffset = 3 := by
  obtain ⟨l, d, s, hopen, hrun, hs⟩ := exists_rolled (p := fun s =>
    decide (outcome (@read healthy s.log 2 100 s.disk) = .ok (upperOne.finish 2 {}) ∧
      s.log.nextOffset = 3) && (refusal 1 s).any fun r : ErrorCode × Store =>
        decide (r.1 = .invalidArgument ∧
      outcome (@read healthy r.2.log 2 100 r.2.disk) = .ok [] ∧ r.2.log.nextOffset = 3))
    (by decide +kernel)
  rw [Bool.and_eq_true, decide_eq_true_eq] at hs
  obtain ⟨⟨hbefore, hnext⟩, hrefused⟩ := hs
  obtain ⟨⟨e, t⟩, hrefusal, hafter⟩ := (Option.any_eq_true _ _).1 hrefused
  obtain ⟨rfl, hgone, hnext'⟩ := of_decide_eq_true hafter
  exact ⟨l, d, s, t, hopen, hrun, refusal_eq hrefusal, hbefore, hgone, hnext, hnext'⟩

end Log

end LogEngine.Storage
