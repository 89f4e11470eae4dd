import LogEngine.Storage.Steps

/-!
# Logs whose segments hold batches

`View.Intact` is the part of the log's representation that survives every refused disk
operation but a refused `remove`: the segments are in order and do not overlap, each of
them holds batches, and a file of the directory that belongs to no segment is empty.
It allows for a gap between two segments and behind the last one, as a `truncate_to` that
fails halfway leaves it.

`View.frames` are the batches of the log.  For each kind of step there is one lemma: it
keeps the log intact, and this is what it does to the batches.
-/

namespace LogEngine.Storage

open Base Io Io.Disk Verified.Fallible Verified.Tiling Verified.Framing

/-! ## Segments in a directory -/

instance : Extent Segment where
  base := Segment.baseOffset
  stop := Segment.nextOffset

namespace Segment

variable {s : Segment} {x : File} {fs : List Frame} {files files' : FileName → Option File}

/-- The segment's file is there and holds batches. -/
def Sits (s : Segment) (files : FileName → Option File) : Prop :=
  ∃ x fs, files s.logFile = some x ∧ s.Holds x fs

/-- The batches of a segment. -/
def frames (s : Segment) (files : FileName → Option File) : List Frame :=
  parse s.baseOffset (((files s.logFile).getD {}).visible.take s.sizeBytes)

theorem Holds.take_visible (h : s.Holds x fs) : x.visible.take s.sizeBytes = encode fs := by
  obtain ⟨r, hr⟩ := h.content
  rw [← hr, h.size, List.take_left]

theorem Holds.frames_eq (h : s.Holds x fs) (hx : files s.logFile = some x) :
    s.frames files = fs := by
  rw [frames, hx, Option.getD_some, h.take_visible, parse_encode h.tiles]

theorem Sits.holds (h : s.Sits files) :
    ∃ x, files s.logFile = some x ∧ s.Holds x (s.frames files) := by
  obtain ⟨x, fs, hx, hholds⟩ := h
  exact ⟨x, hx, (hholds.frames_eq hx).symm ▸ hholds⟩

theorem Sits.congr (h : s.Sits files) (heq : files' s.logFile = files s.logFile) :
    s.Sits files' := by
  obtain ⟨x, fs, hx, hholds⟩ := h
  exact ⟨x, fs, heq.trans hx, hholds⟩

theorem frames_congr (heq : files' s.logFile = files s.logFile) :
    s.frames files' = s.frames files := by
  rw [frames, heq, frames]

theorem Holds.tiles_frames (h : s.Holds x fs) : s.baseOffset ≤ s.nextOffset := by
  rw [h.next]
  exact h.tiles.le_end

theorem Sits.le (h : s.Sits files) : s.baseOffset ≤ s.nextOffset := by
  obtain ⟨x, fs, -, hholds⟩ := h
  exact hholds.tiles_frames

/-- A segment that is not empty has offsets. -/
theorem Sits.lt (h : s.Sits files) (hne : s.empty = false) : s.baseOffset < s.nextOffset := by
  obtain ⟨x, fs, -, hholds⟩ := h
  rw [hholds.next]
  cases fs with
  | nil =>
      have hsize : s.sizeBytes = 0 := hholds.size
      rw [empty, hsize] at hne
      cases hne
  | cons f fs =>
      obtain ⟨-, hlt, hrest⟩ := hholds.tiles
      exact hlt.trans_le hrest.le_end

/-- A batch lies inside its segment. -/
theorem Sits.frame_bounds (h : s.Sits files) {f : Frame} (hf : f ∈ s.frames files) :
    s.baseOffset ≤ Extent.base f ∧ Extent.base f < Extent.stop f ∧
      Extent.stop f ≤ s.nextOffset := by
  obtain ⟨x, -, hholds⟩ := h.holds
  refine ⟨hholds.tiles.le_base hf, Proper.base_lt f, ?_⟩
  rw [hholds.next]
  exact hholds.tiles.rises.stop_le hf

end Segment

/-! ## Logs -/

namespace View

/-- The batches of the log, in order. -/
def frames (v : View) : List Frame := v.log.segments.flatMap fun s => s.frames v.files

/-- The batches of the segments before the active one. -/
def sealedFrames (v : View) : List Frame := v.log.sealed.flatMap fun s => s.frames v.files

structure Intact (v : View) : Prop where
  width : v.log.options.segmentMaxBytes < 0x100000000
  options : ∀ s ∈ v.log.segments, s.options = v.log.options.segment
  start : ∀ s ∈ v.log.segments.head?, s.baseOffset = v.log.startOffset
  rises : Rises v.log.startOffset v.log.sealed
  base : endFrom v.log.startOffset v.log.sealed ≤ v.log.active.baseOffset
  next : v.log.active.nextOffset ≤ v.log.nextOffset
  sits : ∀ s ∈ v.log.segments, s.Sits v.files
  strays : ∀ b, (∀ s ∈ v.log.segments, s.baseOffset ≠ b) → ∀ x, v.files (.log b) = some x →
    x.visible = []

theorem mem_segments {l : Log} {s : Segment} :
    s ∈ l.segments ↔ s ∈ l.sealed ∨ s = l.active := by
  rw [Log.segments, List.mem_append, List.mem_singleton]

theorem active_mem (l : Log) : l.active ∈ l.segments := mem_segments.2 (.inr rfl)

section Intact

variable {v w : View}

theorem frames_eq (v : View) : v.frames = v.sealedFrames ++ v.log.active.frames v.files := by
  rw [frames, Log.segments, List.flatMap_append, List.flatMap_singleton, sealedFrames]

theorem frames_congr (hlog : w.log.segments = v.log.segments)
    (hfiles : ∀ s ∈ v.log.segments, w.files s.logFile = v.files s.logFile) :
    w.frames = v.frames := by
  rw [frames, frames, hlog]
  exact List.flatMap_congr fun s hs => Segment.frames_congr (hfiles s hs)

/-- A segment before the active one ends no later than that begins. -/
theorem Intact.sealed_bounds (h : v.Intact) {s : Segment} (hs : s ∈ v.log.sealed) :
    s.baseOffset < s.nextOffset ∧ s.nextOffset ≤ v.log.active.baseOffset :=
  ⟨h.rises.base_lt_stop hs, (h.rises.stop_le hs).trans h.base⟩

theorem Intact.sealed_ne (h : v.Intact) {s : Segment} (hs : s ∈ v.log.sealed) :
    s.baseOffset ≠ v.log.active.baseOffset := by
  have := h.sealed_bounds hs
  omega

theorem Intact.active_sits (h : v.Intact) : v.log.active.Sits v.files := h.sits _ (active_mem _)

/-- What begins behind a log that can be rolled is not one of its segments. -/
theorem Intact.lt_next (h : v.Intact) (hne : v.log.active.empty = false) {s : Segment}
    (hs : s ∈ v.log.segments) : s.baseOffset < v.log.nextOffset := by
  have hactive := h.active_sits.lt hne
  have hnext := h.next
  rcases mem_segments.1 hs with hs | rfl
  · have := h.sealed_bounds hs
    omega
  · omega

/-- An intact log on a disk where some other file has changed. -/
theorem Intact.congr (h : v.Intact) {files : FileName → Option File}
    (hfiles : ∀ s ∈ v.log.segments, files s.logFile = v.files s.logFile)
    (hstrays : ∀ b, (∀ s ∈ v.log.segments, s.baseOffset ≠ b) → ∀ x, files (.log b) = some x →
      x.visible = []) : (View.mk v.log files).Intact :=
  { h with
    sits := fun s hs => (h.sits s hs).congr (hfiles s hs)
    strays := hstrays }

/-- An intact log whose active segment and the file of it have changed. -/
theorem Intact.replace (h : v.Intact) {seg : Segment} {y : File} {fs : List Frame}
    {nextOffset : Nat} (hbase : seg.baseOffset = v.log.active.baseOffset)
    (hoptions : seg.options = v.log.active.options) (hholds : seg.Holds y fs)
    (hnext : seg.nextOffset ≤ nextOffset) :
    (View.mk { v.log with active := seg, nextOffset := nextOffset }
      (Function.update v.files v.log.active.logFile (some y))).Intact where
  width := h.width
  options := by
    intro s hs
    rcases mem_segments.1 hs with hs | rfl
    · exact h.options s (mem_segments.2 (.inl hs))
    · exact hoptions.trans (h.options _ (active_mem _))
  start := by
    have hstart := h.start
    intro s hs
    show s.baseOffset = v.log.startOffset
    rw [Log.segments] at hstart hs
    cases hsealed : v.log.sealed with
    | nil =>
        rw [hsealed] at hstart
        rw [hsealed] at hs
        obtain rfl := Option.some.inj hs
        exact hbase.trans (hstart _ rfl)
    | cons t rest =>
        rw [hsealed] at hstart
        rw [hsealed] at hs
        exact hstart s hs
  rises := h.rises
  base := by
    show _ ≤ seg.baseOffset
    rw [hbase]
    exact h.base
  next := hnext
  sits := by
    intro s hs
    rcases mem_segments.1 hs with hs | hs
    · refine (h.sits s (mem_segments.2 (.inl hs))).congr (Function.update_of_ne ?_ ..)
      intro heq
      exact h.sealed_ne hs (FileName.log.inj heq)
    · obtain rfl : seg = s := hs.symm
      refine ⟨y, fs, ?_, hholds⟩
      show Function.update v.files v.log.active.logFile (some y) (.log seg.baseOffset) = _
      rw [hbase]
      exact Function.update_self ..
  strays := by
    intro b hb x hx
    have hne : b ≠ v.log.active.baseOffset := by
      intro heq
      exact hb seg (active_mem _) (hbase.trans heq.symm)
    refine h.strays b (fun s hs => ?_) x ?_
    · rcases mem_segments.1 hs with hs | rfl
      · exact hb s (mem_segments.2 (.inl hs))
      · exact hne.symm
    · dsimp only at hx
      rw [Function.update_of_ne] at hx
      · exact hx
      · intro heq
        exact hne (FileName.log.inj heq)

theorem Intact.replace_frames (h : v.Intact) {seg : Segment} {y : File} {fs : List Frame}
    (hholds : seg.Holds y fs) (hbase : seg.baseOffset = v.log.active.baseOffset)
    (nextOffset : Nat) :
    (View.mk { v.log with active := seg, nextOffset := nextOffset }
      (Function.update v.files v.log.active.logFile (some y))).frames = v.sealedFrames ++ fs := by
  have hself : Function.update v.files v.log.active.logFile (some y) seg.logFile = some y := by
    rw [Segment.logFile, Segment.logFile, hbase, Function.update_self]
  rw [frames_eq]
  refine congrArg₂ (· ++ ·) (List.flatMap_congr fun s hs => Segment.frames_congr ?_)
    (hholds.frames_eq hself)
  refine Function.update_of_ne (fun heq => ?_) ..
  exact h.sealed_ne hs (FileName.log.inj heq)

/-- The active segment's file, with the batches it holds. -/
theorem Intact.active_holds (h : v.Intact) :
    ∃ x, v.files v.log.active.logFile = some x ∧
      v.log.active.Holds x (v.log.active.frames v.files) :=
  h.active_sits.holds

/-! ## Quiet steps -/

/-- Another file for the active segment that begins with the same batches. -/
theorem Intact.rewritten (h : v.Intact) {y : File}
    (hy : encode (v.log.active.frames v.files) <+: y.visible) :
    (View.mk v.log (Function.update v.files v.log.active.logFile (some y))).Intact ∧
      (View.mk v.log (Function.update v.files v.log.active.logFile (some y))).frames =
        v.frames := by
  obtain ⟨x, -, hholds⟩ := h.active_holds
  have hy' := hholds.congr_file hy
  exact ⟨h.replace rfl rfl hy' h.next,
    (h.replace_frames hy' rfl v.log.nextOffset).trans (frames_eq v).symm⟩

/-- A file that no segment has is there, and empty. -/
theorem Intact.stray (h : v.Intact) {b : Nat} (hb : ∀ s ∈ v.log.segments, s.baseOffset ≠ b) :
    ((v.files (.log b)).getD {}).visible = [] := by
  cases hx : v.files (.log b) with
  | none => rfl
  | some x => exact h.strays b hb x hx

/-- A file that no segment has changes nothing, as long as it is empty. -/
theorem Intact.created (h : v.Intact) {b : Nat} (hb : ∀ s ∈ v.log.segments, s.baseOffset ≠ b)
    {y : File} (hy : y.visible = []) :
    (View.mk v.log (Function.update v.files (.log b) (some y))).Intact ∧
      (View.mk v.log (Function.update v.files (.log b) (some y))).frames = v.frames := by
  have hfiles : ∀ s ∈ v.log.segments,
      Function.update v.files (.log b) (some y) s.logFile = v.files s.logFile := by
    intro s hs
    exact Function.update_of_ne (fun heq => hb s hs (FileName.log.inj heq)) ..
  refine ⟨h.congr hfiles fun c hc x hx => ?_, frames_congr rfl hfiles⟩
  by_cases hcb : c = b
  · rw [hcb, Function.update_self] at hx
    rw [← Option.some.inj hx]
    exact hy
  · rw [Function.update_of_ne (fun heq => hcb (FileName.log.inj heq))] at hx
    exact h.strays c hc x hx

/-- A segment more, and an empty one. -/
theorem Intact.rolled (h : v.Intact) (hne : v.log.active.empty = false) {seg : Segment}
    {y : File} (hbase : seg.baseOffset = v.log.nextOffset)
    (hoptions : seg.options = v.log.options.segment) (hholds : seg.Holds y []) :
    (View.mk { v.log with sealed := v.log.segments, active := seg }
      (Function.update v.files (.log v.log.nextOffset) (some y))).Intact ∧
    (View.mk { v.log with sealed := v.log.segments, active := seg }
      (Function.update v.files (.log v.log.nextOffset) (some y))).frames = v.frames := by
  have hlt := fun s hs => h.lt_next hne (s := s) hs
  have hother : ∀ s ∈ v.log.segments,
      Function.update v.files (.log v.log.nextOffset) (some y) s.logFile = v.files s.logFile := by
    intro s hs
    refine Function.update_of_ne (fun heq => ?_) ..
    exact (hlt s hs).ne (FileName.log.inj heq)
  have hself : Function.update v.files (.log v.log.nextOffset) (some y) seg.logFile = some y := by
    rw [Segment.logFile, hbase, Function.update_self]
  have hnext : seg.nextOffset = v.log.nextOffset := by
    rw [hholds.next, endFrom_nil, hbase]
  constructor
  · refine
      { width := h.width
        options := ?_
        start := ?_
        rises := rises_snoc.2 ⟨h.rises, h.base, h.active_sits.lt hne⟩
        base := ?_
        next := hnext.le
        sits := ?_
        strays := ?_ }
    · intro s hs
      rcases mem_segments.1 hs with hs | rfl
      · exact h.options s hs
      · exact hoptions
    · intro s hs
      refine h.start s ?_
      rw [Log.segments, List.head?_append] at hs
      cases hhead : v.log.segments.head? with
      | none =>
          rw [List.head?_eq_none_iff] at hhead
          exact absurd hhead (List.append_ne_nil_of_right_ne_nil _ (List.cons_ne_nil _ _))
      | some t =>
          rw [hhead] at hs
          exact hs
    · show endFrom v.log.startOffset (v.log.sealed ++ [v.log.active]) ≤ seg.baseOffset
      rw [endFrom_append, hbase]
      exact h.next
    · intro s hs
      rcases mem_segments.1 hs with hs | hs
      · exact (h.sits s hs).congr (hother s hs)
      · obtain rfl : seg = s := hs.symm
        exact ⟨y, [], hself, hholds⟩
    · intro b hb x hx
      have hbn : b ≠ v.log.nextOffset := fun heq => hb seg (active_mem _) (hbase.trans heq.symm)
      dsimp only at hx
      rw [Function.update_of_ne (fun heq => hbn (FileName.log.inj heq))] at hx
      exact h.strays b (fun s hs => hb s (mem_segments.2 (.inl hs))) x hx
  · rw [frames_eq, hholds.frames_eq hself, List.append_nil]
    exact List.flatMap_congr fun s hs => Segment.frames_congr (hother s hs)

section Steps

variable [Faults]

/-- A quiet step keeps the log intact and its batches as they are. -/
theorem Intact.quiet (h : v.Intact) {rolls : Bool} (hs : Step v (.quiet rolls) w) :
    w.Intact ∧ w.frames = v.frames := by
  obtain ⟨x, hx, hholds⟩ := h.active_holds
  have hne : ∀ (hne : v.log.active.empty = false), ∀ s ∈ v.log.segments,
      s.baseOffset ≠ v.log.nextOffset := fun hne s hs => (h.lt_next hne hs).ne
  cases hs with
  | flush hy =>
      rw [hx, Option.some.injEq] at hy
      subst hy
      exact h.rewritten hholds.content
  | @sidecar g hs y hy =>
      have hfiles : ∀ t ∈ v.log.segments,
          Function.update v.files g.indexFile (some y) t.logFile = v.files t.logFile :=
        fun t _ => Function.update_of_ne (Segment.logFile_ne_indexFile t g) ..
      refine ⟨h.congr hfiles fun b hb y hy => ?_, frames_congr rfl hfiles⟩
      rw [Function.update_of_ne (fun heq => FileName.noConfusion heq)] at hy
      exact h.strays b hb y hy
  | roll hempty hflushed hy ho =>
      obtain ⟨rfl, hholds⟩ := ho.empty (hy ▸ h.stray (hne hempty))
      exact h.rolled hempty ho.base ho.options hholds

theorem Intact.quiets (h : v.Intact) (hs : Quiet v w) : w.Intact ∧ w.frames = v.frames := by
  induction hs with
  | refl => exact ⟨h, rfl⟩
  | tail _ hlast ih =>
      obtain ⟨hi, hframes⟩ := ih
      obtain ⟨rolls, hstep⟩ := hlast
      obtain ⟨hi', hframes'⟩ := hi.quiet hstep
      exact ⟨hi', hframes'.trans hframes⟩

/-- So does what a failed append leaves. -/
theorem Intact.spill (h : v.Intact) (hs : Step v .spill w) : w.Intact ∧ w.frames = v.frames := by
  obtain ⟨x, hx, hholds⟩ := h.active_holds
  cases hs with
  | create hempty hflushed hy hr =>
      have hne : ∀ s ∈ v.log.segments, s.baseOffset ≠ v.log.nextOffset :=
        fun s hs => (h.lt_next hempty hs).ne
      exact h.created hne (hy ▸ h.stray hne)
  | spill hy hroom ha =>
      rw [hx, Option.some.injEq] at hy
      subst hy
      exact h.rewritten (hholds.attempted ha).content

/-- An append that fails leaves the batches. -/
theorem Intact.spoilt (h : v.Intact) {size : Nat} (hs : Spoilt v size w) :
    w.Intact ∧ w.frames = v.frames := by
  obtain ⟨u, hroom, hlast⟩ := hs
  obtain ⟨hu, hframes⟩ := h.quiets hroom.quiet
  rcases hlast with rfl | hspill
  · exact ⟨hu, hframes⟩
  · obtain ⟨hw, hframes'⟩ := hu.spill hspill
    exact ⟨hw, hframes'.trans hframes⟩

/-! ## Steps that change the batches -/

theorem Intact.append (h : v.Intact) {f : Frame} (hs : Step v (.append f) w) :
    w.Intact ∧ w.frames = v.frames ++ [f] ∧ w.log.nextOffset = Extent.stop f ∧
      w.log.active.nextOffset = Extent.stop f := by
  obtain ⟨x, hx, hholds⟩ := h.active_holds
  cases hs with
  | append hy hbase hroom hcap =>
      rw [hx, Option.some.injEq] at hy
      subst hy
      have hgrown := hholds.grown hbase hroom
      refine ⟨h.replace rfl rfl hgrown le_rfl, ?_, rfl, rfl⟩
      rw [h.replace_frames hgrown rfl, frames_eq, List.append_assoc]

/-- A dropped segment takes its batches with it. -/
theorem Intact.drop (h : v.Intact) (hr : ¬ Refuses .remove) {offset : Nat}
    (hs : Step v (.drop offset) w) :
    w.Intact ∧ v.frames = w.frames ++ v.log.active.frames v.files ∧
      offset ≤ v.log.active.baseOffset ∧ w.log.nextOffset = v.log.nextOffset ∧
      w.log.startOffset = v.log.startOffset := by
  cases hs with
  | @drop init before _ y z hsealed hge hy hz =>
      obtain rfl : y = none := hy.elim id fun hy => absurd hy.2 hr
      have hmem : ∀ s, s ∈ ({ v.log with sealed := init, active := before } : Log).segments ↔
          s ∈ v.log.sealed := by
        intro s
        rw [hsealed]
        exact Iff.rfl
      have hother : ∀ s ∈ v.log.sealed, Function.update (Function.update v.files
          v.log.active.logFile none) v.log.active.indexFile z s.logFile = v.files s.logFile := by
        intro s hs
        rw [Function.update_of_ne (Segment.logFile_ne_indexFile _ _), Function.update_of_ne]
        exact fun heq => h.sealed_ne hs (FileName.log.inj heq)
      obtain ⟨hrises, hbase, -⟩ := rises_snoc.1 (hsealed ▸ h.rises)
      have hbefore := h.sealed_bounds (s := before) (hsealed ▸ List.mem_append_right _ (by simp))
      have hactive := h.active_sits.le
      have hnext := h.next
      refine ⟨?_, ?_, hge, rfl, rfl⟩
      · refine
          { width := h.width
            options := fun s hs => h.options s (mem_segments.2 (.inl ((hmem s).1 hs)))
            start := fun s hs => h.start s ?_
            rises := hrises
            base := hbase
            next := ?_
            sits := fun s hs => ?_
            strays := fun b hb x hx => ?_ }
        · rw [Log.segments, hsealed, List.head?_append]
          have hs' : (init ++ [before]).head? = some s := hs
          rw [hs']
          rfl
        · show before.nextOffset ≤ v.log.nextOffset
          omega
        · have hs' := (hmem s).1 hs
          exact (h.sits s (mem_segments.2 (.inl hs'))).congr (hother s hs')
        · dsimp only at hx
          rw [Function.update_of_ne (fun heq => FileName.noConfusion heq)] at hx
          rw [Segment.logFile] at hx
          by_cases hbb : b = v.log.active.baseOffset
          · rw [hbb, Function.update_self] at hx
            cases hx
          · rw [Function.update_of_ne (fun heq => hbb (FileName.log.inj heq))] at hx
            refine h.strays b (fun s hs => ?_) x hx
            rcases mem_segments.1 hs with hs | rfl
            · exact hb s ((hmem s).2 hs)
            · exact Ne.symm hbb
      · rw [frames_eq v]
        refine congrArg₂ (· ++ ·) ?_ rfl
        rw [frames, Log.segments, sealedFrames, hsealed]
        exact List.flatMap_congr fun s hs => (Segment.frames_congr (hother s (hsealed ▸ hs))).symm

/-- The segments that `truncate_to` drops lie behind the offset. -/
theorem Intact.drops (h : v.Intact) (hr : ¬ Refuses .remove) {offset : Nat}
    (hs : Drops offset v w) :
    w.Intact ∧ w.log.nextOffset = v.log.nextOffset ∧ w.log.startOffset = v.log.startOffset ∧
      ∃ gone, v.frames = w.frames ++ gone ∧ ∀ f ∈ gone, offset ≤ Extent.base f := by
  induction hs with
  | refl => exact ⟨h, rfl, rfl, [], (List.append_nil _).symm, by simp⟩
  | @tail u w _ hlast ih =>
      obtain ⟨hi, hnext, hstart, gone, hframes, hgone⟩ := ih
      obtain ⟨hi', hframes', hge, hnext', hstart'⟩ := hi.drop hr hlast
      refine ⟨hi', hnext'.trans hnext, hstart'.trans hstart,
        u.log.active.frames u.files ++ gone, ?_, fun f hf => ?_⟩
      · rw [hframes, hframes', List.append_assoc]
      · rcases List.mem_append.1 hf with hf | hf
        · exact hge.trans (hi.active_sits.frame_bounds hf).1
        · exact hgone f hf

omit [Faults] in
/-- The batches before the active segment. -/
theorem Intact.sealedFrames_lt (h : v.Intact) {f : Frame} (hf : f ∈ v.sealedFrames) :
    Extent.base f < v.log.active.baseOffset := by
  obtain ⟨s, hs, hf⟩ := List.mem_flatMap.1 hf
  have h₁ := (h.sits s (mem_segments.2 (.inl hs))).frame_bounds hf
  have h₂ := h.sealed_bounds hs
  omega

omit [Faults] in
/-- The first segment is never dropped. -/
theorem Intact.base_le (h : v.Intact) {offset : Nat} (hstart : v.log.startOffset ≤ offset)
    (hend : v.log.sealed = [] ∨ v.log.active.baseOffset < offset) :
    v.log.active.baseOffset ≤ offset := by
  rcases hend with hnil | hlt
  · have hhead := h.start v.log.active (by rw [Log.segments, hnil]; rfl)
    omega
  · exact hlt.le

/-- The cut leaves the batches below the offset. -/
theorem Intact.cut (h : v.Intact) {offset : Nat} (hstart : v.log.startOffset ≤ offset)
    (hend : v.log.sealed = [] ∨ v.log.active.baseOffset < offset)
    (hs : Step v (.cut offset) w) :
    w.Intact ∧ w.frames = upTo v.frames offset ∧ w.log.nextOffset = w.log.active.nextOffset ∧
      w.log.nextOffset = min v.log.active.nextOffset offset ∧
      w.log.startOffset = v.log.startOffset := by
  obtain ⟨x, hx, hholds⟩ := h.active_holds
  have hbase := h.base_le hstart hend
  have hsealed : ∀ f ∈ v.sealedFrames, Extent.base f < offset := by
    intro f hf
    have := h.sealedFrames_lt hf
    omega
  cases hs with
  | retreat hle =>
      refine ⟨{ h with next := le_rfl }, ?_, rfl, (min_eq_left hle).symm, rfl⟩
      refine (upTo_of_lt fun f hf => ?_).symm
      rw [frames_eq] at hf
      rcases List.mem_append.1 hf with hf | hf
      · exact hsealed f hf
      · have := h.active_sits.frame_bounds hf
        omega
  | @cut y fs _ hy hfs hlt hcut =>
      rw [hx, Option.some.injEq] at hy
      subst hy
      obtain rfl : v.log.active.frames v.files = fs := hfs.frames_eq hx
      have hstop := hcut.end_eq hfs.tiles hbase
      have hshort := hfs.truncated (upTo_isPrefix (v.log.active.frames v.files) offset)
      rw [hstop] at hshort
      refine ⟨h.replace rfl rfl hshort le_rfl, ?_, rfl, (min_eq_right hlt.le).symm, rfl⟩
      rw [h.replace_frames hshort rfl, frames_eq v, upTo_append_of_lt hsealed]

end Steps

end Intact

end View

/-! ## Logs without a gap -/

namespace Log

/-- Each segment begins where the one before it ended. -/
structure Linked (l : Log) : Prop where
  tiles : Tiles l.startOffset l.sealed
  joins : l.active.baseOffset = endFrom l.startOffset l.sealed

/-- Linked, and the log ends where its last segment does. -/
structure Chained (l : Log) : Prop extends Linked l where
  ends : l.nextOffset = l.active.nextOffset

section Steps

variable {v w : View} [Faults]

theorem Chained.quiet (hc : v.log.Chained) (h : v.Intact) {rolls : Bool}
    (hs : Step v (.quiet rolls) w) : w.log.Chained := by
  cases hs with
  | flush hy => exact hc
  | sidecar hs hy => exact hc
  | @roll hne hflushed x y seg hy ho =>
      obtain ⟨rfl, hholds⟩ := ho.empty (hy ▸ h.stray fun s hs => (h.lt_next hne hs).ne)
      have hlt := h.active_sits.lt hne
      have hjoins := hc.joins
      have hends := hc.ends
      have hbase := ho.base
      refine ⟨⟨?_, ?_⟩, ?_⟩
      · refine tiles_snoc.2 ⟨hc.tiles, hjoins, ?_⟩
        show endFrom v.log.startOffset v.log.sealed < v.log.active.nextOffset
        omega
      · show seg.baseOffset = endFrom _ (v.log.sealed ++ [v.log.active])
        rw [endFrom_append, hbase, hends]
        rfl
      · show v.log.nextOffset = seg.nextOffset
        rw [hholds.next, endFrom_nil, hbase]

theorem Chained.quiets (hc : v.log.Chained) (h : v.Intact) (hs : Quiet v w) : w.log.Chained := by
  induction hs with
  | refl => exact hc
  | tail hfirst hlast ih =>
      obtain ⟨rolls, hstep⟩ := hlast
      exact ih.quiet (h.quiets hfirst).1 hstep

theorem Chained.spoilt (hc : v.log.Chained) (h : v.Intact) {size : Nat} (hs : Spoilt v size w) :
    w.log.Chained := by
  obtain ⟨u, hroom, hlast⟩ := hs
  have hu := hc.quiets h hroom.quiet
  rcases hlast with rfl | hspill
  · exact hu
  · cases hspill with
    | create hne hflushed hy hr => exact hu
    | spill hy hroom ha => exact hu

theorem Chained.append (hc : v.log.Chained) {f : Frame} (hs : Step v (.append f) w) :
    w.log.Chained ∧ Extent.base f = v.log.nextOffset := by
  cases hs with
  | append hy hbase hroom hcap => exact ⟨⟨⟨hc.tiles, hc.joins⟩, rfl⟩, hbase.trans hc.ends.symm⟩

theorem Linked.drop (hc : v.log.Linked) {offset : Nat} (hs : Step v (.drop offset) w) :
    w.log.Linked := by
  cases hs with
  | drop hsealed hge hy hz =>
      obtain ⟨htiles, hbase, -⟩ := tiles_snoc.1 (hsealed ▸ hc.tiles)
      exact ⟨htiles, hbase⟩

theorem Linked.drops (hc : v.log.Linked) {offset : Nat} (hs : Drops offset v w) : w.log.Linked := by
  induction hs with
  | refl => exact hc
  | tail _ hlast ih => exact ih.drop hlast

theorem Linked.cut (hc : v.log.Linked) {offset : Nat} (hs : Step v (.cut offset) w) :
    w.log.Chained := by
  cases hs with
  | retreat hle => exact ⟨⟨hc.tiles, hc.joins⟩, rfl⟩
  | cut hy hholds hlt hcut => exact ⟨⟨hc.tiles, hc.joins⟩, rfl⟩

omit [Faults] in
/-- The batches of a log without a gap follow each other from its start to its end. -/
theorem Linked.tiles_frames (hc : v.log.Linked) (h : v.Intact) :
    Tiles v.log.startOffset v.frames ∧
      endFrom v.log.startOffset v.frames = v.log.active.nextOffset := by
  have hseg : ∀ s ∈ v.log.segments, Tiles s.baseOffset (s.frames v.files) ∧
      endFrom s.baseOffset (s.frames v.files) = s.nextOffset := by
    intro s hs
    obtain ⟨x, -, hholds⟩ := (h.sits s hs).holds
    exact ⟨hholds.tiles, hholds.next.symm⟩
  obtain ⟨htiles, hend⟩ := hc.tiles.flatMap fun s hs => hseg s (View.mem_segments.2 (.inl hs))
  obtain ⟨hactive, hlast⟩ := hseg _ (View.active_mem _)
  rw [View.frames_eq, View.sealedFrames]
  refine ⟨tiles_append.2 ⟨htiles, ?_⟩, ?_⟩
  · rw [hend, ← hc.joins]
    exact hactive
  · rw [endFrom_append, hend, ← hc.joins]
    exact hlast

end Steps

end Log

end LogEngine.Storage
