import LogEngine.Storage.Intact

/-!
# Reading from a log

`Log::read` looks for the offset in the segments one after another.  What it hands back is
a function of the batches that the segments hold, `Log.reads`, up to refused reads of the
disk.
-/

namespace LogEngine.Storage

open Base Io Io.Disk Verified.Fallible Verified.Tiling Verified.Framing Verified.Bisection

/-- The first row of batches that has something at the offset or behind it. -/
def readRow (offset capacity : Nat) : List (List Frame) → Except ErrorCode Bytes
  | [] => .ok []
  | fs :: rest =>
      match Segment.readFrom fs offset capacity with
      | .error e => .error e
      | .ok bytes => if bytes = [] then readRow offset capacity rest else .ok bytes

private theorem mem_of_readFrom {fs : List Frame} {offset capacity : Nat} {bytes : Bytes}
    (h : Segment.readFrom fs offset capacity = .ok bytes) :
    ∃ gs, bytes = encode gs ∧ ∀ f ∈ gs, f ∈ fs := by
  unfold Segment.readFrom at h
  split at h
  · cases h
    exact ⟨[], rfl, by simp⟩
  case h_2 f r hafter =>
    split at h
    · cases h
    · cases h
      refine ⟨_, rfl, fun g hg => ?_⟩
      have hmem : g ∈ after fs offset :=
        hafter ▸ (Segment.fitting_isPrefix capacity (f :: r)).subset hg
      exact (List.dropWhile_sublist _).subset hmem

/-- A read hands back whole batches of the log. -/
theorem mem_of_readRow {rows : List (List Frame)} {offset capacity : Nat} {bytes : Bytes}
    (h : readRow offset capacity rows = .ok bytes) :
    ∃ gs, bytes = encode gs ∧ ∀ f ∈ gs, ∃ fs ∈ rows, f ∈ fs := by
  induction rows with
  | nil =>
      cases h
      exact ⟨[], rfl, by simp⟩
  | cons fs rest ih =>
      unfold readRow at h
      split at h
      · cases h
      case h_2 hfrom =>
        split at h
        · obtain ⟨gs, hbytes, hgs⟩ := ih h
          refine ⟨gs, hbytes, fun f hf => ?_⟩
          obtain ⟨fs', hfs', hf'⟩ := hgs f hf
          exact ⟨fs', List.mem_cons_of_mem _ hfs', hf'⟩
        · cases h
          obtain ⟨gs, hbytes, hgs⟩ := mem_of_readFrom hfrom
          exact ⟨gs, hbytes, fun f hf => ⟨fs, List.mem_cons_self, hgs f hf⟩⟩

/-- The segment's file is there and holds batches, whatever the segment's options are: no
read looks at them. -/
def Segment.Readable (s : Segment) (files : FileName → Option File) : Prop :=
  ∃ options, ({ s with options := options } : Segment).Sits files

theorem Segment.Sits.readable {s : Segment} {files : FileName → Option File} (h : s.Sits files) :
    s.Readable files :=
  ⟨s.options, h⟩

theorem Segment.findBatch_options [Faults] (s : Segment) (options : SegmentOptions)
    (want fuel pos : Nat) :
    ({ s with options := options } : Segment).findBatch want fuel pos =
      s.findBatch want fuel pos := by
  induction fuel generalizing pos with
  | zero => rfl
  | succ fuel ih =>
      unfold findBatch
      simp only [ih]
      rfl

theorem Segment.read_options [Faults] (s : Segment) (options : SegmentOptions)
    (offset capacity : Nat) :
    ({ s with options := options } : Segment).read offset capacity = s.read offset capacity := by
  unfold read
  simp only [findBatch_options]
  rfl

theorem Segment.Readable.read_ends [Faults] {s : Segment} {d : Disk} (h : s.Readable d.file)
    (offset capacity : Nat) :
    Ends (s.read offset capacity d)
      (fun bytes t => t.file = d.file ∧ readFrom (s.frames d.file) offset capacity = .ok bytes)
      (fun e t => t.file = d.file ∧
        (Refuses .pread ∨ readFrom (s.frames d.file) offset capacity = .error e)) := by
  obtain ⟨options, hsits⟩ := h
  obtain ⟨x, hx, hholds⟩ := hsits.holds
  rw [← s.read_options options]
  exact Segment.read_ends hholds hx offset capacity

namespace Log

/-- Of segments that are sorted, those from the last one that begins at or before `offset`
on. -/
theorem segmentsFrom_eq {l : Log}
    (h : l.segments.Pairwise fun s t => s.baseOffset ≤ t.baseOffset) (offset : Nat) :
    l.segmentsFrom offset =
      l.segments.drop ((l.segments.takeWhile fun s => s.baseOffset ≤ offset).length - 1) := by
  have hle : (fun s : Segment => !decide (offset < s.baseOffset)) =
      fun s => decide (s.baseOffset ≤ offset) := by
    funext s
    rw [← decide_not]
    simp only [not_lt]
  have hpart : Partitioned (fun s : Segment => decide (s.baseOffset ≤ offset)) l.segments := by
    refine h.imp fun hst ht => ?_
    rw [decide_eq_true_eq] at ht ⊢
    exact hst.trans ht
  rw [segmentsFrom, hle, partitionPoint_eq hpart]

/-- What a read is to hand back. -/
def reads (l : Log) (files : FileName → Option File) (offset capacity : Nat) :
    Except ErrorCode Bytes :=
  if l.nextOffset ≤ offset then .ok []
  else if offset < l.startOffset then .error .offsetOutOfRange
  else readRow offset capacity ((l.segmentsFrom offset).map fun s => s.frames files)

section Operations

variable [Faults] {d : Disk}

private theorem readSegments_ends (offset capacity : Nat) {segments : List Segment} {d : Disk}
    (h : ∀ s ∈ segments, s.Readable d.file) :
    Ends (readSegments offset capacity segments d)
      (fun bytes t => t.file = d.file ∧
        readRow offset capacity (segments.map fun s => s.frames d.file) = .ok bytes)
      (fun e t => t.file = d.file ∧ (Refuses .pread ∨
        readRow offset capacity (segments.map fun s => s.frames d.file) = .error e)) := by
  induction segments generalizing d with
  | nil => exact ⟨rfl, rfl⟩
  | cons s rest ih =>
      rw [List.map_cons, readRow]
      refine (((h s List.mem_cons_self).read_ends offset capacity).mono
        (fun _ _ ht => ht) ?_).bind ?_
      · rintro e t ⟨ht, hr | herr⟩
        · exact ⟨ht, .inl hr⟩
        · refine ⟨ht, .inr ?_⟩
          rw [herr]
      rintro bytes t ⟨ht, hok⟩
      rw [hok]
      refine Ends.ite (fun hnil => ?_) fun hne => ⟨ht, if_neg hne⟩
      have hrest := ih (d := t) fun g hg => ht ▸ h g (List.mem_cons_of_mem _ hg)
      dsimp only
      rw [if_pos hnil]
      rw [ht] at hrest
      exact hrest

/-- `read` on a log whose segments hold batches. -/
theorem read_ends {l : Log} (h : ∀ s ∈ l.segments, s.Readable d.file) (offset capacity : Nat) :
    Ends (l.read offset capacity d)
      (fun bytes t => t.file = d.file ∧ l.reads d.file offset capacity = .ok bytes)
      (fun e t => t.file = d.file ∧
        (Refuses .pread ∨ l.reads d.file offset capacity = .error e)) := by
  unfold read reads
  refine Ends.ite (fun hend => ?_) fun hin => ?_
  · rw [if_pos hend]
    exact ⟨rfl, rfl⟩
  rw [if_neg hin]
  refine Ends.ite (fun hbelow => ?_) fun habove => ?_
  · rw [if_pos hbelow]
    exact ⟨rfl, .inr rfl⟩
  rw [if_neg habove]
  exact readSegments_ends offset capacity fun s hs => h s (List.mem_of_mem_drop hs)

end Operations

/-- What is read are batches of the log. -/
theorem mem_of_reads {v : View} {offset capacity : Nat} {bytes : Bytes}
    (h : v.log.reads v.files offset capacity = .ok bytes) :
    ∃ gs, bytes = encode gs ∧ ∀ f ∈ gs, f ∈ v.frames := by
  unfold reads at h
  split at h
  · cases h
    exact ⟨[], rfl, by simp⟩
  split at h
  · cases h
  obtain ⟨gs, hbytes, hgs⟩ := mem_of_readRow h
  refine ⟨gs, hbytes, fun f hf => ?_⟩
  obtain ⟨fs, hfs, hf'⟩ := hgs f hf
  obtain ⟨s, hs, rfl⟩ := List.mem_map.1 hfs
  exact List.mem_flatMap.2 ⟨s, List.mem_of_mem_drop hs, hf'⟩

end Log

end LogEngine.Storage
