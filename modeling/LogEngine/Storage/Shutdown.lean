import LogEngine.Storage.ReadErrors
import LogEngine.Storage.Steady

/-!
# Closing a log

`~Log` writes the index of every segment to the sidecar beside it and flushes none of them,
so that a power cut later on may leave any part of a sidecar.  Truncate-then-write makes that
part some first bytes of the index (`Sketches`), and `decode` gets no entry from them that
the index does not have.  Whoever opens the directory next can therefore trust every sidecar
it finds (`Log.close_steady`), which is what `View.Steady.reopens` asks for, and gets the log
that was closed.
-/

namespace LogEngine.Storage

open Base Io Io.Disk Verified.Fallible Verified.Tiling Verified.Framing

/-! ## Some first bytes of an index -/

/-- The entries of some first bytes of a sidecar are some first entries. -/
theorem wholeEntries_isPrefix {a bytes : Bytes} (h : a <+: bytes) :
    wholeEntries a <+: wholeEntries bytes := by
  obtain ⟨rest, rfl⟩ := h
  have hsame : wholeEntries a = entriesOf (a ++ rest) (a.length / kIndexEntryBytes) := by
    apply List.map_congr_left
    intro i hi
    -- the entry ends inside the part that is there
    have hin : kIndexEntryBytes * (i + 1) ≤ a.length :=
      (Nat.mul_le_mul_left _ (List.mem_range.1 hi)).trans (Nat.mul_div_le _ _)
    rw [kIndexEntryBytes] at hin
    rw [field_append_left (by rw [kIndexEntryBytes]; omega),
      field_append_left (by rw [kIndexEntryBytes]; omega)]
  have hcount : a.length / kIndexEntryBytes ≤ (a ++ rest).length / kIndexEntryBytes := by
    apply Nat.div_le_div_right
    simp
  have htake : entriesOf (a ++ rest) (a.length / kIndexEntryBytes) =
      (wholeEntries (a ++ rest)).take (a.length / kIndexEntryBytes) := by
    rw [wholeEntries, entriesOf, entriesOf, ← List.map_take, List.take_range,
      Nat.min_eq_left hcount]
  rw [hsame, htake]
  exact List.take_prefix _ _

theorem IndexSound.fitsWords {index : SparseIndex} {b : Nat} {fs : List Frame}
    (h : IndexSound index b fs) (hlen : (encode fs).length < 0x100000000) : FitsWords index := by
  intro e he
  obtain ⟨p, f, hpf, hpos, hrel⟩ := h.marks e he
  have hle := (encode_isPrefix ((List.prefix_append _ _).trans hpf)).length_le
  rw [hrel]
  exact ⟨Nat.mod_lt _ (by decide), by omega⟩

/-- Some first bytes of a sound index can be trusted. -/
theorem IndexSound.credible {index : SparseIndex} {options : SegmentOptions}
    {files : FileName → Option File} {b : Nat}
    (h : IndexSound index b (parse b (logBytes files b)))
    (hwidth : options.maxBytes < 0x100000000)
    (hside : ∀ y, files (.index b) = some y → y.visible <+: index.encode) :
    Credible options files b := by
  intro hfits y hy
  obtain ⟨htiles, rest, hrest, -⟩ := Frame.parses b (logBytes files b)
  have hlen : (encode (parse b (logBytes files b) : List Frame)).length < 0x100000000 := by
    have hle := congrArg List.length hrest
    rw [List.length_append] at hle
    omega
  have hentries := wholeEntries_isPrefix (hside y hy)
  rw [wholeEntries_encode (h.fitsWords hlen)] at hentries
  exact (h.trusted htiles hlen _).of_isPrefix ((decode_isPrefix _ _).trans hentries)

/-! ## What a power cut makes of a sidecar -/

/-- Now, and after a power cut, the file reads as some first bytes of `image`. -/
structure Sketches (image : Bytes) (y : File) : Prop where
  visible : y.visible <+: image
  crash : ∀ kept torn, (y.crash kept torn).visible <+: image

theorem File.truncate_zero (x : File) : x.truncate 0 = {} := by
  simp [File.truncate, resize, File.clip]

private theorem sketches_empty (image : Bytes) : Sketches image {} := by
  refine ⟨List.nil_prefix, fun kept torn => ?_⟩
  rw [File.crash_of_pending rfl]
  exact List.nil_prefix

/-- Written into an empty file, the image is there, or some first bytes of it are. -/
theorem sketches_write (image : Bytes) : Sketches image (File.write {} 0 image) := by
  have happly : ∀ a : Bytes, applyBytes [] 0 a = a := by
    intro a
    simp [applyBytes]
  constructor
  · show applyBytes [] 0 image <+: image
    rw [happly]
  · intro kept torn
    rcases File.crash_write {} ⟨0, image⟩ kept torn with heq | ⟨n, heq⟩
    · rw [heq]
      exact (sketches_empty image).crash kept torn
    · rw [heq]
      show applyBytes [] 0 (image.take n) <+: image
      rw [happly]
      exact List.take_prefix _ _

/-! ## The destructor -/

section Operations

variable [Faults]

/-- `~Log`: what `flush_indexes` has to say is ignored. -/
def Log.close : LogM Unit := do
  let _ ← attempt Log.flushIndexes
  return ()

end Operations

section Close

variable [Faults] {s : Store} {d : Disk} {g : Segment}

/-- Nothing but the sidecars of these segments has changed, and those hold first bytes of the
indexes. -/
structure Jotted (segments : List Segment) (d t : Disk) : Prop where
  others : ∀ f, (∀ g ∈ segments, f ≠ g.indexFile) → t.file f = d.file f
  sketches : ∀ g ∈ segments, ∀ y, t.file g.indexFile = some y → Sketches g.index.encode y

omit [Faults] in
/-- One sidecar has been written. -/
theorem Jotted.of_update {t : Disk} {y : File}
    (ht : t.file = Function.update d.file g.indexFile (some y))
    (hy : Sketches g.index.encode y) : Jotted [g] d t := by
  constructor
  · intro f hf
    rw [ht, Function.update_of_ne (hf g List.mem_cons_self)]
  · intro g' hg' z hz
    obtain rfl := List.mem_singleton.1 hg'
    rw [ht, Function.update_self, Option.some.injEq] at hz
    exact hz ▸ hy

theorem Segment.flushIndex_jotted (hno : ∀ op, ¬ Refuses op)
    (hg : g.index.encode.length ≤ kMaxFileBytes) :
    Sat (g.flushIndex d) (fun _ t => Jotted [g] d t) (fun _ => False) := by
  unfold flushIndex
  refine ((openCreate_sat _ d).mono (fun _ _ ht => ht) fun _ ht => hno _ ht.2).bind fun _ t ht => ?_
  have hf : t.file g.indexFile = some ((d.file g.indexFile).getD {}) := by
    rw [ht, Function.update_self]
  -- whatever the sidecar was, and whatever waited for a flush, is gone
  have htrunc : Sat (truncate g.indexFile 0 t)
      (fun _ u => u.file = Function.update d.file g.indexFile (some {})) (fun _ => False) := by
    refine ((truncate_ends hf 0).sat (F := fun _ => False) ?_).mono (fun _ u hu => ?_) fun _ h => h
    · rintro e u ⟨-, hr | ⟨-, hlong⟩⟩
      · exact hno _ hr
      · exact Nat.not_lt_zero _ hlong
    · rw [hu.2, ht, Function.update_idem, File.truncate_zero]
  refine htrunc.bind fun _ u hu => ?_
  refine Sat.ite (fun _ => .of_update hu (sketches_empty _)) fun hne => ?_
  have hfu : u.file g.indexFile = some {} := by rw [hu, Function.update_self]
  refine (pwrite_fits (hno _) hfu hne (by rw [Nat.zero_add]; exact hg)).bind fun n v hv => ?_
  refine .of_update ?_ (sketches_write _)
  rw [hv.2, hu, Function.update_idem]

omit [Faults] in
/-- The sidecars of two parts of the log are different files. -/
theorem Jotted.cons {rest : List Segment} {t u : Disk} (h : Jotted [g] d t) (h' : Jotted rest t u)
    (hne : ∀ g' ∈ rest, g.baseOffset ≠ g'.baseOffset) : Jotted (g :: rest) d u := by
  constructor
  · intro f hf
    rw [List.forall_mem_cons] at hf
    rw [h'.others f hf.2, h.others f (List.forall_mem_singleton.2 hf.1)]
  · rw [List.forall_mem_cons]
    refine ⟨fun y hy => h.sketches g List.mem_cons_self y ?_, h'.sketches⟩
    rw [← hy]
    refine (h'.others _ fun g' hg' heq => ?_).symm
    exact hne g' hg' (FileName.index.inj heq)

theorem Log.flushSegments_jotted (hno : ∀ op, ¬ Refuses op) {segments : List Segment}
    (hdistinct : segments.Pairwise fun g g' => g.baseOffset ≠ g'.baseOffset)
    (hfit : ∀ g ∈ segments, g.index.encode.length ≤ kMaxFileBytes) (d : Disk) :
    Sat (flushSegments segments none d) (fun r t => r = none ∧ Jotted segments d t)
      (fun _ => False) := by
  induction segments generalizing d with
  | nil => exact ⟨rfl, fun _ _ => rfl, fun _ hg => absurd hg List.not_mem_nil⟩
  | cons g rest ih =>
      obtain ⟨hne, hdistinct⟩ := List.pairwise_cons.1 hdistinct
      rw [List.forall_mem_cons] at hfit
      refine (Sat.attempt (R := fun r t => (∃ a, r = .ok a) ∧ Jotted [g] d t)
        ((Segment.flushIndex_jotted hno hfit.1).imp fun a _ ht => ⟨⟨a, rfl⟩, ht⟩).sure).bind ?_
      rintro _ t ⟨⟨a, rfl⟩, ht⟩
      exact (ih hdistinct hfit.2 t).imp fun r u hu => ⟨hu.1, ht.cons hu.2 hne⟩

/-! ## Closing a steady log -/

section Steady

variable {options : LogOptions} {v : View}

omit [Faults] in
/-- The segments of a log begin one behind another. -/
theorem View.Intact.distinct (h : v.Intact) :
    v.log.segments.Pairwise fun g g' => g.baseOffset ≠ g'.baseOffset := by
  refine List.pairwise_append.2 ⟨?_, List.pairwise_singleton _ _, fun g hg g' hg' => ?_⟩
  · exact (List.pairwise_map.1 h.rises.sorted).imp fun hlt => hlt.ne
  · rw [List.mem_singleton.1 hg']
    exact h.sealed_ne hg

omit [Faults] in
/-- Sidecars that are first bytes of the indexes can be trusted. -/
theorem View.Steady.credible (h : v.Steady options) {files : FileName → Option File}
    (hlogs : ∀ b, files (.log b) = v.files (.log b))
    (hside : ∀ g ∈ v.log.segments, ∀ y, files g.indexFile = some y → y.visible <+: g.index.encode)
    (b : Nat) : Credible options.segment files b := by
  have hwidth : options.segmentMaxBytes < 0x100000000 := h.config ▸ h.intact.width
  have hbytes : logBytes files b = logBytes v.files b := by rw [logBytes, hlogs, logBytes]
  by_cases hb : ∃ g ∈ v.log.segments, g.baseOffset = b
  · obtain ⟨g, hg, rfl⟩ := hb
    obtain ⟨x, hx, hholds⟩ := (h.intact.sits g hg).holds
    have hsound : IndexSound g.index g.baseOffset
        (parse g.baseOffset (logBytes files g.baseOffset)) := by
      rw [hbytes, h.parse_segment hg]
      exact hholds.index
    exact hsound.credible hwidth (hside g hg)
  · -- no file, so nothing in it to resume at
    intro _ y _
    apply trusted_of_empty
    rw [hbytes, logBytes]
    cases hx : v.files (.log b) with
    | none => rfl
    | some x => exact absurd (h.exists_segment hx) hb

/-- `~Log` on a steady log leaves its files, and sidecars that can be trusted, whether the
power goes or not. -/
theorem Log.close_steady (hno : ∀ op, ¬ Refuses op) (h : s.view.Steady options) :
    Sat (Log.close s)
      (fun _ t => t.log = s.log ∧ (∀ b, t.disk.file (.log b) = s.disk.file (.log b)) ∧
        t.disk.file .state = s.disk.file .state ∧
        (∀ b, Credible options.segment t.disk.file b) ∧
        ∀ kept torn b, Credible options.segment (t.disk.crash kept torn).file b)
      (fun _ => False) := by
  have hfit : ∀ g ∈ s.log.segments, g.index.encode.length ≤ kMaxFileBytes := by
    intro g hg
    obtain ⟨x, -, hholds⟩ := (h.intact.sits g hg).holds
    exact hholds.sidecar_le
  have hflush : Sat (Log.flushIndexes s)
      (fun _ t => t.log = s.log ∧ Jotted s.log.segments s.disk t.disk) (fun _ => False) := by
    refine getLog_sat ((onDisk_sat (Q := fun r t => r = none ∧ t.log = s.log ∧
      Jotted s.log.segments s.disk t.disk) ((flushSegments_jotted hno h.intact.distinct hfit
        s.disk).imp fun r t ht => ⟨ht.1, rfl, ht.2⟩)).bind ?_)
    rintro _ t ⟨rfl, ht⟩
    exact ht
  refine (Sat.attempt (R := fun _ t => t.log = s.log ∧ Jotted s.log.segments s.disk t.disk)
    hflush.sure).bind fun _ t ht => ?_
  obtain ⟨hlog, hjotted⟩ := ht
  have hlogs : ∀ b, t.disk.file (.log b) = s.disk.file (.log b) := fun b =>
    hjotted.others _ fun _ _ => FileName.noConfusion
  refine ⟨hlog, hlogs, hjotted.others _ fun _ _ => FileName.noConfusion, ?_, ?_⟩
  · exact h.credible hlogs fun g hg y hy => (hjotted.sketches g hg y hy).visible
  · intro kept torn
    refine h.credible (h.crash hlogs kept torn) fun g hg y hy => ?_
    rw [Disk.crash, file_mapFiles, Option.map_eq_some_iff] at hy
    obtain ⟨z, hz, rfl⟩ := hy
    exact (hjotted.sketches g hg z hz).crash _ _

end Steady

end Close

end LogEngine.Storage
