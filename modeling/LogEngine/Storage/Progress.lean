import LogEngine.Storage.Session

/-!
# Appends that nothing stands in the way of

On a disk that refuses nothing, `append_replicated` accepts every batch that begins where
the log ends, is no longer than a segment may be, and does not outgrow the files of the
disk (`Log.Spacious`).  In between it may have to roll, and what it finds there must not
stop it: the sidecar it writes is never too long for a file, and a file that is left over at
the base of the next segment is empty.
-/

namespace LogEngine.Storage

open Base Io Io.Disk Verified.Fallible Verified.Tiling Verified.Framing

/-! ## How long a sidecar is -/

/-- Every batch has a header. -/
theorem length_le_encode (fs : List Frame) :
    fs.length * kBatchHeaderBytes ≤ (encode fs).length := by
  induction fs with
  | nil => exact Nat.zero_le _
  | cons f fs ih =>
      have hheader := f.header_le
      rw [encode_cons_length, List.length_cons, Nat.succ_mul]
      omega

/-- There are no more entries than batches. -/
theorem IndexSound.length_le {index : SparseIndex} {base : Nat} {fs : List Frame}
    (h : IndexSound index base fs) : index.length ≤ fs.length := by
  have hnodup : (index.map IndexEntry.filePos).Nodup := by
    apply List.Pairwise.map IndexEntry.filePos _ h.increasing
    intro a b hab
    exact hab.2.ne
  have hsub : index.map IndexEntry.filePos ⊆
      (List.range fs.length).map fun i => (encode (fs.take i)).length := by
    intro pos hpos
    obtain ⟨e, he, rfl⟩ := List.mem_map.1 hpos
    obtain ⟨p, f, hp, hpos, -⟩ := h.marks e he
    obtain ⟨r, rfl⟩ := hp
    refine List.mem_map.2 ⟨p.length, ?_, ?_⟩
    · rw [List.mem_range]
      simp
    · rw [List.append_assoc, List.take_left, hpos]
  have hlen := (List.subperm_of_subset hnodup hsub).length_le
  simpa using hlen

/-- The sidecar of a segment fits into a file. -/
theorem Segment.Holds.sidecar_le {s : Segment} {x : File} {fs : List Frame} (h : s.Holds x fs) :
    s.index.encode.length ≤ kMaxFileBytes := by
  have hindex := h.index.length_le
  have hheaders := length_le_encode fs
  have hbytes := h.length_lt
  rw [encode_index_length, kIndexEntryBytes]
  unfold kBatchHeaderBytes at hheaders
  unfold kMaxFileBytes
  omega

/-! ## Rolling -/

section Progress

variable [Faults] {s : Store} {d : Disk}

theorem Segment.flushIndex_progress (hno : ∀ op, ¬ Refuses op) {g : Segment}
    (hg : g.index.encode.length ≤ kMaxFileBytes) :
    Sat (g.flushIndex d) (fun _ t => ∀ f ≠ g.indexFile, t.file f = d.file f) (fun _ => False) := by
  unfold flushIndex
  refine ((openCreate_sat _ d).mono (fun _ _ ht => ht) fun _ ht => hno _ ht.2).bind fun _ t ht => ?_
  have hf : t.file g.indexFile = some ((d.file g.indexFile).getD {}) := by
    rw [ht, Function.update_self]
  have htrunc : Sat (truncate g.indexFile 0 t) (fun _ u => u.file = Function.update t.file
      g.indexFile (some (((d.file g.indexFile).getD {}).truncate 0))) (fun _ => False) := by
    refine ((truncate_ends hf 0).sat ?_).mono (fun _ u hu => hu.2) fun _ h => h
    rintro e u ⟨-, hr | ⟨-, hlong⟩⟩
    · exact hno _ hr
    · exact Nat.not_lt_zero _ hlong
  refine htrunc.bind fun _ u hu => ?_
  have hother : ∀ f ≠ g.indexFile, u.file f = d.file f := by
    intro f hf
    rw [hu, Function.update_of_ne hf, ht, Function.update_of_ne hf]
  refine Sat.ite (fun _ => hother) fun hne => ?_
  have hfu : u.file g.indexFile = some (((d.file g.indexFile).getD {}).truncate 0) := by
    rw [hu, Function.update_self]
  refine (pwrite_fits (hno _) hfu hne (by rw [Nat.zero_add]; exact hg)).bind ?_
  rintro n v ⟨-, hv⟩ f hf
  rw [hv, Function.update_of_ne hf]
  exact hother f hf

/-- A segment can be opened where there is no file, or an empty one. -/
theorem Segment.open_progress (hno : ∀ op, ¬ Refuses op) {options : SegmentOptions}
    (hwidth : options.maxBytes < 0x100000000) {base : Nat} {x : File}
    (hx : (d.file (.log base)).getD {} = x) (hempty : x.visible = []) :
    Sat (Segment.open base options d)
      (fun g t => Opened options base x g x ∧
        t.file = Function.update d.file (.log base) (some x)) (fun _ => False) := by
  have hcredible : Credible options d.file base := by
    intro _ y _
    have hbytes : logBytes d.file base = [] := by
      rw [logBytes, hx, hempty]
    exact trusted_of_empty hbytes _ _ _
  refine ((open_sat hwidth hx).and (open_credible hwidth hcredible hx)).mono ?_ ?_
  · rintro g t ⟨⟨y, ht, ho⟩, -⟩
    obtain ⟨rfl, -⟩ := ho.empty hempty
    exact ⟨ho, ht⟩
  · rintro t ⟨-, -, ⟨op, hop⟩ | hlong | ⟨htorn, -⟩⟩
    · exact hno op hop
    · rw [hempty] at hlong
      exact Nat.not_lt_zero _ hlong
    · rw [hempty] at htorn
      exact htorn rfl

namespace Log

/-- `roll` on an intact log leaves an empty segment at the end of the log. -/
theorem roll_progress (hno : ∀ op, ¬ Refuses op) (hi : s.view.Intact)
    (hne : s.log.active.empty = false) :
    Sat (roll s) (fun _ t => t.log.active.sizeBytes = 0) (fun _ => False) := by
  obtain ⟨x, hx, hholds⟩ := hi.active_holds
  have hstray := hi.stray fun g hg => (hi.lt_next hne hg).ne
  refine getLog_sat ((onDisk_sat (Q := fun _ t => t.log = s.log ∧ ∀ f,
      f ≠ s.log.active.logFile → t.disk.file f = s.disk.file f)
    ((Disk.fsync_sat hx).mono (fun _ e he => ⟨rfl, fun f hf => ?_⟩)
      fun e he => hno _ he.2)).bind ?_)
  · exact (congrFun he f).trans (Function.update_of_ne hf ..)
  rintro _ ⟨l, e⟩ ⟨hl, hfiles⟩
  obtain rfl : l = s.log := hl
  refine (onDisk_sat (s := ⟨s.log, e⟩) (Q := fun _ t => t.log = s.log ∧
      t.disk.file (.log s.log.nextOffset) = s.disk.file (.log s.log.nextOffset))
    ((Segment.flushIndex_progress hno (g := s.log.active) hholds.sidecar_le).mono
      (fun _ u hu => ⟨rfl, ?_⟩) fun _ h => h)).bind ?_
  · refine (hu _ fun heq => FileName.noConfusion heq).trans (hfiles _ fun heq => ?_)
    exact (hi.lt_next hne (View.active_mem _)).ne' (FileName.log.inj heq)
  rintro _ ⟨l, u⟩ ⟨hl, hfile⟩
  obtain rfl : l = s.log := hl
  dsimp only at hfile
  have hempty : ((u.file (.log s.log.nextOffset)).getD {}).visible = [] := by
    rw [hfile]
    exact hstray
  refine (onDisk_sat (Q := fun g t => g.sizeBytes = 0)
    ((Segment.open_progress hno hi.width rfl hempty).mono ?_ fun _ h => h)).bind ?_
  · rintro g t ⟨ho, -⟩
    exact (ho.empty hempty).2.size
  · exact fun g t hg => hg

/-- A file of the active segment takes what the segment may take. -/
def Spacious (l : Log) (size : Nat) : Prop :=
  l.active.sizeBytes + size ≤ l.options.segmentMaxBytes →
    l.active.sizeBytes + size ≤ kMaxFileBytes

/-- The active segment has room for a batch, and so has its file. -/
structure Takes (next size : Nat) (t : Store) : Prop where
  intact : t.view.Intact
  chained : t.log.Chained
  next : t.log.nextOffset = next
  room : t.log.active.sizeBytes + size ≤ t.log.options.segmentMaxBytes
  file : t.log.active.sizeBytes + size ≤ kMaxFileBytes

private theorem makeRoom_progress (hno : ∀ op, ¬ Refuses op) (hi : s.view.Intact)
    (hc : s.log.Chained)
    {size : Nat} (hlen : size ≤ s.log.options.segmentMaxBytes) (hcap : size ≤ kMaxFileBytes)
    (hspace : s.log.Spacious size) :
    Sat (makeRoom size s) (fun _ t => Takes s.log.nextOffset size t) (fun _ => False) := by
  obtain ⟨x, hx, hholds⟩ := hi.active_holds
  refine getLog_sat (Sat.ite (fun hfull => ?_) fun hfits => ?_)
  · rw [Bool.and_eq_true, Bool.not_eq_true', decide_eq_true_eq] at hfull
    refine ((roll_sat hi.width hfull.1 hx).and (roll_progress hno hi hfull.1)).mono ?_
      fun _ h => h.2
    rintro _ t ⟨hquiet, hempty⟩
    have hoptions : t.log.options = s.log.options := hquiet.log.2.1
    constructor
    · exact (hi.quiets hquiet).1
    · exact Chained.quiets (v := s.view) hc hi hquiet
    · exact hquiet.log.1
    · rw [hempty, hoptions]
      omega
    · rw [hempty]
      omega
  · have hsize : s.log.active.sizeBytes ≤ s.log.options.segmentMaxBytes := by
      have hbound := hholds.bound
      rw [hi.options _ (View.active_mem _)] at hbound
      exact hbound
    have hfit : s.log.active.sizeBytes + size ≤ s.log.options.segmentMaxBytes := by
      by_cases hempty : s.log.active.empty = true
      · have hzero : s.log.active.sizeBytes = 0 := by simpa [Segment.empty] using hempty
        omega
      · have hle : ¬ s.log.options.segmentMaxBytes - s.log.active.sizeBytes < size := by
          intro hlt
          apply hfits
          simp [hempty, hlt]
        omega
    exact ⟨hi, hc, rfl, hfit, hspace hfit⟩

private theorem appendFramed_progress (hno : ∀ op, ¬ Refuses op) {f : Frame}
    (h : Takes (Extent.base f) f.bytes.length t) :
    Sat (appendFramed f.bytes f.header t) (fun _ _ => True) (fun _ => False) := by
  obtain ⟨y, hy, -⟩ := h.intact.active_holds
  have hroom := h.room
  have hactive : f.header.baseOffset = t.log.active.nextOffset := h.next.symm.trans h.chained.ends
  have hmax : t.log.active.options.maxBytes = t.log.options.segmentMaxBytes :=
    congrArg SegmentOptions.maxBytes (h.intact.options _ (View.active_mem _))
  refine getLog_sat ((onDisk_sat (Q := fun _ _ => True) ?_).bind fun _ _ _ => trivial)
  unfold Segment.append
  rw [if_neg (not_not.2 hactive), if_neg (by rw [hmax]; omega)]
  refine (pwrite_fits (hno _) hy f.bytes_ne h.file).bind ?_
  rintro n u ⟨rfl, -⟩
  rw [if_neg (not_not.2 rfl)]
  exact trivial

/-- `append_replicated` takes a batch that fits. -/
theorem appendReplicated_progress (hno : ∀ op, ¬ Refuses op) (hi : s.view.Intact)
    (hc : s.log.Chained) {f : Frame} (hbase : Extent.base f = s.log.nextOffset)
    (hlen : f.bytes.length ≤ s.log.options.segmentMaxBytes)
    (hspace : s.log.Spacious f.bytes.length) :
    Sat (appendReplicated f.bytes s) (fun _ _ => True) (fun _ => False) := by
  have hcap : f.bytes.length ≤ kMaxFileBytes := f.length_le.trans (by decide)
  have hplace : f.header.baseOffset = s.log.nextOffset := hbase
  refine getLog_sat ?_
  rw [f.decode]
  dsimp only
  rw [if_neg (not_not.2 f.whole), if_neg (not_not.2 hplace), f.valid]
  dsimp only
  rw [if_neg (Nat.not_lt.2 hlen)]
  refine (makeRoom_progress hno hi hc hlen hcap hspace).bind fun _ t ht => ?_
  exact appendFramed_progress hno (hbase ▸ ht)

/-- `append` takes what a builder has gathered, if that fits and there is an offset left. -/
theorem append_progress (hno : ∀ op, ¬ Refuses op) (hi : s.view.Intact) (hc : s.log.Chained)
    {builder : BatchBuilder} (hne : builder.records ≠ []) (info : BatchMeta)
    (hnext : s.log.nextOffset < 0x10000000000000000)
    (hlen : builder.framedBytes ≤ s.log.options.segmentMaxBytes)
    (hspace : s.log.Spacious builder.framedBytes) :
    Sat (append builder info s) (fun _ _ => True) (fun _ => False) := by
  have hcap : builder.framedBytes ≤ kMaxFileBytes := builder.framedBytes_le.trans (by decide)
  have hempty : ¬ builder.empty = true := by
    rw [BatchBuilder.empty, List.isEmpty_iff]
    exact hne
  have hbase : Extent.base (builder.frame hne s.log.nextOffset info) = s.log.nextOffset :=
    Nat.mod_eq_of_lt hnext
  refine getLog_sat ?_
  rw [if_neg hempty, if_neg (Nat.not_lt.2 hlen)]
  refine (makeRoom_progress hno hi hc hlen hcap hspace).bind fun _ t ht => getLog_sat ?_
  rw [ht.next, builder.decodeHeader_finish]
  refine (appendFramed_progress (t := t) hno (f := builder.frame hne s.log.nextOffset info) ?_).bind
    fun _ _ _ => trivial
  rw [hbase]
  exact builder.finish_length s.log.nextOffset info ▸ ht

theorem fsync_progress (hno : ∀ op, ¬ Refuses op) (hi : s.view.Intact) :
    Sat (fsync s) (fun _ _ => True) (fun _ => False) := by
  obtain ⟨x, hx, -⟩ := hi.active_holds
  exact onDisk_sat ((Disk.fsync_sat hx).mono (fun _ _ _ => trivial) fun _ h => hno _ h.2)

end Log

end Progress

end LogEngine.Storage
