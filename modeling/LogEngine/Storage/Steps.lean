import LogEngine.Storage.Log
import LogEngine.Storage.Recovery

/-!
# The operations of a log, step by step

Every operation of `src/storage/log.cpp` is a row of small steps on the log object and
the files of its directory, and may stop between any two of them.  `Step` says once what
such a step can do, for any pattern of refused disk operations; each operation then has
one specification, the row of steps it is made of on success and on failure.  What holds
along every run of a log is derived from the steps.

A step is labelled by what it does to the batches of the log: nothing (`quiet`, or `spill`
where a failed append leaves something in the directory), one more batch, one segment
less, or a cut of the last segment.
-/

namespace LogEngine.Storage

open Base Io Io.Disk Verified.Fallible Verified.Tiling Verified.Framing

/-- A log and the files of the disk it is on. -/
structure View where
  log : Log
  files : FileName → Option File

def Store.view (s : Store) : View := ⟨s.log, s.disk.file⟩

/-- All that was written to the active segment is on the platter. -/
def View.Flushed (v : View) : Prop :=
  ∃ x, v.files v.log.active.logFile = some x ∧ x.pending = []

/-- What a step does to the batches of a log. -/
inductive Label
  /-- Nothing; with `rolls`, a segment is added. -/
  | quiet (rolls : Bool)
  /-- Nothing, but bytes or a file may be left behind the batches. -/
  | spill
  | append (f : Frame)
  | drop (offset : Nat)
  | cut (offset : Nat)

/-- One step of an operation. -/
inductive Step [Faults] (v : View) : Label → View → Prop
  /-- `fsync` of the active segment. -/
  | flush {x : File} (hx : v.files v.log.active.logFile = some x) :
      Step v (.quiet false)
        ⟨v.log, Function.update v.files v.log.active.logFile (some x.flush)⟩
  /-- `flush_index` of some segment, as far as it got. -/
  | sidecar {s : Segment} (hs : s ∈ v.log.segments) {y : File}
      (hy : y.visible <+: s.index.encode) :
      Step v (.quiet false) ⟨v.log, Function.update v.files s.indexFile (some y)⟩
  /-- The next segment is opened. -/
  | roll (hne : v.log.active.empty = false) (hflushed : v.Flushed) {x y : File} {seg : Segment}
      (hx : (v.files (.log v.log.nextOffset)).getD {} = x)
      (ho : Segment.Opened v.log.options.segment v.log.nextOffset x seg y) :
      Step v (.quiet true) ⟨{ v.log with sealed := v.log.segments, active := seg },
        Function.update v.files (.log v.log.nextOffset) (some y)⟩
  /-- A roll that failed once the file of the next segment was there. -/
  | create (hne : v.log.active.empty = false) (hflushed : v.Flushed) {x : File}
      (hx : (v.files (.log v.log.nextOffset)).getD {} = x) (hr : x.visible = [] → Refuses .size) :
      Step v .spill ⟨v.log, Function.update v.files (.log v.log.nextOffset) (some x)⟩
  /-- A refused write of a batch. -/
  | spill {x y : File} {f : Frame} (hx : v.files v.log.active.logFile = some x)
      (hroom : f.bytes.length ≤ v.log.active.options.maxBytes - v.log.active.sizeBytes)
      (hy : Attempted x v.log.active.sizeBytes f.bytes y) :
      Step v .spill ⟨v.log, Function.update v.files v.log.active.logFile (some y)⟩
  /-- The batch goes to the active segment. -/
  | append {x : File} {f : Frame} (hx : v.files v.log.active.logFile = some x)
      (hbase : Extent.base f = v.log.active.nextOffset)
      (hroom : f.bytes.length ≤ v.log.active.options.maxBytes - v.log.active.sizeBytes)
      (hcap : v.log.active.sizeBytes + f.bytes.length ≤ kMaxFileBytes) :
      Step v (.append f)
        ⟨{ v.log with active := v.log.active.grown f, nextOffset := f.header.nextOffset },
          Function.update v.files v.log.active.logFile
            (some (x.write v.log.active.sizeBytes f.bytes))⟩
  /-- The active segment is dropped, and its files with it unless that is refused. -/
  | drop {init : List Segment} {before : Segment} {offset : Nat} {y z : Option File}
      (hsealed : v.log.sealed = init ++ [before]) (hge : offset ≤ v.log.active.baseOffset)
      (hy : y = none ∨ y = v.files v.log.active.logFile ∧ Refuses .remove)
      (hz : z = none ∨ z = v.files v.log.active.indexFile) :
      Step v (.drop offset) ⟨{ v.log with sealed := init, active := before },
        Function.update (Function.update v.files v.log.active.logFile y)
          v.log.active.indexFile z⟩
  /-- The active segment ends before the cut. -/
  | retreat {offset : Nat} (hle : v.log.active.nextOffset ≤ offset) :
      Step v (.cut offset) ⟨{ v.log with nextOffset := v.log.active.nextOffset }, v.files⟩
  /-- The active segment is cut where a batch begins. -/
  | cut {x : File} {fs : List Frame} {offset : Nat}
      (hx : v.files v.log.active.logFile = some x) (hholds : v.log.active.Holds x fs)
      (hlt : offset < v.log.active.nextOffset)
      (hcut : Segment.CutsAt v.log.active.baseOffset fs offset) :
      Step v (.cut offset)
        ⟨{ v.log with
            active :=
              { v.log.active with
                sizeBytes := (encode (upTo fs offset)).length
                nextOffset := offset
                index := v.log.active.index.truncateFrom (encode (upTo fs offset)).length }
            nextOffset := offset },
          Function.update v.files v.log.active.logFile
            (some (x.truncate (encode (upTo fs offset)).length))⟩

/-- Steps that leave the batches of the log. -/
def Quiet [Faults] : View → View → Prop :=
  Relation.ReflTransGen fun v w => ∃ rolls, Step v (.quiet rolls) w

/-- Steps that leave the segments of the log as well. -/
def Syncs [Faults] : View → View → Prop :=
  Relation.ReflTransGen fun v w => Step v (.quiet false) w

/-- Segments are dropped. -/
def Drops [Faults] (offset : Nat) : View → View → Prop :=
  Relation.ReflTransGen fun v w => Step v (.drop offset) w

theorem Segment.logFile_ne_indexFile (s t : Segment) : s.logFile ≠ t.indexFile :=
  fun h => FileName.noConfusion h

section Quiet

variable [Faults] {v w : View} {rolls : Bool}

/-- A quiet step adds a segment at most. -/
theorem Step.quiet_log (h : Step v (.quiet rolls) w) :
    w.log.nextOffset = v.log.nextOffset ∧ w.log.options = v.log.options ∧
      w.log.startOffset = v.log.startOffset := by
  cases h <;> exact ⟨rfl, rfl, rfl⟩

theorem Step.quiet_file (h : Step v (.quiet rolls) w)
    (hx : ∃ x, v.files v.log.active.logFile = some x) :
    ∃ x, w.files w.log.active.logFile = some x := by
  obtain ⟨x, hx⟩ := hx
  cases h with
  | flush hy => exact ⟨_, Function.update_self ..⟩
  | sidecar hs hy =>
      refine ⟨x, ?_⟩
      dsimp only
      rw [Function.update_of_ne (Segment.logFile_ne_indexFile _ _), hx]
  | @roll hne hflushed _ y seg hy ho =>
      refine ⟨y, ?_⟩
      dsimp only
      rw [Segment.logFile, ho.base, Function.update_self]

theorem Quiet.log (h : Quiet v w) :
    w.log.nextOffset = v.log.nextOffset ∧ w.log.options = v.log.options ∧
      w.log.startOffset = v.log.startOffset := by
  induction h with
  | refl => exact ⟨rfl, rfl, rfl⟩
  | tail _ hlast ih =>
      obtain ⟨rolls, hstep⟩ := hlast
      obtain ⟨h₁, h₂, h₃⟩ := hstep.quiet_log
      exact ⟨h₁.trans ih.1, h₂.trans ih.2.1, h₃.trans ih.2.2⟩

theorem Quiet.file (h : Quiet v w) (hx : ∃ x, v.files v.log.active.logFile = some x) :
    ∃ x, w.files w.log.active.logFile = some x := by
  induction h with
  | refl => exact hx
  | tail _ hlast ih =>
      obtain ⟨rolls, hstep⟩ := hlast
      exact hstep.quiet_file ih

theorem Syncs.quiet (h : Syncs v w) : Quiet v w := by
  induction h with
  | refl => exact .refl
  | tail _ hlast ih => exact ih.tail ⟨false, hlast⟩

/-- The active segment has no room for a batch of this size. -/
def Log.Full (l : Log) (size : Nat) : Prop :=
  l.active.empty = false ∧ l.options.segmentMaxBytes - l.active.sizeBytes < size

/-- What an append does before it writes: nothing, or a roll as far as it gets. -/
def Room (v : View) (size : Nat) (w : View) : Prop := w = v ∨ v.log.Full size ∧ Quiet v w

theorem Room.quiet {size : Nat} (h : Room v size w) : Quiet v w := by
  rcases h with rfl | ⟨-, h⟩
  · exact .refl
  · exact h

/-- What an append that fails leaves. -/
def Spoilt (v : View) (size : Nat) (w : View) : Prop :=
  ∃ u, Room v size u ∧ (w = u ∨ Step u .spill w)

theorem Step.options {label : Label} (h : Step v label w) : w.log.options = v.log.options := by
  cases h <;> rfl

theorem Drops.options {offset : Nat} (h : Drops offset v w) : w.log.options = v.log.options := by
  induction h with
  | refl => rfl
  | tail _ hlast ih => exact hlast.options.trans ih

theorem Spoilt.options {size : Nat} (h : Spoilt v size w) : w.log.options = v.log.options := by
  obtain ⟨u, hroom, rfl | hspill⟩ := h
  · exact hroom.quiet.log.2.1
  · exact hspill.options.trans hroom.quiet.log.2.1

theorem Spoilt.start {size : Nat} (h : Spoilt v size w) :
    w.log.startOffset = v.log.startOffset := by
  obtain ⟨u, hroom, rfl | hspill⟩ := h
  · exact hroom.quiet.log.2.2
  · refine Eq.trans ?_ hroom.quiet.log.2.2
    cases hspill <;> rfl

theorem Spoilt.refl (v : View) (size : Nat) : Spoilt v size v := ⟨v, .inl rfl, .inl rfl⟩

end Quiet

namespace Segment

variable [Faults] {s : Segment} {d : Disk}

/-- `flush_index` leaves the sidecar, or some first entries of the index in it. -/
theorem flushIndex_sat (s : Segment) (d : Disk) :
    Sat (s.flushIndex d)
      (fun _ t => ∃ y, t.file = Function.update d.file s.indexFile (some y) ∧
        y.visible <+: s.index.encode)
      (fun t => t.file = d.file ∨ ∃ y, t.file = Function.update d.file s.indexFile (some y) ∧
        y.visible <+: s.index.encode) := by
  unfold flushIndex
  obtain ⟨x, hx⟩ : ∃ x, (d.file s.indexFile).getD {} = x := ⟨_, rfl⟩
  refine ((openCreate_sat _ d).mono (fun _ _ ht => ht) fun _ ht => .inl ht.1).bind fun _ t ht => ?_
  rw [hx] at ht
  have hf : t.file s.indexFile = some x := by rw [ht, Function.update_self]
  -- a sidecar that the open created is empty
  have hkept : ∀ u : Disk, u.file = t.file → u.file = d.file ∨
      ∃ y, u.file = Function.update d.file s.indexFile (some y) ∧
        y.visible <+: s.index.encode := by
    intro u hu
    cases hd : d.file s.indexFile with
    | none =>
        refine .inr ⟨x, hu.trans ht, ?_⟩
        rw [hd, Option.getD_none] at hx
        rw [← hx]
        exact List.nil_prefix
    | some y =>
        refine .inl (hu.trans (ht.trans ?_))
        rw [hd, Option.getD_some] at hx
        rw [← hx, ← hd, Function.update_eq_self]
  refine ((truncate_ends hf 0).sat fun _ u hu => hkept u hu.1).bind fun _ u hu => ?_
  have hu' : u.file = Function.update d.file s.indexFile (some (x.truncate 0)) := by
    rw [hu.2, ht, Function.update_idem]
  have hempty : (x.truncate 0).visible = [] := by simp [File.truncate, resize]
  refine Sat.ite (fun _ => ⟨_, hu', hempty ▸ List.nil_prefix⟩) fun hne => ?_
  have hfu : u.file s.indexFile = some (x.truncate 0) := by rw [hu', Function.update_self]
  have hwrite : ∀ data : Bytes, data ≠ [] → ((x.truncate 0).write 0 data).visible = data := by
    intro data hdata
    show applyBytes (x.truncate 0).visible 0 data = data
    rw [hempty, applyBytes, if_neg hdata]
    simp
  refine ((pwrite_sat hfu hne 0).mono (fun _ _ hv => hv) ?_).bind ?_
  · rintro v ⟨y, hv, hy⟩
    refine .inr ⟨y, by rw [hv, hu', Function.update_idem], ?_⟩
    cases hy with
    | none => exact hempty ▸ List.nil_prefix
    | some k ha hk =>
        rw [hwrite _ hk]
        exact List.take_prefix _ _
  · rintro n v ⟨-, -, hv⟩
    refine ⟨_, by rw [hv, hu', Function.update_idem], ?_⟩
    rw [hwrite _ hne]

end Segment

namespace Log

variable [Faults] {s : Store} {x : File}

omit [Faults] in
theorem onDisk_sat {α : Type} {p : DiskM α} {Q : α → Store → Prop} {E : Store → Prop}
    (h : Sat (p s.disk) (fun a d => Q a { s with disk := d }) fun d => E { s with disk := d }) :
    Sat (onDisk p s) Q E :=
  Sat.zoom h

omit [Faults] in
theorem getLog_sat {α : Type} {p : Log → LogM α} {Q : α → Store → Prop} {E : Store → Prop}
    (h : Sat (p s.log s) Q E) : Sat ((getLog >>= p) s) Q E :=
  h

omit [Faults] in
private theorem setLog_sat {α : Type} {p : Unit → LogM α} {l : Log} {Q : α → Store → Prop}
    {E : Store → Prop} (h : Sat (p () { s with log := l }) Q E) : Sat ((setLog l >>= p) s) Q E :=
  h

theorem fsync_sat (hx : s.view.files s.log.active.logFile = some x) :
    Sat (fsync s)
      (fun _ t => t.view =
        ⟨s.log, Function.update s.view.files s.log.active.logFile (some x.flush)⟩)
      (fun t => t.view = s.view) := by
  refine onDisk_sat ((Disk.fsync_sat hx).mono (fun _ d hd => ?_) fun d hd => ?_)
  · exact congrArg (View.mk s.log) hd
  · exact congrArg (View.mk s.log) hd.1

/-- `roll`: the active segment is flushed, its sidecar written, the next one opened. -/
theorem roll_sat (hwidth : s.log.options.segmentMaxBytes < 0x100000000)
    (hne : s.log.active.empty = false) (hx : s.view.files s.log.active.logFile = some x) :
    Sat (roll s) (fun _ t => Quiet s.view t.view)
      (fun t => ∃ u, Quiet s.view u ∧ (t.view = u ∨ Step u .spill t.view)) := by
  have hflush : Quiet s.view
      ⟨s.log, Function.update s.view.files s.log.active.logFile (some x.flush)⟩ :=
    .single ⟨_, .flush hx⟩
  refine getLog_sat ((onDisk_sat (Q := fun _ t => t.log = s.log ∧
      t.view.files s.log.active.logFile = some x.flush ∧ Quiet s.view t.view)
    ((Disk.fsync_sat hx).mono (fun _ d hd => ⟨rfl, ?_, ?_⟩) fun d hd => ?_)).bind ?_)
  · show d.file _ = _
    rw [hd]
    exact Function.update_self ..
  · show Quiet s.view ⟨s.log, d.file⟩
    rw [hd]
    exact hflush
  · exact ⟨s.view, .refl, .inl (congrArg (View.mk s.log) hd.1)⟩
  rintro _ ⟨l, e⟩ ⟨hl, hfile, hquiet⟩
  obtain rfl : l = s.log := hl
  have hmem : s.log.active ∈ s.log.segments := List.mem_append_right _ List.mem_cons_self
  have hside : ∀ {d : Disk} {y : File},
      d.file = Function.update e.file s.log.active.indexFile (some y) →
      y.visible <+: s.log.active.index.encode → Quiet s.view ⟨s.log, d.file⟩ := by
    intro d y hd hy
    rw [hd]
    exact hquiet.tail ⟨_, Step.sidecar (v := ⟨s.log, e.file⟩) hmem hy⟩
  refine (onDisk_sat (Q := fun _ t => t.log = s.log ∧
      t.view.files s.log.active.logFile = some x.flush ∧ Quiet s.view t.view)
    ((Segment.flushIndex_sat s.log.active e).mono ?_ ?_)).bind ?_
  · rintro _ d ⟨y, hd, hy⟩
    refine ⟨rfl, ?_, hside hd hy⟩
    show d.file _ = _
    rw [hd, Function.update_of_ne (Segment.logFile_ne_indexFile _ _)]
    exact hfile
  · rintro d (hd | ⟨y, hd, hy⟩)
    · exact ⟨_, hquiet, .inl (congrArg (View.mk s.log) hd)⟩
    · exact ⟨_, hside hd hy, .inl rfl⟩
  rintro _ ⟨l, e'⟩ ⟨hl, hfile, hquiet⟩
  obtain rfl : l = s.log := hl
  have hflushed : (View.mk s.log e'.file).Flushed := ⟨x.flush, hfile, rfl⟩
  refine (onDisk_sat (Q := fun seg t =>
      Quiet s.view ⟨{ s.log with sealed := s.log.segments, active := seg }, t.disk.file⟩)
    ((Segment.open_sat hwidth rfl).mono ?_ ?_)).bind ?_
  · rintro seg d ⟨y, hd, ho⟩
    show Quiet s.view ⟨{ s.log with sealed := s.log.segments, active := seg }, d.file⟩
    rw [hd]
    exact hquiet.tail ⟨_, Step.roll (v := ⟨s.log, e'.file⟩) hne hflushed rfl ho⟩
  · rintro d (hd | ⟨hd, hr⟩)
    · exact ⟨_, hquiet, .inl (congrArg (View.mk s.log) hd)⟩
    · refine ⟨_, hquiet, .inr ?_⟩
      show Step _ .spill ⟨s.log, d.file⟩
      rw [hd]
      exact Step.create (v := ⟨s.log, e'.file⟩) hne hflushed rfl hr
  rintro seg w hw
  exact hw

/-- `append` rolls first where the batch does not fit. -/
theorem makeRoom_sat (hwidth : s.log.options.segmentMaxBytes < 0x100000000)
    (hx : s.view.files s.log.active.logFile = some x) (size : Nat) :
    Sat (makeRoom size s) (fun _ t => Room s.view size t.view)
      (fun t => Spoilt s.view size t.view) := by
  refine getLog_sat (Sat.ite (fun hfull => ?_) fun _ => .inl rfl)
  rw [Bool.and_eq_true, Bool.not_eq_true', decide_eq_true_eq] at hfull
  refine (roll_sat hwidth hfull.1 hx).mono (fun _ _ hq => .inr ⟨hfull, hq⟩) ?_
  rintro t ⟨u, hq, hlast⟩
  exact ⟨u, .inr ⟨hfull, hq⟩, hlast⟩

private theorem appendFramed_sat (hx : s.view.files s.log.active.logFile = some x) (f : Frame) :
    Sat (appendFramed f.bytes f.header s) (fun _ t => Step s.view (.append f) t.view)
      (fun t => t.view = s.view ∨ Step s.view .spill t.view) := by
  refine getLog_sat ((onDisk_sat (Q := fun seg t => Step s.view (.append f)
    ⟨{ s.log with active := seg, nextOffset := f.header.nextOffset }, t.disk.file⟩)
    ((Segment.append_sat hx f).mono ?_ ?_)).bind ?_)
  · rintro seg d ⟨hbase, hroom, hcap, rfl, hd⟩
    show Step s.view (.append f) ⟨_, d.file⟩
    rw [hd]
    exact .append hx hbase hroom hcap
  · rintro d (hd | ⟨hroom, y, hd, hy⟩)
    · exact .inl (congrArg (View.mk s.log) hd)
    · refine .inr ?_
      show Step s.view .spill ⟨s.log, d.file⟩
      rw [hd]
      exact .spill hx hroom hy
  · exact fun _ _ hw => hw

/-- `append`: room is made, and then the batch is written, or the error. -/
theorem append_sat (hwidth : s.log.options.segmentMaxBytes < 0x100000000)
    (hx : s.view.files s.log.active.logFile = some x) (builder : BatchBuilder)
    (info : BatchMeta) :
    Sat (append builder info s)
      (fun base t => base = s.log.nextOffset ∧ ∃ (hne : builder.records ≠ []) (w : View),
        Room s.view builder.framedBytes w ∧
        Step w (.append (builder.frame hne s.log.nextOffset info)) t.view)
      (fun t => Spoilt s.view builder.framedBytes t.view) := by
  refine getLog_sat (Sat.ite (fun _ => .refl _ _) fun hempty =>
    Sat.ite (fun _ => .refl _ _) fun _ => ?_)
  have hne : builder.records ≠ [] := by
    intro h
    exact hempty (by rw [BatchBuilder.empty, h]; rfl)
  refine (makeRoom_sat hwidth hx builder.framedBytes).bind fun _ t hroom => ?_
  obtain ⟨y, hy⟩ := hroom.quiet.file ⟨x, hx⟩
  have hnext : t.log.nextOffset = s.log.nextOffset := hroom.quiet.log.1
  refine getLog_sat ?_
  rw [hnext, builder.decodeHeader_finish]
  refine ((appendFramed_sat hy (builder.frame hne s.log.nextOffset info)).mono
    (fun _ _ hu => hu) fun u hu => ⟨t.view, hroom, hu⟩).bind fun _ u hu => ?_
  exact ⟨rfl, hne, t.view, hroom, hu⟩

/-- `append_replicated`: the same with a batch that is framed already. -/
theorem appendReplicated_sat (hwidth : s.log.options.segmentMaxBytes < 0x100000000)
    (hx : s.view.files s.log.active.logFile = some x) (framed : Bytes) :
    Sat (appendReplicated framed s)
      (fun _ t => ∃ (f : Frame) (w : View), f.bytes = framed ∧
        Extent.base f = s.log.nextOffset ∧ Room s.view framed.length w ∧
        Step w (.append f) t.view)
      (fun t => Spoilt s.view framed.length t.view) := by
  refine getLog_sat ?_
  cases hd : decodeHeader framed with
  | error e => exact .refl _ _
  | ok header =>
      refine Sat.ite (fun _ => .refl _ _) fun hlen => Sat.ite (fun _ => .refl _ _) fun hbase => ?_
      cases hv : validateBatch framed with
      | error e => exact .refl _ _
      | ok u =>
          refine Sat.ite (fun _ => .refl _ _) fun _ => ?_
          refine (makeRoom_sat hwidth hx framed.length).bind fun _ t hroom => ?_
          obtain ⟨y, hy⟩ := hroom.quiet.file ⟨x, hx⟩
          let f : Frame := ⟨framed, header, hd, not_not.1 hlen, hv⟩
          refine (appendFramed_sat hy f).mono (fun _ u hu => ?_) fun u hu => ⟨t.view, hroom, hu⟩
          exact ⟨f, t.view, rfl, not_not.1 hbase, hroom, hu⟩

theorem removeSegmentFiles_sat (baseOffset : Nat) (d : Disk) :
    Sat (removeSegmentFiles baseOffset d)
      (fun _ t => ∃ y z, t.file =
          Function.update (Function.update d.file (.log baseOffset) y) (.index baseOffset) z ∧
        (y = none ∨ y = d.file (.log baseOffset) ∧ Refuses .remove) ∧
        (z = none ∨ z = d.file (.index baseOffset)))
      (fun _ => False) := by
  refine (Sat.attempt (R := fun _ t => ∃ y, t.file = Function.update d.file (.log baseOffset) y ∧
      (y = none ∨ y = d.file (.log baseOffset) ∧ Refuses .remove))
    ((remove_sat (.log baseOffset) d).mono (fun _ t ht => ⟨none, ht, .inl rfl⟩) ?_)).bind ?_
  · rintro t ⟨ht, hr | hnone⟩ e
    · exact ⟨_, ht.trans (Function.update_eq_self ..).symm, .inr ⟨rfl, hr⟩⟩
    · refine ⟨none, ht.trans ?_, .inl rfl⟩
      rw [← hnone, Function.update_eq_self]
  rintro _ t ⟨y, ht, hy⟩
  have hindex : t.file (.index baseOffset) = d.file (.index baseOffset) := by
    rw [ht, Function.update_of_ne (fun h => FileName.noConfusion h)]
  refine (Sat.attempt (R := fun _ u => ∃ z, u.file = Function.update t.file (.index baseOffset) z ∧
      (z = none ∨ z = d.file (.index baseOffset)))
    ((remove_sat (.index baseOffset) t).mono (fun _ u hu => ⟨none, hu, .inl rfl⟩) ?_)).bind ?_
  · rintro u ⟨hu, -⟩ e
    exact ⟨_, hu.trans (Function.update_eq_self ..).symm, .inr hindex⟩
  rintro _ u ⟨z, hu, hz⟩
  exact ⟨y, z, by rw [hu, ht], hy, hz⟩

/-- The loop of `truncate_to` drops what begins at or behind the offset. -/
theorem popSegments_sat (offset fuel : Nat) (hfuel : s.log.sealed.length ≤ fuel) :
    Sat (popSegments offset fuel s)
      (fun _ t => Drops offset s.view t.view ∧
        (t.log.sealed = [] ∨ t.log.active.baseOffset < offset))
      (fun _ => False) := by
  induction fuel generalizing s with
  | zero =>
      exact ⟨.refl, .inl (List.eq_nil_of_length_eq_zero (Nat.le_zero.1 hfuel))⟩
  | succ fuel ih =>
      unfold popSegments
      refine getLog_sat ?_
      rcases List.eq_nil_or_concat' s.log.sealed with hnil | ⟨init, before, hsealed⟩
      · rw [hnil]
        exact ⟨.refl, .inl hnil⟩
      rw [hsealed, List.getLast?_concat]
      refine Sat.ite (fun hge => ?_) fun hlt => ⟨.refl, .inr (Nat.not_le.1 hlt)⟩
      rw [List.dropLast_concat]
      refine setLog_sat ?_
      refine (onDisk_sat
        (Q := fun _ t => t.log.sealed = init ∧ Step s.view (.drop offset) t.view) ?_).bind ?_
      · refine (removeSegmentFiles_sat s.log.active.baseOffset s.disk).mono ?_
          fun _ hf => hf.elim
        rintro _ d ⟨y, z, hd, hy, hz⟩
        refine ⟨rfl, ?_⟩
        show Step s.view (.drop offset) ⟨_, d.file⟩
        rw [hd]
        exact .drop hsealed hge hy hz
      rintro _ t ⟨hinit, hstep⟩
      rw [hsealed, List.length_append, List.length_singleton] at hfuel
      exact (ih (by rw [hinit]; omega)).mono (fun _ u hu => ⟨.head hstep hu.1, hu.2⟩) fun _ hf => hf

private theorem cutActive_sat {fs : List Frame} (hx : s.view.files s.log.active.logFile = some x)
    (hholds : s.log.active.Holds x fs) (offset : Nat) :
    Sat (cutActive offset s) (fun _ t => Step s.view (.cut offset) t.view)
      (fun t => t.view = s.view) := by
  refine getLog_sat ((onDisk_sat (Q := fun seg t => Step s.view (.cut offset)
    ⟨{ s.log with active := seg, nextOffset := seg.nextOffset }, t.disk.file⟩)
    (((Segment.truncateTo_ends hholds hx offset).sat fun _ d hd => ?_).mono ?_
      fun _ hd => hd)).bind ?_)
  · exact congrArg (View.mk s.log) hd.1
  · rintro seg d (⟨hle, rfl, hd⟩ | ⟨hlt, hcut, -, rfl, hd⟩)
    · show Step s.view (.cut offset) ⟨_, d.file⟩
      rw [hd]
      exact .retreat hle
    · show Step s.view (.cut offset) ⟨_, d.file⟩
      rw [hd]
      exact .cut hx hholds hlt hcut
  · exact fun _ _ hw => hw

/-- `truncate_to` at an offset of the log: segments are dropped, and then the last one left
is cut, or the error. -/
theorem truncateTo_inside {offset : Nat} (hstart : s.log.startOffset ≤ offset)
    (hlt : offset < s.log.nextOffset)
    (hkept : ∀ w, Drops offset s.view w → (w.log.sealed = [] ∨ w.log.active.baseOffset < offset) →
      ∃ x fs, w.files w.log.active.logFile = some x ∧ w.log.active.Holds x fs) :
    Sat (truncateTo offset s)
      (fun _ t => ∃ w, Drops offset s.view w ∧
        (w.log.sealed = [] ∨ w.log.active.baseOffset < offset) ∧ Step w (.cut offset) t.view)
      (fun t => Drops offset s.view t.view ∧
        (t.log.sealed = [] ∨ t.log.active.baseOffset < offset)) := by
  refine getLog_sat ?_
  rw [if_neg (by omega), if_neg (by omega), if_neg (by omega)]
  refine ((popSegments_sat offset s.log.sealed.length le_rfl).mono (fun _ _ ht => ht)
    fun _ hf => hf.elim).bind ?_
  rintro _ t ⟨hdrops, hend⟩
  obtain ⟨y, fs, hy, hholds⟩ := hkept t.view hdrops hend
  refine (cutActive_sat hy hholds offset).mono (fun _ u hu => ⟨t.view, hdrops, hend, hu⟩)
    fun u hu => ?_
  have hlog : u.log = t.log := congrArg View.log hu
  rw [hu, hlog]
  exact ⟨hdrops, hend⟩

/-- `truncate_to` anywhere. -/
theorem truncateTo_sat (offset : Nat)
    (hkept : ∀ w, Drops offset s.view w → s.log.startOffset ≤ offset →
      offset < s.log.nextOffset → (w.log.sealed = [] ∨ w.log.active.baseOffset < offset) →
      ∃ x fs, w.files w.log.active.logFile = some x ∧ w.log.active.Holds x fs) :
    Sat (truncateTo offset s)
      (fun _ t => s.log.startOffset ≤ offset ∧
        (offset = s.log.nextOffset ∧ t.view = s.view ∨ offset < s.log.nextOffset ∧
          ∃ w, Drops offset s.view w ∧
            (w.log.sealed = [] ∨ w.log.active.baseOffset < offset) ∧
            Step w (.cut offset) t.view))
      (fun t => t.view = s.view ∨ s.log.startOffset ≤ offset ∧ offset < s.log.nextOffset ∧
        Drops offset s.view t.view ∧
        (t.log.sealed = [] ∨ t.log.active.baseOffset < offset)) := by
  by_cases hin : s.log.startOffset ≤ offset ∧ offset < s.log.nextOffset
  · obtain ⟨hstart, hlt⟩ := hin
    refine (truncateTo_inside hstart hlt fun w hw => hkept w hw hstart hlt).mono ?_ ?_
    · exact fun _ t ht => ⟨hstart, .inr ⟨hlt, ht⟩⟩
    · exact fun t ht => .inr ⟨hstart, hlt, ht⟩
  · refine getLog_sat (Sat.ite (fun _ => .inl rfl) fun hle => Sat.ite (fun _ => .inl rfl)
      fun hstart => Sat.ite (fun heq => ⟨Nat.not_lt.1 hstart, .inl ⟨heq, rfl⟩⟩) fun hne => ?_)
    exact absurd ⟨Nat.not_lt.1 hstart, by omega⟩ hin

/-- `flush_indexes` only writes sidecars. -/
theorem flushIndexes_sat (s : Store) :
    Sat (flushIndexes s) (fun _ t => Syncs s.view t.view) (fun t => Syncs s.view t.view) := by
  have key : ∀ (segments : List Segment) (result : Option ErrorCode) (d : Disk),
      (∀ g ∈ segments, g ∈ s.log.segments) → Syncs s.view ⟨s.log, d.file⟩ →
      Sat (flushSegments segments result d) (fun _ t => Syncs s.view ⟨s.log, t.file⟩)
        (fun _ => False) := by
    intro segments
    induction segments with
    | nil => exact fun _ _ _ h => h
    | cons g rest ih =>
        intro result d hmem hquiet
        have hside : ∀ {t : Disk} {y : File},
            t.file = Function.update d.file g.indexFile (some y) →
            y.visible <+: g.index.encode → Syncs s.view ⟨s.log, t.file⟩ := by
          intro t y ht hy
          rw [ht]
          exact hquiet.tail (Step.sidecar (v := ⟨s.log, d.file⟩) (hmem g List.mem_cons_self) hy)
        refine (Sat.attempt (R := fun _ t => Syncs s.view ⟨s.log, t.file⟩)
          ((g.flushIndex_sat d).mono ?_ ?_)).bind ?_
        · rintro _ t ⟨y, ht, hy⟩
          exact hside ht hy
        · rintro t (ht | ⟨y, ht, hy⟩) _
          · rw [ht]
            exact hquiet
          · exact hside ht hy
        · intro r t ht
          have hrest : ∀ g ∈ rest, g ∈ s.log.segments := fun g hg =>
            hmem g (List.mem_cons_of_mem _ hg)
          cases r with
          | ok _ => exact ih _ _ hrest ht
          | error e => exact ih _ _ hrest ht
  refine getLog_sat ((onDisk_sat (Q := fun _ t => Syncs s.view t.view)
    ((key s.log.segments none s.disk (fun _ h => h) .refl).mono (fun _ _ h => h)
      fun _ hf => hf.elim)).bind fun r t ht => ?_)
  cases r with
  | none => exact ht
  | some e => exact ht

end Log

end LogEngine.Storage
