import Mathlib.Data.List.Perm.Subperm
import LogEngine.Storage.Failures
import LogEngine.Storage.Progress
import LogEngine.Storage.Torn

/-!
# The log after a power cut

A power cut comes between two operations of the disk, and takes what has not been flushed: of
each file some first pending writes stay, and a part of the next.  What `Log::open` then finds
is a first part of the log as it was before or after the call in which the cut came, with every
batch that an earlier `fsync` covers.

`View.Laid` is the invariant: the files of the sealed segments are on the platter, and that of
the active one is two rows of batches, flushed and pending.  `View.Around` says that a disk has
the files of a log and others behind it, which is what a call leaves that is cut short.
-/

namespace LogEngine.Io.Disk

/-- The disk after a power cut, with the sidecars gone. -/
def rebooted (d : Disk) (kept torn : FileName → Nat) : Disk := (d.crash kept torn).withoutSidecars

private theorem rebooted_log (d : Disk) (kept torn : FileName → Nat) (b : Nat) :
    (d.rebooted kept torn).file (.log b) =
      (d.file (.log b)).map fun x => x.crash (kept (.log b)) (torn (.log b)) := by
  rw [rebooted, withoutSidecars_log, Disk.crash, file_mapFiles]

private theorem rebooted_index (d : Disk) (kept torn : FileName → Nat) (b : Nat) :
    (d.rebooted kept torn).file (.index b) = none :=
  withoutSidecars_index _ _

end LogEngine.Io.Disk

namespace LogEngine.Storage

open Base Io Io.Disk Verified.Fallible Verified.Tiling Verified.Framing Verified.Machine

namespace View

/-! ## How the files lie -/

/-- The sealed segments are on the platter, the active one has the batches `fd` there and `fp`
pending, and there are no other log files. -/
structure Laid (v : View) (fd fp : List Frame) : Prop where
  sealed : ∀ s ∈ v.log.sealed, ∃ x, v.files s.logFile = some x ∧ File.Logs x (s.frames v.files) []
  active : ∃ x, v.files v.log.active.logFile = some x ∧ File.Logs x fd fp
  rows : v.log.active.frames v.files = fd ++ fp
  capped : ∀ s ∈ v.log.segments, s.sizeBytes ≤ kMaxFileBytes
  clear : ∀ b, (∀ s ∈ v.log.segments, s.baseOffset ≠ b) → v.files (.log b) = none

/-- The batches that have been flushed stay so. -/
def Secures (v : View) (fd : List Frame) (w : View) (fd' : List Frame) : Prop :=
  v.sealedFrames ++ fd ⊆ w.sealedFrames ++ fd'

section Steps

variable [Faults] {v w : View} {fd fp : List Frame} {offset : Nat}

omit [Faults] in
theorem Intact.sealed_logFile_ne (h : v.Intact) {s : Segment} (hs : s ∈ v.log.sealed) :
    s.logFile ≠ v.log.active.logFile :=
  fun heq => h.sealed_ne hs (FileName.log.inj heq)

omit [Faults] in
/-- Another file for the active segment. -/
theorem Laid.replace (h : v.Laid fd fp) (hi : v.Intact) {seg : Segment} {y : File}
    {fd' fp' : List Frame} {nextOffset : Nat} (hbase : seg.baseOffset = v.log.active.baseOffset)
    (hholds : seg.Holds y (fd' ++ fp')) (hlogs : File.Logs y fd' fp')
    (hcap : seg.sizeBytes ≤ kMaxFileBytes) :
    (View.mk { v.log with active := seg, nextOffset := nextOffset }
      (Function.update v.files v.log.active.logFile (some y))).Laid fd' fp' := by
  have hself : Function.update v.files v.log.active.logFile (some y) seg.logFile = some y := by
    rw [Segment.logFile, Segment.logFile, hbase, Function.update_self]
  refine ⟨fun s hs => ?_, ⟨y, hself, hlogs⟩, hholds.frames_eq hself, fun s hs => ?_, fun b hb => ?_⟩
  · obtain ⟨x, hx, hlogs'⟩ := h.sealed s hs
    have hother : Function.update v.files v.log.active.logFile (some y) s.logFile =
        v.files s.logFile := Function.update_of_ne (hi.sealed_logFile_ne hs) ..
    exact ⟨x, hother.trans hx, (Segment.frames_congr hother).symm ▸ hlogs'⟩
  · rcases mem_segments.1 hs with hs | rfl
    · exact h.capped s (mem_segments.2 (.inl hs))
    · exact hcap
  · have hne : FileName.log b ≠ v.log.active.logFile := fun heq =>
      hb seg (mem_segments.2 (.inr rfl)) (hbase.trans (FileName.log.inj heq).symm)
    refine (Function.update_of_ne hne ..).trans (h.clear b fun s hs => ?_)
    rcases mem_segments.1 hs with hs | rfl
    · exact hb s (mem_segments.2 (.inl hs))
    · exact hbase ▸ hb seg (mem_segments.2 (.inr rfl))

omit [Faults] in
/-- The sealed segments do not see it. -/
theorem Intact.replace_sealedFrames (hi : v.Intact) (l : Log) (hsealed : l.sealed = v.log.sealed)
    (y : Option File) :
    (View.mk l (Function.update v.files v.log.active.logFile y)).sealedFrames = v.sealedFrames := by
  unfold sealedFrames
  dsimp only
  rw [hsealed]
  refine List.flatMap_congr fun s hs => Segment.frames_congr ?_
  exact Function.update_of_ne (hi.sealed_logFile_ne hs) ..

omit [Faults] in
/-- The active segment holds what its file says. -/
theorem Laid.holds (h : v.Laid fd fp) (hi : v.Intact) {x : File}
    (hx : v.files v.log.active.logFile = some x) :
    v.log.active.Holds x (fd ++ fp) ∧ File.Logs x fd fp := by
  obtain ⟨y, hy, hlogs⟩ := h.active
  obtain rfl := Option.some.inj (hy.symm.trans hx)
  obtain ⟨z, hz, hholds⟩ := hi.active_holds
  obtain rfl := Option.some.inj (hy.symm.trans hz)
  rw [h.rows] at hholds
  exact ⟨hholds, hlogs⟩

omit [Faults] in
theorem Laid.active_capped (h : v.Laid fd fp) : v.log.active.sizeBytes ≤ kMaxFileBytes :=
  h.capped _ (active_mem _)

omit [Faults] in
/-- With nothing pending, all is flushed. -/
theorem Laid.of_flushed (h : v.Laid fd fp) (hf : v.Flushed) : fp = [] := by
  obtain ⟨x, hx, hpending⟩ := hf
  obtain ⟨y, hy, hlogs⟩ := h.active
  obtain rfl := Option.some.inj (hy.symm.trans hx)
  have hwrites := hlogs.pending
  rw [hpending] at hwrites
  cases fp with
  | nil => rfl
  | cons f fp => cases hwrites

omit [Faults] in
/-- A flush brings all batches to the platter. -/
theorem Laid.flush (h : v.Laid fd fp) (hi : v.Intact) {x : File}
    (hx : v.files v.log.active.logFile = some x) :
    (View.mk v.log (Function.update v.files v.log.active.logFile (some x.flush))).Laid
      (fd ++ fp) [] := by
  obtain ⟨hholds, hlogs⟩ := h.holds hi hx
  have hflushed : v.log.active.Holds x.flush (fd ++ fp ++ []) := by
    rw [List.append_nil]
    exact hholds.congr_file hholds.content
  exact h.replace hi rfl hflushed hlogs.flush h.active_capped

omit [Faults] in
theorem Laid.mem_frames (h : v.Laid fd fp) {f : Frame} (hf : f ∈ v.sealedFrames ++ fd) :
    f ∈ v.frames := by
  rw [frames_eq, h.rows, ← List.append_assoc]
  exact List.mem_append_left _ hf

omit [Faults] in
/-- A sidecar is no log file. -/
theorem Laid.sidecar (h : v.Laid fd fp) (s : Segment) (y : File) :
    (View.mk v.log (Function.update v.files s.indexFile (some y))).Laid fd fp ∧
      v.Secures fd ⟨v.log, Function.update v.files s.indexFile (some y)⟩ fd := by
  have hother : ∀ s' : Segment, Function.update v.files s.indexFile (some y) s'.logFile =
      v.files s'.logFile := fun s' => Function.update_of_ne (Segment.logFile_ne_indexFile _ _) ..
  have hframes : ∀ s' : Segment, s'.frames (Function.update v.files s.indexFile (some y)) =
      s'.frames v.files := fun s' => Segment.frames_congr (hother s')
  refine ⟨⟨fun s' hs' => ?_, ?_, ?_, h.capped, fun b hb => ?_⟩, ?_⟩
  · dsimp only
    rw [hother, hframes]
    exact h.sealed s' hs'
  · dsimp only
    rw [hother]
    exact h.active
  · exact (hframes _).trans h.rows
  · have hne : FileName.log b ≠ s.indexFile := fun heq => FileName.noConfusion heq
    dsimp only
    rw [Function.update_of_ne hne]
    exact h.clear b hb
  · rw [Secures, sealedFrames, sealedFrames]
    simp only [hframes]
    exact fun _ hf => hf

omit [Faults] in
/-- A segment is flushed before the next one is opened, which is empty. -/
theorem Laid.roll (h : v.Laid fd []) (hi : v.Intact) (hne : v.log.active.empty = false)
    {seg : Segment} (hbase : seg.baseOffset = v.log.nextOffset) (hholds : seg.Holds {} []) :
    let w : View := ⟨{ v.log with sealed := v.log.segments, active := seg },
      Function.update v.files (.log v.log.nextOffset) (some {})⟩
    w.Laid [] [] ∧ v.Secures fd w [] := by
  have hfile : seg.logFile = .log v.log.nextOffset := congrArg FileName.log hbase
  have hother : ∀ s ∈ v.log.segments, Function.update v.files (.log v.log.nextOffset) (some {})
      s.logFile = v.files s.logFile := fun s hs =>
    Function.update_of_ne (fun heq => (hi.lt_next hne hs).ne (FileName.log.inj heq)) ..
  have hframes : ∀ s ∈ v.log.segments, s.frames (Function.update v.files
      (.log v.log.nextOffset) (some {})) = s.frames v.files :=
    fun s hs => Segment.frames_congr (hother s hs)
  have hself : Function.update v.files (.log v.log.nextOffset) (some {}) seg.logFile =
      some {} := by rw [hfile, Function.update_self]
  refine ⟨⟨fun s hs => ?_, ⟨{}, hself, .empty⟩, hholds.frames_eq hself, fun s hs => ?_,
    fun b hb => ?_⟩, ?_⟩
  · dsimp only at hs ⊢
    rw [hother s hs, hframes s hs]
    rcases mem_segments.1 hs with hs | rfl
    · exact h.sealed s hs
    · rw [h.rows, List.append_nil]
      exact h.active
  · rcases mem_segments.1 hs with hs | rfl
    · exact h.capped s hs
    · have hsize := hholds.size
      rw [encode_nil, List.length_nil] at hsize
      rw [hsize]
      exact Nat.zero_le _
  · have hne' : FileName.log b ≠ .log v.log.nextOffset := fun heq =>
      hb seg (mem_segments.2 (.inr rfl)) (hbase.trans (FileName.log.inj heq).symm)
    refine (Function.update_of_ne hne' ..).trans (h.clear b fun s hs => ?_)
    exact hb s (mem_segments.2 (.inl hs))
  · have hsealed : (View.mk { v.log with sealed := v.log.segments, active := seg }
        (Function.update v.files (.log v.log.nextOffset) (some {}))).sealedFrames =
        v.frames := List.flatMap_congr hframes
    rw [Secures, hsealed, List.append_nil, frames_eq, h.rows, List.append_nil]
    exact fun _ hf => hf

/-- A quiet step flushes or rolls, or touches a sidecar. -/
theorem Laid.quiet (h : v.Laid fd fp) (hi : v.Intact) {rolls : Bool}
    (hs : Step v (.quiet rolls) w) : ∃ fd' fp', w.Laid fd' fp' ∧ v.Secures fd w fd' := by
  cases hs with
  | flush hx =>
      refine ⟨fd ++ fp, [], h.flush hi hx, ?_⟩
      rw [Secures, hi.replace_sealedFrames v.log rfl, ← List.append_assoc]
      exact List.subset_append_left _ _
  | @sidecar s _ y _ => exact ⟨fd, fp, h.sidecar s y⟩
  | @roll hne hflushed x y seg hx ho =>
      obtain rfl := h.of_flushed hflushed
      have hnone : v.files (.log v.log.nextOffset) = none :=
        h.clear _ fun s hs => (hi.lt_next hne hs).ne
      obtain rfl : x = {} := by rw [← hx, hnone]; rfl
      obtain ⟨rfl, hholds⟩ := ho.empty rfl
      exact ⟨[], [], h.roll hi hne ho.base hholds⟩

theorem Laid.quiets (h : v.Laid fd fp) (hi : v.Intact) (hs : Quiet v w) :
    ∃ fd' fp', w.Laid fd' fp' ∧ v.Secures fd w fd' := by
  induction hs with
  | refl => exact ⟨fd, fp, h, fun _ hf => hf⟩
  | tail hfirst hlast ih =>
      obtain ⟨fd₁, fp₁, hlaid, hsure⟩ := ih
      obtain ⟨rolls, hstep⟩ := hlast
      obtain ⟨fd₂, fp₂, hlaid', hsure'⟩ := hlaid.quiet (hi.quiets hfirst).1 hstep
      exact ⟨fd₂, fp₂, hlaid', fun _ hf => hsure' (hsure hf)⟩

/-- A batch is pending once it is written. -/
theorem Laid.append (h : v.Laid fd fp) (hi : v.Intact) {f : Frame} (hs : Step v (.append f) w) :
    w.Laid fd (fp ++ [f]) ∧ v.Secures fd w fd := by
  cases hs with
  | @append x _ hx hbase hroom hcap =>
      obtain ⟨hholds, hlogs⟩ := h.holds hi hx
      have hgrown : (v.log.active.grown f).Holds (x.write v.log.active.sizeBytes f.bytes)
          (fd ++ (fp ++ [f])) := by
        rw [← List.append_assoc]
        exact hholds.grown hbase hroom
      refine ⟨h.replace hi rfl hgrown ?_ hcap, ?_⟩
      · rw [hholds.size]
        exact hlogs.write f
      · rw [Secures, hi.replace_sealedFrames]
        · exact fun _ hf => hf
        · rfl

/-- The segment before the active one has been flushed. -/
theorem Laid.drop (h : v.Laid fd fp) (hi : v.Intact) (hremove : ¬ Refuses .remove)
    (hs : Step v (.drop offset) w) :
    w.Laid (w.log.active.frames w.files) [] := by
  cases hs with
  | @drop init before _ y z hsealed hge hy hz =>
      obtain rfl : y = none := hy.elim id fun hy => absurd hy.2 hremove
      have hother : ∀ s ∈ v.log.sealed, Function.update (Function.update v.files
          v.log.active.logFile none) v.log.active.indexFile z s.logFile = v.files s.logFile := by
        intro s hs
        rw [Function.update_of_ne (Segment.logFile_ne_indexFile _ _),
          Function.update_of_ne (hi.sealed_logFile_ne hs)]
      have hlogs : ∀ s ∈ v.log.sealed, ∃ x, Function.update (Function.update v.files
          v.log.active.logFile none) v.log.active.indexFile z s.logFile = some x ∧
          File.Logs x (s.frames (Function.update (Function.update v.files
            v.log.active.logFile none) v.log.active.indexFile z)) [] := by
        intro s hs
        rw [hother s hs, Segment.frames_congr (hother s hs)]
        exact h.sealed s hs
      have hmem : ∀ s, s ∈ init ++ [before] ↔ s ∈ v.log.sealed := fun s => by rw [hsealed]
      refine ⟨fun s hs => hlogs s ((hmem s).1 (List.mem_append_left _ hs)),
        hlogs before ((hmem before).1 (by simp)), (List.append_nil _).symm,
        fun s hs => h.capped s (mem_segments.2 (.inl ((hmem s).1 hs))), fun b hb => ?_⟩
      dsimp only
      rw [Function.update_of_ne FileName.noConfusion]
      by_cases hactive : v.log.active.baseOffset = b
      · rw [← hactive]
        exact Function.update_self ..
      · have hne : FileName.log b ≠ v.log.active.logFile := fun heq =>
          hactive (FileName.log.inj heq).symm
        refine (Function.update_of_ne hne ..).trans (h.clear b fun s hs => ?_)
        rcases mem_segments.1 hs with hs | rfl
        · exact hb s ((hmem s).2 hs)
        · exact hactive

theorem Laid.drops (h : v.Laid fd fp) (hi : v.Intact) (hremove : ¬ Refuses .remove)
    (hs : Drops offset v w) : w = v ∨ w.Laid (w.log.active.frames w.files) [] := by
  induction hs with
  | refl => exact .inl rfl
  | tail hfirst hlast ih =>
      have hu := (hi.drops hremove hfirst).1
      rcases ih with rfl | hlaid
      · exact .inr (h.drop hu hremove hlast)
      · exact .inr (hlaid.drop hu hremove hlast)

/-- A cut leaves some first batches of the active segment. -/
theorem Laid.cut (h : v.Laid fd fp) (hi : v.Intact) (hle : v.log.active.baseOffset ≤ offset)
    (hrobust : ∀ f ∈ fp, f.Robust) (hs : Step v (.cut offset) w) :
    ∃ fd' fp', w.Laid fd' fp' ∧
      ∀ f ∈ v.sealedFrames ++ fd, Extent.base f < offset → f ∈ w.sealedFrames ++ fd' := by
  cases hs with
  | retreat hle =>
      exact ⟨fd, fp, ⟨h.sealed, h.active, h.rows, h.capped, h.clear⟩, fun f hf _ => hf⟩
  | @cut x fs _ hx hholds hlt hcut =>
      obtain ⟨hholds', hlogs⟩ := h.holds hi hx
      obtain rfl : fs = fd ++ fp := (hholds.frames_eq hx).symm.trans (hholds'.frames_eq hx)
      have hpre := upTo_isPrefix (fd ++ fp) offset
      have hshort := hholds.truncated hpre
      rw [hcut.end_eq hholds.tiles hle] at hshort
      have hcap : (encode (upTo (fd ++ fp) offset)).length ≤ kMaxFileBytes := by
        have hlen := (encode_isPrefix hpre).length_le
        rw [← hholds.size] at hlen
        exact hlen.trans h.active_capped
      have hstay : ∀ f ∈ fd, Extent.base f < offset → f ∈ upTo (fd ++ fp) offset :=
        fun f hf hlt => hholds.tiles.mem_upTo (List.mem_append_left _ hf) hlt
      have hsame := hi.replace_sealedFrames { v.log with
        active :=
          { v.log.active with
            sizeBytes := (encode (upTo (fd ++ fp) offset)).length
            nextOffset := offset
            index := v.log.active.index.truncateFrom (encode (upTo (fd ++ fp) offset)).length }
        nextOffset := offset } rfl (some (x.truncate (encode (upTo (fd ++ fp) offset)).length))
      rcases List.prefix_or_prefix_of_prefix hpre (List.prefix_append fd fp) with hfd | ⟨q, hq⟩
      · refine ⟨upTo (fd ++ fp) offset, [],
          h.replace hi rfl ?_ (hlogs.truncate_flushed hfd) hcap, ?_⟩
        · rw [List.append_nil]
          exact hshort
        · intro f hf hlt
          rw [hsame]
          rcases List.mem_append.1 hf with hf | hf
          · exact List.mem_append_left _ hf
          · exact List.mem_append_right _ (hstay f hf hlt)
      · have hqp : q <+: fp := by
          rw [← hq] at hpre
          exact (List.prefix_append_right_inj fd).1 hpre
        refine ⟨fd, q, h.replace hi rfl (hq.symm ▸ hshort) ?_ hcap, ?_⟩
        · rw [← hq]
          exact hlogs.truncate_pending hqp fun f hf => hrobust f (hqp.subset hf)
        · intro f hf _
          rw [hsame]
          exact hf

end Steps

end View

/-! ## What is found again -/

/-- A file that does not begin where the row ends is not taken. -/
theorem recoverRow_apart {visible : Nat → Bytes} {bases : List Nat} {want : Nat}
    (h : ∀ b ∈ bases, want < b) : recoverRow visible bases (some want) = [] := by
  cases bases with
  | nil => rfl
  | cons b bases =>
      have hne : b ≠ want := (h b List.mem_cons_self).ne'
      rw [recoverRow, if_pos (by simpa using hne)]

/-- Of a row of segments, some of which are gone, the first ones are recovered. -/
theorem recoverRow_sublist {visible : Nat → Bytes} {frames : Segment → List Frame} {a : Nat}
    {segments : List Segment} {last : Segment} (htiles : Tiles a segments)
    (hlast : last.baseOffset = endFrom a segments)
    {bases : List Nat}
    (hframes : ∀ s ∈ segments, s.baseOffset ∈ bases → visible s.baseOffset = encode (frames s) ∧
      Tiles s.baseOffset (frames s) ∧ endFrom s.baseOffset (frames s) = s.nextOffset)
    (hpart : last.baseOffset ∈ bases → recoverFile visible last.baseOffset <+: frames last)
    (hsub : bases.Sublist (segments.map Segment.baseOffset ++ [last.baseOffset])) :
    (recoverRow visible bases (some a)).flatMap Prod.snd <+:
      segments.flatMap frames ++ frames last := by
  induction segments generalizing a bases with
  | nil =>
      rcases List.sublist_singleton.1 hsub with rfl | rfl
      · exact List.nil_prefix
      · have hwant : ∀ w ∈ some a, last.baseOffset = w := fun w hw => by
          rw [hlast]
          exact Option.some.inj hw
        have hrow : (recoverRow visible [last.baseOffset] (some a)).flatMap Prod.snd =
            recoverFile visible last.baseOffset := by
          by_cases hwhole : visible last.baseOffset = encode (recoverFile visible last.baseOffset)
          · rw [recoverRow_whole hwant hwhole]
            exact List.append_nil _
          · rw [recoverRow_torn hwant hwhole]
            exact List.append_nil _
        rw [hrow]
        exact hpart List.mem_cons_self
  | cons s segments ih =>
      obtain ⟨hbase, hlt, hrest⟩ := htiles
      cases hsub with
      | cons _ hsub =>
          -- the segment is gone, and the others lie behind it
          have hbehind : ∀ b ∈ bases, a < b := by
            intro b hb
            have hstop : a < s.nextOffset := hlt
            rcases List.mem_append.1 (hsub.subset hb) with hb | hb
            · obtain ⟨t, ht, rfl⟩ := List.mem_map.1 hb
              exact hstop.trans_le (hrest.le_base ht)
            · rw [List.mem_singleton.1 hb, hlast]
              exact hstop.trans_le hrest.le_end
          rw [recoverRow_apart hbehind]
          exact List.nil_prefix
      | cons_cons _ hsub =>
          obtain ⟨hvisible, hs, hend⟩ := hframes s List.mem_cons_self List.mem_cons_self
          have hfile : recoverFile visible s.baseOffset = frames s := by
            rw [recoverFile, hvisible, parse_encode hs]
          have hwant : ∀ w ∈ some a, s.baseOffset = w := fun w hw =>
            hbase.trans (Option.some.inj hw)
          rw [recoverRow_whole hwant (hfile.symm ▸ hvisible), hfile, hend, List.flatMap_cons,
            List.flatMap_cons, List.append_assoc]
          refine (List.prefix_append_right_inj _).2 (ih hrest hlast ?_ ?_ hsub)
          · exact fun t ht hb => hframes t (List.mem_cons_of_mem _ ht) (List.mem_cons_of_mem _ hb)
          · exact fun hb => hpart (List.mem_cons_of_mem _ hb)

namespace View

section Recovery

variable {v : View} {fd fp : List Frame} {d : Disk}

theorem Laid.sealed_crash (h : v.Laid fd fp) (hi : v.Intact) {s : Segment} (hs : s ∈ v.log.sealed)
    {x : File} (hx : v.files s.logFile = some x) (kept torn : Nat) :
    (x.crash kept torn).visible = encode (s.frames v.files) ∧
      Tiles s.baseOffset (s.frames v.files) ∧
      endFrom s.baseOffset (s.frames v.files) = s.nextOffset := by
  obtain ⟨y, hy, hlogs⟩ := h.sealed s hs
  obtain rfl := Option.some.inj (hy.symm.trans hx)
  obtain ⟨z, hz, hholds⟩ := (hi.sits s (mem_segments.2 (.inl hs))).holds
  exact ⟨hlogs.crash_settled kept torn, hholds.tiles, hholds.next.symm⟩

/-- A file that a power cut leaves of a segment can be opened. -/
theorem Laid.not_hopeless (h : v.Laid fd fp) (hi : v.Intact) {s : Segment}
    (hs : s ∈ v.log.segments) {x : File} (hx : v.files s.logFile = some x) (kept torn : Nat) :
    ¬ Hopeless v.log.options.segment s.baseOffset (x.crash kept torn) := by
  obtain ⟨y, hy, hholds⟩ := (hi.sits s hs).holds
  obtain rfl := Option.some.inj (hy.symm.trans hx)
  have hlogs : ∃ fd' fp', File.Logs y fd' fp' ∧ fd' ++ fp' = s.frames v.files := by
    rcases mem_segments.1 hs with hs | rfl
    · obtain ⟨z, hz, hlogs⟩ := h.sealed s hs
      obtain rfl := Option.some.inj (hz.symm.trans hx)
      exact ⟨_, [], hlogs, List.append_nil _⟩
    · obtain ⟨z, hz, hlogs⟩ := h.active
      obtain rfl := Option.some.inj (hz.symm.trans hx)
      exact ⟨fd, fp, hlogs, h.rows.symm⟩
  obtain ⟨fd', fp', hlogs, hrows⟩ := hlogs
  have hsize : y.visible.length = s.sizeBytes := by rw [hlogs.visible, hrows, hholds.size]
  have hcut := crash_length_le hlogs.consistent kept torn
  have hcap := h.capped s hs
  have hbound := hholds.bound
  rw [hi.options s hs] at hbound
  obtain ⟨-, rest, hrest, -⟩ := Frame.parses s.baseOffset (y.crash kept torn).visible
  have hparse := congrArg List.length hrest
  rw [List.length_append] at hparse
  rintro (hlong | ⟨-, hlong⟩)
  · omega
  · omega

/-- The files of the segments are there, and others only behind them. -/
structure Around (v : View) (files : FileName → Option File) : Prop where
  here : ∀ s ∈ v.log.segments, files s.logFile = v.files s.logFile
  behind : ∀ b, (∀ s ∈ v.log.segments, s.baseOffset ≠ b) → ∀ x, files (.log b) = some x →
    v.log.active.nextOffset ≤ b
  hopeful : ∀ b, (∀ s ∈ v.log.segments, s.baseOffset ≠ b) → ∀ x, files (.log b) = some x →
    ∀ kept torn, ¬ Hopeless v.log.options.segment b (x.crash kept torn)

/-- A log file that belongs to no segment. -/
def Around.Other (v : View) (files : FileName → Option File) (b : Nat) : Prop :=
  (∀ s ∈ v.log.segments, s.baseOffset ≠ b) ∧ (files (.log b)).isSome

theorem Around.bytes (ha : v.Around d.file) (kept torn : FileName → Nat) {s : Segment}
    (hs : s ∈ v.log.segments) {x : File} (hx : v.files s.logFile = some x) :
    logBytes (d.rebooted kept torn).file s.baseOffset =
      (x.crash (kept s.logFile) (torn s.logFile)).visible := by
  have hx' : d.file (.log s.baseOffset) = some x := (ha.here s hs).trans hx
  rw [logBytes, rebooted_log, hx']
  rfl

theorem Around.opens (ha : v.Around d.file) (h : v.Laid fd fp) (hi : v.Intact)
    (kept torn : FileName → Nat) :
    ∃ l t, @Log.open healthy v.log.options (d.rebooted kept torn) = .ok l t ∧
      @Reopened healthy v.log.options (d.rebooted kept torn).file ⟨l, t.file⟩ := by
  have hblank : Blank (d.rebooted kept torn).file := by
    intro b y hy
    rw [rebooted_index] at hy
    cases hy
  refine (@Log.open_sat healthy _ v.log.options hi.width hblank).exists_ok fun t ht => ?_
  rcases ht.2 with ⟨op, hr⟩ | ⟨b, y, hy, hhopeless⟩
  · exact not_refuses_healthy op hr
  · rw [rebooted_log, Option.map_eq_some_iff] at hy
    obtain ⟨x, hx, rfl⟩ := hy
    by_cases hseg : ∃ s ∈ v.log.segments, s.baseOffset = b
    · obtain ⟨s, hs, rfl⟩ := hseg
      exact h.not_hopeless hi hs ((ha.here s hs).symm.trans hx) _ _ hhopeless
    · exact ha.hopeful b (fun s hs heq => hseg ⟨s, hs, heq⟩) x hx _ _ hhopeless

theorem Around.bases (ha : v.Around d.file) (hi : v.Intact) {kept torn : FileName → Nat}
    {bases : List Nat} (hlists : Lists (d.rebooted kept torn).file bases) :
    ∃ others, bases = v.log.sealed.map Segment.baseOffset ++ v.log.active.baseOffset :: others ∧
      others.Pairwise (· < ·) ∧ ∀ b ∈ others, Around.Other v d.file b := by
  have hsome : ∀ s ∈ v.log.segments, (d.file (.log s.baseOffset)).isSome := by
    intro s hs
    obtain ⟨x, hx, -⟩ := (hi.sits s hs).holds
    rw [show d.file (.log s.baseOffset) = some x from (ha.here s hs).trans hx]
    rfl
  have hmem : ∀ b, b ∈ bases ↔ (d.file (.log b)).isSome := by
    intro b
    rw [hlists.mem, rebooted_log, Option.isSome_map]
    refine ⟨fun hb => hb.elim id ?_, .inl⟩
    rintro ⟨-, hnone⟩
    have hactive := hsome _ (active_mem v.log)
    rw [← Option.isSome_map, ← rebooted_log, hnone] at hactive
    cases hactive
  have hnext := hi.active_sits.le
  refine ⟨_, hi.bases_eq hlists.sorted (fun s hs => (hmem _).2 (hsome s hs)) ?_,
    hlists.sorted.filter _, fun b hb => ?_⟩
  · intro b hb hother
    obtain ⟨x, hx⟩ := Option.isSome_iff_exists.1 ((hmem b).1 hb)
    have hle := ha.behind b hother x hx
    have hne := hother _ (active_mem _)
    omega
  · obtain ⟨hb, hlt⟩ := List.mem_filter.1 hb
    rw [decide_eq_true_eq] at hlt
    refine ⟨fun s hs heq => ?_, (hmem b).1 hb⟩
    rcases mem_segments.1 hs with hs | rfl
    · have := hi.sealed_bounds hs
      omega
    · omega

/-- The row that is recovered: the sealed segments, what is left of the active one, and what
follows it in other files if all of it is left. -/
theorem Around.row (ha : v.Around d.file) (h : v.Laid fd fp) (hi : v.Intact) (hl : v.log.Linked)
    (kept torn : FileName → Nat) {others : List Nat}
    (hothers : ∀ b ∈ others, Around.Other v d.file b) :
    ∃ p more, recoverRow (logBytes (d.rebooted kept torn).file)
        (v.log.sealed.map Segment.baseOffset ++ v.log.active.baseOffset :: others) none =
        (v.log.sealed.map fun s => (s.baseOffset, s.frames v.files)) ++
          (v.log.active.baseOffset, p) :: more ∧
      fd <+: p ∧ p <+: fd ++ fp ∧
      (more = [] ∨ p = fd ++ fp ∧ more = recoverRow (logBytes (d.rebooted kept torn).file) others
        (some v.log.active.nextOffset)) := by
  obtain ⟨x, hx, hlogs⟩ := h.active
  obtain ⟨hholds, -⟩ := h.holds hi hx
  obtain ⟨hfd, hfp⟩ := hlogs.parse_crash hholds.tiles (kept v.log.active.logFile)
    (torn v.log.active.logFile)
  have hwhole : ∀ s ∈ v.log.sealed, logBytes (d.rebooted kept torn).file s.baseOffset =
      encode (s.frames v.files) ∧ Tiles s.baseOffset (s.frames v.files) ∧
      endFrom s.baseOffset (s.frames v.files) = s.nextOffset := by
    intro s hs
    obtain ⟨y, hy, -⟩ := h.sealed s hs
    rw [ha.bytes kept torn (mem_segments.2 (.inl hs)) hy]
    exact h.sealed_crash hi hs hy _ _
  obtain ⟨want, hwant, hsealed⟩ := recoverRow_tiles hl.tiles hwhole
    (fun w (hw : w ∈ (none : Option Nat)) => by cases hw)
    (v.log.active.baseOffset :: others)
  have hjoin : ∀ w ∈ want, v.log.active.baseOffset = w := fun w hw => hl.joins.trans (hwant w hw)
  rw [← ha.bytes kept torn (active_mem _) hx] at hfd hfp
  rw [hsealed]
  refine ⟨recoverFile (logBytes (d.rebooted kept torn).file) v.log.active.baseOffset, ?_⟩
  by_cases hwhole : logBytes (d.rebooted kept torn).file v.log.active.baseOffset =
      encode (recoverFile (logBytes (d.rebooted kept torn).file) v.log.active.baseOffset)
  · rw [recoverRow_whole hjoin hwhole]
    refine ⟨_, rfl, hfd, hfp, ?_⟩
    rcases Segment.eq_or_snoc hfp with hall | ⟨f, hsnoc⟩
    · right
      rw [show recoverFile _ _ = fd ++ fp from hall, ← hholds.next]
      exact ⟨rfl, rfl⟩
    · -- the row ends before the next file
      left
      refine recoverRow_apart fun b hb => ?_
      obtain ⟨hother, hsome⟩ := hothers b hb
      obtain ⟨y, hy⟩ := Option.isSome_iff_exists.1 hsome
      have hlt := hholds.tiles.end_lt_of_snoc hsnoc
      rw [← hholds.next] at hlt
      exact hlt.trans_le (ha.behind b hother y hy)
  · rw [recoverRow_torn hjoin hwhole]
    exact ⟨[], rfl, hfd, hfp, .inl rfl⟩

/-- What `Log::open` finds after a power cut. -/
theorem Around.recovers (ha : v.Around d.file) (h : v.Laid fd fp) (hi : v.Intact)
    (hl : v.log.Linked)
    (kept torn : FileName → Nat) :
    ∃ l t p more others, @Log.open healthy v.log.options (d.rebooted kept torn) = .ok l t ∧
      (View.mk l t.file).frames = v.sealedFrames ++ p ++ more.flatMap Prod.snd ∧
      fd <+: p ∧ p <+: fd ++ fp ∧ others.Pairwise (· < ·) ∧
      (∀ b ∈ others, Around.Other v d.file b) ∧
      (more = [] ∨ p = fd ++ fp ∧ more = recoverRow (logBytes (d.rebooted kept torn).file) others
        (some v.log.active.nextOffset)) := by
  let _ := healthy
  obtain ⟨l, t, hok, hreopened⟩ := ha.opens h hi kept torn
  obtain ⟨bases, hlists, hrow⟩ := hreopened.row
  obtain ⟨others, rfl, hsorted, hothers⟩ := ha.bases hi hlists
  obtain ⟨p, more, heq, hfd, hfp, hmore⟩ := ha.row h hi hl kept torn hothers
  refine ⟨l, t, p, more, others, hok, ?_, hfd, hfp, hsorted, hothers, hmore⟩
  rw [frames_of_row, hrow, heq, List.flatMap_append, List.flatMap_map, List.flatMap_cons,
    List.append_assoc]
  rfl

/-- `Log::open` finds these batches. -/
def Found (options : LogOptions) (d : Disk) (fs : List Frame) : Prop :=
  ∃ l t, @Log.open healthy options d = .ok l t ∧ (View.mk l t.file).frames = fs

/-- Other files that are empty do not matter. -/
theorem Around.found (ha : v.Around d.file) (h : v.Laid fd fp) (hi : v.Intact) (hl : v.log.Linked)
    (hempty : ∀ b, Around.Other v d.file b → d.file (.log b) = some {})
    (kept torn : FileName → Nat) :
    ∃ fs, Found v.log.options (d.rebooted kept torn) fs ∧ v.sealedFrames ++ fd <+: fs ∧
      fs <+: v.frames := by
  obtain ⟨l, t, p, more, others, hok, hframes, hfd, hfp, -, hothers, hmore⟩ :=
    ha.recovers h hi hl kept torn
  have hnone : more.flatMap Prod.snd = [] := by
    rcases hmore with rfl | ⟨-, rfl⟩
    · rfl
    · refine recoverRow_empty _ fun b hb => ?_
      rw [logBytes, rebooted_log, hempty b (hothers b hb)]
      exact crash_empty (kept (.log b)) (torn (.log b))
  refine ⟨_, ⟨l, t, hok, hframes⟩, ?_⟩
  rw [hnone, List.append_nil, frames_eq, h.rows]
  exact ⟨(List.prefix_append_right_inj _).2 hfd, (List.prefix_append_right_inj _).2 hfp⟩

theorem Laid.around (h : v.Laid fd fp) (hd : ∀ b, d.file (.log b) = v.files (.log b)) :
    v.Around d.file ∧ ∀ b, ¬ Around.Other v d.file b := by
  have hnone : ∀ b, (∀ s ∈ v.log.segments, s.baseOffset ≠ b) → d.file (.log b) = none := by
    intro b hb
    rw [hd]
    exact h.clear b hb
  refine ⟨⟨fun s _ => hd s.baseOffset, fun b hb x hx => ?_, fun b hb x hx => ?_⟩, fun b hb => ?_⟩
  · rw [hnone b hb] at hx
    cases hx
  · rw [hnone b hb] at hx
    cases hx
  · have hsome := hb.2
    rw [hnone b hb.1] at hsome
    cases hsome

/-- After a power cut between two steps, what has been flushed is found, and nothing but some
first batches of the log. -/
theorem Laid.found (h : v.Laid fd fp) (hi : v.Intact) (hl : v.log.Linked)
    (hd : ∀ b, d.file (.log b) = v.files (.log b)) (kept torn : FileName → Nat) :
    ∃ fs, Found v.log.options (d.rebooted kept torn) fs ∧ v.sealedFrames ++ fd <+: fs ∧
      fs <+: v.frames := by
  obtain ⟨ha, hother⟩ := h.around hd
  exact ha.found h hi hl (fun b hb => absurd hb (hother b)) kept torn

end Recovery

/-! ## Calls that are cut short -/

section Calls

variable [Faults] {v w : View} {fd fp : List Frame} {d : Disk} {offset size : Nat}

/-- A file that was just created is empty. -/
theorem Laid.around_spill (hatomic : Faults.Atomic ‹_›) (h : v.Laid fd fp) (hi : v.Intact)
    (hs : Step v .spill w) (hd : d.file = w.files) :
    v.Around d.file ∧ ∀ b, Around.Other v d.file b → d.file (.log b) = some {} := by
  cases hs with
  | @create hne hflushed x hx hr =>
      have hnone : v.files (.log v.log.nextOffset) = none :=
        h.clear _ fun s hs => (hi.lt_next hne hs).ne
      obtain rfl : x = {} := by rw [← hx, hnone]; rfl
      have hfile : ∀ b, (∀ s ∈ v.log.segments, s.baseOffset ≠ b) → ∀ x, d.file (.log b) = some x →
          b = v.log.nextOffset ∧ x = {} := by
        intro b hb x hx
        rw [hd] at hx
        by_cases heq : b = v.log.nextOffset
        · subst heq
          dsimp only at hx
          rw [Function.update_self] at hx
          exact ⟨rfl, (Option.some.inj hx).symm⟩
        · have hne' : FileName.log b ≠ .log v.log.nextOffset := fun h => heq (FileName.log.inj h)
          dsimp only at hx
          rw [Function.update_of_ne hne', h.clear b hb] at hx
          cases hx
      refine ⟨⟨fun s hs => ?_, fun b hb x hx => ?_, fun b hb x hx kept torn => ?_⟩, fun b hb => ?_⟩
      · rw [hd]
        exact Function.update_of_ne
          (fun heq => (hi.lt_next hne hs).ne (FileName.log.inj heq)) ..
      · rw [(hfile b hb x hx).1]
        exact hi.next
      · obtain ⟨-, rfl⟩ := hfile b hb x hx
        rw [Hopeless, crash_empty]
        rintro (hlong | ⟨hwhole, -⟩)
        · exact absurd hlong (Nat.not_lt_zero _)
        · exact hwhole rfl
      · obtain ⟨x, hx⟩ := Option.isSome_iff_exists.1 hb.2
        rw [hx, (hfile b hb.1 x hx).2]
  | @spill x y f hx hroom hy =>
      have hsame : d.file = v.files := by
        cases hy with
        | none => rw [hd, ← hx, Function.update_eq_self]
        | some k ha hne => exact absurd hatomic ha
      obtain ⟨ha, hother⟩ := h.around fun b => by rw [hsame]
      exact ⟨ha, fun b hb => absurd hb (hother b)⟩

/-- An append that is cut short. -/
theorem Laid.found_spoilt (hatomic : Faults.Atomic ‹_›) (h : v.Laid fd fp) (hi : v.Intact)
    (hc : v.log.Chained) (hs : Spoilt v size w) (hd : d.file = w.files)
    (kept torn : FileName → Nat) :
    ∃ fs, Found v.log.options (d.rebooted kept torn) fs ∧ v.sealedFrames ++ fd ⊆ fs ∧
      fs <+: v.frames := by
  obtain ⟨u, hroom, hlast⟩ := hs
  obtain ⟨fd', fp', hlaid, hsecures⟩ := h.quiets hi hroom.quiet
  obtain ⟨hu, hframes⟩ := hi.quiets hroom.quiet
  have hl := (hc.quiets hi hroom.quiet).toLinked
  have hfound : ∃ fs, Found u.log.options (d.rebooted kept torn) fs ∧
      u.sealedFrames ++ fd' <+: fs ∧ fs <+: u.frames := by
    rcases hlast with rfl | hspill
    · exact hlaid.found hu hl (fun b => by rw [hd]) kept torn
    · obtain ⟨ha, hempty⟩ := hlaid.around_spill hatomic hu hspill hd
      exact ha.found hlaid hu hl hempty kept torn
  obtain ⟨fs, hfs, hsure, hpart⟩ := hfound
  rw [hroom.quiet.log.2.1] at hfs
  exact ⟨fs, hfs, fun f hf => hsure.subset (hsecures hf), hframes ▸ hpart⟩

/-- An append that is carried out. -/
theorem Laid.found_append (h : v.Laid fd fp) (hi : v.Intact) (hc : v.log.Chained) {u : View}
    (hroom : Room v size u) {f : Frame} (hs : Step u (.append f) w) (hd : d.file = w.files)
    (kept torn : FileName → Nat) :
    ∃ fs, Found v.log.options (d.rebooted kept torn) fs ∧ v.sealedFrames ++ fd ⊆ fs ∧
      fs <+: v.frames ++ [f] := by
  obtain ⟨fd', fp', hlaid, hsecures⟩ := h.quiets hi hroom.quiet
  obtain ⟨hu, hframes⟩ := hi.quiets hroom.quiet
  have hcu := hc.quiets hi hroom.quiet
  obtain ⟨hlaid', hsecures'⟩ := hlaid.append hu hs
  obtain ⟨hw, hframes', -, -⟩ := hu.append hs
  obtain ⟨fs, hfs, hsure, hpart⟩ :=
    hlaid'.found hw (hcu.append hs).1.toLinked (fun b => by rw [hd]) kept torn
  rw [hs.options, hroom.quiet.log.2.1] at hfs
  rw [hframes', hframes] at hpart
  exact ⟨fs, hfs, fun g hg => hsure.subset (hsecures' (hsecures hg)), hpart⟩

/-- The drops as they are on a healthy disk: the same log is left.  On this one, files of
dropped segments may be left besides. -/
theorem drops_healthy (hi : v.Intact) (hs : Drops offset v w) :
    ∃ u, @Drops healthy offset v u ∧ u.log = w.log ∧
      ∀ b, w.files (.log b) = u.files (.log b) ∨ w.files (.log b) = v.files (.log b) := by
  induction hs with
  | refl => exact ⟨v, .refl, rfl, fun b => .inl rfl⟩
  | @tail w₁ w₂ hfirst hlast ih =>
      obtain ⟨u, hu, hlog, hfiles⟩ := ih
      have hsegment := hi.rising.drop_files hfirst
      cases hlast with
      | @drop init before _ y z hsealed hge hy hz =>
          refine ⟨_, hu.tail (@Step.drop healthy u init before offset none none
            (by rw [hlog]; exact hsealed) (by rw [hlog]; exact hge) (.inl rfl) (.inl rfl)), ?_,
            fun b => ?_⟩
          · dsimp only
            rw [hlog]
          · have hindex : ∀ s : Segment, FileName.log b ≠ s.indexFile :=
              fun _ heq => FileName.noConfusion heq
            dsimp only
            rw [Function.update_of_ne (hindex _), Function.update_of_ne (hindex _), hlog]
            by_cases hb : FileName.log b = w₁.log.active.logFile
            · rw [hb, Function.update_self, Function.update_self]
              rcases hy with rfl | ⟨rfl, -⟩
              · exact .inl rfl
              · exact .inr (hsegment _ (active_mem _))
            · rw [Function.update_of_ne hb, Function.update_of_ne hb]
              exact hfiles b

omit [Faults] in
/-- The active segment becomes shorter. -/
theorem Around.shorten {files : FileName → Option File} (ha : v.Around files) (hi : v.Intact)
    {seg : Segment} {y : File} {nextOffset : Nat}
    (hbase : seg.baseOffset = v.log.active.baseOffset)
    (hnext : seg.nextOffset ≤ v.log.active.nextOffset) :
    (View.mk { v.log with active := seg, nextOffset := nextOffset }
      (Function.update v.files v.log.active.logFile (some y))).Around
        (Function.update files v.log.active.logFile (some y)) ∧
      ∀ b, Around.Other (View.mk { v.log with active := seg, nextOffset := nextOffset }
        (Function.update v.files v.log.active.logFile (some y)))
          (Function.update files v.log.active.logFile (some y)) b → Around.Other v files b := by
  have hfile : seg.logFile = v.log.active.logFile := congrArg FileName.log hbase
  have hother : ∀ b, (∀ s ∈ ({ v.log with active := seg, nextOffset := nextOffset } : Log).segments,
      s.baseOffset ≠ b) → (∀ s ∈ v.log.segments, s.baseOffset ≠ b) ∧
        Function.update files v.log.active.logFile (some y) (.log b) = files (.log b) := by
    intro b hb
    have hactive : v.log.active.baseOffset ≠ b := hbase ▸ hb seg (mem_segments.2 (.inr rfl))
    refine ⟨fun s hs => ?_,
      Function.update_of_ne (fun heq => hactive (FileName.log.inj heq).symm) ..⟩
    rcases mem_segments.1 hs with hs | rfl
    · exact hb s (mem_segments.2 (.inl hs))
    · exact hactive
  refine ⟨⟨fun s hs => ?_, fun b hb x hx => ?_, fun b hb x hx => ?_⟩, fun b hb => ?_⟩
  · rcases mem_segments.1 hs with hs | rfl
    · have hne := hi.sealed_logFile_ne hs
      dsimp only
      rw [Function.update_of_ne hne, Function.update_of_ne hne]
      exact ha.here s (mem_segments.2 (.inl hs))
    · dsimp only
      rw [hfile, Function.update_self, Function.update_self]
  · obtain ⟨hb', heq⟩ := hother b hb
    exact hnext.trans (ha.behind b hb' x (heq.symm.trans hx))
  · obtain ⟨hb', heq⟩ := hother b hb
    exact ha.hopeful b hb' x (heq.symm.trans hx)
  · obtain ⟨hb', heq⟩ := hother b hb.1
    exact ⟨hb', heq ▸ hb.2⟩

omit [Faults] in
/-- A cut of the active segment, with the same other files. -/
theorem Around.cut {files : FileName → Option File} (ha : v.Around files) (hi : v.Intact)
    {x : File} {fs : List Frame} (hx : files v.log.active.logFile = some x)
    (hholds : v.log.active.Holds x fs) (hlt : offset < v.log.active.nextOffset)
    (hcut : Segment.CutsAt v.log.active.baseOffset fs offset) :
    ∃ u, @Step healthy v (.cut offset) u ∧ u.log.active.nextOffset = offset ∧
      u.Around (Function.update files v.log.active.logFile
        (some (x.truncate (encode (upTo fs offset)).length))) ∧
      ∀ b, Around.Other u (Function.update files v.log.active.logFile
        (some (x.truncate (encode (upTo fs offset)).length))) b → Around.Other v files b :=
  ⟨_, @Step.cut healthy _ _ _ _ ((ha.here _ (active_mem _)).symm.trans hx) hholds hlt hcut, rfl,
    ha.shorten hi rfl hlt.le⟩

/-- What is known of the drops of a `truncate_to`: `u` is the log that is left, and `gone` are
the segments that are dropped. -/
structure Dropped (v u : View) (offset : Nat) (gone : List Segment) : Prop where
  intact : u.Intact
  linked : u.log.Linked
  options : u.log.options = v.log.options
  segments : v.log.segments = u.log.segments ++ gone
  files : ∀ s ∈ u.log.segments, u.files s.logFile = v.files s.logFile
  behind : ∀ s ∈ gone, u.log.active.nextOffset ≤ s.baseOffset
  below : ∀ f ∈ v.frames, Extent.base f < offset → f ∈ u.frames
  isPrefix : u.frames <+: v.frames

omit [Faults] in
theorem dropped_of_drops {u : View} (hi : v.Intact) (hl : v.log.Linked)
    (hs : @Drops healthy offset v u) : ∃ gone, Dropped v u offset gone := by
  let _ := healthy
  obtain ⟨hu, -, -, lost, hframes, hlost⟩ := hi.drops (not_refuses_healthy _) hs
  obtain ⟨-, gone, hsegments, -⟩ := hs.segments
  have hapart := hi.rising.apart
  rw [hsegments] at hapart
  refine ⟨gone, hu, hl.drops hs, hs.options, hsegments, hi.rising.drop_files hs, fun s hs => ?_,
    fun f hf hlt => ?_, hframes ▸ List.prefix_append _ _⟩
  · exact ((List.pairwise_append.1 hapart).2.2 _ (active_mem _) s hs).2
  · rw [hframes] at hf
    rcases List.mem_append.1 hf with hf | hf
    · exact hf
    · have := hlost f hf
      omega

omit [Faults] in
/-- The files of the dropped segments that are left lie behind the log. -/
theorem Dropped.around {u : View} {gone : List Segment} (hdropped : Dropped v u offset gone)
    (h : v.Laid fd fp) (hi : v.Intact) {fd' fp' : List Frame} (hu : u.Laid fd' fp')
    {files : FileName → Option File}
    (hd : ∀ b, files (.log b) = u.files (.log b) ∨ files (.log b) = v.files (.log b)) :
    u.Around files ∧ ∀ b, Around.Other u files b → ∃ s ∈ gone, s.baseOffset = b ∧
      files (.log b) = v.files (.log b) := by
  have hother : ∀ b, (∀ s ∈ u.log.segments, s.baseOffset ≠ b) → ∀ x, files (.log b) = some x →
      ∃ s ∈ gone, s.baseOffset = b ∧ files (.log b) = v.files (.log b) := by
    intro b hb x hx
    have hv : files (.log b) = v.files (.log b) := by
      rcases hd b with heq | heq
      · rw [heq, hu.clear b hb] at hx
        cases hx
      · exact heq
    have hseg : ∃ s ∈ v.log.segments, s.baseOffset = b := by
      by_contra hno
      rw [hv, h.clear b fun s hs heq => hno ⟨s, hs, heq⟩] at hx
      cases hx
    obtain ⟨s, hs, rfl⟩ := hseg
    rw [hdropped.segments] at hs
    rcases List.mem_append.1 hs with hs | hs
    · exact absurd rfl (hb s hs)
    · exact ⟨s, hs, rfl, hv⟩
  refine ⟨⟨fun s hs => ?_, fun b hb x hx => ?_, fun b hb x hx kept torn => ?_⟩, fun b hb => ?_⟩
  · rcases hd s.baseOffset with heq | heq
    · exact heq
    · exact heq.trans (hdropped.files s hs).symm
  · obtain ⟨s, hs, rfl, -⟩ := hother b hb x hx
    exact hdropped.behind s hs
  · obtain ⟨s, hs, rfl, heq⟩ := hother b hb x hx
    rw [hdropped.options]
    refine h.not_hopeless hi ?_ (heq.symm.trans hx) kept torn
    rw [hdropped.segments]
    exact List.mem_append_right _ hs
  · obtain ⟨x, hx⟩ := Option.isSome_iff_exists.1 hb.2
    exact hother b hb.1 x hx

omit [Faults] in
/-- What is left lies as it should, and all batches below the offset that have been flushed are
there. -/
theorem Dropped.laid {u : View} {gone : List Segment} (hdropped : Dropped v u offset gone)
    (h : v.Laid fd fp) (hi : v.Intact) (hs : @Drops healthy offset v u) :
    ∃ fd' fp', u.Laid fd' fp' ∧ fp' ⊆ fp ∧
      ∀ f ∈ v.sealedFrames ++ fd, Extent.base f < offset → f ∈ u.sealedFrames ++ fd' := by
  let _ := healthy
  rcases h.drops hi (not_refuses_healthy _) hs with rfl | hu
  · exact ⟨fd, fp, h, fun _ hf => hf, fun f hf _ => hf⟩
  · refine ⟨_, [], hu, List.nil_subset _, fun f hf hlt => ?_⟩
    rw [← frames_eq]
    exact hdropped.below f (h.mem_frames hf) hlt

omit [Faults] in
/-- What follows the log in files that are left is what followed it before. -/
theorem Dropped.row {u : View} {gone : List Segment} (hdropped : Dropped v u offset gone)
    (h : v.Laid fd fp) (hi : v.Intact) (hl : v.log.Linked) (kept torn : FileName → Nat)
    {others : List Nat} (hsorted : others.Pairwise (· < ·))
    (hothers : ∀ b ∈ others, ∃ s ∈ gone, s.baseOffset = b ∧ d.file (.log b) = v.files (.log b)) :
    (recoverRow (logBytes (d.rebooted kept torn).file) others
      (some u.log.active.nextOffset)).flatMap Prod.snd <+:
        gone.flatMap fun s => s.frames v.files := by
  rcases List.eq_nil_or_concat' gone with rfl | ⟨segments, last, rfl⟩
  · have hnil : others = [] := List.eq_nil_iff_forall_not_mem.2 fun b hb => by
      obtain ⟨s, hs, -⟩ := hothers b hb
      cases hs
    rw [hnil]
    exact List.nil_prefix
  · have hsegments := hdropped.segments
    rw [Log.segments, ← List.append_assoc] at hsegments
    obtain ⟨hsealed, hlast⟩ := List.append_inj' hsegments rfl
    obtain rfl := List.singleton_inj.1 hlast
    have hbytes : ∀ s ∈ v.log.segments, s.baseOffset ∈ others → ∀ x, v.files s.logFile = some x →
        logBytes (d.rebooted kept torn).file s.baseOffset =
          (x.crash (kept s.logFile) (torn s.logFile)).visible := by
      intro s hs hb x hx
      obtain ⟨-, -, -, hfile⟩ := hothers _ hb
      rw [logBytes, rebooted_log, hfile, show v.files (.log s.baseOffset) = some x from hx]
      rfl
    have hstart : endFrom v.log.startOffset u.log.segments = u.log.active.nextOffset := by
      rw [Log.segments, endFrom_append]
      rfl
    have htiles := hl.tiles
    have hjoins := hl.joins
    rw [hsealed, tiles_append, hstart] at htiles
    rw [hsealed, endFrom_append, hstart] at hjoins
    rw [List.flatMap_append, List.flatMap_singleton]
    refine recoverRow_sublist htiles.2 hjoins (fun s hs hb => ?_) (fun hb => ?_) ?_
    · have hs' : s ∈ v.log.sealed := hsealed ▸ List.mem_append_right _ hs
      obtain ⟨x, hx, -⟩ := h.sealed s hs'
      rw [hbytes s (mem_segments.2 (.inl hs')) hb x hx]
      exact h.sealed_crash hi hs' hx _ _
    · obtain ⟨x, hx, hlogs⟩ := h.active
      obtain ⟨hholds, -⟩ := h.holds hi hx
      rw [recoverFile, hbytes _ (active_mem _) hb x hx, h.rows]
      exact (hlogs.parse_crash hholds.tiles _ _).2
    · have hrises : (segments.map Segment.baseOffset ++ [v.log.active.baseOffset]).Pairwise
          (· < ·) := by
        have hapart := hi.rising.apart
        rw [hdropped.segments] at hapart
        have hgone := (List.pairwise_append.1 hapart).2.1
        rw [← List.map_singleton, ← List.map_append, List.pairwise_map]
        exact hgone.imp fun hlt => hlt.1
      refine List.sublist_of_subperm_of_pairwise (r := (· < ·)) ?_ hsorted hrises
      refine List.Nodup.subperm (hsorted.imp ne_of_lt) fun b hb => ?_
      obtain ⟨s, hs, rfl, -⟩ := hothers b hb
      rw [← List.map_singleton, ← List.map_append]
      exact List.mem_map_of_mem hs

omit [Faults] in
/-- After a power cut during the drops of a `truncate_to`, or right behind them. -/
theorem Laid.found_dropped {u : View} (h : v.Laid fd fp) (hi : v.Intact) (hl : v.log.Linked)
    (hs : @Drops healthy offset v u)
    (hd : ∀ b, d.file (.log b) = u.files (.log b) ∨ d.file (.log b) = v.files (.log b))
    (kept torn : FileName → Nat) :
    ∃ fs, Found v.log.options (d.rebooted kept torn) fs ∧
      (∀ f ∈ v.sealedFrames ++ fd, Extent.base f < offset → f ∈ fs) ∧ fs <+: v.frames := by
  let _ := healthy
  obtain ⟨gone, hdropped⟩ := dropped_of_drops hi hl hs
  rcases h.drops hi (not_refuses_healthy _) hs with rfl | hu
  · obtain ⟨fs, hfs, hsure, hpart⟩ := h.found hi hl (fun b => (hd b).elim id id) kept torn
    exact ⟨fs, hfs, fun f hf _ => hsure.subset hf, hpart⟩
  · obtain ⟨ha, hother⟩ := hdropped.around h hi hu hd
    obtain ⟨l, t, p, more, others, hok, hframes, hfd, hfp, hsorted, hothers, hmore⟩ :=
      ha.recovers hu hdropped.intact hdropped.linked kept torn
    rw [List.append_nil] at hfp
    obtain rfl := hfp.eq_of_length_le hfd.length_le
    rw [← frames_eq] at hframes
    have hrest : more.flatMap Prod.snd <+: gone.flatMap fun s => s.frames v.files := by
      rcases hmore with rfl | ⟨-, rfl⟩
      · exact List.nil_prefix
      · exact hdropped.row h hi hl kept torn hsorted fun b hb => hother b (hothers b hb)
    have hall : v.frames = u.frames ++ gone.flatMap fun s => s.frames v.files := by
      rw [frames, hdropped.segments, List.flatMap_append]
      refine congrArg (· ++ _) (List.flatMap_congr fun s hs => ?_)
      exact (Segment.frames_congr (hdropped.files s hs)).symm
    rw [hdropped.options] at hok
    refine ⟨_, ⟨l, t, hok, hframes⟩, fun f hf hlt => ?_, ?_⟩
    · exact List.mem_append_left _ (hdropped.below f (h.mem_frames hf) hlt)
    · rw [hall]
      exact (List.prefix_append_right_inj _).2 hrest

/-- After a power cut behind a `truncate_to`. -/
theorem Laid.found_truncated {w' : View} (h : v.Laid fd fp) (hi : v.Intact) (hl : v.log.Linked)
    (hrobust : ∀ f ∈ fp, f.Robust) (hp : Call.Popped v offset w) (hs : Step w (.cut offset) w')
    (hd : d.file = w'.files) (kept torn : FileName → Nat) :
    ∃ fs, Found v.log.options (d.rebooted kept torn) fs ∧
      (∀ f ∈ v.sealedFrames ++ fd, Extent.base f < offset → f ∈ fs) ∧ fs <+: v.frames := by
  obtain ⟨u, hdrops, hlog, hfiles⟩ := drops_healthy hi hp.drops
  cases hs with
  | retreat hle =>
      exact h.found_dropped hi hl hdrops (fun b => by rw [hd]; exact hfiles b) kept torn
  | @cut x fs _ hx hholds hlt hcut =>
      obtain ⟨gone, hdropped⟩ := dropped_of_drops hi hl hdrops
      obtain ⟨fd₁, fp₁, hu, hfp, hkeep⟩ := hdropped.laid h hi hdrops
      obtain ⟨ha, -⟩ := hdropped.around h hi hu hfiles
      have hstart : u.log.startOffset ≤ offset := by
        rw [hlog, hp.drops.start]
        exact hp.start
      have hlast := hp.last
      rw [← hlog] at hx hholds hlt hcut hlast
      obtain ⟨u', hstep, hend, ha', hother⟩ := ha.cut hdropped.intact hx hholds hlt hcut
      obtain ⟨fd₂, fp₂, hlaid, hkeep'⟩ := @Laid.cut healthy _ _ _ _ _ hu hdropped.intact
        (hdropped.intact.base_le hstart hlast) (fun f hf => hrobust f (hfp hf)) hstep
      obtain ⟨hintact, hframes, -⟩ := @Intact.cut _ _ healthy hdropped.intact _ hstart hlast hstep
      have hlinked := (@Log.Linked.cut _ _ healthy hdropped.linked _ hstep).toLinked
      dsimp only at hd
      rw [← hlog] at hd
      rw [← hd] at ha' hother
      obtain ⟨l, t, p, more, others, hok, hfound, hfd, hp', -, hothers, hmore⟩ :=
        ha'.recovers hlaid hintact hlinked kept torn
      -- files of dropped segments begin behind the cut
      have hnone : more.flatMap Prod.snd = [] := by
        rcases hmore with rfl | ⟨-, rfl⟩
        · rfl
        · rw [hend, recoverRow_apart]
          · rfl
          · intro b hb
            obtain ⟨hfree, hsome⟩ := hother b (hothers b hb)
            obtain ⟨y, hy⟩ := Option.isSome_iff_exists.1 hsome
            exact hlt.trans_le (ha.behind b hfree y hy)
      rw [hnone, List.append_nil] at hfound
      rw [@Step.options healthy _ _ _ hstep, hdropped.options] at hok
      refine ⟨_, ⟨l, t, hok, hfound⟩, fun f hf hlt' => ?_, ?_⟩
      · rcases List.mem_append.1 (hkeep' f (hkeep f hf hlt') hlt') with hmem | hmem
        · exact List.mem_append_left _ hmem
        · exact List.mem_append_right _ (hfd.subset hmem)
      · have hpart := (List.prefix_append_right_inj u'.sealedFrames).2 hp'
        rw [← hlaid.rows, ← frames_eq, hframes] at hpart
        exact hpart.trans ((upTo_isPrefix _ _).trans hdropped.isPrefix)

end Calls

end View

end LogEngine.Storage
