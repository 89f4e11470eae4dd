import LogEngine.Storage.Recovery

/-!
# A sidecar costs a scan and nothing else

The index sidecar is never fsynced, so that at an open it may be absent, stale or
garbage.  `OpensAlike` compares a segment that is opened beside some sidecar with the one
opened without: the size and the next offset, and every read and every truncation after
that.

With a trusted sidecar the two are alike (`open_alike`): both segments hold the same
batches, and on a healthy disk what `read` and `truncate_to` do is a function of those.
Recovery takes the entries before the one it has verified as they are, though, so that
one of them may name a byte in the middle of a batch (`middleEntry_differs`).
-/

namespace LogEngine.Storage

open Base Io Io.Disk Verified.Fallible Verified.Tiling Verified.Framing

namespace Segment

/-! ## Calls on a healthy disk -/

instance (baseOffset : Nat) (fs : List Frame) (offset : Nat) :
    Decidable (CutsAt baseOffset fs offset) :=
  inferInstanceAs (Decidable (_ ∨ _))

/-- What a caller of `truncate_to` can tell: the size, the next offset and the file, or
the error. -/
def cutOutcome (r : EStateM.Result ErrorCode Disk Segment) :
    Except ErrorCode (Nat × Nat × Option Bytes) :=
  match r with
  | .ok s t => .ok (s.sizeBytes, s.nextOffset, (t.file s.logFile).map File.visible)
  | .error e _ => .error e

/-- What a truncation leaves of a row of batches that the file begins with. -/
def cutTo (baseOffset : Nat) (fs : List Frame) (visible : Bytes) (offset : Nat) :
    Except ErrorCode (Nat × Nat × Option Bytes) :=
  if endFrom baseOffset fs ≤ offset then
    .ok ((encode fs).length, endFrom baseOffset fs, some visible)
  else if CutsAt baseOffset fs offset ∧ (encode (upTo fs offset)).length ≤ kMaxFileBytes then
    .ok ((encode (upTo fs offset)).length, offset, some (encode (upTo fs offset)))
  else .error .invalidArgument

section Healthy

variable {s : Segment} {x : File} {fs : List Frame} {d : Disk}

private theorem read_healthy (h : s.Holds x fs) (hf : d.file s.logFile = some x)
    (offset capacity : Nat) :
    outcome (@read healthy s offset capacity d) = readFrom fs offset capacity := by
  have hr := @read_ends s x fs d healthy h hf offset capacity
  generalize @read healthy s offset capacity d = r at hr ⊢
  cases r with
  | ok bytes t => exact hr.2.symm
  | error e t =>
      rcases hr.2 with hrefused | hr
      · exact absurd hrefused (not_refuses_healthy _)
      · exact hr.symm

private theorem truncateTo_healthy (h : s.Holds x fs) (hf : d.file s.logFile = some x)
    (offset : Nat) :
    cutOutcome (@truncateTo healthy s offset d) =
      cutTo s.baseOffset fs x.visible offset := by
  have hr := @truncateTo_ends s x fs d healthy h hf offset
  unfold cutTo
  rw [← h.next]
  generalize @truncateTo healthy s offset d = r at hr ⊢
  cases r with
  | ok s' t =>
      rcases hr with ⟨hge, rfl, ht⟩ | ⟨hlt, hcut, hsmall, rfl, ht⟩
      · rw [if_pos hge, cutOutcome, ht, hf, ← h.size]
        rfl
      · have hvisible : (x.truncate (encode (upTo fs offset)).length).visible =
            encode (upTo fs offset) :=
          resize_eq ((encode_isPrefix (upTo_isPrefix fs offset)).trans h.content)
        rw [if_neg (Nat.not_le.2 hlt), if_pos ⟨hcut, hsmall⟩, cutOutcome, ht]
        dsimp only [logFile]
        rw [Function.update_self, Option.map_some, hvisible]
  | error e t =>
      obtain ⟨-, hlt, hrefused | hrefused | ⟨rfl, hno⟩⟩ := hr
      · exact absurd hrefused (not_refuses_healthy _)
      · exact absurd hrefused (not_refuses_healthy _)
      · rw [if_neg (Nat.not_le.2 hlt), if_neg]
        · rfl
        · rintro ⟨hcut, hsmall⟩
          rcases hno with hno | hbig
          · exact hno hcut
          · exact absurd hsmall (Nat.not_le.2 hbig)

end Healthy

/-! ## Opened with and without a sidecar -/

/-- On a healthy disk the two segments answer every call alike. -/
structure Alike (s s' : Segment) (t t' : Disk) : Prop where
  size : s.sizeBytes = s'.sizeBytes
  next : s.nextOffset = s'.nextOffset
  read : ∀ offset capacity,
    outcome (@read healthy s offset capacity t) = outcome (@read healthy s' offset capacity t')
  truncate : ∀ offset,
    cutOutcome (@truncateTo healthy s offset t) = cutOutcome (@truncateTo healthy s' offset t')

/-- Two opens on a healthy disk: both fail with the same error, or both give a segment,
and the segments are alike. -/
def OpensAlike (baseOffset : Nat) (options : SegmentOptions) (d d' : Disk) : Prop :=
  match @Segment.open healthy baseOffset options d, @Segment.open healthy baseOffset options d' with
  | .ok s t, .ok s' t' => Alike s s' t t'
  | .error e _, .error e' _ => e = e'
  | _, _ => False

/-- The error of an open on a healthy disk, for a file that begins with the batches
`fs`. -/
def openError (options : SegmentOptions) (visible : Bytes) (fs : List Frame) :
    Option ErrorCode :=
  if options.maxBytes < visible.length then some .corruptRecord
  else if visible ≠ encode fs ∧ kMaxFileBytes < (encode fs).length then some .invalidArgument
  else none

variable {baseOffset : Nat} {options : SegmentOptions} {x : File} {fs : List Frame} {d : Disk}

/-- An open on a healthy disk, read off the file alone. -/
theorem open_healthy (hwidth : options.maxBytes < 0x100000000)
    (hx : (d.file (.log baseOffset)).getD {} = x) (hparse : Parses baseOffset x.visible fs)
    (hindex : ∀ y, d.file (.index baseOffset) = some y →
      Trusted (SparseIndex.decode y.visible x.visible.length) baseOffset x.visible fs) :
    Ends (@Segment.open healthy baseOffset options d)
      (fun s t => openError options x.visible fs = none ∧ s.baseOffset = baseOffset ∧
        t.file s.logFile = some (recovered x fs) ∧ s.Holds (recovered x fs) fs)
      (fun e _ => openError options x.visible fs = some e) := by
  refine (@open_ends healthy x fs d baseOffset options hwidth hx hparse
    fun _ => hindex).mono ?_ ?_
  · rintro s t ⟨hbase, -, -, hfits, hsmall, ht, hholds⟩
    refine ⟨?_, hbase, ?_, hholds⟩
    · rw [openError, if_neg (Nat.not_lt.2 hfits), if_neg]
      rintro ⟨hne, hbig⟩
      exact absurd (hsmall hne) (Nat.not_le.2 hbig)
    · rw [ht, logFile, hbase, Function.update_self]
  · rintro e t (⟨-, hr⟩ | ⟨-, hr | ⟨-, hr | hr | ⟨rfl, hbig⟩ | ⟨rfl, hfits, hne, hbig⟩⟩⟩)
    · exact absurd hr (not_refuses_healthy _)
    · exact absurd hr (not_refuses_healthy _)
    · exact absurd hr (not_refuses_healthy _)
    · exact absurd hr (not_refuses_healthy _)
    · exact if_pos hbig
    · rw [openError, if_neg (Nat.not_lt.2 hfits), if_pos ⟨hne, hbig⟩]

/-- Beside a sidecar that can be trusted, a segment is opened as without one. -/
theorem open_alike (baseOffset : Nat) {options : SegmentOptions}
    (hwidth : options.maxBytes < 0x100000000) {d d' : Disk}
    (hlog : d'.file (.log baseOffset) = d.file (.log baseOffset))
    (hnone : d'.file (.index baseOffset) = none)
    (hindex : ∀ x y, d.file (.log baseOffset) = some x → d.file (.index baseOffset) = some y →
      Trusted (SparseIndex.decode y.visible x.visible.length) baseOffset x.visible
        (parse baseOffset x.visible)) :
    OpensAlike baseOffset options d d' := by
  obtain ⟨x, hx⟩ : ∃ x, (d.file (.log baseOffset)).getD {} = x := ⟨_, rfl⟩
  have hparse : Parses baseOffset x.visible (parse baseOffset x.visible : List Frame) :=
    parses_parse _ _
  have hside := open_healthy hwidth hx hparse fun y hy => by
    cases hf : d.file (.log baseOffset) with
    | some x' =>
        rw [hf, Option.getD_some] at hx
        exact hx ▸ hindex x' y hf hy
    | none =>
        rw [hf, Option.getD_none] at hx
        exact trusted_of_empty (hx ▸ rfl) _ _ _
  have hplain := open_healthy hwidth (hlog ▸ hx) hparse fun y hy => by
    rw [hnone] at hy
    cases hy
  unfold OpensAlike
  generalize @Segment.open healthy baseOffset options d = r at hside ⊢
  generalize @Segment.open healthy baseOffset options d' = r' at hplain ⊢
  cases r with
  | ok s t =>
      obtain ⟨hok, hb, hf, hs⟩ := hside
      cases r' with
      | ok s' t' =>
          obtain ⟨-, hb', hf', hs'⟩ := hplain
          refine ⟨hs.size.trans hs'.size.symm, ?_, fun offset capacity => ?_, fun offset => ?_⟩
          · rw [hs.next, hs'.next, hb, hb']
          · rw [read_healthy hs hf, read_healthy hs' hf']
          · rw [truncateTo_healthy hs hf, truncateTo_healthy hs' hf', hb, hb']
      | error e' t' =>
          have herr : openError options x.visible _ = some e' := hplain
          rw [hok] at herr
          cases herr
  | error e t =>
      have herr : openError options x.visible _ = some e := hside
      cases r' with
      | ok s' t' =>
          rw [hplain.1] at herr
          cases herr
      | error e' t' => exact Option.some.inj (herr.symm.trans hplain)

/-! ## Two sidecars -/

/-- Two batches as `Segment::append` leaves them: the offsets 0 and 1, and the offset
2. -/
def pairThenOne : Bytes :=
  BatchBuilder.finish { records := [[1], [2]] } 0 {} ++
    BatchBuilder.finish { records := [[3]] } 2 {}

/-- The file that holds them. -/
def pairFile : File := { durable := pairThenOne, visible := pairThenOne }

/-- A directory with that file alone. -/
def pairAlone : Disk := Disk.put {} (.log 0) pairFile

/-- A directory with that file and a sidecar. -/
def pairBeside (index : SparseIndex) : Disk :=
  pairAlone.put (.index 0) { visible := index.encode }

private theorem pairAlone_file :
    pairAlone.file = Function.update (fun _ => none) (.log 0) (some pairFile) :=
  file_put {} _ _

private theorem pairBeside_log (index : SparseIndex) :
    (pairBeside index).file (.log 0) = some pairFile := by
  rw [pairBeside, file_put, Function.update_of_ne (fun h => FileName.noConfusion h),
    pairAlone_file, Function.update_self]

/-- Entries that point into the middle of nowhere are all dropped. -/
theorem open_alike_garbage :
    OpensAlike 0 {} (pairBeside [⟨0, 7⟩, ⟨1, 30⟩]) pairAlone := by
  have hlog : pairAlone.file (.log 0) = (pairBeside [⟨0, 7⟩, ⟨1, 30⟩]).file (.log 0) := by
    rw [pairBeside_log, pairAlone_file, Function.update_self]
  have hnone : pairAlone.file (.index 0) = none := by
    rw [pairAlone_file, Function.update_of_ne (fun h => FileName.noConfusion h)]
  have hindex : ∀ x y, (pairBeside [⟨0, 7⟩, ⟨1, 30⟩]).file (.log 0) = some x →
      (pairBeside [⟨0, 7⟩, ⟨1, 30⟩]).file (.index 0) = some y →
      Trusted (SparseIndex.decode y.visible x.visible.length) 0 x.visible
        (parse 0 x.visible) := by
    intro x y hx hy
    rw [pairBeside_log, Option.some.injEq] at hx
    rw [pairBeside, file_put, Function.update_self, Option.some.injEq] at hy
    subst hx hy
    exact trusted_of_implausible (by decide +kernel) _
  have hwidth : ({} : SegmentOptions).maxBytes < 0x100000000 := by decide
  -- the two disks as variables: nothing is to be evaluated from here on
  generalize pairBeside [⟨0, 7⟩, ⟨1, 30⟩] = d at hlog hindex ⊢
  generalize pairAlone = d' at hlog hnone ⊢
  exact open_alike 0 hwidth hlog hnone hindex

/-- What a read of a segment that has just been opened hands back. -/
def openedRead (d : Disk) (offset capacity : Nat) : Except ErrorCode Bytes :=
  match @Segment.open healthy 0 {} d with
  | .ok s t => outcome (@read healthy s offset capacity t)
  | .error e _ => .error e

/-- One read that differs tells two opens apart. -/
theorem not_alike_of_read {d d' : Disk} (offset capacity : Nat)
    (hne : openedRead d offset capacity ≠ openedRead d' offset capacity) :
    ¬ OpensAlike 0 {} d d' := by
  intro h
  refine hne ?_
  unfold OpensAlike at h
  unfold openedRead
  generalize @Segment.open healthy 0 {} d = r at h ⊢
  generalize @Segment.open healthy 0 {} d' = r' at h ⊢
  cases r with
  | ok s t =>
      cases r' with
      | ok s' t' => exact h.read offset capacity
      | error e' t' => exact h.elim
  | error e t =>
      cases r' with
      | ok s' t' => exact h.elim
      | error e' t' => exact congrArg Except.error h

/-- The entry for the offset 1 names the byte 10, and the last entry, which is the one
recovery looks at, is right: a read at 1 finds no header there. -/
theorem middleEntry_differs :
    ¬ OpensAlike 0 {} (pairBeside [⟨1, 10⟩, ⟨2, 62⟩]) pairAlone :=
  not_alike_of_read 1 1000 (by decide +kernel)

end Segment

end LogEngine.Storage
