import LogEngine.Storage.Recovery

/-!
# Recovery of arbitrary bytes

`Segment::open` on a file that may hold anything, in the 64-bit arithmetic of the source.
Without a sidecar that it can use, recovery keeps the longest beginning of the file that is
a line of valid batches, whose offsets may wrap around, and cuts off the rest.
-/

namespace LogEngine.Storage

open Base Io Io.Disk Verified.Fallible Verified.Tiling Verified.Framing

/-! ## Sidecars that are of no use -/

/-- The header that recovery finds where the entry points has the entry's offset. -/
def IndexEntry.PlausibleIn (o : Offsets) (e : IndexEntry) (baseOffset : Nat) (image : Bytes) :
    Prop :=
  Segment.usable o baseOffset e (.ok (subslice image e.filePos kBatchHeaderBytes)) = true

/-- The sidecar has no entry that recovery would start from. -/
def Useless (o : Offsets) (baseOffset : Nat) (sidecar image : Bytes) : Prop :=
  ∀ e ∈ SparseIndex.decode sidecar image.length, ¬ e.PlausibleIn o baseOffset image

/-- What is cut off behind does not make a sidecar useful. -/
theorem Useless.take {o : Offsets} {baseOffset : Nat} {sidecar image : Bytes}
    (h : Useless o baseOffset sidecar image) (n : Nat) :
    Useless o baseOffset sidecar (image.take n) := by
  intro e he hplausible
  have hle : (image.take n).length ≤ image.length := by
    rw [List.length_take]
    omega
  apply h e ((decode_mono hle _).subset he)
  -- a whole header in the smaller file is the same header in the larger one
  have hwhole : (subslice (image.take n) e.filePos kBatchHeaderBytes).length =
      kBatchHeaderBytes := by
    unfold IndexEntry.PlausibleIn Segment.usable at hplausible
    rw [Bool.and_eq_true, beq_iff_eq] at hplausible
    exact hplausible.1
  have hsame : subslice (image.take n) e.filePos kBatchHeaderBytes =
      subslice image e.filePos kBatchHeaderBytes := by
    unfold subslice at hwhole ⊢
    rw [List.drop_take, List.take_take] at hwhole ⊢
    rw [List.length_take] at hwhole
    rw [Nat.min_eq_left (by omega)]
  unfold IndexEntry.PlausibleIn at hplausible ⊢
  rw [← hsame]
  exact hplausible

namespace Segment

/-! ## The scan -/

/-- The index that a scan builds over a line of batches. -/
def indexed (o : Offsets) (baseOffset interval : Nat) :
    Nat → SparseIndex → List Frame → SparseIndex
  | _, index, [] => index
  | pos, index, f :: fs =>
      indexed o baseOffset interval (pos + f.bytes.length)
        (index.maybeAdd (o.relative f.header.baseOffset baseOffset) pos interval) fs

variable {o : Offsets} {baseOffset : Nat}

private theorem indexed_increasing {interval pos : Nat} {index : SparseIndex} {fs : List Frame}
    (h : index.Pairwise IndexEntry.Below) :
    (indexed o baseOffset interval pos index fs).Pairwise IndexEntry.Below := by
  induction fs generalizing pos index with
  | nil => exact h
  | cons f fs ih => exact ih (maybeAdd_increasing h _ _ _)

/-- All entries point before the end of the scan. -/
theorem indexed_below {interval pos : Nat} {index : SparseIndex} {fs : List Frame}
    (h : ∀ e ∈ index, e.filePos < pos) :
    ∀ e ∈ indexed o baseOffset interval pos index fs, e.filePos < pos + (encode fs).length := by
  induction fs generalizing pos index with
  | nil => exact h
  | cons f fs ih =>
      have hmin := f.header_le
      unfold kBatchHeaderBytes at hmin
      have hlen := encode_cons_length f fs
      have hstep : ∀ e ∈ index.maybeAdd (o.relative f.header.baseOffset baseOffset) pos interval,
          e.filePos < pos + f.bytes.length := by
        intro e he
        rcases maybeAdd_cases index (o.relative f.header.baseOffset baseOffset) pos interval with
          heq | ⟨heq, -⟩
        · rw [heq] at he
          have := h e he
          omega
        · rw [heq] at he
          rcases List.mem_append.1 he with he | he
          · have := h e he
            omega
          · rw [List.mem_singleton.1 he]
            show pos < _
            omega
      intro e he
      have := ih hstep e he
      omega

variable {x : File} {d : Disk}

section Scan

variable [Faults]

/-- None of the entries is good: the scan starts at the beginning. -/
theorem pickStart_useless {fileSize : Nat} (hf : d.file (.log baseOffset) = some x) (fuel : Nat)
    {index : SparseIndex} (hfuel : index.length ≤ fuel) (hdecoded : Decoded index fileSize)
    (hindex : ∀ e ∈ index, ¬ e.PlausibleIn o baseOffset x.visible) :
    Sat (pickStart o baseOffset fuel index d)
      (fun r t => t.file = d.file ∧ r = ([], none)) (fun _ => False) := by
  induction fuel generalizing index d with
  | zero =>
      obtain rfl := List.eq_nil_of_length_eq_zero (Nat.le_zero.1 hfuel)
      exact ⟨rfl, rfl⟩
  | succ fuel ih =>
      unfold pickStart
      rcases List.eq_nil_or_concat' index with rfl | ⟨init, e, rfl⟩
      · exact ⟨rfl, rfl⟩
      rw [List.getLast?_concat]
      refine Sat.bind (Q := fun got t => t.file = d.file ∧
          ∀ b, got = .ok b → b = subslice x.visible e.filePos kBatchHeaderBytes)
        (Sat.attempt ((pread_sat hf _ _).mono
          (fun _ _ ht => ⟨ht.1, fun b hb => by cases hb; exact ht.2⟩)
          fun _ ht _ => ⟨ht.1, fun _ h => by cases h⟩)) ?_
      rintro got t ⟨ht, hgot⟩
      have hno : ¬ usable o baseOffset e got = true := by
        cases got with
        | error _ => exact Bool.false_ne_true
        | ok b =>
            rw [hgot b rfl]
            exact hindex e (List.mem_append_right _ List.mem_cons_self)
      rw [if_neg hno, truncateFrom_last hdecoded.increasing]
      rw [← ht] at hf
      rw [List.length_append, List.length_singleton] at hfuel
      exact (ih hf (by omega) hdecoded.init fun a ha => hindex a (List.mem_append_left _ ha)).mono
        (fun _ u hu => ⟨hu.1.trans ht, hu.2⟩) fun _ hu => hu

/-- The scan goes over a line and stops where it does not go on. -/
theorem scanForward_line {interval : Nat} {rest : Bytes} {fs : List Frame} :
    ∀ (fuel : Nat) (scan : Scan) (d : Disk), d.file (.log baseOffset) = some x →
      x.visible.drop scan.pos = encode fs ++ rest →
      Line (fun f : Frame => o.next f.header) scan.expectOffset fs →
      Stuck Frame (lineEnd (fun f : Frame => o.next f.header) scan.expectOffset fs) rest →
      (encode fs).length ≤ fuel →
      Sat (scanForward o baseOffset interval x.visible.length fuel scan d)
        (fun r t => t.file = d.file ∧ r =
          { pos := scan.pos + (encode fs).length
            expectOffset := lineEnd (fun f : Frame => o.next f.header) scan.expectOffset fs
            index := indexed o baseOffset interval scan.pos scan.index fs
            batches := scan.batches + fs.length })
        (fun _ => Refuses .pread) := by
  induction fs with
  | nil =>
      intro fuel scan d hf hdrop _ hstuck _
      cases fuel with
      | zero => exact ⟨rfl, rfl⟩
      | succ fuel =>
          unfold scanForward
          refine Sat.ite (fun _ => ⟨rfl, rfl⟩) fun hmore => ?_
          rw [encode_nil, List.nil_append] at hdrop
          refine ((scanBatch_stuck hf (hdrop ▸ hstuck)).mono (fun _ _ ht => ht)
            fun t ht => ht.2).bind ?_
          rintro found t ⟨ht, rfl⟩
          exact ⟨ht, rfl⟩
  | cons f fs ih =>
      intro fuel scan d hf hdrop hline hstuck hfuel
      obtain ⟨hbase, hline⟩ := hline
      have hmin := f.header_le
      have hwhole := f.whole
      unfold kBatchHeaderBytes at hmin
      have hlen := encode_cons_length f fs
      rw [encode_cons, List.append_assoc] at hdrop
      change _ = f.bytes ++ _ at hdrop
      obtain ⟨fuel, rfl⟩ : ∃ n, fuel = n + 1 := ⟨fuel - 1, by omega⟩
      have hlength := congrArg List.length hdrop
      rw [List.length_drop, List.length_append] at hlength
      unfold scanForward
      rw [if_neg (by omega)]
      refine ((scanBatch_next hf hdrop hbase).mono (fun _ _ ht => ht) fun t ht => ht.2).bind ?_
      rintro found t ⟨ht, rfl⟩
      rw [← ht] at hf
      refine (ih fuel _ t hf ?_ hline hstuck (by omega)).mono ?_ fun _ hu => hu
      · show x.visible.drop (scan.pos + f.header.totalBytes) = _
        rw [← List.drop_drop, hdrop, ← hwhole, List.drop_left]
      · rintro r u ⟨hu, rfl⟩
        refine ⟨hu.trans ht, ?_⟩
        dsimp only
        rw [hlen, List.length_cons, indexed, hwhole]
        congr 1 <;> omega

/-- The segment that recovery makes of a file that begins with a line of batches. -/
def salvaged (o : Offsets) (baseOffset : Nat) (options : SegmentOptions) (fileSize : Nat)
    (fs : List Frame) : Segment where
  baseOffset := baseOffset
  nextOffset := lineEnd (fun f : Frame => o.next f.header) baseOffset fs
  options := options
  sizeBytes := (encode fs).length
  index := indexed o baseOffset options.indexIntervalBytes 0 [] fs
  recovery :=
    { batchesScanned := fs.length
      bytesTruncated := fileSize - (encode fs).length
      validBytes := (encode fs).length
      nextOffset := lineEnd (fun f : Frame => o.next f.header) baseOffset fs
      truncated := decide ((encode fs).length < fileSize) }

/-- `Segment::open` without a sidecar to start from. -/
theorem openIn_line {options : SegmentOptions} {rest : Bytes} {fs : List Frame}
    (hx : (d.file (.log baseOffset)).getD {} = x) (hfits : x.visible.length ≤ options.maxBytes)
    (hcap : x.visible.length ≤ kMaxFileBytes)
    (hindex : ∀ y, d.file (.index baseOffset) = some y →
      Useless o baseOffset y.visible x.visible)
    (hvisible : x.visible = encode fs ++ rest)
    (hline : Line (fun f : Frame => o.next f.header) baseOffset fs)
    (hstuck : Stuck Frame (lineEnd (fun f : Frame => o.next f.header) baseOffset fs) rest) :
    Sat (openIn o baseOffset options d)
      (fun s t => s = salvaged o baseOffset options x.visible.length fs ∧
        t.file = Function.update d.file (.log baseOffset) (some (recovered x fs)))
      (fun _ => ∃ op, Refuses op) := by
  unfold openIn
  refine ((openCreate_sat _ d).mono (fun _ _ ht => ht) fun _ ht => ⟨_, ht.2⟩).bind fun _ t ht => ?_
  rw [hx] at ht
  have hf : t.file (.log baseOffset) = some x := by rw [ht, Function.update_self]
  refine ((size_sat hf).mono (fun _ _ hu => hu) fun _ hu => ⟨_, hu.2⟩).bind ?_
  rintro n u ⟨hu, rfl⟩
  rw [if_neg (Nat.not_lt.2 hfits)]
  rw [← hu] at hf
  have hread : Sat (readIndex baseOffset x.visible.length u)
      (fun index v => v.file = u.file ∧ Decoded index x.visible.length ∧
        ∀ e ∈ index, ¬ e.PlausibleIn o baseOffset x.visible) (fun _ => False) := by
    refine readIndex_sat (P := fun index => Decoded index x.visible.length ∧
      ∀ e ∈ index, ¬ e.PlausibleIn o baseOffset x.visible) ⟨decoded_nil _, by simp⟩
      fun y hy => ⟨decoded_decode _ _, hindex y ?_⟩
    rw [hu, ht, Function.update_of_ne (fun h => FileName.noConfusion h)] at hy
    exact hy
  refine (hread.mono (fun _ _ hv => hv) fun _ hv => hv.elim).bind ?_
  rintro index v ⟨hv, hdecoded, huseless⟩
  rw [← hv] at hf
  refine ((pickStart_useless hf _ le_rfl hdecoded huseless).mono (fun _ _ hw => hw)
    fun _ hw => hw.elim).bind ?_
  rintro _ w ⟨hw, rfl⟩
  rw [← hw] at hf
  have hlen : x.visible.length = (encode fs).length + rest.length := by
    rw [hvisible, List.length_append]
  refine ((scanForward_line _ { pos := 0, expectOffset := baseOffset, index := [] } w hf hvisible
    hline hstuck (by omega)).mono (fun _ _ hz => hz) fun _ hz => ⟨_, hz⟩).bind ?_
  rintro _ z ⟨hz, rfl⟩
  rw [← hz] at hf
  have hzfile : z.file = Function.update d.file (.log baseOffset) (some x) := by
    rw [hz, hw, hv, hu, ht]
  have hpre : encode fs <+: x.visible := ⟨rest, hvisible.symm⟩
  refine ((settle_ends hf hpre (Nat.zero_add _) options _).sat
    (F := fun _ => ∃ op, Refuses op) ?_).mono ?_ fun _ hy => hy
  · rintro e y ⟨-, -, hrefused | ⟨-, hbig⟩⟩
    · exact ⟨_, hrefused⟩
    · omega
  · rintro _ y ⟨rfl, -, hy⟩
    refine ⟨?_, by rw [hy, hzfile, Function.update_idem]⟩
    have hbelow : ∀ e ∈ indexed o baseOffset options.indexIntervalBytes 0 [] fs,
        e.filePos < 0 + (encode fs).length := indexed_below (by simp)
    unfold Scan.segment salvaged
    simp only [Nat.zero_add] at hbelow ⊢
    rw [truncateFrom_of_below (indexed_increasing .nil) hbelow, ite_self]
    rfl

end Scan

/-! ## What is kept -/

/-- Recovery of a file with any content at all, with no sidecar to start from: what is kept is
the longest beginning that is a line of valid batches, and recovering again changes nothing.
The file is within the disk's own cap, beyond which `pwrite` and `truncate` refuse to go. -/
theorem openIn_longest {options : SegmentOptions} (hx : (d.file (.log baseOffset)).getD {} = x)
    (hfits : x.visible.length ≤ options.maxBytes) (hcap : x.visible.length ≤ kMaxFileBytes)
    (hindex : ∀ y, d.file (.index baseOffset) = some y →
      Useless .wrapping baseOffset y.visible x.visible) :
    ∃ s t fs, @openIn healthy .wrapping baseOffset options d = .ok s t ∧
      Line (fun f : Frame => f.header.nextOffset64) baseOffset fs ∧
      encode fs = x.visible.take s.sizeBytes ∧
      IsGreatest {n | n ≤ x.visible.length ∧ ∃ gs,
        Line (fun f : Frame => f.header.nextOffset64) baseOffset gs ∧
          encode gs = x.visible.take n} s.sizeBytes ∧
      s.nextOffset = lineEnd (fun f : Frame => f.header.nextOffset64) baseOffset fs ∧
      (∃ y, t.file = Function.update d.file (.log baseOffset) (some y) ∧
        y.visible = x.visible.take s.sizeBytes) ∧
      s.recovery.bytesTruncated = x.visible.length - s.sizeBytes ∧
      ∃ s' t', @openIn healthy .wrapping baseOffset options t = .ok s' t' ∧
        t'.file = t.file ∧ s'.recovery.truncated = false ∧ s'.recovery.bytesTruncated = 0 ∧
        s'.sizeBytes = s.sizeBytes ∧ s'.nextOffset = s.nextOffset ∧ s'.index = s.index := by
  obtain ⟨fs, rest, hvisible, hline, hstuck⟩ :=
    exists_line (fun f : Frame => f.header.nextOffset64) baseOffset x.visible
  have hpre : encode fs <+: x.visible := ⟨rest, hvisible.symm⟩
  have htake : encode fs = x.visible.take (encode fs).length := by
    rw [hvisible, List.take_left]
  have hhealthy : ∀ _ : Disk, ¬ ∃ op, @Refuses healthy op :=
    fun _ ⟨op, hr⟩ => not_refuses_healthy op hr
  obtain ⟨s, t, hopen, rfl, ht⟩ := Sat.exists_ok (@openIn_line .wrapping baseOffset x d healthy
    options rest fs hx hfits hcap hindex hvisible hline hstuck) hhealthy
  refine ⟨_, t, fs, hopen, hline, htake, ⟨⟨hpre.length_le, fs, hline, htake⟩, ?_⟩, rfl,
    ⟨_, ht, (recovered_visible hpre).trans htake⟩, rfl, ?_⟩
  · rintro n ⟨hn, gs, hgs, hencode⟩
    have hle : gs <+: fs := by
      apply Line.isPrefix_of_encode hstuck hgs
      rw [hencode, ← hvisible]
      exact List.take_prefix _ _
    have hlen := (encode_isPrefix hle).length_le
    rw [hencode, List.length_take, Nat.min_eq_left hn] at hlen
    exact hlen
  · -- the file is now the line, with nothing behind it
    have hfile : (t.file (.log baseOffset)).getD {} = recovered x fs := by
      rw [ht, Function.update_self]
      rfl
    have hnow : (recovered x fs).visible = encode fs ++ [] := by
      rw [recovered_visible hpre, List.append_nil]
    have hle : (recovered x fs).visible.length ≤ x.visible.length := by
      rw [recovered_visible hpre]
      exact hpre.length_le
    have hstill : ∀ y, t.file (.index baseOffset) = some y →
        Useless .wrapping baseOffset y.visible (recovered x fs).visible := by
      intro y hy
      rw [ht, Function.update_of_ne (fun h => FileName.noConfusion h)] at hy
      rw [recovered_visible hpre, htake]
      exact (hindex y hy).take _
    obtain ⟨s', t', hopen', rfl, ht'⟩ := Sat.exists_ok (@openIn_line .wrapping baseOffset
      (recovered x fs) t healthy options [] fs hfile (hle.trans hfits)
        (hle.trans hcap) hstill hnow hline
      (stuck_nil _)) hhealthy
    have hlen : (recovered x fs).visible.length = (encode fs).length := by
      rw [recovered_visible hpre]
    have hsame : recovered (recovered x fs) fs = recovered x fs :=
      if_pos (recovered_visible hpre)
    refine ⟨_, t', hopen', ?_, ?_, ?_, rfl, rfl, rfl⟩
    · rw [ht', hsame, ht, Function.update_idem]
    · show decide _ = false
      rw [hlen]
      exact decide_eq_false (lt_irrefl _)
    · show _ - _ = 0
      rw [hlen, Nat.sub_self]

/-- A batch at the last offset of 64 bits, one at offset 0 and the beginning of a third. -/
def aroundTheEnd : Bytes :=
  ({ records := [[7]] } : BatchBuilder).finish 0xFFFFFFFFFFFFFFFF {} ++
    ({ records := [[8]] } : BatchBuilder).finish 0 {} ++ [9, 9, 9]

theorem openIn_longest_aroundTheEnd :
    ∃ s t, @openIn healthy .wrapping 0xFFFFFFFFFFFFFFFF {}
        (({} : Disk).put (.log 0xFFFFFFFFFFFFFFFF) ⟨aroundTheEnd, aroundTheEnd, []⟩) = .ok s t ∧
      s.recovery.bytesTruncated = 117 - s.sizeBytes ∧
      ∃ s' t', @openIn healthy .wrapping 0xFFFFFFFFFFFFFFFF {} t = .ok s' t' ∧
        t'.file = t.file ∧ s'.sizeBytes = s.sizeBytes := by
  have hlength : aroundTheEnd.length = 117 := by decide +kernel
  have hlog : ((({} : Disk).put (.log 0xFFFFFFFFFFFFFFFF) ⟨aroundTheEnd, aroundTheEnd, []⟩).file
      (.log 0xFFFFFFFFFFFFFFFF)).getD {} = ⟨aroundTheEnd, aroundTheEnd, []⟩ := by
    rw [file_put, Function.update_self]
    rfl
  obtain ⟨s, t, -, hopen, -, -, -, -, -, hrest, s', t', hopen', hfile, -, -, hsize, -⟩ :=
    @openIn_longest _ _ _ {} hlog (hlength.trans_le (by decide))
      (hlength.trans_le (by decide)) fun y hy => by
        rw [file_put, Function.update_of_ne (fun h => FileName.noConfusion h)] at hy
        cases hy
  rw [hlength] at hrest
  exact ⟨s, t, hopen, hrest, s', t', hopen', hfile, hsize⟩

end Segment

end LogEngine.Storage
