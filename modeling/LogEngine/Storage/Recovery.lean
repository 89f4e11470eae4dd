import LogEngine.Storage.Contents

/-!
# Recovery of a segment

`Segment::open` on whatever the directory holds: the batches that are in line from the
start of the file are recovered, and what is behind them is cut off.  The sidecar only
says where the scan may begin.  Recovery looks at the header where the last entry points
and drops the entry if none is there; the entries before it are taken as they are.
`Trusted` is what that needs: an entry with such a header names the start of a batch, or
the end of the last one, and so does every entry before it.
-/

namespace LogEngine.Storage

open Base Io Io.Disk Verified.Fallible Verified.Tiling Verified.Framing

/-! ## Sidecars that can be trusted -/

/-- The header that recovery finds where the entry points is one of a batch with the
entry's offset. -/
def IndexEntry.Plausible (e : IndexEntry) (baseOffset : Nat) (image : Bytes) : Prop :=
  Segment.usable .unbounded baseOffset e (.ok (subslice image e.filePos kBatchHeaderBytes)) = true

instance (e : IndexEntry) (baseOffset : Nat) (image : Bytes) :
    Decidable (e.Plausible baseOffset image) :=
  inferInstanceAs (Decidable (_ = true))

/-- The entry names the position and the offset of a batch, or of the one that would be
next. -/
def IndexEntry.Resumes (e : IndexEntry) (baseOffset : Nat) (fs : List Frame) : Prop :=
  ∃ p, p <+: fs ∧ e.filePos = (encode p).length ∧
    baseOffset + e.relOffset = endFrom baseOffset p

/-- Wherever a scan may resume there is a batch in line or the end of them, and every
entry before it names the start of a batch. -/
def Trusted (index : SparseIndex) (baseOffset : Nat) (image : Bytes) (fs : List Frame) : Prop :=
  ∀ kept e, kept ++ [e] <+: index → e.Plausible baseOffset image →
    e.Resumes baseOffset fs ∧ ∀ a ∈ kept, a.Marks baseOffset fs

theorem trusted_of_implausible {index : SparseIndex} {baseOffset : Nat} {image : Bytes}
    (h : ∀ e ∈ index, ¬ e.Plausible baseOffset image) (fs : List Frame) :
    Trusted index baseOffset image fs := fun kept e hp he =>
  absurd he (h e (hp.subset (List.mem_append_right kept List.mem_cons_self)))

theorem trusted_nil (baseOffset : Nat) (image : Bytes) (fs : List Frame) :
    Trusted [] baseOffset image fs :=
  trusted_of_implausible (fun _ he => absurd he List.not_mem_nil) fs

/-- An entry that points before the end of the batches names the start of one. -/
theorem IndexEntry.Resumes.marks {e : IndexEntry} {baseOffset : Nat} {fs : List Frame}
    (h : e.Resumes baseOffset fs) (htiles : Tiles baseOffset fs)
    (hlen : (encode fs).length < 0x100000000) (hlt : e.filePos < (encode fs).length) :
    e.Marks baseOffset fs := by
  obtain ⟨p, hp, hpos, hrel⟩ := h
  rcases Segment.eq_or_snoc hp with rfl | ⟨f, hpf⟩
  · omega
  · obtain ⟨-, hbase, -⟩ := tiles_snoc.1 (htiles.of_isPrefix hpf)
    have hb : f.header.baseOffset = endFrom baseOffset p := hbase
    have hext := extent_lt htiles hlen
    have hend := htiles.end_lt_of_snoc hpf
    refine ⟨p, f, hpf, hpos, ?_⟩
    rw [hb, ← hrel, relative, Nat.mod_eq_of_lt (by omega)]
    omega

/-- Without its last entry an index is trusted as before. -/
theorem Trusted.init {index : SparseIndex} {e : IndexEntry} {baseOffset : Nat} {image : Bytes}
    {fs : List Frame} (h : Trusted (index ++ [e]) baseOffset image fs) :
    Trusted index baseOffset image fs :=
  fun kept a hp => h kept a (hp.trans (List.prefix_append _ _))

/-- What recovery knows of its index while it scans: below the end of the batches the
entries name their starts. -/
structure IndexGuides (index : SparseIndex) (baseOffset fileSize : Nat) (fs : List Frame) :
    Prop where
  increasing : index.Pairwise IndexEntry.Below
  inside : ∀ e ∈ index, e.filePos < fileSize
  marks : ∀ e ∈ index, e.filePos < (encode fs).length → e.Marks baseOffset fs

section Guides

variable {index : SparseIndex} {baseOffset fileSize : Nat} {fs : List Frame}

private theorem guides_nil (baseOffset fileSize : Nat) (fs : List Frame) :
    IndexGuides [] baseOffset fileSize fs :=
  ⟨.nil, by simp, by simp⟩

theorem IndexGuides.maybeAdd (h : IndexGuides index baseOffset fileSize fs) {p : List Frame}
    {f : Frame} (hp : p ++ [f] <+: fs) (hsize : (encode p).length < fileSize) (interval : Nat) :
    IndexGuides
      (index.maybeAdd (relative f.header.baseOffset baseOffset) (encode p).length interval)
      baseOffset fileSize fs := by
  rcases maybeAdd_cases index (relative f.header.baseOffset baseOffset) (encode p).length
    interval with heq | ⟨heq, hlast⟩
  · rw [heq]
    exact h
  · rw [heq]
    refine ⟨pairwise_snoc h.increasing hlast, fun e he => ?_, fun e he hlt => ?_⟩
    · rcases List.mem_append.1 he with he | he
      · exact h.inside e he
      · rw [List.mem_singleton.1 he]
        exact hsize
    · rcases List.mem_append.1 he with he | he
      · exact h.marks e he hlt
      · rw [List.mem_singleton.1 he]
        exact ⟨p, f, hp, rfl, rfl⟩

/-- The scan went to the end of the file. -/
theorem IndexGuides.sound (h : IndexGuides index baseOffset (encode fs).length fs) :
    IndexSound index baseOffset fs :=
  ⟨h.increasing, fun e he => h.marks e he (h.inside e he)⟩

/-- The scan stopped before the end of the file. -/
theorem IndexGuides.truncateFrom (h : IndexGuides index baseOffset fileSize fs) :
    IndexSound (index.truncateFrom (encode fs).length) baseOffset fs := by
  refine ⟨truncateFrom_increasing h.increasing _, fun e he => ?_⟩
  obtain ⟨hmem, hlt⟩ := mem_truncateFrom h.increasing he
  exact h.marks e hmem hlt

end Guides

/-- No entry points into a file that is empty. -/
theorem trusted_of_empty {image : Bytes} (h : image = []) (bytes : Bytes) (baseOffset : Nat)
    (fs : List Frame) : Trusted (SparseIndex.decode bytes image.length) baseOffset image fs := by
  refine trusted_of_implausible (fun e he => ?_) fs
  have hlt := (decoded_decode bytes image.length).inside e he
  rw [h] at hlt
  exact absurd hlt (Nat.not_lt_zero _)

namespace Segment

variable [Faults] {x : File} {fs : List Frame} {d : Disk} {baseOffset : Nat}

/-! ## The index sidecar -/

/-- The index that recovery starts with is empty or what the sidecar says. -/
theorem readIndex_sat {P : SparseIndex → Prop} {fileSize : Nat} (hnil : P [])
    (hindex : ∀ y, d.file (.index baseOffset) = some y →
      P (SparseIndex.decode y.visible fileSize)) :
    Sat (readIndex baseOffset fileSize d) (fun index t => t.file = d.file ∧ P index)
      (fun _ => False) := by
  unfold readIndex
  refine Sat.bind (Q := fun r t => t.file = d.file ∧
    ∀ u, r = .ok u → (d.file (.index baseOffset)).isSome) (Sat.attempt ((openRead_sat _ d).mono
      (fun _ _ ht => ⟨ht.1, fun _ _ => ht.2⟩) fun _ ht _ => ⟨ht, fun _ h => by cases h⟩)) ?_
  rintro (e | u) t ⟨ht, hsome⟩
  · exact ⟨ht, hnil⟩
  obtain ⟨y, hy⟩ := Option.isSome_iff_exists.1 (hsome u rfl)
  have hty : t.file (.index baseOffset) = some y := by rw [ht, hy]
  refine Sat.bind (Q := fun r v => v.file = d.file ∧ ∀ n, r = .ok n → n = y.visible.length)
    (Sat.attempt ((size_sat hty).mono
      (fun n v hv => ⟨hv.1.trans ht, fun m hm => by cases hm; exact hv.2⟩)
      fun v hv _ => ⟨hv.1.trans ht, fun _ h => by cases h⟩)) ?_
  rintro (e | n) v ⟨hv, hn⟩
  · exact ⟨hv, hnil⟩
  obtain rfl := hn n rfl
  refine Sat.ite (fun _ => ⟨hv, hnil⟩) fun _ => ?_
  have hvy : v.file (.index baseOffset) = some y := by rw [hv, hy]
  refine Sat.bind (Q := fun r w => w.file = d.file ∧ ∀ b, r = .ok b → b = y.visible)
    (Sat.attempt ((pread_sat hvy _ _).mono
      (fun b w hw => ⟨hw.1.trans hv,
        fun m hm => by cases hm; exact hw.2.trans (subslice_all le_rfl)⟩)
      fun w hw _ => ⟨hw.1.trans hv, fun _ h => by cases h⟩)) ?_
  rintro (e | b) w ⟨hw, hb⟩
  · exact ⟨hw, hnil⟩
  · obtain rfl := hb b rfl
    exact ⟨hw, hindex y hy⟩

/-- Recovery starts its scan at the start of the file or of a batch, or at the end of
the batches. -/
theorem pickStart_sat (htiles : Tiles baseOffset fs) (hlen : (encode fs).length < 0x100000000)
    {fileSize : Nat} (hf : d.file (.log baseOffset) = some x) (fuel : Nat)
    {index : SparseIndex} (hfuel : index.length ≤ fuel) (hdecoded : Decoded index fileSize)
    (hindex : Trusted index baseOffset x.visible fs) :
    Sat (pickStart .unbounded baseOffset fuel index d)
      (fun r t => t.file = d.file ∧ IndexGuides r.1 baseOffset fileSize fs ∧ ∃ p, p <+: fs ∧
        r.2.elim 0 IndexEntry.filePos = (encode p).length ∧
        (r.2.elim baseOffset fun e => baseOffset + e.relOffset) = endFrom baseOffset p)
      (fun _ => False) := by
  induction fuel generalizing index d with
  | zero =>
      obtain rfl := List.eq_nil_of_length_eq_zero (Nat.le_zero.1 hfuel)
      exact ⟨rfl, guides_nil _ _ _, [], List.nil_prefix, rfl, rfl⟩
  | succ fuel ih =>
      unfold pickStart
      rcases List.eq_nil_or_concat' index with rfl | ⟨init, e, rfl⟩
      · exact ⟨rfl, guides_nil _ _ _, [], List.nil_prefix, rfl, rfl⟩
      rw [List.getLast?_concat]
      refine Sat.bind (Q := fun got t => t.file = d.file ∧
          ∀ b, got = .ok b → b = subslice x.visible e.filePos kBatchHeaderBytes)
        (Sat.attempt ((pread_sat hf _ _).mono
          (fun _ _ ht => ⟨ht.1, fun b hb => by cases hb; exact ht.2⟩)
          fun _ ht _ => ⟨ht.1, fun _ h => by cases h⟩)) ?_
      rintro got t ⟨ht, hgot⟩
      refine Sat.ite (fun husable => ?_) fun _ => ?_
      · have hplausible : e.Plausible baseOffset x.visible := by
          cases got with
          | error _ => cases husable
          | ok b =>
              rw [hgot b rfl] at husable
              exact husable
        obtain ⟨⟨p, hp, hpos, hrel⟩, hkept⟩ := hindex init e List.prefix_rfl hplausible
        refine ⟨ht, ⟨hdecoded.increasing, hdecoded.inside, fun a ha hlt => ?_⟩,
          p, hp, hpos, hrel⟩
        rcases List.mem_append.1 ha with ha | ha
        · exact hkept a ha
        · rw [List.mem_singleton.1 ha] at hlt ⊢
          exact IndexEntry.Resumes.marks ⟨p, hp, hpos, hrel⟩ htiles hlen hlt
      · rw [truncateFrom_last hdecoded.increasing]
        rw [← ht] at hf
        rw [List.length_append, List.length_singleton] at hfuel
        exact (ih hf (by omega) hdecoded.init hindex.init).mono
          (fun _ u hu => ⟨hu.1.trans ht, hu.2⟩) fun _ hu => hu

/-! ## The scan -/

/-- One step of the scan sees the frame that is next in line, if there is one. -/
theorem scanBatch_sat (hf : d.file (.log baseOffset) = some x) (pos expect : Nat) :
    Sat (scanBatch baseOffset x.visible.length pos expect d)
      (fun found t => t.file = d.file ∧
        found = ((Delimited.head (x.visible.drop pos)).filter fun f : Frame =>
          Extent.base f = expect).map Frame.header)
      (fun t => t.file = d.file ∧ Refuses .pread) := by
  unfold scanBatch
  refine (pread_sat hf _ _).bind ?_
  rintro bytes t ⟨ht, rfl⟩
  have hlen : x.visible.length - pos = (x.visible.drop pos).length := List.length_drop.symm
  have hsub : ∀ n, subslice x.visible pos n = (x.visible.drop pos).take n := fun _ => rfl
  rw [← ht] at hf
  simp only [hlen, hsub]
  generalize x.visible.drop pos = l at hsub ⊢
  cases hhead : (Delimited.head l : Option Frame) with
  | none =>
      refine Sat.ite (fun _ => ⟨ht, rfl⟩) fun _ => ?_
      rw [decodeHeader_take le_rfl]
      cases hd : decodeHeader l with
      | error e => exact ⟨ht, rfl⟩
      | ok h =>
          refine Sat.ite (fun _ => ⟨ht, rfl⟩) fun htotal => ?_
          refine ((pread_sat hf _ _).mono (fun _ _ hu => hu)
            fun u hu => ⟨hu.1.trans ht, hu.2⟩).bind ?_
          rintro body u ⟨hu, rfl⟩
          refine Sat.ite (fun _ => ⟨hu.trans ht, rfl⟩) fun _ => ?_
          rw [hsub]
          cases hv : validateBatch (l.take h.totalBytes) with
          | error e => exact ⟨hu.trans ht, rfl⟩
          | ok _ => exact absurd hhead (Frame.head_ne_none hd (by omega) hv)
  | some f =>
      obtain ⟨rest, hrest⟩ := (Delimited.head_eq_some l f).1 hhead
      have hl : l = f.bytes ++ rest := hrest.symm
      have hmin := f.header_le
      have hwhole := f.whole
      have hlength : l.length = f.bytes.length + rest.length := by
        rw [hl, List.length_append]
      have hdec : decodeHeader l = .ok f.header := by
        rw [hl, decodeHeader_append hmin, f.decode]
      have hbody : l.take f.header.totalBytes = f.bytes := by
        rw [hl, ← hwhole, List.take_left]
      rw [if_neg (by rw [List.length_take]; omega), decodeHeader_take le_rfl, hdec]
      dsimp only
      rw [if_neg (by omega)]
      refine ((pread_sat hf _ _).mono (fun _ _ hu => hu)
        fun u hu => ⟨hu.1.trans ht, hu.2⟩).bind ?_
      rintro body u ⟨hu, rfl⟩
      rw [hsub, hbody, if_neg (by omega), f.valid]
      dsimp only
      refine Sat.ite (fun hne => ⟨hu.trans ht, ?_⟩) fun heq => ⟨hu.trans ht, ?_⟩
      · have : ¬ Extent.base f = expect := hne
        simp [this]
      · have : Extent.base f = expect := not_not.1 heq
        simp [this]

/-- Nothing is found where no frame is in line. -/
theorem scanBatch_stuck (hf : d.file (.log baseOffset) = some x) {pos expect : Nat}
    (hstuck : Stuck Frame expect (x.visible.drop pos)) :
    Sat (scanBatch baseOffset x.visible.length pos expect d)
      (fun found t => t.file = d.file ∧ found = none)
      (fun t => t.file = d.file ∧ Refuses .pread) := by
  have hnone : ((Delimited.head (x.visible.drop pos)).filter fun f : Frame =>
      Extent.base f = expect) = none := by
    rw [Option.filter_eq_none_iff]
    intro f hhead hbase
    exact hstuck f (of_decide_eq_true hbase) ((Delimited.head_eq_some _ f).1 hhead)
  refine (scanBatch_sat hf pos expect).mono ?_ fun _ ht => ht
  rintro found t ⟨ht, rfl⟩
  exact ⟨ht, by rw [hnone]; rfl⟩

/-- The frame that is next in line is found. -/
theorem scanBatch_next (hf : d.file (.log baseOffset) = some x) {pos expect : Nat} {f : Frame}
    {rest : Bytes} (hdrop : x.visible.drop pos = f.bytes ++ rest)
    (hbase : Extent.base f = expect) :
    Sat (scanBatch baseOffset x.visible.length pos expect d)
      (fun found t => t.file = d.file ∧ found = some f.header)
      (fun t => t.file = d.file ∧ Refuses .pread) := by
  have hhead : Delimited.head (f.bytes ++ rest) = some f :=
    (Delimited.head_eq_some _ f).2 (List.prefix_append _ _)
  have hsome : ((Delimited.head (x.visible.drop pos)).filter fun f : Frame =>
      Extent.base f = expect) = some f := by
    rw [hdrop, hhead, Option.filter_some, hbase, if_pos (decide_eq_true rfl)]
  refine (scanBatch_sat hf pos expect).mono ?_ fun _ ht => ht
  rintro found t ⟨ht, rfl⟩
  exact ⟨ht, by rw [hsome]; rfl⟩

/-- The scan ends behind the last batch that is in line. -/
theorem scanForward_sat (hparse : Parses baseOffset x.visible fs) (interval : Nat) :
    ∀ (fuel : Nat) (scan : Scan) (p : List Frame) (d : Disk),
      d.file (.log baseOffset) = some x → p <+: fs → scan.pos = (encode p).length →
      scan.expectOffset = endFrom baseOffset p →
      IndexGuides scan.index baseOffset x.visible.length fs →
      (encode fs).length ≤ fuel + (encode p).length →
      Sat (scanForward .unbounded baseOffset interval x.visible.length fuel scan d)
        (fun r t => t.file = d.file ∧ r.pos = (encode fs).length ∧
          r.expectOffset = endFrom baseOffset fs ∧
          IndexGuides r.index baseOffset x.visible.length fs)
        (fun t => t.file = d.file ∧ Refuses .pread ∧ x.visible ≠ []) := by
  obtain ⟨htiles, rest, hvisible, hstuck⟩ := hparse
  have hnonempty : ∀ m, ¬ x.visible.length ≤ m → x.visible ≠ [] := by
    intro m hm h
    rw [h] at hm
    exact hm (Nat.zero_le m)
  intro fuel
  induction fuel with
  | zero =>
      intro scan p d hf hp hpos hexpect hindex hfuel
      obtain rfl := isPrefix_eq_of_length hp List.prefix_rfl
        (le_antisymm (encode_isPrefix hp).length_le (by omega))
      exact ⟨rfl, hpos, hexpect, hindex⟩
  | succ fuel ih =>
      intro scan p d hf hp hpos hexpect hindex hfuel
      unfold scanForward
      rcases eq_or_snoc hp with rfl | ⟨f, hpf⟩
      · have hend : Stuck Frame scan.expectOffset (x.visible.drop scan.pos) := by
          rw [hpos, hexpect, hvisible, List.drop_left]
          exact hstuck
        refine Sat.ite (fun _ => ⟨rfl, hpos, hexpect, hindex⟩) fun hmore => ?_
        refine ((scanBatch_stuck hf hend).mono (fun _ _ ht => ht)
          fun t ht => ⟨ht.1, ht.2, hnonempty _ hmore⟩).bind ?_
        rintro found t ⟨ht, rfl⟩
        exact ⟨ht, hpos, hexpect, hindex⟩
      · have hlen := encode_snoc_length p f
        have hle := (encode_isPrefix hpf).length_le
        have hmin := f.header_le
        have hwhole := f.whole
        have hbase := (tiles_snoc.1 (htiles.of_isPrefix hpf)).2.1
        obtain ⟨r, hr⟩ := hpf
        have hdrop : x.visible.drop scan.pos = f.bytes ++ (encode r ++ rest) := by
          rw [hpos, hvisible, ← hr, encode_append, encode_append, List.append_assoc,
            List.append_assoc, List.drop_left, encode_cons, encode_nil, List.append_nil]
          rfl
        have hfile : (encode fs).length ≤ x.visible.length := by
          rw [hvisible, List.length_append]
          omega
        unfold kBatchHeaderBytes at hmin
        have hmore : ¬ x.visible.length ≤ scan.pos := by omega
        rw [if_neg hmore]
        refine ((scanBatch_next hf hdrop (hbase.trans hexpect.symm)).mono (fun _ _ ht => ht)
          fun t ht => ⟨ht.1, ht.2, hnonempty _ hmore⟩).bind ?_
        rintro found t ⟨ht, rfl⟩
        have hpf : p ++ [f] <+: fs := ⟨r, hr⟩
        rw [← ht] at hf
        refine (ih _ (p ++ [f]) t hf hpf ?_ ?_ ?_ (by omega)).mono
          (fun _ u hu => ⟨hu.1.trans ht, hu.2⟩) fun u hu => ⟨hu.1.trans ht, hu.2⟩
        · rw [hlen, ← hpos]
        · rw [endFrom_append]
          rfl
        · show IndexGuides (scan.index.maybeAdd _ scan.pos _) _ _ _
          rw [hpos]
          exact hindex.maybeAdd hpf (by omega) _

/-- Why `Segment::open` may fail once the file is there. -/
def Unopened (options : SegmentOptions) (x : File) (fs : List Frame) (e : ErrorCode) : Prop :=
  Refuses .size ∨ x.visible ≠ [] ∧ (Refuses .pread ∨ Refuses .truncate ∨
    e = .corruptRecord ∧ options.maxBytes < x.visible.length ∨
    e = .invalidArgument ∧ x.visible.length ≤ options.maxBytes ∧ x.visible ≠ encode fs ∧
      kMaxFileBytes < (encode fs).length)

omit [Faults] in
/-- What `Segment::open` leaves of a file that begins with the batches `fs`: what is
behind them is cut off. -/
def recovered (x : File) (fs : List Frame) : File :=
  if x.visible = encode fs then x else x.truncate (encode fs).length

omit [Faults] in
theorem recovered_visible (h : encode fs <+: x.visible) :
    (recovered x fs).visible = encode fs := by
  unfold recovered
  split
  case isTrue heq => exact heq
  case isFalse => exact resize_eq h

omit [Faults] in
private theorem length_lt_iff (hpre : encode fs <+: x.visible) :
    (encode fs).length < x.visible.length ↔ x.visible ≠ encode fs := by
  constructor
  · intro hlt heq
    rw [heq] at hlt
    exact lt_irrefl _ hlt
  · intro hne
    exact lt_of_le_of_ne hpre.length_le fun heq => hne (hpre.eq_of_length heq).symm

/-- The segment that a scan leaves. -/
def Scan.segment (scan : Scan) (baseOffset fileSize : Nat) (options : SegmentOptions)
    (usable : Bool) : Segment where
  baseOffset := baseOffset
  nextOffset := scan.expectOffset
  options := options
  sizeBytes := scan.pos
  index := if scan.pos < fileSize then scan.index.truncateFrom scan.pos else scan.index
  recovery :=
    { batchesScanned := scan.batches
      bytesTruncated := fileSize - scan.pos
      validBytes := scan.pos
      nextOffset := scan.expectOffset
      indexWasUsable := usable
      truncated := decide (scan.pos < fileSize) }

/-- The last step of `recover`, after a scan that ended behind the batches `fs`. -/
theorem settle_ends (hf : d.file (.log baseOffset) = some x) (hpre : encode fs <+: x.visible)
    {scan : Scan} (hpos : scan.pos = (encode fs).length) (options : SegmentOptions)
    (usable : Bool) :
    Ends (settle baseOffset x.visible.length options usable scan d)
      (fun s t => s = scan.segment baseOffset x.visible.length options usable ∧
        (x.visible ≠ encode fs → (encode fs).length ≤ kMaxFileBytes) ∧
        t.file = Function.update d.file (.log baseOffset) (some (recovered x fs)))
      (fun e t => t.file = d.file ∧ x.visible ≠ encode fs ∧
        (Refuses .truncate ∨ e = .invalidArgument ∧ kMaxFileBytes < (encode fs).length)) := by
  unfold settle
  dsimp only
  refine Ends.ite (fun hmore => ?_) fun hall => ?_
  · have hne : x.visible ≠ encode fs := (length_lt_iff hpre).1 (hpos ▸ hmore)
    have hrec : recovered x fs = x.truncate (encode fs).length := if_neg hne
    refine ((truncate_ends hf _).mono (fun _ _ ht => ht) ?_).bind fun _ t ht => ?_
    · rintro e t ⟨ht, hrefused | ⟨he, hbig⟩⟩
      · exact ⟨ht, hne, .inl hrefused⟩
      · exact ⟨ht, hne, .inr ⟨he, hpos ▸ hbig⟩⟩
    · refine ⟨?_, fun _ => hpos ▸ ht.1, ?_⟩
      · rw [Scan.segment, if_pos hmore, decide_eq_true hmore]
      · rw [ht.2, hpos, hrec]
  · have heq : x.visible = encode fs :=
      not_not.1 fun hne => hall (hpos ▸ (length_lt_iff hpre).2 hne)
    have hrec : recovered x fs = x := if_pos heq
    refine ⟨?_, fun hne => absurd heq hne, ?_⟩
    · rw [Scan.segment, if_neg hall, decide_eq_false hall,
        Nat.sub_eq_zero_of_le (Nat.not_lt.1 hall)]
    · rw [hrec, ← hf, Function.update_eq_self]

omit [Faults] in
/-- It holds the batches that the scan has passed. -/
theorem Scan.segment_holds (htiles : Tiles baseOffset fs) (hpre : encode fs <+: x.visible)
    {scan : Scan} (hpos : scan.pos = (encode fs).length)
    (hnext : scan.expectOffset = endFrom baseOffset fs)
    (hindex : IndexGuides scan.index baseOffset x.visible.length fs) {options : SegmentOptions}
    (hfits : x.visible.length ≤ options.maxBytes) (hwidth : options.maxBytes < 0x100000000)
    (usable : Bool) :
    (scan.segment baseOffset x.visible.length options usable).Holds (recovered x fs) fs := by
  have hle := hpre.length_le
  have hcontent : encode fs <+: (recovered x fs).visible := by rw [recovered_visible hpre]
  have hsound : IndexSound (scan.segment baseOffset x.visible.length options usable).index
      baseOffset fs := by
    unfold Scan.segment
    dsimp only
    rw [hpos]
    split
    case isTrue => exact hindex.truncateFrom
    case isFalse hall =>
      have heq : x.visible.length = (encode fs).length := by omega
      exact IndexGuides.sound (heq ▸ hindex)
  exact
    { tiles := htiles
      next := hnext
      size := hpos
      content := hcontent
      bound := hpos.trans_le (hle.trans hfits)
      width := hwidth
      index := hsound }

/-- `Segment::open` recovers the batches that are in line from the start of the file,
and cuts off what is behind them. -/
theorem open_ends {options : SegmentOptions} (hwidth : options.maxBytes < 0x100000000)
    (hx : (d.file (.log baseOffset)).getD {} = x) (hparse : Parses baseOffset x.visible fs)
    (hindex : x.visible.length ≤ options.maxBytes → ∀ y, d.file (.index baseOffset) = some y →
      Trusted (SparseIndex.decode y.visible x.visible.length) baseOffset x.visible fs) :
    Ends (Segment.open baseOffset options d)
      (fun s t => s.baseOffset = baseOffset ∧ s.options = options ∧
        (s.recovery.truncated = true ↔ x.visible ≠ encode fs) ∧
        x.visible.length ≤ options.maxBytes ∧
        (x.visible ≠ encode fs → (encode fs).length ≤ kMaxFileBytes) ∧
        t.file = Function.update d.file (.log baseOffset) (some (recovered x fs)) ∧
        s.Holds (recovered x fs) fs)
      (fun e t => t.file = d.file ∧ Refuses .open ∨
        t.file = Function.update d.file (.log baseOffset) (some x) ∧ Unopened options x fs e) := by
  unfold Segment.open openIn
  refine (Ends.of_sat (openCreate_sat _ d) fun _ _ ht => .inl ht).bind fun _ t ht => ?_
  rw [hx] at ht
  have hf : t.file (.log baseOffset) = some x := by rw [ht, Function.update_self]
  refine (Ends.of_sat (size_sat hf) fun _ u hu => .inr ⟨hu.1.trans ht, .inl hu.2⟩).bind ?_
  rintro n u ⟨hu, rfl⟩
  have hpre : encode fs <+: x.visible := by
    obtain ⟨-, rest, hrest, -⟩ := hparse
    exact ⟨rest, hrest.symm⟩
  have hnonempty : ∀ m, m < x.visible.length → x.visible ≠ [] := by
    intro m hm h
    rw [h] at hm
    exact absurd hm (Nat.not_lt_zero m)
  refine Ends.ite (fun hbig => .inr ⟨hu.trans ht,
    .inr ⟨hnonempty _ hbig, .inr (.inr (.inl ⟨rfl, hbig⟩))⟩⟩) fun hfits => ?_
  rw [not_lt] at hfits
  rw [← hu] at hf
  have hlen := hpre.length_le
  have hsize : (encode fs).length < 0x100000000 := by omega
  have hread : Sat (readIndex baseOffset x.visible.length u)
      (fun index v => v.file = u.file ∧ Decoded index x.visible.length ∧
        Trusted index baseOffset x.visible fs) (fun _ => False) := by
    refine readIndex_sat (P := fun index => Decoded index x.visible.length ∧
      Trusted index baseOffset x.visible fs) ⟨decoded_nil _, trusted_nil _ _ _⟩
      fun y hy => ⟨decoded_decode _ _, hindex hfits y ?_⟩
    rw [hu, ht, Function.update_of_ne (fun h => FileName.noConfusion h)] at hy
    exact hy
  refine (Ends.of_sat hread fun _ _ hv => hv.elim).bind ?_
  rintro index v ⟨hv, hdecoded, htrusted⟩
  rw [← hv] at hf
  refine (Ends.of_sat (pickStart_sat hparse.1 hsize hf _ le_rfl hdecoded htrusted)
    fun _ _ hw => hw.elim).bind ?_
  rintro ⟨index', start⟩ w ⟨hw, hguides, p, hp, hpos, hexpect⟩
  rw [← hw] at hf
  have hfile : w.file = Function.update d.file (.log baseOffset) (some x) := by
    rw [hw, hv, hu, ht]
  refine (Ends.of_sat (scanForward_sat hparse _ _ _ p w hf hp hpos hexpect hguides (by omega))
    fun _ z hz => .inr ⟨hz.1.trans hfile, .inr ⟨hz.2.2, .inl hz.2.1⟩⟩).bind ?_
  rintro scan z ⟨hz, hzpos, hznext, hzindex⟩
  have hzfile := hz.trans hfile
  rw [← hz] at hf
  refine (settle_ends hf hpre hzpos options _).mono ?_ ?_
  · rintro _ y ⟨rfl, hcap, hy⟩
    refine ⟨rfl, rfl, ?_, hfits, hcap, ?_,
      scan.segment_holds hparse.1 hpre hzpos hznext hzindex hfits hwidth _⟩
    · rw [← length_lt_iff hpre, ← hzpos]
      exact decide_eq_true_iff
    · rw [hy, hzfile, Function.update_idem]
  · rintro e y ⟨hy, hne, hrefused | ⟨he, hbig⟩⟩
    · exact .inr ⟨hy.trans hzfile,
        .inr ⟨hnonempty _ ((length_lt_iff hpre).2 hne), .inr (.inl hrefused)⟩⟩
    · exact .inr ⟨hy.trans hzfile, .inr ⟨hnonempty _ ((length_lt_iff hpre).2 hne),
        .inr (.inr (.inr ⟨he, hfits, hne, hbig⟩))⟩⟩

/-! ## Whatever is in the file -/

/-- What `Segment::open` makes of a file that nothing is known about. -/
structure Opened (options : SegmentOptions) (baseOffset : Nat) (x : File) (s : Segment)
    (y : File) : Prop where
  base : s.baseOffset = baseOffset
  options : s.options = options
  file : y = x ∨ ∃ n, y = x.truncate n
  /-- A file that was created by the open, or was left empty by an earlier one. -/
  empty : x.visible = [] → y = x ∧ s.Holds x []

theorem open_sat {options : SegmentOptions} (hwidth : options.maxBytes < 0x100000000)
    (hx : (d.file (.log baseOffset)).getD {} = x) :
    Sat (Segment.open baseOffset options d)
      (fun s t => ∃ y, t.file = Function.update d.file (.log baseOffset) (some y) ∧
        Opened options baseOffset x s y)
      (fun t => t.file = d.file ∨
        t.file = Function.update d.file (.log baseOffset) (some x) ∧
          (x.visible = [] → Refuses .size)) := by
  by_cases hempty : x.visible = []
  · -- an empty file holds no batches, and its sidecar says nothing
    have hnil : Parses baseOffset x.visible ([] : List Frame) :=
      hempty ▸ parses_nil (stuck_nil _)
    have hopen := open_ends hwidth hx hnil fun _ y _ => trusted_of_empty hempty _ _ _
    have hrec : recovered x [] = x := if_pos hempty
    rw [hrec] at hopen
    refine hopen.sat ?_ |>.mono ?_ fun _ ht => ht
    · rintro e t (⟨ht, -⟩ | ⟨ht, hr | ⟨hne, -⟩⟩)
      · exact .inl ht
      · exact .inr ⟨ht, fun _ => hr⟩
      · exact absurd hempty hne
    · rintro s t ⟨hbase, hoptions, -, -, -, ht, hholds⟩
      exact ⟨x, ht, hbase, hoptions, .inl rfl, fun _ => ⟨rfl, hholds⟩⟩
  unfold Segment.open openIn
  refine ((openCreate_sat _ d).mono (fun _ _ ht => ht) fun _ ht => .inl ht.1).bind fun _ t ht => ?_
  rw [hx] at ht
  have hf : t.file (.log baseOffset) = some x := by rw [ht, Function.update_self]
  have herr : ∀ u : Disk, u.file = t.file → u.file = d.file ∨
      u.file = Function.update d.file (.log baseOffset) (some x) ∧
        (x.visible = [] → Refuses .size) :=
    fun u hu => .inr ⟨hu.trans ht, fun h => absurd h hempty⟩
  refine ((size_sat hf).mono (fun _ _ hu => hu) fun u hu => herr u hu.1).bind ?_
  rintro n u ⟨hu, rfl⟩
  refine Sat.ite (fun _ => herr u hu) fun _ => ?_
  refine ((Untouched.sat (fun _ => readIndex_untouched _ _) u).mono (fun _ _ hv => hv)
    fun v hv => herr v (hv.trans hu)).bind fun index v hv => ?_
  refine ((Untouched.sat (fun _ => pickStart_untouched _ _ _ _) v).mono (fun _ _ hw => hw)
    fun w hw => herr w (hw.trans (hv.trans hu))).bind fun start w hw => ?_
  refine ((Untouched.sat (fun _ => scanForward_untouched _ _ _ _ _ _) w).mono
    (fun _ _ hz => hz) fun z hz => herr z (hz.trans (hw.trans (hv.trans hu)))).bind
    fun scan z hz => ?_
  have hzt : z.file = t.file := hz.trans (hw.trans (hv.trans hu))
  have hzx : z.file (.log baseOffset) = some x := by rw [hzt, hf]
  unfold settle
  refine Sat.ite (fun _ => ?_) fun _ => ?_
  · refine ((truncate_ends hzx scan.pos).sat (F := fun y => y.file = d.file ∨
      y.file = Function.update d.file (.log baseOffset) (some x) ∧
        (x.visible = [] → Refuses .size)) fun _ y hy => herr y (hy.1.trans hzt)).bind
      fun _ y hy => ?_
    refine ⟨x.truncate scan.pos, ?_, rfl, rfl, .inr ⟨_, rfl⟩, fun h => absurd h hempty⟩
    rw [hy.2, hzt, ht, Function.update_idem]
  · exact ⟨x, hzt.trans ht, rfl, rfl, .inl rfl, fun h => absurd h hempty⟩

end Segment

end LogEngine.Storage
