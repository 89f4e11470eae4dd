import LogEngine.Storage.Frame
import LogEngine.Storage.Segment

/-!
# What a segment holds

`Segment.Holds s x fs` relates a segment object to its file: the first `size_bytes`
bytes that a read returns are the batches `fs`, laid end to end from `base_offset` to
`next_offset`, and every entry of the sparse index names the start of one of them.
Bytes behind `size_bytes`, which a refused write may have left, are nobody's.

Each operation of `src/storage/segment.cpp` has one specification over it, for any
pattern of refused disk operations.  `Segment::open` is in `Storage.Recovery`.
-/

namespace LogEngine.Storage

open Base Io Io.Disk Verified.Fallible Verified.Tiling Verified.Framing

/-! ## Offsets and bytes -/

private theorem walkRecords_le {framed : Bytes} {total count pos stop : Nat}
    (h : walkRecords framed total count pos = some stop) :
    pos + count * kRecordLengthBytes ≤ stop := by
  induction count generalizing pos with
  | zero =>
      rw [walkRecords, Option.some.injEq] at h
      omega
  | succ count ih =>
      unfold walkRecords at h
      split at h
      · cases h
      dsimp only at h
      split at h
      · cases h
      · have := ih h
        unfold kRecordLengthBytes at *
        omega

/-- A record takes four bytes at least. -/
theorem Frame.recordCount_le (f : Frame) :
    f.header.recordCount * kRecordLengthBytes ≤ f.bytes.length := by
  obtain ⟨h, hd, -, -, -, -, -, hwalk⟩ := validateBatch_eq_ok.1 f.valid
  obtain rfl : f.header = h := Except.ok.inj (f.decode.symm.trans hd)
  have hle := walkRecords_le hwalk
  rw [f.whole]
  omega

/-- The offsets of a row of batches grow no faster than a quarter of its bytes. -/
theorem extent_le {a : Nat} {fs : List Frame} (h : Tiles a fs) :
    endFrom a fs * kRecordLengthBytes ≤ a * kRecordLengthBytes + (encode fs).length := by
  induction fs generalizing a with
  | nil => exact Nat.le_add_right _ _
  | cons f fs ih =>
      obtain ⟨hbase, -, hfs⟩ := h
      have hrest := ih hfs
      have hrec := f.recordCount_le
      have hstop : Extent.stop f = a + f.header.recordCount := by
        rw [← hbase]
        exact f.nextOffset_eq
      rw [hstop, Nat.add_mul] at hrest
      rw [endFrom_cons, encode_cons_length, hstop]
      omega

theorem extent_lt {a : Nat} {fs : List Frame} (h : Tiles a fs)
    (hlen : (encode fs).length < 0x100000000) : endFrom a fs - a < 0x100000000 := by
  have := extent_le h
  unfold kRecordLengthBytes at this
  omega

/-! ## The index -/

/-- The entry names the position and the relative offset of a batch that starts
there. -/
def IndexEntry.Marks (e : IndexEntry) (baseOffset : Nat) (fs : List Frame) : Prop :=
  ∃ p f, p ++ [f] <+: fs ∧ e.filePos = (encode p).length ∧
    e.relOffset = relative f.header.baseOffset baseOffset

theorem IndexEntry.Marks.mono {e : IndexEntry} {baseOffset : Nat} {fs gs : List Frame}
    (h : e.Marks baseOffset fs) (hle : fs <+: gs) : e.Marks baseOffset gs := by
  obtain ⟨p, f, hp, hpos, hrel⟩ := h
  exact ⟨p, f, hp.trans hle, hpos, hrel⟩

/-- Strictly increasing in both fields, and every entry names the start of a batch. -/
structure IndexSound (index : SparseIndex) (baseOffset : Nat) (fs : List Frame) : Prop where
  increasing : index.Pairwise IndexEntry.Below
  marks : ∀ e ∈ index, e.Marks baseOffset fs

section Index

variable {index : SparseIndex} {baseOffset : Nat} {fs gs : List Frame}

theorem IndexSound.mono (h : IndexSound index baseOffset fs) (hle : fs <+: gs) :
    IndexSound index baseOffset gs :=
  ⟨h.increasing, fun e he => (h.marks e he).mono hle⟩

/-- `maybe_add` of a batch that starts where it is said to. -/
theorem IndexSound.maybeAdd (h : IndexSound index baseOffset fs) (hle : fs <+: gs) {p : List Frame}
    {f : Frame} (hp : p ++ [f] <+: gs) (interval : Nat) :
    IndexSound
      (index.maybeAdd (relative f.header.baseOffset baseOffset) (encode p).length interval)
      baseOffset gs := by
  have hgs := h.mono hle
  rcases maybeAdd_cases index (relative f.header.baseOffset baseOffset) (encode p).length
    interval with heq | ⟨heq, hlast⟩
  · rw [heq]
    exact hgs
  · rw [heq]
    refine ⟨pairwise_snoc h.increasing hlast, fun e he => ?_⟩
    rcases List.mem_append.1 he with he | he
    · exact hgs.marks e he
    · rw [List.mem_singleton.1 he]
      exact ⟨p, f, hp, rfl, rfl⟩

/-- `truncate_from` at the end of a batch. -/
theorem IndexSound.truncateFrom (h : IndexSound index baseOffset fs) {q : List Frame}
    (hq : q <+: fs) : IndexSound (index.truncateFrom (encode q).length) baseOffset q := by
  refine ⟨truncateFrom_increasing h.increasing _, fun e he => ?_⟩
  obtain ⟨hmem, hlt⟩ := mem_truncateFrom h.increasing he
  obtain ⟨p, f, hp, hpos, hrel⟩ := h.marks e hmem
  refine ⟨p, f, ?_, hpos, hrel⟩
  rcases List.prefix_or_prefix_of_prefix hp hq with hpq | hqp
  · exact hpq
  · -- a batch that begins before `q` ends, and `q` ends with a batch
    rw [List.prefix_concat_iff] at hqp
    rcases hqp with rfl | hqp
    · exact List.prefix_rfl
    · have := (encode_isPrefix hqp).length_le
      omega

/-- Where a lookup makes a walk start: at a batch that begins no later than the offset
looked for. -/
theorem IndexSound.lookup (h : IndexSound index baseOffset fs) (htiles : Tiles baseOffset fs)
    (hlen : (encode fs).length < 0x100000000) {want : Nat} (hlo : baseOffset ≤ want)
    (hhi : want < endFrom baseOffset fs) :
    ∃ p, p <+: fs ∧ (index.lookup (relative want baseOffset)).filePos = (encode p).length ∧
      endFrom baseOffset p ≤ want := by
  have hext := extent_lt htiles hlen
  have hwant : relative want baseOffset = want - baseOffset := Nat.mod_eq_of_lt (by omega)
  rcases lookup_cases h.increasing (relative want baseOffset) with heq | ⟨hmem, hle⟩
  · rw [heq]
    exact ⟨[], List.nil_prefix, rfl, hlo⟩
  · generalize index.lookup (relative want baseOffset) = e at hmem hle
    obtain ⟨p, f, hp, hpos, hrel⟩ := h.marks e hmem
    obtain ⟨hpt, hbase, -⟩ := tiles_snoc.1 (htiles.of_isPrefix hp)
    have hb : f.header.baseOffset = endFrom baseOffset p := hbase
    have hstart := hpt.le_end
    have hend := htiles.end_lt_of_snoc hp
    refine ⟨p, (List.prefix_append _ _).trans hp, hpos, ?_⟩
    have hrel' : e.relOffset = f.header.baseOffset - baseOffset := by
      rw [hrel]
      exact Nat.mod_eq_of_lt (by omega)
    omega

end Index

/-! ## Segments -/

/-- The segment's file begins with the batches `fs`, and the segment knows it. -/
structure Segment.Holds (s : Segment) (x : File) (fs : List Frame) : Prop where
  tiles : Tiles s.baseOffset fs
  next : s.nextOffset = endFrom s.baseOffset fs
  size : s.sizeBytes = (encode fs).length
  content : encode fs <+: x.visible
  bound : s.sizeBytes ≤ s.options.maxBytes
  width : s.options.maxBytes < 0x100000000
  index : IndexSound s.index s.baseOffset fs

namespace Segment

variable {s : Segment} {x : File} {fs : List Frame} {d : Disk}

theorem Holds.length_lt (h : s.Holds x fs) : (encode fs).length < 0x100000000 := by
  have h₁ := h.size
  have h₂ := h.bound
  have h₃ := h.width
  omega

/-- The position behind a batch. -/
theorem encode_snoc_length (p : List Frame) (f : Frame) :
    (encode (p ++ [f])).length = (encode p).length + f.header.totalBytes := by
  rw [encode_append, List.length_append, encode_cons, encode_nil, List.append_nil, ← f.whole]
  rfl

/-- A prefix of the batches is all of them or goes on with another batch. -/
theorem eq_or_snoc {p fs : List Frame} (h : p <+: fs) : p = fs ∨ ∃ f, p ++ [f] <+: fs := by
  obtain ⟨r, rfl⟩ := h
  cases r with
  | nil => exact .inl (List.append_nil p).symm
  | cons f r => exact .inr ⟨f, r, by simp⟩

/-! ## Walks through a segment -/

section Walks

variable [Faults]

/-- A walk that is at a batch reads its header. -/
theorem readHeader_sat (hf : d.file s.logFile = some x) {p : List Frame} {f : Frame}
    (hp : encode (p ++ [f]) <+: x.visible) :
    Sat (s.readHeader (encode p).length d)
      (fun h t => t.file = d.file ∧ h = f.header)
      (fun t => t.file = d.file ∧ Refuses .pread) := by
  obtain ⟨rest, hrest⟩ := hp
  have hbytes : subslice x.visible (encode p).length kBatchHeaderBytes =
      (f.bytes ++ rest).take kBatchHeaderBytes := by
    rw [← hrest, encode_append, List.append_assoc, subslice, List.drop_left, encode_cons,
      encode_nil, List.append_nil]
    rfl
  have hlen : ((f.bytes ++ rest).take kBatchHeaderBytes).length = kBatchHeaderBytes := by
    have := f.header_le
    rw [List.length_take, List.length_append]
    omega
  have hdec : decodeHeader ((f.bytes ++ rest).take kBatchHeaderBytes) = .ok f.header := by
    rw [decodeHeader_take le_rfl, decodeHeader_append f.header_le, f.decode]
  unfold readHeader
  refine (pread_sat hf _ _).bind fun bytes t ht => ?_
  obtain ⟨ht, rfl⟩ := ht
  rw [hbytes, if_neg (by omega), hdec]
  exact ⟨ht, rfl⟩

omit [Faults] in
/-- From one batch of a segment to the next, a position does not wrap. -/
theorem Holds.advance_batch (h : s.Holds x fs) {p : List Frame} {f : Frame}
    (hpf : p ++ [f] <+: fs) :
    advance (encode p).length f.header.totalBytes = (encode (p ++ [f])).length := by
  have hle := (encode_isPrefix hpf).length_le
  have hlt := h.length_lt
  rw [encode_snoc_length] at hle ⊢
  exact advance_eq (by omega)

/-- The walk of `read` ends at the batch that holds the offset. -/
theorem findBatch_sat (h : s.Holds x fs) {want : Nat} (hhi : want < s.nextOffset) :
    ∀ (fuel : Nat) (p : List Frame) (d : Disk), d.file s.logFile = some x → p <+: fs →
      endFrom s.baseOffset p ≤ want → (encode fs).length ≤ fuel + (encode p).length →
      Sat (s.findBatch want fuel (encode p).length d)
        (fun found t => t.file = d.file ∧ ∃ q f, q ++ [f] <+: fs ∧ Extent.base f ≤ want ∧
          want < Extent.stop f ∧ found = some ((encode q).length, f.header.totalBytes))
        (fun t => t.file = d.file ∧ Refuses .pread) := by
  intro fuel
  induction fuel with
  | zero =>
      intro p d hf hp hlo hfuel
      obtain rfl := isPrefix_eq_of_length hp List.prefix_rfl
        (le_antisymm (encode_isPrefix hp).length_le (by omega))
      have := h.next
      omega
  | succ fuel ih =>
      intro p d hf hp hlo hfuel
      rcases eq_or_snoc hp with rfl | ⟨f, hpf⟩
      · have := h.next
        omega
      have hlen := encode_snoc_length p f
      have hle := (encode_isPrefix hpf).length_le
      have hmin := f.header_le
      rw [f.whole] at hmin
      have hbase : Extent.base f = endFrom s.baseOffset p :=
        (tiles_snoc.1 (h.tiles.of_isPrefix hpf)).2.1
      unfold findBatch
      rw [if_neg (by rw [h.size]; unfold kBatchHeaderBytes at hmin; omega)]
      refine (readHeader_sat hf ((encode_isPrefix hpf).trans h.content)).bind ?_
      rintro hd t ⟨ht, rfl⟩
      refine Sat.ite (fun hlt => ⟨ht, p, f, hpf, by omega, hlt, rfl⟩) fun hge => ?_
      rw [h.advance_batch hpf]
      rw [← ht] at hf
      refine (ih (p ++ [f]) t hf hpf ?_ ?_).mono
        (fun _ u hu => ⟨hu.1.trans ht, hu.2⟩) fun u hu => ⟨hu.1.trans ht, hu.2⟩
      · rw [endFrom_append, endFrom_cons, endFrom_nil]
        exact Nat.not_lt.1 hge
      · unfold kBatchHeaderBytes at hmin
        omega

/-- The walk of `truncate_to` ends at the batch that begins at the offset, if there is
one. -/
theorem findCut_ends (h : s.Holds x fs) {offset : Nat} :
    ∀ (fuel : Nat) (p : List Frame) (d : Disk), d.file s.logFile = some x → p <+: fs →
      (∀ g ∈ p, Extent.base g < offset) → (encode fs).length ≤ fuel + (encode p).length →
      Ends (s.findCut offset fuel (encode p).length d)
        (fun cut t => t.file = d.file ∧ ∃ q f, q ++ [f] <+: fs ∧ Extent.base f = offset ∧
          cut = (encode q).length)
        (fun e t => t.file = d.file ∧
          (Refuses .pread ∨ e = .invalidArgument ∧ ∀ f ∈ fs, Extent.base f ≠ offset)) := by
  intro fuel
  induction fuel with
  | zero =>
      intro p d hf hp hbelow hfuel
      obtain rfl := isPrefix_eq_of_length hp List.prefix_rfl
        (le_antisymm (encode_isPrefix hp).length_le (by omega))
      exact ⟨rfl, .inr ⟨rfl, fun g hg => (hbelow g hg).ne⟩⟩
  | succ fuel ih =>
      intro p d hf hp hbelow hfuel
      unfold findCut
      rcases eq_or_snoc hp with rfl | ⟨f, hpf⟩
      · rw [if_pos h.size.le]
        exact ⟨rfl, .inr ⟨rfl, fun g hg => (hbelow g hg).ne⟩⟩
      have hlen := encode_snoc_length p f
      have hle := (encode_isPrefix hpf).length_le
      have hmin := f.header_le
      rw [f.whole] at hmin
      rw [if_neg (by rw [h.size]; unfold kBatchHeaderBytes at hmin; omega)]
      refine (Ends.of_sat (readHeader_sat hf ((encode_isPrefix hpf).trans h.content))
        fun _ _ ht => ⟨ht.1, .inl ht.2⟩).bind ?_
      rintro hd t ⟨ht, rfl⟩
      refine Ends.ite (fun heq => ⟨ht, p, f, hpf, heq, rfl⟩) fun hne =>
        Ends.ite (fun hlt => ⟨ht, .inr ⟨rfl, fun g hg => ?_⟩⟩) fun hge => ?_
      · -- the batches from `f` on begin behind the offset
        obtain ⟨r, rfl⟩ := hpf
        rw [List.append_assoc] at hg
        have hbase := (tiles_append.1 (List.append_assoc p [f] r ▸ h.tiles)).2
        rcases List.mem_append.1 hg with hg | hg
        · exact (hbelow g hg).ne
        · have h₁ := hbase.le_base hg
          have h₂ : Extent.base f = endFrom s.baseOffset p := hbase.1
          have h₃ : offset < Extent.base f := hlt
          omega
      · rw [h.advance_batch hpf]
        rw [← ht] at hf
        refine (ih (p ++ [f]) t hf hpf (fun g hg => ?_) ?_).mono
          (fun _ u hu => ⟨hu.1.trans ht, hu.2⟩) fun _ u hu => ⟨hu.1.trans ht, hu.2⟩
        · rcases List.mem_append.1 hg with hg | hg
          · exact hbelow g hg
          · rw [List.mem_singleton.1 hg]
            exact lt_of_le_of_ne (Nat.not_lt.1 hge) hne
        · unfold kBatchHeaderBytes at hmin
          omega

/-- `scan_headers` visits the headers of all batches. -/
theorem scanHeadersFrom_sat (h : s.Holds x fs) :
    ∀ (fuel : Nat) (p r : List Frame) (d : Disk), d.file s.logFile = some x → p ++ r = fs →
      (encode r).length ≤ fuel →
      Sat (s.scanHeadersFrom fuel (encode p).length d)
        (fun headers t => t.file = d.file ∧ headers = r.map Frame.header)
        (fun t => t.file = d.file ∧ Refuses .pread) := by
  intro fuel
  induction fuel with
  | zero =>
      intro p r d hf hpr hfuel
      obtain rfl := encode_eq_nil.1 (List.eq_nil_of_length_eq_zero (Nat.le_zero.1 hfuel))
      exact ⟨rfl, rfl⟩
  | succ fuel ih =>
      intro p r d hf hpr hfuel
      unfold scanHeadersFrom
      cases r with
      | nil =>
          rw [List.append_nil] at hpr
          rw [if_pos (by rw [h.size, hpr])]
          exact ⟨rfl, rfl⟩
      | cons f r =>
          have hpf : p ++ [f] <+: fs := ⟨r, by rw [← hpr]; simp⟩
          have hlen := encode_snoc_length p f
          have hle := (encode_isPrefix hpf).length_le
          have hmin := f.header_le
          have hsplit := encode_cons_length f r
          unfold kBatchHeaderBytes at hmin
          rw [if_neg (by rw [h.size]; have := f.whole; omega)]
          refine (readHeader_sat hf ((encode_isPrefix hpf).trans h.content)).bind ?_
          rintro hd t ⟨ht, rfl⟩
          rw [h.advance_batch hpf]
          rw [← ht] at hf
          refine ((ih (p ++ [f]) r t hf (by rw [← hpr]; simp) (by omega)).mono
            (fun _ u hu => hu) fun u hu => ⟨hu.1.trans ht, hu.2⟩).bind ?_
          rintro rest u ⟨hu, rfl⟩
          exact ⟨hu.trans ht, rfl⟩

theorem scanHeaders_sat (h : s.Holds x fs) (hf : d.file s.logFile = some x) :
    Sat (s.scanHeaders d) (fun headers t => t.file = d.file ∧ headers = fs.map Frame.header)
      (fun t => t.file = d.file ∧ Refuses .pread) :=
  scanHeadersFrom_sat h s.sizeBytes [] fs d hf rfl h.size.ge

end Walks

/-! ## Reads -/

/-- The batches from the first on that fit into a buffer. -/
def fitting : Nat → List Frame → List Frame
  | _, [] => []
  | capacity, f :: fs =>
      if f.bytes.length ≤ capacity then f :: fitting (capacity - f.bytes.length) fs else []

theorem fitting_isPrefix (capacity : Nat) (fs : List Frame) : fitting capacity fs <+: fs := by
  induction fs generalizing capacity with
  | nil => exact List.prefix_rfl
  | cons f fs ih =>
      unfold fitting
      split
      · exact (List.prefix_cons_inj f).2 (ih _)
      · exact List.nil_prefix

theorem encode_fitting_length_le (capacity : Nat) (fs : List Frame) :
    (encode (fitting capacity fs)).length ≤ capacity := by
  induction fs generalizing capacity with
  | nil => exact Nat.zero_le _
  | cons f fs ih =>
      unfold fitting
      split
      case isTrue hle =>
        have := ih (capacity - f.bytes.length)
        rw [encode_cons_length]
        omega
      case isFalse => exact Nat.zero_le _

/-- The second loop of `read` goes over a batch that is there as a whole. -/
theorem wholeBatches_step {bytes rest : Bytes} {pos : Nat} {f : Frame}
    (h : bytes.drop pos = f.bytes ++ rest) (fuel : Nat) :
    wholeBatches bytes (fuel + 1) pos = wholeBatches bytes fuel (pos + f.header.totalBytes) := by
  have hmin := f.header_le
  have hwhole := f.whole
  have hlength := congrArg List.length h
  rw [List.length_drop, List.length_append] at hlength
  unfold kBatchHeaderBytes at hmin
  rw [wholeBatches, h, if_neg (by unfold kBatchHeaderBytes; omega),
    decodeHeader_append f.header_le, f.decode]
  dsimp only
  rw [if_neg (by omega), validateBatch_append f.decode f.whole.ge, f.valid]

/-- It stops at a batch of which only the beginning is there. -/
theorem wholeBatches_stop {bytes : Bytes} {pos n : Nat} {f : Frame}
    (hpos : pos ≤ bytes.length) (h : bytes.drop pos = f.bytes.take n)
    (hn : n < f.bytes.length) (fuel : Nat) : wholeBatches bytes (fuel + 1) pos = .ok pos := by
  have hwhole := f.whole
  have hlength := congrArg List.length h
  rw [List.length_drop, List.length_take] at hlength
  unfold wholeBatches
  split
  case isTrue => rfl
  case isFalse hheader =>
    rw [h, decodeHeader_take (by omega), f.decode]
    dsimp only
    rw [if_pos (by omega)]

/-- The second loop of `read` counts the bytes of the batches that fit. -/
theorem wholeBatches_encode (capacity : Nat) :
    ∀ (fuel : Nat) (p r : List Frame), (encode p).length ≤ capacity →
      min (capacity - (encode p).length) (encode r).length ≤ fuel →
      wholeBatches ((encode (p ++ r)).take capacity) fuel (encode p).length =
        .ok (encode (p ++ fitting (capacity - (encode p).length) r)).length := by
  intro fuel
  induction fuel with
  | zero =>
      intro p r _ hfuel
      have hnone : fitting (capacity - (encode p).length) r = [] := by
        cases r with
        | nil => rfl
        | cons f r =>
            have hsplit := encode_cons_length f r
            have hmin := f.header_le
            unfold kBatchHeaderBytes at hmin
            rw [fitting, if_neg (by omega)]
      rw [hnone, List.append_nil, wholeBatches]
  | succ fuel ih =>
      intro p r hp hfuel
      have hdrop : ((encode (p ++ r)).take capacity).drop (encode p).length =
          (encode r).take (capacity - (encode p).length) := by
        rw [encode_append, List.take_append, List.take_of_length_le hp, List.drop_left]
      have hlength : ((encode (p ++ r)).take capacity).length =
          (encode p).length + min (capacity - (encode p).length) (encode r).length := by
        rw [encode_append, List.length_take, List.length_append]
        omega
      cases r with
      | nil =>
          rw [wholeBatches, hlength, encode_nil, List.length_nil, Nat.min_zero, if_pos (by
            unfold kBatchHeaderBytes
            omega), fitting, List.append_nil]
      | cons f r =>
          have hsplit := encode_cons_length f r
          have hbytes : encode (f :: r) = f.bytes ++ encode r := encode_cons f r
          rw [hbytes] at hdrop
          by_cases hfit : f.bytes.length ≤ capacity - (encode p).length
          · rw [List.take_append, List.take_of_length_le hfit] at hdrop
            have hsnoc := encode_snoc_length p f
            have hwhole := f.whole
            have hmin := f.header_le
            unfold kBatchHeaderBytes at hmin
            have hrest := ih (p ++ [f]) r (by omega) (by omega)
            have hleft : capacity - (encode (p ++ [f])).length =
                capacity - (encode p).length - f.bytes.length := by omega
            rw [List.append_assoc, List.singleton_append, hleft, List.append_assoc,
              List.singleton_append] at hrest
            rw [wholeBatches_step hdrop, ← hsnoc, hrest, fitting, if_pos hfit]
          · rw [List.take_append_of_le_length (by omega)] at hdrop
            rw [fitting, if_neg hfit, List.append_nil]
            exact wholeBatches_stop (by omega) hdrop (by omega) fuel

/-- What a read at an offset hands back of a row of batches. -/
def readFrom (fs : List Frame) (offset capacity : Nat) : Except ErrorCode Bytes :=
  match after fs offset with
  | [] => .ok []
  | f :: r =>
      if capacity < f.bytes.length then .error .messageTooLarge
      else .ok (encode (fitting capacity (f :: r)))

section Operations

variable [Faults]

/-- `read` hands back the whole batches from the one that holds the offset on. -/
theorem read_ends (h : s.Holds x fs) (hf : d.file s.logFile = some x) (offset capacity : Nat) :
    Ends (s.read offset capacity d)
      (fun bytes t => t.file = d.file ∧ readFrom fs offset capacity = .ok bytes)
      (fun e t => t.file = d.file ∧
        (Refuses .pread ∨ readFrom fs offset capacity = .error e)) := by
  unfold read
  refine Ends.ite (fun hge => ⟨rfl, ?_⟩) fun hlt => ?_
  · rw [readFrom, h.tiles.after_nil (h.next ▸ hge)]
  by_cases hnil : fs = []
  · subst hnil
    have hfind : ∀ pos, s.findBatch (max offset s.baseOffset) s.sizeBytes pos d = .ok none d := by
      intro pos
      rw [h.size]
      rfl
    show Ends (EStateM.bind _ _ d) _ _
    unfold EStateM.bind
    rw [hfind]
    exact ⟨rfl, rfl⟩
  have hnext := h.next
  have hwant : max offset s.baseOffset < endFrom s.baseOffset fs := by
    cases fs with
    | nil => exact absurd rfl hnil
    | cons f fs =>
        have h₁ := h.tiles.2.1
        have h₂ := h.tiles.2.2.le_end
        rw [endFrom_cons] at hnext ⊢
        omega
  obtain ⟨p, hp, hpos, hle⟩ := h.index.lookup h.tiles h.length_lt (le_max_right _ _) hwant
  rw [hpos]
  refine (Ends.of_sat (findBatch_sat h (hnext ▸ hwant) s.sizeBytes p d hf hp hle
    (by rw [h.size]; omega)) fun _ _ ht => ⟨ht.1, .inl ht.2⟩).bind ?_
  rintro found t ⟨ht, q, f, ⟨r, hqf⟩, hlo, hhi, rfl⟩
  dsimp only
  rw [List.append_assoc, List.singleton_append] at hqf
  have hafter : after fs offset = f :: r := by
    rw [← h.tiles.after_max, ← hqf]
    exact (hqf ▸ h.tiles : Tiles s.baseOffset (q ++ f :: r)).after_eq hlo hhi
  rw [readFrom, hafter, ← f.whole]
  dsimp only
  refine Ends.ite (fun hbig => ⟨ht, .inr (if_pos hbig)⟩) fun hfits => ?_
  rw [if_neg hfits]
  obtain ⟨rest, hrest⟩ := h.content
  have hbytes : subslice x.visible (encode q).length (min (s.sizeBytes - (encode q).length)
      capacity) = (encode (f :: r)).take capacity := by
    have hsize : s.sizeBytes - (encode q).length = (encode (f :: r)).length := by
      rw [h.size, ← hqf, encode_append, List.length_append]
      omega
    rw [← hrest, ← hqf, encode_append, List.append_assoc, subslice, List.drop_left, hsize,
      Nat.min_comm, ← List.take_take, List.take_left]
  rw [← ht] at hf
  refine (Ends.of_sat (pread_sat hf _ _) fun _ u hu => ⟨hu.1.trans ht, .inl hu.2⟩).bind ?_
  rintro bytes u ⟨hu, rfl⟩
  have hwhole := wholeBatches_encode capacity ((encode (f :: r)).take capacity).length [] (f :: r)
    (Nat.zero_le _) (by rw [List.length_take, encode_nil, List.length_nil, Nat.sub_zero])
  rw [List.nil_append, encode_nil, List.length_nil, Nat.sub_zero, List.nil_append] at hwhole
  rw [hbytes, hwhole]
  refine ⟨hu.trans ht, congrArg Except.ok ?_⟩
  obtain ⟨tail, htail⟩ := encode_isPrefix (fitting_isPrefix capacity (f :: r))
  rw [List.take_take, Nat.min_eq_left (encode_fitting_length_le _ _), ← htail, List.take_left]

omit [Faults] in
/-- What a segment holds is a matter of the first bytes of its file. -/
theorem Holds.congr_file (h : s.Holds x fs) {y : File} (hy : encode fs <+: y.visible) :
    s.Holds y fs :=
  { h with content := hy }

/-- A refused append leaves what the segment holds. -/
theorem Holds.attempted (h : s.Holds x fs) {data : Bytes} {y : File}
    (hy : Attempted x s.sizeBytes data y) : s.Holds y fs := by
  cases hy with
  | none => exact h
  | some k ha hne =>
      refine h.congr_file ?_
      rw [h.size]
      exact isPrefix_applyBytes h.content _

omit [Faults] in
/-- The segment after a successful append. -/
def grown (s : Segment) (f : Frame) : Segment :=
  { s with
    index := s.index.maybeAdd (relative f.header.baseOffset s.baseOffset) s.sizeBytes
      s.options.indexIntervalBytes
    sizeBytes := s.sizeBytes + f.bytes.length
    nextOffset := f.header.nextOffset }

theorem append_sat (hf : d.file s.logFile = some x) (f : Frame) :
    Sat (s.append f.bytes f.header d)
      (fun s' t => Extent.base f = s.nextOffset ∧
        f.bytes.length ≤ s.options.maxBytes - s.sizeBytes ∧
        s.sizeBytes + f.bytes.length ≤ kMaxFileBytes ∧ s' = s.grown f ∧
        t.file = Function.update d.file s.logFile (some (x.write s.sizeBytes f.bytes)))
      (fun t => t.file = d.file ∨ f.bytes.length ≤ s.options.maxBytes - s.sizeBytes ∧
        ∃ y, t.file = Function.update d.file s.logFile (some y) ∧
          Attempted x s.sizeBytes f.bytes y) := by
  unfold append
  refine Sat.ite (fun _ => .inl rfl) fun hbase => Sat.ite (fun _ => .inl rfl) fun hroom => ?_
  rw [Nat.not_lt] at hroom
  refine ((pwrite_sat hf f.bytes_ne s.sizeBytes).mono (fun _ _ ht => ht)
    fun t ht => .inr ⟨hroom, ht⟩).bind ?_
  rintro n t ⟨rfl, hcap, ht⟩
  rw [if_neg (not_not.2 rfl)]
  exact ⟨not_not.1 hbase, hroom, hcap, rfl, ht⟩

omit [Faults] in
theorem encode_snoc (fs : List Frame) (f : Frame) : encode (fs ++ [f]) = encode fs ++ f.bytes := by
  rw [encode_append, encode_cons, encode_nil, List.append_nil]
  rfl

omit [Faults] in
/-- The segment holds one batch more after an append. -/
theorem Holds.grown (h : s.Holds x fs) {f : Frame} (hbase : Extent.base f = s.nextOffset)
    (hroom : f.bytes.length ≤ s.options.maxBytes - s.sizeBytes) :
    (s.grown f).Holds (x.write s.sizeBytes f.bytes) (fs ++ [f]) where
  tiles := by
    refine tiles_snoc.2 ⟨h.tiles, hbase.trans h.next, ?_⟩
    show endFrom s.baseOffset fs < Extent.stop f
    rw [← h.next, ← hbase]
    exact Proper.base_lt f
  next := by
    rw [endFrom_append]
    rfl
  size := by
    rw [encode_snoc, List.length_append, ← h.size]
    rfl
  content := by
    show encode (fs ++ [f]) <+: applyBytes x.visible s.sizeBytes f.bytes
    rw [encode_snoc, h.size]
    exact append_isPrefix_applyBytes h.content _
  bound := by
    have := h.bound
    show s.sizeBytes + f.bytes.length ≤ s.options.maxBytes
    omega
  width := h.width
  index := by
    show IndexSound (s.index.maybeAdd _ s.sizeBytes _) _ _
    rw [h.size]
    exact h.index.maybeAdd (List.prefix_append _ _) List.prefix_rfl _

omit [Faults] in
/-- The segment cut where one of its batches begins. -/
theorem Holds.truncated (h : s.Holds x fs) {q : List Frame} (hq : q <+: fs) :
    ({ s with
        sizeBytes := (encode q).length
        nextOffset := endFrom s.baseOffset q
        index := s.index.truncateFrom (encode q).length } : Segment).Holds
      (x.truncate (encode q).length) q where
  tiles := h.tiles.of_isPrefix hq
  next := rfl
  size := rfl
  content := by
    show encode q <+: resize x.visible (encode q).length
    rw [resize_eq ((encode_isPrefix hq).trans h.content)]
  bound := by
    have h₁ := (encode_isPrefix hq).length_le
    have h₂ := h.size
    have h₃ := h.bound
    show (encode q).length ≤ s.options.maxBytes
    omega
  width := h.width
  index := h.index.truncateFrom hq

/-- A batch begins at the offset, or the offset is no later than all of them. -/
def CutsAt (baseOffset : Nat) (fs : List Frame) (offset : Nat) : Prop :=
  offset ≤ baseOffset ∨ ∃ f ∈ fs, Extent.base f = offset

/-- Where `truncate_to` finds the cut: at the start of a batch. -/
theorem cutAt_ends (h : s.Holds x fs) (hf : d.file s.logFile = some x) {offset : Nat}
    (hlt : offset < s.nextOffset) :
    Ends (s.cutAt offset d)
      (fun cut t => t.file = d.file ∧ CutsAt s.baseOffset fs offset ∧
        cut = (encode (upTo fs offset)).length)
      (fun e t => t.file = d.file ∧
        (Refuses .pread ∨ e = .invalidArgument ∧ ¬ CutsAt s.baseOffset fs offset)) := by
  unfold cutAt
  refine Ends.ite (fun hle => ⟨rfl, .inl hle, ?_⟩) fun hgt => ?_
  · rw [h.tiles.upTo_nil hle]
    rfl
  rw [not_le] at hgt
  obtain ⟨p, hp, hpos, hle⟩ := h.index.lookup h.tiles h.length_lt hgt.le (h.next ▸ hlt)
  rw [hpos]
  have hbelow : ∀ g ∈ p, Extent.base g < offset := by
    intro g hg
    obtain ⟨p₁, p₂, rfl⟩ := List.append_of_mem hg
    have hpt := h.tiles.of_isPrefix hp
    have hlt := hpt.end_lt_of_snoc (p := p₁) (x := g) ⟨p₂, by simp⟩
    have hbase := (tiles_append.1 hpt).2.1
    omega
  refine (findCut_ends h s.sizeBytes p d hf hp hbelow (by rw [h.size]; omega)).mono ?_ ?_
  · rintro cut t ⟨ht, q, f, hqf, hb, rfl⟩
    refine ⟨ht, .inr ⟨f, ?_, hb⟩, ?_⟩
    · exact hqf.subset (List.mem_append_right q List.mem_cons_self)
    · rw [← hb, h.tiles.upTo_base hqf]
  · rintro e t ⟨ht, hr | ⟨he, hnone⟩⟩
    · exact ⟨ht, .inl hr⟩
    · refine ⟨ht, .inr ⟨he, ?_⟩⟩
      rintro (hle | ⟨f, hf, hb⟩)
      · omega
      · exact hnone f hf hb

omit [Faults] in
/-- What is kept by a cut at the start of a batch ends there. -/
theorem CutsAt.end_eq {baseOffset offset : Nat} {fs : List Frame}
    (h : CutsAt baseOffset fs offset) (htiles : Tiles baseOffset fs) (hlo : baseOffset ≤ offset) :
    endFrom baseOffset (upTo fs offset) = offset := by
  rcases h with hle | ⟨f, hf, rfl⟩
  · rw [htiles.upTo_nil hle]
    exact le_antisymm hlo hle
  · obtain ⟨p, r, rfl⟩ := List.append_of_mem hf
    have hpf : p ++ [f] <+: p ++ f :: r := ⟨r, by simp⟩
    rw [htiles.upTo_base hpf]
    exact (tiles_snoc.1 (htiles.of_isPrefix hpf)).2.1.symm

/-- `truncate_to` keeps the batches before the offset. -/
theorem truncateTo_ends (h : s.Holds x fs) (hf : d.file s.logFile = some x) (offset : Nat) :
    Ends (s.truncateTo offset d)
      (fun s' t => (s.nextOffset ≤ offset ∧ s' = s ∧ t.file = d.file) ∨
        offset < s.nextOffset ∧ CutsAt s.baseOffset fs offset ∧
        (encode (upTo fs offset)).length ≤ kMaxFileBytes ∧
        s' = { s with
          sizeBytes := (encode (upTo fs offset)).length
          nextOffset := offset
          index := s.index.truncateFrom (encode (upTo fs offset)).length } ∧
        t.file = Function.update d.file s.logFile
          (some (x.truncate (encode (upTo fs offset)).length)))
      (fun e t => t.file = d.file ∧ offset < s.nextOffset ∧
        (Refuses .pread ∨ Refuses .truncate ∨ e = .invalidArgument ∧
          (¬ CutsAt s.baseOffset fs offset ∨
            kMaxFileBytes < (encode (upTo fs offset)).length))) := by
  unfold truncateTo
  refine Ends.ite (fun hge => .inl ⟨hge, rfl, rfl⟩) fun hlt => ?_
  rw [not_le] at hlt
  refine ((cutAt_ends h hf hlt).mono (fun _ _ ht => ht) ?_).bind ?_
  · rintro e t ⟨ht, hr | ⟨he, hnone⟩⟩
    · exact ⟨ht, hlt, .inl hr⟩
    · exact ⟨ht, hlt, .inr (.inr ⟨he, .inl hnone⟩)⟩
  rintro cut t ⟨ht, hcut, rfl⟩
  rw [← ht] at hf ⊢
  refine ((truncate_ends hf _).mono (fun _ _ hu => hu) ?_).bind ?_
  · rintro e u ⟨hu, hr | ⟨he, hbig⟩⟩
    · exact ⟨hu, hlt, .inr (.inl hr)⟩
    · exact ⟨hu, hlt, .inr (.inr ⟨he, .inr hbig⟩)⟩
  · exact fun _ u hu => .inr ⟨hlt, hcut, hu.1, rfl, hu.2⟩

end Operations

end Segment

end LogEngine.Storage
