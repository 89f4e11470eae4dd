import Mathlib.Data.List.TakeWhile
import LogEngine.Base.Bytes
import LogEngine.Verified.Bisection

/-!
# The sparse index of a segment

`src/storage/sparse_index.{h,cpp}`.  An index is its list of entries, and both of its
searches are bisections: `lookup` by offset, `truncate_from` by position.

An index is a sorted map: whatever bytes it was decoded from, and whatever was added to it
or cut off it since, its entries increase in both fields, so that the assertion of `add`
never fires and a bisection finds what a scan finds (`sorted_map`).
-/

namespace LogEngine.Storage

open Base Verified.Bisection

structure IndexEntry where
  relOffset : Nat := 0
  filePos : Nat := 0
  deriving DecidableEq, Repr

def kIndexEntryBytes : Nat := 8
def kDefaultIndexIntervalBytes : Nat := 4096

abbrev SparseIndex := List IndexEntry

namespace SparseIndex

/-- `add`; `none` where its assertion fires. -/
def add (index : SparseIndex) (relOffset filePos : Nat) : Option SparseIndex :=
  if index.getLast?.all fun last => last.relOffset < relOffset && last.filePos < filePos then
    some (index ++ [⟨relOffset, filePos⟩])
  else none

/-- `maybe_add`. -/
def maybeAdd (index : SparseIndex) (relOffset filePos intervalBytes : Nat) : SparseIndex :=
  match index.getLast? with
  | none => index ++ [⟨relOffset, filePos⟩]
  | some last =>
      if relOffset ≤ last.relOffset ∨ filePos ≤ last.filePos ∨
          filePos - last.filePos < intervalBytes then index
      else index ++ [⟨relOffset, filePos⟩]

/-- `maybe_add` with the assertion of the `add` that it ends in. -/
def maybeAddChecked (index : SparseIndex) (relOffset filePos intervalBytes : Nat) :
    Option SparseIndex :=
  match index.getLast? with
  | none => index.add relOffset filePos
  | some last =>
      if relOffset ≤ last.relOffset ∨ filePos ≤ last.filePos ∨
          filePos - last.filePos < intervalBytes then some index
      else index.add relOffset filePos

/-- `lookup`: the entry before the first one behind the offset. -/
def lookup (index : SparseIndex) (relOffset : Nat) : IndexEntry :=
  match partitionPoint (fun e => !decide (relOffset < e.relOffset)) index with
  | 0 => {}
  | it + 1 => index.getD it {}

/-- `truncate_from`. -/
def truncateFrom (index : SparseIndex) (filePos : Nat) : SparseIndex :=
  index.take (partitionPoint (fun e => decide (e.filePos < filePos)) index)

def encode (index : SparseIndex) : Bytes :=
  index.flatMap fun e => storeLe 4 e.relOffset ++ storeLe 4 e.filePos

/-- The loop of `decode`, over the entries still to be read. -/
def decodeFrom (bytes : Bytes) (logSize : Nat) : Nat → SparseIndex → SparseIndex
  | 0, index => index
  | count + 1, index =>
      let e : IndexEntry := ⟨loadLe (bytes.take 4), loadLe (subslice bytes 4 4)⟩
      if logSize ≤ e.filePos then index
      else if index.getLast?.any fun last =>
          e.relOffset ≤ last.relOffset || e.filePos ≤ last.filePos then index
      else decodeFrom (bytes.drop kIndexEntryBytes) logSize count (index ++ [e])

/-- `decode`: stops at the first entry that cannot be right. -/
def decode (bytes : Bytes) (logSize : Nat) : SparseIndex :=
  decodeFrom bytes logSize (bytes.length / kIndexEntryBytes) []

end SparseIndex

/-! ## Indexes that increase -/

/-- Below another entry in both fields. -/
def IndexEntry.Below (a b : IndexEntry) : Prop :=
  a.relOffset < b.relOffset ∧ a.filePos < b.filePos

theorem IndexEntry.Below.trans {a b c : IndexEntry} (h : a.Below b) (h' : b.Below c) :
    a.Below c :=
  ⟨h.1.trans h'.1, h.2.trans h'.2⟩

section Increasing

variable {index : SparseIndex} {e : IndexEntry}

/-- An entry above the last one is above all. -/
theorem pairwise_snoc (h : index.Pairwise IndexEntry.Below)
    (hlast : ∀ l ∈ index.getLast?, l.Below e) : (index ++ [e]).Pairwise IndexEntry.Below := by
  rcases List.eq_nil_or_concat' index with rfl | ⟨init, last, rfl⟩
  · exact List.pairwise_singleton _ _
  · have hle : last.Below e := hlast last (by simp)
    obtain ⟨hinit, -, hbelow⟩ := List.pairwise_append.1 h
    refine List.pairwise_append.2 ⟨h, List.pairwise_singleton _ _, fun a ha b hb => ?_⟩
    rw [List.mem_singleton.1 hb]
    rcases List.mem_append.1 ha with ha | ha
    · exact (hbelow a ha last (by simp)).trans hle
    · rw [List.mem_singleton.1 ha]
      exact hle

/-- `maybe_add` leaves the index or adds an entry above the last one. -/
theorem maybeAdd_cases (index : SparseIndex) (relOffset filePos interval : Nat) :
    index.maybeAdd relOffset filePos interval = index ∨
      index.maybeAdd relOffset filePos interval = index ++ [⟨relOffset, filePos⟩] ∧
        ∀ l ∈ index.getLast?, l.Below ⟨relOffset, filePos⟩ := by
  unfold SparseIndex.maybeAdd
  split
  case h_1 hnone => exact .inr ⟨rfl, by rw [hnone]; simp⟩
  case h_2 last hlast =>
    split
    · exact .inl rfl
    case isFalse hlt =>
      rw [not_or, not_or, not_le, not_le] at hlt
      refine .inr ⟨rfl, fun l hl => ?_⟩
      rw [hlast, Option.mem_some_iff] at hl
      exact hl ▸ ⟨hlt.1, hlt.2.1⟩

theorem maybeAdd_increasing (h : index.Pairwise IndexEntry.Below)
    (relOffset filePos interval : Nat) :
    (index.maybeAdd relOffset filePos interval).Pairwise IndexEntry.Below := by
  rcases maybeAdd_cases index relOffset filePos interval with heq | ⟨heq, hlast⟩
  · rw [heq]
    exact h
  · rw [heq]
    exact pairwise_snoc h hlast

/-- The assertion of `add` holds whenever `maybe_add` gets there. -/
theorem maybeAddChecked_eq (index : SparseIndex) (relOffset filePos interval : Nat) :
    index.maybeAddChecked relOffset filePos interval =
      some (index.maybeAdd relOffset filePos interval) := by
  unfold SparseIndex.maybeAddChecked SparseIndex.maybeAdd SparseIndex.add
  cases index.getLast? with
  | none => rfl
  | some last =>
      dsimp only
      split
      · rfl
      case isFalse hlt =>
        rw [not_or, not_or, not_le, not_le] at hlt
        rw [if_pos]
        simp only [Option.all_some, Bool.and_eq_true, decide_eq_true_eq]
        exact ⟨hlt.1, hlt.2.1⟩

/-! ## Searches -/

private theorem partitioned_filePos (h : index.Pairwise IndexEntry.Below) (filePos : Nat) :
    Partitioned (fun e : IndexEntry => decide (e.filePos < filePos)) index := by
  refine h.imp fun hbelow hb => ?_
  rw [decide_eq_true_eq] at hb ⊢
  exact hbelow.2.trans hb

private theorem partitioned_relOffset (h : index.Pairwise IndexEntry.Below) (relOffset : Nat) :
    Partitioned (fun e : IndexEntry => !decide (relOffset < e.relOffset)) index := by
  refine h.imp fun hbelow hb => ?_
  simp only [Bool.not_eq_true', decide_eq_false_iff_not, not_lt] at hb ⊢
  exact hbelow.1.le.trans hb

private theorem truncateFrom_eq (h : index.Pairwise IndexEntry.Below) (filePos : Nat) :
    index.truncateFrom filePos = index.takeWhile fun e => decide (e.filePos < filePos) :=
  take_partitionPoint (partitioned_filePos h filePos)

theorem truncateFrom_increasing (h : index.Pairwise IndexEntry.Below) (filePos : Nat) :
    (index.truncateFrom filePos).Pairwise IndexEntry.Below :=
  h.sublist (List.take_sublist _ _)

/-- What `truncate_from` leaves. -/
theorem mem_truncateFrom (h : index.Pairwise IndexEntry.Below) {filePos : Nat}
    (he : e ∈ index.truncateFrom filePos) : e ∈ index ∧ e.filePos < filePos := by
  rw [truncateFrom_eq h] at he
  refine ⟨(List.takeWhile_sublist _).mem he, ?_⟩
  simpa using List.mem_takeWhile_imp he

/-- `truncate_from` at the last entry drops just that. -/
theorem truncateFrom_last (h : (index ++ [e]).Pairwise IndexEntry.Below) :
    SparseIndex.truncateFrom (index ++ [e]) e.filePos = index := by
  have hbelow : ∀ a ∈ index, decide (a.filePos < e.filePos) = true := fun a ha =>
    decide_eq_true ((List.pairwise_append.1 h).2.2 a ha e (by simp)).2
  rw [truncateFrom_eq h, List.takeWhile_append_of_pos hbelow]
  simp

/-- Behind all entries it drops none. -/
theorem truncateFrom_of_below (h : index.Pairwise IndexEntry.Below) {n : Nat}
    (hn : ∀ e ∈ index, e.filePos < n) : index.truncateFrom n = index := by
  rw [truncateFrom_eq h]
  apply List.takeWhile_eq_self_iff.2
  intro e he
  exact decide_eq_true (hn e he)

private theorem lookup_eq (h : index.Pairwise IndexEntry.Below) (relOffset : Nat) :
    index.lookup relOffset =
      ((index.takeWhile fun e => !decide (relOffset < e.relOffset)).getLast?).getD {} := by
  have hpart := partitioned_relOffset h relOffset
  unfold SparseIndex.lookup
  split
  case h_1 hzero =>
    rw [partitionPoint_eq hpart] at hzero
    rw [List.eq_nil_of_length_eq_zero hzero]
    rfl
  case h_2 it hit => rw [getLast?_takeWhile hpart hit, List.getD_eq_getElem?_getD]

/-- What a lookup finds: the entry `{0, 0}`, or one that is not behind the offset. -/
theorem lookup_cases (h : index.Pairwise IndexEntry.Below) (relOffset : Nat) :
    index.lookup relOffset = {} ∨
      index.lookup relOffset ∈ index ∧ (index.lookup relOffset).relOffset ≤ relOffset := by
  rw [lookup_eq h]
  cases hlast : (index.takeWhile fun e => !decide (relOffset < e.relOffset)).getLast? with
  | none => exact .inl rfl
  | some e =>
      have hmem := List.mem_of_getLast? hlast
      refine .inr ⟨(List.takeWhile_sublist _).mem hmem, ?_⟩
      simpa using List.mem_takeWhile_imp hmem

/-- A scan for the last entry that is not behind the offset. -/
def SparseIndex.scan (index : SparseIndex) (relOffset : Nat) : IndexEntry :=
  index.foldl (fun found e => if e.relOffset ≤ relOffset then e else found) {}

/-- From an entry behind the offset on, a scan finds nothing more. -/
theorem foldl_behind {relOffset : Nat} (h : ∀ e ∈ index, relOffset < e.relOffset)
    (found : IndexEntry) :
    index.foldl (fun found e => if e.relOffset ≤ relOffset then e else found) found = found := by
  induction index with
  | nil => rfl
  | cons e index ih =>
      obtain ⟨he, hrest⟩ := List.forall_mem_cons.1 h
      rw [List.foldl_cons, if_neg (Nat.not_le.2 he)]
      exact ih hrest

private theorem lookup_eq_scan (h : index.Pairwise IndexEntry.Below) (relOffset : Nat) :
    index.lookup relOffset = index.scan relOffset := by
  have key : ∀ (index : SparseIndex) (found : IndexEntry), index.Pairwise IndexEntry.Below →
      ((index.takeWhile fun e => !decide (relOffset < e.relOffset)).getLast?).getD found =
        index.foldl (fun found e => if e.relOffset ≤ relOffset then e else found) found := by
    intro index
    induction index with
    | nil => exact fun _ _ => rfl
    | cons e index ih =>
        intro found h
        obtain ⟨hall, hrest⟩ := List.pairwise_cons.1 h
        rw [List.takeWhile_cons, List.foldl_cons]
        by_cases hle : e.relOffset ≤ relOffset
        · rw [if_pos (by simpa using hle), if_pos hle, ← ih e hrest, List.getLast?_cons,
            Option.getD_some]
        · rw [if_neg (by simpa using hle), if_neg hle]
          refine (foldl_behind (fun a ha => ?_) found).symm
          exact (Nat.not_le.1 hle).trans (hall a ha).1
  rw [lookup_eq h]
  exact key index {} h

end Increasing

/-! ## Sidecars -/

/-- The checks of `decode`: strictly increasing, and inside the file. -/
structure Decoded (index : SparseIndex) (fileSize : Nat) : Prop where
  increasing : index.Pairwise IndexEntry.Below
  inside : ∀ e ∈ index, e.filePos < fileSize

theorem decoded_nil (fileSize : Nat) : Decoded [] fileSize := ⟨.nil, by simp⟩

theorem Decoded.of_isPrefix {index p : SparseIndex} {fileSize : Nat} (h : Decoded index fileSize)
    (hp : p <+: index) : Decoded p fileSize :=
  ⟨h.increasing.sublist hp.sublist, fun a ha => h.inside a (hp.subset ha)⟩

theorem Decoded.init {index : SparseIndex} {e : IndexEntry} {fileSize : Nat}
    (h : Decoded (index ++ [e]) fileSize) : Decoded index fileSize :=
  h.of_isPrefix (List.prefix_append _ _)

/-- Every entry is checked against the one before it. -/
theorem decoded_snoc {index : SparseIndex} {e : IndexEntry} {fileSize : Nat} :
    Decoded (index ++ [e]) fileSize ↔
      Decoded index fileSize ∧ e.filePos < fileSize ∧ ∀ l ∈ index.getLast?, l.Below e := by
  constructor
  · intro h
    refine ⟨h.init, h.inside e (by simp), fun l hl => ?_⟩
    exact (List.pairwise_append.1 h.increasing).2.2 l (List.mem_of_getLast? hl) e (by simp)
  · rintro ⟨h, hinside, hlast⟩
    refine ⟨pairwise_snoc h.increasing hlast, fun a ha => ?_⟩
    rcases List.mem_append.1 ha with ha | ha
    · exact h.inside a ha
    · rw [List.mem_singleton.1 ha]
      exact hinside

/-- The first `count` entries of a file, whatever they are. -/
def entriesOf (bytes : Bytes) (count : Nat) : List IndexEntry :=
  (List.range count).map fun i =>
    ⟨field bytes (kIndexEntryBytes * i) 4, field bytes (kIndexEntryBytes * i + 4) 4⟩

/-- The whole entries of a file. -/
def wholeEntries (bytes : Bytes) : List IndexEntry :=
  entriesOf bytes (bytes.length / kIndexEntryBytes)

private theorem entriesOf_succ (bytes : Bytes) (count : Nat) :
    entriesOf bytes (count + 1) = ⟨loadLe (bytes.take 4), loadLe (subslice bytes 4 4)⟩ ::
      entriesOf (bytes.drop kIndexEntryBytes) count := by
  unfold entriesOf
  rw [List.range_succ_eq_map, List.map_cons, List.map_map]
  refine congrArg (List.cons _) (List.map_congr_left fun i _ => ?_)
  have hshift : kIndexEntryBytes * (i + 1) = kIndexEntryBytes + kIndexEntryBytes * i := by
    rw [Nat.mul_succ, Nat.add_comm]
  show IndexEntry.mk (field bytes (kIndexEntryBytes * (i + 1)) 4)
    (field bytes (kIndexEntryBytes * (i + 1) + 4) 4) = _
  unfold field subslice
  rw [List.drop_drop, List.drop_drop, hshift, Nat.add_assoc]

/-- A round of the loop of `decode` goes on just where the entries still pass the checks. -/
theorem decodeFrom_succ {logSize : Nat} (count : Nat) (bytes : Bytes) {index : SparseIndex}
    (h : Decoded index logSize) {e : IndexEntry}
    (he : e = ⟨loadLe (bytes.take 4), loadLe (subslice bytes 4 4)⟩) :
    (Decoded (index ++ [e]) logSize ∧ SparseIndex.decodeFrom bytes logSize (count + 1) index =
        SparseIndex.decodeFrom (bytes.drop kIndexEntryBytes) logSize count (index ++ [e])) ∨
      (¬ Decoded (index ++ [e]) logSize ∧
        SparseIndex.decodeFrom bytes logSize (count + 1) index = index) := by
  rw [SparseIndex.decodeFrom, ← he]
  split
  case isTrue houtside =>
    refine .inr ⟨fun hgood => ?_, rfl⟩
    exact absurd (decoded_snoc.1 hgood).2.1 (Nat.not_lt.2 houtside)
  case isFalse hinside =>
  split
  case isTrue hlast =>
    refine .inr ⟨fun hgood => ?_, rfl⟩
    obtain ⟨l, hl, hle⟩ := (Option.any_eq_true _ _).1 hlast
    obtain ⟨hrel, hpos⟩ := (decoded_snoc.1 hgood).2.2 l hl
    simp only [Bool.or_eq_true, decide_eq_true_eq] at hle
    omega
  case isFalse hlast =>
    refine .inl ⟨decoded_snoc.2 ⟨h, Nat.not_le.1 hinside, fun l hl => ?_⟩, rfl⟩
    rw [Option.mem_def.1 hl] at hlast
    simp only [Option.any_some, Bool.or_eq_true, decide_eq_true_eq, not_or, not_le] at hlast
    exact hlast

/-- The loop of `decode` goes as far as the entries pass the checks. -/
theorem decodeFrom_longest {logSize : Nat} (count : Nat) (bytes : Bytes) {index : SparseIndex}
    (h : Decoded index logSize) :
    ∃ p, SparseIndex.decodeFrom bytes logSize count index = index ++ p ∧
      p <+: entriesOf bytes count ∧ Decoded (index ++ p) logSize ∧
      ∀ q, q <+: entriesOf bytes count → Decoded (index ++ q) logSize → q <+: p := by
  have hhere : Decoded (index ++ []) logSize := by
    rw [List.append_nil]
    exact h
  induction count generalizing bytes index with
  | zero => exact ⟨[], (List.append_nil _).symm, List.nil_prefix, hhere, fun q hq _ => hq⟩
  | succ count ih =>
      rw [entriesOf_succ]
      have hround := decodeFrom_succ count bytes h rfl
      generalize (⟨loadLe (bytes.take 4), loadLe (subslice bytes 4 4)⟩ : IndexEntry) = e at hround ⊢
      rcases hround with ⟨hgood, heq⟩ | ⟨hbad, heq⟩
      · obtain ⟨p, hp, hpre, hall, hlongest⟩ := ih (bytes.drop kIndexEntryBytes) hgood
          (by rw [List.append_nil]; exact hgood)
        rw [← List.append_cons] at hp hall
        refine ⟨e :: p, heq.trans hp, List.cons_prefix_cons.2 ⟨rfl, hpre⟩, hall, fun q hq hq' => ?_⟩
        cases q with
        | nil => exact List.nil_prefix
        | cons a q =>
            obtain ⟨rfl, hrest⟩ := List.cons_prefix_cons.1 hq
            rw [List.append_cons] at hq'
            exact List.cons_prefix_cons.2 ⟨rfl, hlongest q hrest hq'⟩
      · -- if this entry is wrong, no longer prefix passes
        refine ⟨[], by rw [heq, List.append_nil], List.nil_prefix, hhere, fun q hq hq' => ?_⟩
        cases q with
        | nil => exact List.nil_prefix
        | cons a q =>
            obtain ⟨rfl, -⟩ := List.cons_prefix_cons.1 hq
            rw [List.append_cons] at hq'
            exact absurd (hq'.of_isPrefix (List.prefix_append _ _)) hbad

section Decode

variable (bytes : Bytes) (logSize : Nat)

theorem decode_isPrefix : SparseIndex.decode bytes logSize <+: wholeEntries bytes := by
  obtain ⟨p, hp, hpre, -⟩ := decodeFrom_longest (bytes.length / kIndexEntryBytes) bytes
    (decoded_nil logSize)
  rw [SparseIndex.decode, hp]
  exact hpre

theorem decoded_decode : Decoded (SparseIndex.decode bytes logSize) logSize := by
  obtain ⟨p, hp, -, hgood, -⟩ := decodeFrom_longest (bytes.length / kIndexEntryBytes) bytes
    (decoded_nil logSize)
  rw [SparseIndex.decode, hp]
  exact hgood

/-- No longer beginning of the file passes the checks. -/
theorem decode_longest {index : SparseIndex} (hindex : index <+: wholeEntries bytes)
    (h : Decoded index logSize) : index <+: SparseIndex.decode bytes logSize := by
  obtain ⟨p, hp, -, -, hlongest⟩ := decodeFrom_longest (bytes.length / kIndexEntryBytes) bytes
    (decoded_nil logSize)
  rw [SparseIndex.decode, hp]
  exact hlongest index hindex h

end Decode

/-- With a smaller file in view, decoding stops no later. -/
theorem decode_mono {n m : Nat} (h : n ≤ m) (bytes : Bytes) :
    SparseIndex.decode bytes n <+: SparseIndex.decode bytes m := by
  have hgood := decoded_decode bytes n
  exact decode_longest bytes m (decode_isPrefix bytes n)
    ⟨hgood.increasing, fun e he => (hgood.inside e he).trans_le h⟩

/-- The fields of the entries are 32 bits wide. -/
def FitsWords (index : SparseIndex) : Prop :=
  ∀ e ∈ index, e.relOffset < 0x100000000 ∧ e.filePos < 0x100000000

private theorem fitsWords_entriesOf (bytes : Bytes) (count : Nat) :
    FitsWords (entriesOf bytes count) := by
  have hfield : ∀ i, field bytes i 4 < 0x100000000 := by
    intro i
    refine (loadLe_lt (subslice bytes i 4)).trans_le ?_
    have hle : (subslice bytes i 4).length ≤ 4 := by
      rw [subslice_length]
      exact Nat.min_le_left _ _
    exact (Nat.pow_le_pow_right (by decide) hle).trans (by decide)
  intro e he
  obtain ⟨i, -, rfl⟩ := List.mem_map.1 he
  exact ⟨hfield _, hfield _⟩

theorem encode_index_length (index : SparseIndex) :
    index.encode.length = kIndexEntryBytes * index.length := by
  induction index with
  | nil => rfl
  | cons e index ih =>
      show (storeLe 4 e.relOffset ++ storeLe 4 e.filePos ++ SparseIndex.encode index).length = _
      simp only [List.length_append, storeLe_length, ih, List.length_cons, kIndexEntryBytes]
      omega

/-- The entries of a sidecar that was written are those of the index. -/
theorem entriesOf_encode {index : SparseIndex} (h : FitsWords index) :
    entriesOf index.encode index.length = index := by
  induction index with
  | nil => rfl
  | cons e index ih =>
      obtain ⟨⟨hrel, hpos⟩, hrest⟩ := List.forall_mem_cons.1 h
      have hcons : SparseIndex.encode (e :: index) =
          storeLe 4 e.relOffset ++ (storeLe 4 e.filePos ++ SparseIndex.encode index) := by
        rw [← List.append_assoc]
        exact List.flatMap_cons
      have hdrop : (SparseIndex.encode (e :: index)).drop kIndexEntryBytes =
          SparseIndex.encode index := by
        rw [hcons, ← List.append_assoc]
        apply List.drop_left'
        rw [List.length_append, storeLe_length, storeLe_length]
        rfl
      rw [List.length_cons, entriesOf_succ, hdrop, ih hrest, hcons, subslice,
        List.take_left' (storeLe_length _ _), List.drop_left' (storeLe_length _ _),
        List.take_left' (storeLe_length _ _), loadLe_storeLe_of_lt hrel, loadLe_storeLe_of_lt hpos]

theorem wholeEntries_encode {index : SparseIndex} (h : FitsWords index) :
    wholeEntries index.encode = index := by
  have hcount : index.encode.length / kIndexEntryBytes = index.length := by
    rw [encode_index_length]
    exact Nat.mul_div_cancel_left _ (by decide)
  rw [wholeEntries, hcount, entriesOf_encode h]

theorem decode_encode_isPrefix {index : SparseIndex} (h : FitsWords index) (logSize : Nat) :
    SparseIndex.decode index.encode logSize <+: index := by
  have hpre := decode_isPrefix index.encode logSize
  rw [wholeEntries_encode h] at hpre
  exact hpre

/-- What was written is read back. -/
theorem decode_encode {index : SparseIndex} (h : FitsWords index) {logSize : Nat}
    (hgood : Decoded index logSize) : SparseIndex.decode index.encode logSize = index := by
  have hpre := decode_encode_isPrefix h logSize
  have hlongest := decode_longest index.encode logSize
    ((wholeEntries_encode h).symm ▸ List.prefix_rfl) hgood
  exact hpre.eq_of_length_le hlongest.length_le

/-! ## Runs -/

/-- A call that changes an index, with arguments of 32 bits. -/
inductive IndexCall
  | maybeAdd (relOffset filePos intervalBytes : UInt32)
  | truncateFrom (filePos : UInt32)

/-- The index after the call; `none` where an assertion fires. -/
def IndexCall.run (index : SparseIndex) : IndexCall → Option SparseIndex
  | .maybeAdd relOffset filePos intervalBytes =>
      index.maybeAddChecked relOffset.toNat filePos.toNat intervalBytes.toNat
  | .truncateFrom filePos => some (index.truncateFrom filePos.toNat)

/-- What every call keeps. -/
theorem IndexCall.run_keeps {index : SparseIndex} (h : index.Pairwise IndexEntry.Below)
    (hfits : FitsWords index) (call : IndexCall) :
    ∃ after, call.run index = some after ∧ after.Pairwise IndexEntry.Below ∧ FitsWords after := by
  cases call with
  | maybeAdd relOffset filePos intervalBytes =>
      refine ⟨_, maybeAddChecked_eq _ _ _ _, maybeAdd_increasing h _ _ _, fun e he => ?_⟩
      rcases maybeAdd_cases index relOffset.toNat filePos.toNat intervalBytes.toNat with
        heq | ⟨heq, -⟩
      · exact hfits e (heq ▸ he)
      · rw [heq] at he
        rcases List.mem_append.1 he with he | he
        · exact hfits e he
        · rw [List.mem_singleton.1 he]
          exact ⟨relOffset.toNat_lt, filePos.toNat_lt⟩
  | truncateFrom filePos =>
      exact ⟨_, rfl, truncateFrom_increasing h _, fun e he => hfits e (List.mem_of_mem_take he)⟩

theorem IndexCall.runs_keep {index : SparseIndex} (h : index.Pairwise IndexEntry.Below)
    (hfits : FitsWords index) (calls : List IndexCall) :
    ∃ after, calls.foldlM IndexCall.run index = some after ∧
      after.Pairwise IndexEntry.Below ∧ FitsWords after := by
  induction calls generalizing index with
  | nil => exact ⟨index, rfl, h, hfits⟩
  | cons call calls ih =>
      obtain ⟨middle, hmiddle, hincreasing, hfits'⟩ := call.run_keeps h hfits
      obtain ⟨after, hafter, hgood⟩ := ih hincreasing hfits'
      refine ⟨after, ?_, hgood⟩
      rw [List.foldlM_cons, hmiddle]
      exact hafter

/-- `decode` reads the longest beginning of a file that can be an index.  From there on, any
calls leave a map that increases in both fields: no assertion fires, a lookup finds what a scan
finds, and the index is read back as it was written. -/
theorem SparseIndex.sorted_map (bytes : Bytes) (logSize : Nat) :
    (SparseIndex.decode bytes logSize <+: wholeEntries bytes ∧
      Decoded (SparseIndex.decode bytes logSize) logSize ∧
      ∀ index, index <+: wholeEntries bytes → Decoded index logSize →
        index <+: SparseIndex.decode bytes logSize) ∧
    ∀ calls : List IndexCall, ∃ index,
      calls.foldlM IndexCall.run (SparseIndex.decode bytes logSize) = some index ∧
      index.Pairwise IndexEntry.Below ∧
      (∀ relOffset, index.lookup relOffset = index.scan relOffset) ∧
      ∀ n, (∀ e ∈ index.getLast?, e.filePos < n) → SparseIndex.decode index.encode n = index := by
  have hgood := decoded_decode bytes logSize
  refine ⟨⟨decode_isPrefix _ _, hgood, fun index => decode_longest _ _⟩, fun calls => ?_⟩
  have hfits : FitsWords (SparseIndex.decode bytes logSize) := fun e he =>
    fitsWords_entriesOf _ _ e ((decode_isPrefix bytes logSize).subset he)
  obtain ⟨index, hrun, hincreasing, hfits'⟩ := IndexCall.runs_keep hgood.increasing hfits calls
  refine ⟨index, hrun, hincreasing, lookup_eq_scan hincreasing, fun n hn => ?_⟩
  apply decode_encode hfits'
  refine ⟨hincreasing, fun e he => ?_⟩
  -- the last entry has the greatest position
  rcases List.eq_nil_or_concat' index with rfl | ⟨init, last, rfl⟩
  · cases he
  · have hlast : last.filePos < n := hn last (by simp)
    rcases List.mem_append.1 he with he | he
    · exact ((List.pairwise_append.1 hincreasing).2.2 e he last (by simp)).2.trans hlast
    · rw [List.mem_singleton.1 he]
      exact hlast

end LogEngine.Storage
