import LogEngine.Storage.Contents

/-!
# Walks over the headers of a segment

`Segment::read`, `Segment::scan_headers` and `Segment::truncate_to` walk from header to header:
each reads the header at a position of 32 bits and goes on behind the batch, as long as the
position is below `size_bytes`.  `walk` is the loop they share, with what it does to the
position on record and with a number of rounds after which it counts as unfinished.

The length that a header on the disk claims is bounded by the largest batch only, not by what
is left of the segment.  For a segment that ends a batch of that size below 2^32, the position
goes up in every round whatever the file says, and the walks come to an end after
`size_bytes / 52 + 1` rounds.  For a larger one there are files on which the position wraps
around, and a walk never ends (`walks_halt_iff`, `walks_loop`).
-/

namespace LogEngine.Storage

open Base Io Io.Disk Verified.Fallible Verified.Tiling

/-- What is made of a header: the walk stops, or goes on. -/
inductive Visit (σ β : Type)
  | stop (result : Except ErrorCode β)
  | go (seen : σ)

/-- How a walk has come out. -/
inductive Ending (σ β : Type)
  | stopped (result : Except ErrorCode β)
  | ended (pos : Nat) (seen : σ)
  | failed (e : ErrorCode)
  | unfinished (pos : Nat) (seen : σ)

/-- A header that a walk went on from. -/
structure Stride where
  pos : Nat
  total : Nat
  deriving DecidableEq, Repr

instance : Extent Stride where
  base := Stride.pos
  stop r := r.pos + r.total

structure Walk (σ β : Type) where
  strides : List Stride
  ending : Ending σ β

/-- The walk is over; if no header has stopped it, then at this position. -/
def Ending.OverAt {σ β : Type} (pos : Nat) : Ending σ β → Prop
  | .stopped _ => True
  | .ended last _ => last = pos
  | .failed _ => True
  | .unfinished _ _ => False

/-- The walk goes up from header to header, by just what the headers say, and is over. -/
structure Walk.Sound {σ β : Type} (w : Walk σ β) (start size : Nat) : Prop where
  tiles : Tiles start w.strides
  inside : ∀ r ∈ w.strides, r.pos < size
  closes : w.ending.OverAt (endFrom start w.strides)

namespace Walk.Sound

variable {σ β : Type} {size pos : Nat}

private theorem nil {ending : Ending σ β} (h : ending.OverAt pos) :
    (⟨[], ending⟩ : Walk σ β).Sound pos size where
  tiles := trivial
  inside _ hr := absurd hr List.not_mem_nil
  closes := h

private theorem cons {w : Walk σ β} {total : Nat} (hpos : pos < size) (htotal : 0 < total)
    (h : w.Sound (pos + total) size) :
    (⟨⟨pos, total⟩ :: w.strides, w.ending⟩ : Walk σ β).Sound pos size where
  tiles := ⟨rfl, Nat.lt_add_of_pos_right htotal, h.tiles⟩
  inside := List.forall_mem_cons.2 ⟨hpos, h.inside⟩
  closes := h.closes

end Walk.Sound

namespace Segment

variable {σ β : Type}

section Walks

variable [Faults]

/-- The loop from a position on, for some rounds at most. -/
def walk (s : Segment) (visit : σ → Nat → BatchHeader → Visit σ β) :
    Nat → Nat → σ → DiskM (Walk σ β)
  | 0, pos, seen =>
      if s.sizeBytes ≤ pos then return ⟨[], .ended pos seen⟩
      else return ⟨[], .unfinished pos seen⟩
  | rounds + 1, pos, seen =>
      if s.sizeBytes ≤ pos then return ⟨[], .ended pos seen⟩
      else do
        match ← attempt (s.readHeader pos) with
        | .error e => return ⟨[], .failed e⟩
        | .ok h =>
            match visit seen pos h with
            | .stop result => return ⟨[], .stopped result⟩
            | .go seen => do
                let w ← s.walk visit rounds (advance pos h.totalBytes) seen
                return ⟨⟨pos, h.totalBytes⟩ :: w.strides, w.ending⟩

/-- What the function makes of the walk; `rest` is for one that no header has stopped. -/
def conclude (rest : σ → Except ErrorCode β) (w : Walk σ β) : DiskM β :=
  match w.ending with
  | .stopped result => MonadExcept.ofExcept result
  | .ended _ seen => MonadExcept.ofExcept (rest seen)
  | .failed e => throw e
  | .unfinished _ seen => MonadExcept.ofExcept (rest seen)

/-- `read` looks for the batch that holds an offset. -/
def seek (o : Offsets) (want : Nat) (_ : Unit) (pos : Nat) (h : BatchHeader) :
    Visit Unit (Option (Nat × Nat)) :=
  if want < o.next h then .stop (.ok (some (pos, h.totalBytes))) else .go ()

/-- `scan_headers` shows every header to a visitor, which may have had enough. -/
def present (visit : σ → BatchHeader → σ × Bool) (seen : σ) (_ : Nat) (h : BatchHeader) :
    Visit σ σ :=
  match visit seen h with
  | (seen, true) => .go seen
  | (seen, false) => .stop (.ok seen)

/-- `truncate_to` looks for the batch that begins at an offset. -/
def seekCut (offset : Nat) (_ : Unit) (pos : Nat) (h : BatchHeader) : Visit Unit Nat :=
  if h.baseOffset = offset then .stop (.ok pos)
  else if offset < h.baseOffset then .stop (.error .invalidArgument)
  else .go ()

section Loops

variable (s : Segment) (rest : σ → Except ErrorCode β) (visit : σ → Nat → BatchHeader → Visit σ β)

private theorem walk_zero (pos : Nat) (seen : σ) :
    s.walk visit 0 pos seen >>= conclude rest = MonadExcept.ofExcept (rest seen) := by
  unfold walk
  split <;> rfl

private theorem walk_succ (rounds pos : Nat) (seen : σ) :
    s.walk visit (rounds + 1) pos seen >>= conclude rest =
      (if s.sizeBytes ≤ pos then MonadExcept.ofExcept (rest seen)
      else s.readHeader pos >>= fun h =>
        match visit seen pos h with
        | .stop result => MonadExcept.ofExcept result
        | .go seen => s.walk visit rounds (advance pos h.totalBytes) seen >>= conclude rest) := by
  funext d
  rw [walk]
  split
  · rfl
  · cases hread : s.readHeader pos d with
    | error e t =>
        rw [bind_of_error hread]
        rw [bind_assoc, bind_of_ok (attempt_of_error hread)]
        rfl
    | ok h t =>
        rw [bind_of_ok hread, bind_assoc, bind_of_ok (attempt_of_ok hread)]
        dsimp only
        cases visit seen pos h with
        | stop result => rfl
        | go seen' =>
            dsimp only
            rw [bind_assoc]
            rfl

end Loops

/-- The loop of `read` is such a walk. -/
theorem findBatch_eq (s : Segment) (want rounds pos : Nat) :
    s.findBatch want rounds pos =
      s.walk (seek .unbounded want) rounds pos () >>= conclude fun _ => .ok none := by
  induction rounds generalizing pos with
  | zero =>
      rw [walk_zero]
      rfl
  | succ rounds ih =>
      rw [walk_succ, findBatch]
      refine ite_congr rfl (fun _ => rfl) fun _ => bind_congr fun h => ?_
      by_cases hlt : want < h.nextOffset
      · have hvisit : seek .unbounded want () pos h = .stop (.ok (some (pos, h.totalBytes))) :=
          if_pos hlt
        rw [if_pos hlt, hvisit]
        rfl
      · have hvisit : seek .unbounded want () pos h = .go () := if_neg hlt
        rw [if_neg hlt, hvisit]
        exact ih _

/-- So is the loop of `truncate_to`. -/
theorem findCut_eq (s : Segment) (offset rounds pos : Nat) :
    s.findCut offset rounds pos =
      s.walk (seekCut offset) rounds pos () >>= conclude fun _ => .error .invalidArgument := by
  induction rounds generalizing pos with
  | zero =>
      rw [walk_zero]
      rfl
  | succ rounds ih =>
      rw [walk_succ, findCut]
      refine ite_congr rfl (fun _ => rfl) fun _ => bind_congr fun h => ?_
      by_cases heq : h.baseOffset = offset
      · have hvisit : seekCut offset () pos h = .stop (.ok pos) := if_pos heq
        rw [if_pos heq, hvisit]
        rfl
      · by_cases hlt : offset < h.baseOffset
        · have hvisit : seekCut offset () pos h = .stop (.error .invalidArgument) := by
            rw [seekCut, if_neg heq, if_pos hlt]
          rw [if_neg heq, if_pos hlt, hvisit]
          rfl
        · have hvisit : seekCut offset () pos h = .go () := by
            rw [seekCut, if_neg heq, if_neg hlt]
          rw [if_neg heq, if_neg hlt, hvisit]
          exact ih _

/-- And that of `scan_headers`, with a visitor that collects all headers. -/
theorem scanHeadersFrom_eq (s : Segment) (rounds pos : Nat) (seen : List BatchHeader) :
    (do return seen ++ (← s.scanHeadersFrom rounds pos)) =
      s.walk (present fun seen h => (seen ++ [h], true)) rounds pos seen >>= conclude .ok := by
  induction rounds generalizing pos seen with
  | zero =>
      rw [walk_zero, scanHeadersFrom, pure_bind, List.append_nil]
      rfl
  | succ rounds ih =>
      rw [walk_succ, scanHeadersFrom]
      split
      · rw [pure_bind, List.append_nil]
        rfl
      · rw [bind_assoc]
        refine bind_congr fun h => ?_
        rw [bind_assoc]
        show _ = s.walk _ rounds (advance pos h.totalBytes) (seen ++ [h]) >>= _
        rw [← ih]
        refine bind_congr fun rest => ?_
        rw [List.append_assoc]
        rfl

/-! ## Walks that come to an end -/

/-- A header has between 52 bytes and those of the largest batch. -/
theorem readHeader_bounds (s : Segment) (pos : Nat) (d : Disk) :
    Sat (s.readHeader pos d)
      (fun h _ => kBatchHeaderBytes ≤ h.totalBytes ∧ h.totalBytes ≤ kMaxBatchBytes)
      fun _ => True := by
  unfold readHeader
  refine Sat.bind_eq (fun _ _ _ => trivial) fun bytes t _ => Sat.ite (fun _ => trivial) fun _ => ?_
  cases hdecode : decodeHeader bytes with
  | error e => exact trivial
  | ok h =>
      obtain ⟨-, -, -, hmin, hmax⟩ := decodeHeader_eq_ok.1 hdecode
      exact ⟨hmin, hmax⟩

/-- Whatever the file says and whatever is looked for, a walk goes up and comes to an end: every
round takes it 52 bytes further at least. -/
theorem walk_sound {s : Segment} (hsize : s.sizeBytes + kMaxBatchBytes ≤ 0x100000000)
    (visit : σ → Nat → BatchHeader → Visit σ β) {rounds pos : Nat}
    (hrounds : s.sizeBytes ≤ pos + kBatchHeaderBytes * rounds) (seen : σ) (d : Disk) :
    Sat (s.walk visit rounds pos seen d) (fun w _ => w.Sound pos s.sizeBytes) fun _ => False := by
  induction rounds generalizing pos seen d with
  | zero =>
      unfold walk
      rw [if_pos (by omega)]
      exact Walk.Sound.nil rfl
  | succ rounds ih =>
      unfold walk
      refine Sat.ite (fun _ => Walk.Sound.nil rfl) fun hinside => ?_
      refine (Sat.attempt_eq _ d).bind fun got t hgot => ?_
      cases got with
      | error e => exact Walk.Sound.nil trivial
      | ok h =>
          have hbounds := readHeader_bounds s pos d
          rw [hgot] at hbounds
          obtain ⟨hmin, hmax⟩ := hbounds
          dsimp only
          cases visit seen pos h with
          | stop result => exact Walk.Sound.nil trivial
          | go seen =>
              have hpos : 0 < kBatchHeaderBytes := by decide
              rw [advance_eq (by omega)]
              refine (ih (by rw [Nat.mul_succ] at hrounds; omega) seen t).bind fun w u hw => ?_
              exact hw.cons (by omega) (by omega)

/-! ## The three walks -/

/-- The walk of `read` for an offset. -/
def readWalk (s : Segment) (o : Offsets) (offset rounds : Nat) :
    DiskM (Walk Unit (Option (Nat × Nat))) :=
  let want := max offset s.baseOffset
  s.walk (seek o want) rounds (s.index.lookup (relative want s.baseOffset)).filePos ()

/-- The walk of `scan_headers` for a visitor. -/
def scanWalk (s : Segment) (visit : σ → BatchHeader → σ × Bool) (seen : σ) (rounds : Nat) :
    DiskM (Walk σ σ) :=
  s.walk (present visit) rounds 0 seen

/-- The walk of `truncate_to` for an offset above the first. -/
def cutWalk (s : Segment) (offset rounds : Nat) : DiskM (Walk Unit Nat) :=
  s.walk (seekCut offset) rounds (s.index.lookup (relative offset s.baseOffset)).filePos ()

/-- From the position on, the loop goes up to its end, in no more rounds than the segment has
room for headers and one more. -/
def Halts (s : Segment) (start : Nat) (loop : Nat → DiskM (Walk σ β)) (d : Disk) : Prop :=
  Sat (loop (s.sizeBytes / kBatchHeaderBytes + 1) d) (fun w _ => w.Sound start s.sizeBytes)
    fun _ => False

private theorem walk_halts {s : Segment} (hsize : s.sizeBytes + kMaxBatchBytes ≤ 0x100000000)
    (visit : σ → Nat → BatchHeader → Visit σ β) (start : Nat) (seen : σ) (d : Disk) :
    s.Halts start (fun rounds => s.walk visit rounds start seen) d := by
  refine walk_sound hsize visit ?_ seen d
  have hrounds := Nat.lt_mul_div_succ s.sizeBytes (show 0 < kBatchHeaderBytes by decide)
  omega

/-- The loop is not over after any number of rounds. -/
def Loops (loop : Nat → DiskM (Walk σ β)) (d : Disk) : Prop :=
  ∀ rounds, Sat (loop rounds d) (fun w _ => ∃ pos seen, w.ending = .unfinished pos seen)
    fun _ => False

omit [Faults] in
theorem Halts.not_loops {s : Segment} {start : Nat} {loop : Nat → DiskM (Walk σ β)} {d : Disk}
    (h : s.Halts start loop d) : ¬ Loops loop d := by
  intro hloops
  obtain ⟨w, t, hw, hsound⟩ := h.exists_ok fun _ h => h
  have hending := hloops (s.sizeBytes / kBatchHeaderBytes + 1)
  rw [hw] at hending
  obtain ⟨pos, seen, hending⟩ := hending
  have hover := hsound.closes
  rw [hending] at hover
  exact hover

end Walks

/-! ## A file on which walks never end -/

/-- A header that claims the largest batch. -/
def giant : BatchHeader := { batchLength := kMaxBatchBytes - kBatchLengthPrefixBytes }

/-- Such a header every 8 MiB, and zeros. -/
def giants (size : Nat) : Bytes :=
  (List.range size).map fun i => (encodeHeader giant).getD (i % kMaxBatchBytes) 0

private theorem subslice_giants {size k : Nat}
    (hsize : k * kMaxBatchBytes + kBatchHeaderBytes ≤ size) :
    subslice (giants size) (k * kMaxBatchBytes) kBatchHeaderBytes = encodeHeader giant := by
  have hlength := encodeHeader_length giant
  have hheader : kBatchHeaderBytes < kMaxBatchBytes := by decide
  refine List.ext_getElem ?_ fun i hi hi' => ?_
  · rw [subslice_length, giants, List.length_map, List.length_range, hlength]
    omega
  · have hmod : (k * kMaxBatchBytes + i) % kMaxBatchBytes = i := by
      rw [Nat.mul_add_mod', Nat.mod_eq_of_lt (by omega)]
    simp only [subslice, giants, List.getElem_take, List.getElem_drop, List.getElem_map,
      List.getElem_range]
    rw [hmod, List.getD, List.getElem?_eq_getElem hi', Option.getD_some]

private theorem decodeHeader_giant : decodeHeader (encodeHeader giant) = .ok giant := by
  decide +kernel

section Unending

variable {s : Segment} {size : Nat} {d : Disk}

/-- On a healthy disk, a walk finds the header at every multiple of 8 MiB. -/
theorem readHeader_giants {x : File} (hx : x.visible = giants size)
    (hd : d.file s.logFile = some x) {k : Nat}
    (hsize : k * kMaxBatchBytes + kBatchHeaderBytes ≤ size) :
    Sat (@readHeader healthy s (k * kMaxBatchBytes) d)
      (fun h t => h = giant ∧ t.file s.logFile = some x) fun _ => False := by
  let _ := healthy
  unfold readHeader
  refine ((pread_sat hd _ _).mono (fun _ _ h => h) fun _ h => not_refuses_healthy _ h.2).bind
    fun bytes t ht => ?_
  obtain ⟨ht, rfl⟩ := ht
  rw [hx, subslice_giants hsize, encodeHeader_length, if_neg (Nat.lt_irrefl _),
    decodeHeader_giant]
  exact ⟨rfl, ht ▸ hd⟩

/-- The batch behind which a position wraps around is the 512th. -/
theorem advance_giant (k : Nat) :
    advance (k * kMaxBatchBytes) giant.totalBytes = (k + 1) % 512 * kMaxBatchBytes := by
  have htotal : giant.totalBytes = kMaxBatchBytes := rfl
  rw [htotal, advance, ← Nat.succ_mul, show 0x100000000 = 512 * kMaxBatchBytes from rfl,
    Nat.mul_mod_mul_right]

/-- A visitor that goes on from such a header walks without end. -/
theorem walk_loops {x : File} (hx : x.visible = giants size)
    (hsize : 511 * kMaxBatchBytes + kBatchHeaderBytes ≤ size)
    (hlarge : 511 * kMaxBatchBytes < s.sizeBytes)
    {visit : σ → Nat → BatchHeader → Visit σ β}
    (hvisit : ∀ seen pos, ∃ next, visit seen pos giant = .go next) {k : Nat} (hk : k < 512)
    (seen : σ) (hd : d.file s.logFile = some x) :
    Loops (fun rounds => @walk σ β healthy s visit rounds (k * kMaxBatchBytes) seen) d := by
  let _ := healthy
  intro rounds
  dsimp only
  have hle : k * kMaxBatchBytes ≤ 511 * kMaxBatchBytes :=
    Nat.mul_le_mul_right _ (Nat.le_of_lt_succ hk)
  induction rounds generalizing k seen d with
  | zero =>
      unfold walk
      rw [if_neg (by omega)]
      exact ⟨_, _, rfl⟩
  | succ rounds ih =>
      unfold walk
      rw [if_neg (by omega)]
      obtain ⟨h, t, hread, rfl, ht⟩ :=
        (readHeader_giants (k := k) hx hd (by omega)).exists_ok fun _ h => h
      rw [bind_of_ok (attempt_of_ok hread)]
      dsimp only
      obtain ⟨next, hnext⟩ := hvisit seen (k * kMaxBatchBytes)
      have hmod : (k + 1) % 512 < 512 := Nat.mod_lt _ (by decide)
      rw [hnext, advance_giant]
      exact (ih hmod next ht (Nat.mul_le_mul_right _ (Nat.le_of_lt_succ hmod))).bind
        fun w u hw => hw

end Unending

/-- A disk that holds the file. -/
def giantsDisk (f : FileName) (size : Nat) : Disk := Disk.put {} f { visible := giants size }

private theorem file_giantsDisk (f : FileName) (size : Nat) :
    (giantsDisk f size).file f = some { visible := giants size } := by
  rw [giantsDisk, file_put, Function.update_self]

/-- Whatever a segment's file holds, and whether the disk answers or not, the position loops of
`read`, `scan_headers` and `truncate_to` go up through the file and end after at most
`size_bytes / 52 + 1` rounds: just for segments that end a largest batch below 2^32. -/
theorem walks_halt_iff (s : Segment) :
    (∀ (faults : Faults) (d : Disk),
      (∀ o offset, s.Halts
        (s.index.lookup (relative (max offset s.baseOffset) s.baseOffset)).filePos
        (@readWalk faults s o offset) d) ∧
      (∀ (σ : Type) (visit : σ → BatchHeader → σ × Bool) (seen : σ),
        s.Halts 0 (@scanWalk σ faults s visit seen) d) ∧
      ∀ offset, s.Halts (s.index.lookup (relative offset s.baseOffset)).filePos
        (@cutWalk faults s offset) d) ↔
    s.sizeBytes + kMaxBatchBytes ≤ 0x100000000 := by
  constructor
  · intro h
    by_contra hlarge
    have hunits : 0x100000000 = 512 * kMaxBatchBytes := rfl
    have hscan := (h healthy (giantsDisk s.logFile 0x100000000)).2.1 Unit (fun _ _ => ((), true)) ()
    exact hscan.not_loops (walk_loops (k := 0) rfl (by decide) (by omega)
      (fun _ _ => ⟨(), rfl⟩) (by decide) () (file_giantsDisk _ _))
  · intro hsize faults d
    exact ⟨fun o offset => walk_halts hsize _ _ _ d, fun σ visit seen => walk_halts hsize _ _ _ d,
      fun offset => walk_halts hsize _ _ _ d⟩

/-- In a segment of 2^32 - 1 bytes, with a file of as many bytes, none of the three ends. -/
theorem walks_loop :
    let s : Segment :=
      { baseOffset := 0, nextOffset := 2, options := { maxBytes := 0xffffffff }
        sizeBytes := 0xffffffff }
    let d := giantsDisk s.logFile 0xffffffff
    Loops (@readWalk healthy s .wrapping 1) d ∧
      Loops (@scanWalk Nat healthy s (fun seen _ => (seen + 1, true)) 0) d ∧
      Loops (@cutWalk healthy s 1) d := by
  intro s d
  have hloops {σ β : Type} {visit : σ → Nat → BatchHeader → Visit σ β}
      (hvisit : ∀ seen pos, ∃ next, visit seen pos giant = .go next) (seen : σ) :
      Loops (fun rounds => @walk σ β healthy s visit rounds (0 * kMaxBatchBytes) seen) d :=
    walk_loops rfl (by decide) (by decide) hvisit (by decide) seen (file_giantsDisk _ _)
  exact ⟨hloops (fun _ _ => ⟨(), rfl⟩) (), hloops (fun seen _ => ⟨seen + 1, rfl⟩) 0,
    hloops (fun _ _ => ⟨(), rfl⟩) ()⟩

end Segment

end LogEngine.Storage
