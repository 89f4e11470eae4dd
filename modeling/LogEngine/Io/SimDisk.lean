import LogEngine.Io.Disk
import LogEngine.Verified.Machine

/-!
# The simulator's disk

`src/io/sim/sim_disk.{h,cpp}` with its paths, directories and handles.  `Io.Disk` is this
disk as a broker sees it; here are the calls of the simulator as well: a power cut, the
power coming back, and a bit that rots.

`fsync` replays the pending writes onto the platter instead of copying what is visible, and
says that the two are the same.  They are in every file that no bit has rotted in
(`File.Consistent`).  `corrupt_random_byte` carries the damage over into the visible image
if the byte there is *equal* to the one on the platter, and means to do so if no pending
write has replaced it; the two differ where a pending write has put the same byte there.

What the calls draw at random they are handed here: whether a call is refused, what a power
cut does to each pending write, and which bit rots.  `list_directory` and the counters only
read the disk and are left out.
-/

namespace LogEngine.Io

open Base Verified.Fallible

/-! ## Images -/

section Images

variable {image data : Bytes}

private theorem getElem?_resize (image : Bytes) (size i : Nat) :
    (resize image size)[i]? =
      if i < size then (if i < image.length then image[i]? else some 0) else none := by
  rw [resize, List.getElem?_take]
  by_cases hi : i < size
  · rw [if_pos hi, if_pos hi, List.getElem?_append]
    by_cases hin : i < image.length
    · rw [if_pos hin, if_pos hin]
    · rw [if_neg hin, if_neg hin, List.getElem?_replicate, if_pos (by omega)]
  · rw [if_neg hi, if_neg hi]

private theorem resize_length (image : Bytes) (size : Nat) : (resize image size).length = size := by
  rw [resize, List.length_take, List.length_append, List.length_replicate]
  omega

/-- A write, byte by byte. -/
theorem getElem?_applyBytes (h : data ≠ []) (image : Bytes) (offset i : Nat) :
    (applyBytes image offset data)[i]? =
      if i < offset then (if i < image.length then image[i]? else some 0)
      else if i < offset + data.length then data[i - offset]? else image[i]? := by
  have hhead : applyBytes image offset data =
      resize image offset ++ (data ++ image.drop (offset + data.length)) := by
    rw [applyBytes, if_neg h, resize, List.append_assoc]
  rw [hhead, List.getElem?_append, resize_length]
  by_cases hi : i < offset
  · rw [if_pos hi, if_pos hi, getElem?_resize, if_pos hi]
  · rw [if_neg hi, if_neg hi, List.getElem?_append]
    by_cases hin : i < offset + data.length
    · rw [if_pos hin, if_pos (by omega)]
    · rw [if_neg hin, if_neg (by omega), List.getElem?_drop]
      congr 1
      omega

/-- A file that is cut or grown after a write, or before it. -/
theorem resize_applyBytes (image : Bytes) (w : PendingWrite) (size : Nat) :
    resize (applyBytes image w.offset w.bytes) size =
      applyBytes (resize image size) (File.clip size w).offset (File.clip size w).bytes := by
  have hoffset : (File.clip size w).offset = w.offset := rfl
  rw [hoffset]
  by_cases hnil : w.bytes = []
  · have hclip : (File.clip size w).bytes = [] := by
      rw [File.clip, hnil, List.take_nil, ite_self]
    rw [hclip, applyBytes, if_pos hnil, applyBytes, if_pos rfl]
  have hlength : (applyBytes image w.offset w.bytes).length =
      max image.length (w.offset + w.bytes.length) := applyBytes_length hnil
  apply List.ext_getElem?
  intro i
  rw [getElem?_resize, hlength, getElem?_applyBytes hnil]
  by_cases hout : size ≤ w.offset
  · -- all of the write lies behind the new end
    have hclip : (File.clip size w).bytes = [] := if_pos hout
    rw [hclip, applyBytes, if_pos rfl, getElem?_resize]
    by_cases hi : i < size
    · rw [if_pos hi, if_pos hi, if_pos (by omega), if_pos (by omega)]
    · rw [if_neg hi, if_neg hi]
  · have hclip : (File.clip size w).bytes = w.bytes.take (size - w.offset) := if_neg hout
    have hpos := List.length_pos_of_ne_nil hnil
    have hne : (File.clip size w).bytes ≠ [] := by
      rw [hclip, ne_eq, ← List.length_eq_zero_iff, List.length_take]
      omega
    rw [getElem?_applyBytes hne, hclip, List.length_take, resize_length, getElem?_resize]
    by_cases hi : i < size
    · rw [if_pos hi, if_pos hi, if_pos hi]
      by_cases hbefore : i < w.offset
      · rw [if_pos hbefore, if_pos hbefore, if_pos (by omega)]
      rw [if_neg hbefore, if_neg hbefore]
      by_cases hwithin : i < w.offset + w.bytes.length
      · rw [if_pos (by omega), if_pos hwithin, if_pos (by omega), List.getElem?_take,
          if_pos (by omega)]
      · have hbehind : ¬ i < w.offset + min (size - w.offset) w.bytes.length := by omega
        rw [if_neg hwithin, if_neg hbehind]
        by_cases hin : i < image.length
        · rw [if_pos (by omega), if_pos hin]
        · rw [if_neg (by omega), if_neg hin]
    · rw [if_neg hi, if_neg (by omega), if_neg (by omega), if_neg hi]

private theorem replay_clip (image : Bytes) (pending : List PendingWrite) (size : Nat) :
    replay (resize image size) ((pending.map (File.clip size)).filter fun w => w.bytes ≠ []) =
      resize (replay image pending) size := by
  induction pending generalizing image with
  | nil => rfl
  | cons w pending ih =>
      have hcons : replay image (w :: pending) =
          replay (applyBytes image w.offset w.bytes) pending := rfl
      rw [hcons, ← ih, resize_applyBytes, List.map_cons]
      by_cases hnil : (File.clip size w).bytes = []
      · rw [List.filter_cons_of_neg (by simpa using hnil), hnil, applyBytes, if_pos rfl]
      · rw [List.filter_cons_of_pos (by simpa using hnil)]
        rfl

/-- One of the writes has replaced the byte. -/
def Covered (pending : List PendingWrite) (i : Nat) : Prop :=
  ∃ w ∈ pending, w.offset ≤ i ∧ i < w.offset + w.bytes.length

instance (pending : List PendingWrite) (i : Nat) : Decidable (Covered pending i) :=
  inferInstanceAs (Decidable (∃ w ∈ pending, _))

private theorem covered_cons {w : PendingWrite} {pending : List PendingWrite} {i : Nat} :
    Covered (w :: pending) i ↔
      (w.offset ≤ i ∧ i < w.offset + w.bytes.length) ∨ Covered pending i := by
  simp [Covered]

private theorem applyBytes_getElem?_of_outside {offset i : Nat} (hi : i < image.length)
    (h : ¬ (offset ≤ i ∧ i < offset + data.length)) :
    (applyBytes image offset data)[i]? = image[i]? := by
  by_cases hnil : data = []
  · rw [applyBytes, if_pos hnil]
  rw [getElem?_applyBytes hnil]
  by_cases hbefore : i < offset
  · rw [if_pos hbefore, if_pos hi]
  · rw [if_neg hbefore, if_neg (by omega)]

/-- A byte that is changed under a write. -/
theorem applyBytes_set_of_inside {offset i : Nat}
    (h : offset ≤ i ∧ i < offset + data.length) (b : UInt8) :
    applyBytes (image.set i b) offset data = applyBytes image offset data := by
  have hnil : data ≠ [] := by
    rintro rfl
    simp at h
    omega
  apply List.ext_getElem?
  intro j
  rw [getElem?_applyBytes hnil, getElem?_applyBytes hnil, List.length_set, List.getElem?_set]
  by_cases hj : i = j
  · subst hj
    rw [if_neg (by omega), if_pos h.2, if_neg (by omega), if_pos h.2]
  · rw [if_neg hj]

/-- A byte that is changed beside a write. -/
theorem applyBytes_set_of_outside {offset i : Nat} (hi : i < image.length)
    (h : ¬ (offset ≤ i ∧ i < offset + data.length)) (b : UInt8) :
    applyBytes (image.set i b) offset data = (applyBytes image offset data).set i b := by
  by_cases hnil : data = []
  · rw [applyBytes, if_pos hnil, applyBytes, if_pos hnil]
  have hlen := length_le_applyBytes image offset data
  apply List.ext_getElem?
  intro j
  rw [List.getElem?_set, getElem?_applyBytes hnil, List.length_set, List.getElem?_set]
  by_cases hj : i = j
  · subst hj
    have hin : i < (applyBytes image offset data).length := by omega
    rw [if_pos rfl, if_pos hi, if_pos rfl, if_pos hin]
    by_cases hbefore : i < offset
    · rw [if_pos hbefore, if_pos hi]
    · rw [if_neg hbefore, if_neg (by omega), if_pos hi]
  · rw [if_neg hj, if_neg hj, getElem?_applyBytes hnil]

/-- A byte of the platter that some write covers is of no account. -/
theorem replay_set_of_covered {pending : List PendingWrite} {i : Nat} (hi : i < image.length)
    (h : Covered pending i) (b : UInt8) :
    replay (image.set i b) pending = replay image pending := by
  induction pending generalizing image with
  | nil =>
      obtain ⟨w, hw, -⟩ := h
      exact absurd hw List.not_mem_nil
  | cons w pending ih =>
      show replay (applyBytes (image.set i b) w.offset w.bytes) pending =
        replay (applyBytes image w.offset w.bytes) pending
      by_cases hw : w.offset ≤ i ∧ i < w.offset + w.bytes.length
      · rw [applyBytes_set_of_inside hw]
      · rw [applyBytes_set_of_outside hi hw]
        apply ih
        · exact hi.trans_le (length_le_applyBytes _ _ _)
        · exact (covered_cons.1 h).resolve_left hw

/-- A byte that no write covers stays, and so does its damage. -/
theorem replay_set_of_not_covered {pending : List PendingWrite} {i : Nat} (hi : i < image.length)
    (h : ¬ Covered pending i) (b : UInt8) :
    replay (image.set i b) pending = (replay image pending).set i b ∧
      (replay image pending)[i]? = image[i]? := by
  induction pending generalizing image with
  | nil => exact ⟨rfl, rfl⟩
  | cons w pending ih =>
      rw [covered_cons, not_or] at h
      obtain ⟨hw, hrest⟩ := h
      have hlen := hi.trans_le (length_le_applyBytes image w.offset w.bytes)
      obtain ⟨hset, hget⟩ := ih hlen hrest
      constructor
      · show replay (applyBytes (image.set i b) w.offset w.bytes) pending =
          (replay (applyBytes image w.offset w.bytes) pending).set i b
        rw [applyBytes_set_of_outside hi hw, hset]
      · show (replay (applyBytes image w.offset w.bytes) pending)[i]? = image[i]?
        rw [hget, applyBytes_getElem?_of_outside hi hw]

theorem length_le_replay (image : Bytes) (pending : List PendingWrite) :
    image.length ≤ (replay image pending).length := by
  induction pending generalizing image with
  | nil => exact le_rfl
  | cons w pending ih => exact (length_le_applyBytes image w.offset w.bytes).trans (ih _)

end Images

/-! ## Files -/

/-- What a power cut draws for a pending write: whether it is kept, whether it is torn if it is
not, and how much of it is left then. -/
structure Draw where
  keep : Bool
  tear : Bool
  below : Nat
  deriving DecidableEq, Repr

/-- How many bytes of a write make it to the platter. -/
def Draw.applied (draw : Draw) (total : Nat) : Nat :=
  if draw.keep then total
  else if draw.tear ∧ 1 < total then 1 + draw.below % (total - 1)
  else 0

theorem Draw.applied_le (draw : Draw) (total : Nat) : draw.applied total ≤ total := by
  unfold applied
  split
  · exact le_rfl
  split
  case isTrue h =>
    have := Nat.mod_lt draw.below (show 0 < total - 1 by omega)
    omega
  case isFalse => exact Nat.zero_le _

namespace File

/-- The loop of `crash` over the pending writes of a file: the image that is left, and how many
bytes are lost.  It ends with the first write that is not there as a whole. -/
def survive (draws : Nat → Draw) : Nat → Bytes → List PendingWrite → Bytes × Nat
  | _, image, [] => (image, 0)
  | i, image, w :: pending =>
      let total := w.bytes.length
      let applied := (draws i).applied total
      let image := if 0 < applied then applyBytes image w.offset (w.bytes.take applied) else image
      if applied < total then
        (image, total - applied + (pending.map fun w => w.bytes.length).sum)
      else
        let (left, lost) := survive draws (i + 1) image pending
        (left, total - applied + lost)

/-- What `crash` makes of a file. -/
def powerCut (f : File) (draws : Nat → Draw) : File :=
  let image := (survive draws 0 f.durable f.pending).1
  { durable := image, visible := image }

/-- What `corrupt_random_byte` makes of a file. -/
def rot (f : File) (index bit : Nat) : File :=
  let before := f.durable.getD index 0
  let after := before ^^^ UInt8.ofNat (2 ^ (bit % 8))
  { f with
    durable := f.durable.set index after
    visible := if f.visible[index]? = some before then f.visible.set index after else f.visible }

/-- Replaying the pending writes onto the platter gives what is visible. -/
def Consistent (f : File) : Prop := replay f.durable f.pending = f.visible

instance (f : File) : Decidable f.Consistent := inferInstanceAs (Decidable (_ = _))

variable {f : File}

theorem consistent_empty : File.Consistent {} := rfl

theorem Consistent.write (h : f.Consistent) (offset : Nat) (data : Bytes) :
    (f.write offset data).Consistent := by
  show replay f.durable (f.pending ++ [⟨offset, data⟩]) = applyBytes f.visible offset data
  rw [replay_append, h]
  rfl

/-- `fsync` leaves on the platter what is visible. -/
theorem Consistent.flush (h : f.Consistent) :
    f.flush = { durable := f.visible, visible := f.visible } := by
  unfold File.flush
  rw [h]

theorem Consistent.truncate (h : f.Consistent) (size : Nat) : (f.truncate size).Consistent := by
  show replay (resize f.durable size) ((f.pending.map (clip size)).filter fun w => w.bytes ≠ []) =
    resize f.visible size
  rw [replay_clip, h]

private theorem consistent_powerCut (f : File) (draws : Nat → Draw) :
    (f.powerCut draws).Consistent := rfl

/-- The loop is the power cut that `File.crash` describes. -/
theorem survive_eq (draws : Nat → Draw) (i : Nat) (image : Bytes) (pending : List PendingWrite) :
    ∃ kept torn, (survive draws i image pending).1 =
      (File.crash ⟨image, image, pending⟩ kept torn).visible := by
  induction pending generalizing i image with
  | nil => exact ⟨0, 0, rfl⟩
  | cons w pending ih =>
      have hle := (draws i).applied_le w.bytes.length
      have himage : (if 0 < (draws i).applied w.bytes.length then
          applyBytes image w.offset (w.bytes.take ((draws i).applied w.bytes.length)) else image) =
          applyBytes image w.offset (w.bytes.take ((draws i).applied w.bytes.length)) := by
        by_cases hpos : 0 < (draws i).applied w.bytes.length
        · rw [if_pos hpos]
        · rw [if_neg hpos, Nat.eq_zero_of_not_pos hpos, List.take_zero, applyBytes, if_pos rfl]
      unfold survive
      dsimp only
      rw [himage]
      by_cases hstop : (draws i).applied w.bytes.length < w.bytes.length
      · rw [if_pos hstop]
        exact ⟨0, (draws i).applied w.bytes.length, rfl⟩
      · rw [if_neg hstop, List.take_of_length_le (by omega)]
        obtain ⟨kept, torn, heq⟩ := ih (i + 1) (applyBytes image w.offset w.bytes)
        exact ⟨kept + 1, torn, heq⟩

theorem powerCut_eq (f : File) (draws : Nat → Draw) :
    ∃ kept torn, f.powerCut draws = f.crash kept torn := by
  obtain ⟨kept, torn, heq⟩ := survive_eq draws 0 f.durable f.pending
  refine ⟨kept, torn, ?_⟩
  unfold powerCut
  rw [heq]
  rfl

/-- A flipped bit makes another byte. -/
theorem xor_bit_ne (b : UInt8) (bit : Nat) : b ^^^ UInt8.ofNat (2 ^ (bit % 8)) ≠ b := by
  intro h
  have hzero : UInt8.ofNat (2 ^ (bit % 8)) = 0 := by
    calc UInt8.ofNat (2 ^ (bit % 8)) = b ^^^ (b ^^^ UInt8.ofNat (2 ^ (bit % 8))) := by
          rw [← UInt8.xor_assoc, UInt8.xor_self, UInt8.zero_xor]
      _ = 0 := by rw [h, UInt8.xor_self]
  have hlt : bit % 8 < 8 := Nat.mod_lt _ (by decide)
  generalize bit % 8 = k at hzero hlt
  revert hzero
  revert k
  decide

/-- A rotten bit leaves the two images consistent if it is not under a pending write that has
put there the byte that was there. -/
theorem Consistent.rot_iff (h : f.Consistent) {index : Nat} (hi : index < f.durable.length)
    (bit : Nat) :
    (f.rot index bit).Consistent ↔
      ¬ (Covered f.pending index ∧ f.visible[index]? = f.durable[index]?) := by
  have hbefore : f.durable[index]? = some (f.durable.getD index 0) := by
    rw [List.getD_eq_getElem?_getD, List.getElem?_eq_getElem hi, Option.getD_some]
  have hvisible : index < f.visible.length := by
    rw [← h]
    exact hi.trans_le (length_le_replay _ _)
  have hother := xor_bit_ne (f.durable.getD index 0) bit
  unfold Consistent rot
  dsimp only
  rw [hbefore]
  generalize f.durable.getD index 0 ^^^ UInt8.ofNat (2 ^ (bit % 8)) = after at hother ⊢
  by_cases hcovered : Covered f.pending index
  · rw [replay_set_of_covered hi hcovered, h]
    by_cases hsame : f.visible[index]? = some (f.durable.getD index 0)
    · -- the write has put the same byte there, and it is taken for the damaged one
      rw [if_pos hsame]
      constructor
      · intro heq
        have hget : f.visible[index]? = (f.visible.set index after)[index]? :=
          congrArg (fun l : Bytes => l[index]?) heq
        rw [hsame, List.getElem?_set_self hvisible] at hget
        exact absurd (Option.some.inj hget).symm hother
      · exact fun hno => absurd ⟨hcovered, hsame⟩ hno
    · rw [if_neg hsame]
      exact ⟨fun _ hboth => hsame hboth.2, fun _ => rfl⟩
  · obtain ⟨hset, hget⟩ := replay_set_of_not_covered hi hcovered after
    rw [h] at hset hget
    rw [hset, hget, hbefore, if_pos rfl]
    exact ⟨fun _ hboth => hcovered hboth.1, fun _ => rfl⟩

end File

/-! ## The disk -/

/-- A path, character by character. -/
abbrev Path := List Char

/-- The loop of `normalize`, on the reversed path. -/
def dropSlashes : List Char → List Char
  | '/' :: c :: rest => dropSlashes (c :: rest)
  | path => path

/-- `normalize`: without trailing slashes. -/
def normalize (path : Path) : Path := (dropSlashes path.reverse).reverse

/-- `parent_of`. -/
def parentOf (path : Path) : Path :=
  match path.reverse.dropWhile (· ≠ '/') with
  | [] => []
  | [_] => ['/']
  | _ :: rest => rest.reverse

inductive OpenMode
  | read
  | readWrite
  | create
  deriving DecidableEq, Repr

structure Handle where
  path : Path
  mode : OpenMode
  deriving DecidableEq, Repr

structure SimDisk where
  files : AList fun _ : Path => File := ∅
  /-- The root of a relative path tree, and of an absolute one. -/
  dirs : List Path := [[], ['/']]
  handles : AList fun _ : Nat => Handle := ∅
  nextId : Nat := 0
  powered : Bool := true
  bytesLost : Nat := 0
  crashes : Nat := 0

/-- A program that talks to the simulator's disk. -/
abbrev SimDiskM := EStateM ErrorCode SimDisk

namespace SimDisk

def file (d : SimDisk) (path : Path) : Option File := d.files.lookup path

/-- Between the power cut and the reboot the disk does nothing. -/
def needsPower : SimDiskM Unit := fun d => if d.powered then .ok () d else .error .ioError d

/-- The file is replaced. -/
def store (path : Path) (file : File) : SimDiskM Unit :=
  modify fun d => { d with files := d.files.insert path file }

/-- `resolve`: the path and the file that a handle stands for. -/
def resolve (id : Nat) (forWrite : Bool) : SimDiskM (Path × File) := do
  needsPower
  let d ← get
  match d.handles.lookup id with
  | none => throw .notFound
  | some handle =>
      if forWrite ∧ handle.mode = .read then throw .ioError
      else
        match d.file handle.path with
        | none => throw .notFound
        | some file => return (handle.path, file)

/-- The file that `open` is to find or to make. -/
def findOrCreate (p : Path) (mode : OpenMode) : SimDiskM Unit := do
  let d ← get
  if (d.file p).isSome then return ()
  else if mode ≠ .create then throw .notFound
  else if parentOf p ∉ d.dirs then throw .notFound
  else store p {}

/-- `open`. -/
def openPath (path : Path) (mode : OpenMode) : SimDiskM Nat := do
  needsPower
  let p := normalize path
  let d ← get
  if p ∈ d.dirs then throw .ioError
  else do
    findOrCreate p mode
    modify fun d => { d with
      handles := d.handles.insert d.nextId ⟨p, mode⟩
      nextId := d.nextId + 1 }
    return d.nextId

def close (id : Nat) : SimDiskM Unit :=
  modify fun d => { d with handles := d.handles.erase id }

/-- An operation whose draw says that it fails. -/
def refusedIf (refused : Bool) : SimDiskM Unit :=
  if refused then throw .ioError else pure ()

/-- `pwrite`: all or nothing.  An end that wraps around is beyond the cap, too. -/
def pwrite (id : Nat) (data : Bytes) (offset : Nat) (refused : Bool) : SimDiskM Nat := do
  let (path, file) ← resolve id true
  refusedIf refused
  if data = [] then return 0
  else if Disk.kMaxFileBytes < offset + data.length then throw .invalidArgument
  else do
    store path (file.write offset data)
    return data.length

def pread (id count offset : Nat) (refused : Bool) : SimDiskM Bytes := do
  let (_, file) ← resolve id false
  refusedIf refused
  return subslice file.visible offset count

def fsync (id : Nat) (refused : Bool) : SimDiskM Unit := do
  let (path, file) ← resolve id false
  refusedIf refused
  store path file.flush

def truncate (id size : Nat) : SimDiskM Unit := do
  let (path, file) ← resolve id true
  if Disk.kMaxFileBytes < size then throw .invalidArgument
  else store path (file.truncate size)

def size (id : Nat) : SimDiskM Nat := do
  let (_, file) ← resolve id false
  return file.visible.length

def remove (path : Path) : SimDiskM Unit := do
  needsPower
  let p := normalize path
  let d ← get
  match d.file p with
  | none => if p ∈ d.dirs then throw .ioError else throw .notFound
  | some _ => set { d with files := d.files.erase p }

/-- The loop of `make_directories` over the lengths of the parts of the path. -/
def makeDirectoriesFrom (p : Path) : List Nat → SimDiskM Unit
  | [] => return ()
  | i :: rest =>
      if i ≠ p.length ∧ p[i]? ≠ some '/' then makeDirectoriesFrom p rest
      else do
        let part := p.take (if i = 0 then 1 else i)
        let d ← get
        if (d.file part).isSome then throw .ioError
        else
          set { d with dirs := d.dirs.insert part }
          makeDirectoriesFrom p rest

def makeDirectories (path : Path) : SimDiskM Unit := do
  needsPower
  let p := normalize path
  if p = [] then return () else makeDirectoriesFrom p (List.range (p.length + 1))

/-- `crash`: a power cut. -/
def crash (d : SimDisk) (draws : Path → Nat → Draw) : SimDisk where
  files :=
    (d.files.entries.map fun e => ⟨e.1, e.2.powerCut (draws e.1)⟩ : List (Σ _ : Path, File)).toAList
  dirs := d.dirs
  handles := ∅
  nextId := d.nextId
  powered := false
  bytesLost := d.bytesLost +
    (d.files.entries.map fun e => (File.survive (draws e.1) 0 e.2.durable e.2.pending).2).sum
  crashes := d.crashes + 1

def powerOn (d : SimDisk) : SimDisk := { d with powered := true }

/-- The file that `corrupt_random_byte` picks: one with something on the platter. -/
def rotting (d : SimDisk) (pick : Nat) : Option (Path × File) :=
  let candidates := d.files.entries.filter fun e => e.2.durable ≠ []
  (candidates[pick % candidates.length]?).map fun e => (e.1, e.2)

/-- `corrupt_random_byte`; `false` if no file has anything to corrupt. -/
def corruptRandomByte (d : SimDisk) (pick index bit : Nat) : Bool × SimDisk :=
  match d.rotting pick with
  | none => (false, d)
  | some (path, file) =>
      (true, { d with files := d.files.insert path (file.rot (index % file.durable.length) bit) })

/-! ## Runs -/

/-- The calls, with what they draw. -/
inductive Call
  | open (path : Path) (mode : OpenMode)
  | close (id : Nat)
  | pwrite (id : Nat) (data : Bytes) (offset : Nat) (refused : Bool)
  | pread (id count offset : Nat) (refused : Bool)
  | fsync (id : Nat) (refused : Bool)
  | truncate (id size : Nat)
  | size (id : Nat)
  | remove (path : Path)
  | makeDirectories (path : Path)
  | crash (draws : Path → Nat → Draw)
  | powerOn
  | corruptRandomByte (pick index bit : Nat)

/-- The disk after a program, whether it failed or not. -/
def after {α : Type} (x : SimDiskM α) (d : SimDisk) : SimDisk :=
  match x d with
  | .ok _ t => t
  | .error _ t => t

/-- The disk after a call. -/
def step (d : SimDisk) : Call → SimDisk
  | .open path mode => after (openPath path mode) d
  | .close id => after (close id) d
  | .pwrite id data offset refused => after (pwrite id data offset refused) d
  | .pread id count offset refused => after (pread id count offset refused) d
  | .fsync id refused => after (fsync id refused) d
  | .truncate id size => after (truncate id size) d
  | .size id => after (SimDisk.size id) d
  | .remove path => after (remove path) d
  | .makeDirectories path => after (makeDirectories path) d
  | .crash draws => d.crash draws
  | .powerOn => d.powerOn
  | .corruptRandomByte pick index bit => (d.corruptRandomByte pick index bit).2

/-- What may have happened to the file of a path. -/
inductive Change (d : SimDisk) (c : Call) (path : Path) : File → Prop
  | kept {f} (h : d.file path = some f) : Change d c path f
  | created : Change d c path {}
  | written {f} (h : d.file path = some f) (offset : Nat) (data : Bytes) (hne : data ≠ [])
      (hcap : offset + data.length ≤ Disk.kMaxFileBytes) : Change d c path (f.write offset data)
  | flushed {f} (h : d.file path = some f) : Change d c path f.flush
  | truncated {f} (h : d.file path = some f) (size : Nat) (hcap : size ≤ Disk.kMaxFileBytes) :
      Change d c path (f.truncate size)
  | cut {f} (h : d.file path = some f) (draws : Nat → Draw) : Change d c path (f.powerCut draws)
  | rotten {f} (h : d.file path = some f) (pick index bit : Nat)
      (hcall : c = .corruptRandomByte pick index bit) (hpick : d.rotting pick = some (path, f)) :
      Change d c path (f.rot (index % f.durable.length) bit)

/-- Every file of the disk is what a call may have made of it. -/
def Changes (d : SimDisk) (c : Call) (t : SimDisk) : Prop :=
  ∀ path f, t.file path = some f → Change d c path f

section Changes

variable {d t u : SimDisk} {c : Call}

private theorem changes_of_files (h : t.files = d.files) : Changes d c t := by
  intro path f hf
  rw [file, h] at hf
  exact .kept hf

/-- One file is replaced. -/
theorem changes_insert {path : Path} {f : File} (hfiles : t.files = d.files.insert path f)
    (h : Change d c path f) : Changes d c t := by
  intro p g hg
  rw [file, hfiles] at hg
  by_cases hp : p = path
  · subst hp
    rw [AList.lookup_insert] at hg
    exact Option.some.inj hg ▸ h
  · rw [AList.lookup_insert_ne hp] at hg
    exact .kept hg

private theorem changes_erase {path : Path} (hfiles : t.files = d.files.erase path) :
    Changes d c t := by
  intro p g hg
  rw [file, hfiles] at hg
  by_cases hp : p = path
  · subst hp
    rw [AList.lookup_erase] at hg
    cases hg
  · rw [AList.lookup_erase_ne hp] at hg
    exact .kept hg

private theorem after_of_sat {α : Type} {x : SimDiskM α}
    (h : Sat (x d) (fun _ t => Changes d c t) fun t => Changes d c t) :
    Changes d c (after x d) := by
  unfold after
  cases hr : x d with
  | ok a t =>
      rw [hr] at h
      exact h
  | error e t =>
      rw [hr] at h
      exact h

private theorem needsPower_sat (d : SimDisk) :
    Sat (needsPower d) (fun _ t => t = d) fun t => t.files = d.files := by
  unfold needsPower
  split
  · exact rfl
  · exact rfl

private theorem resolve_sat (d : SimDisk) (id : Nat) (forWrite : Bool) :
    Sat (resolve id forWrite d) (fun r t => t = d ∧ d.file r.1 = some r.2)
      fun t => t.files = d.files := by
  unfold resolve
  refine (needsPower_sat d).bind ?_
  rintro _ t rfl
  refine Sat.bind (Q := fun s u => s = t ∧ u = t) ⟨rfl, rfl⟩ ?_
  rintro _ u ⟨rfl, rfl⟩
  cases u.handles.lookup id with
  | none => exact rfl
  | some handle =>
      refine Sat.ite (fun _ => rfl) fun _ => ?_
      cases hf : u.file handle.path with
      | none => exact rfl
      | some f => exact ⟨rfl, hf⟩

private theorem refusedIf_sat (d : SimDisk) (refused : Bool) :
    Sat (refusedIf refused d) (fun _ t => t = d) fun t => t.files = d.files := by
  unfold refusedIf
  exact Sat.ite (fun _ => rfl) fun _ => rfl

private theorem findOrCreate_changes (d : SimDisk) (p : Path) (mode : OpenMode) :
    Sat (findOrCreate p mode d) (fun _ t => Changes d c t) fun t => Changes d c t := by
  unfold findOrCreate
  refine Sat.bind (Q := fun s u => s = d ∧ u = d) ⟨rfl, rfl⟩ ?_
  rintro _ u ⟨rfl, rfl⟩
  refine Sat.ite (fun _ => changes_of_files rfl) fun _ =>
    Sat.ite (fun _ => changes_of_files rfl) fun _ =>
      Sat.ite (fun _ => changes_of_files rfl) fun _ => ?_
  exact changes_insert rfl .created

private theorem openPath_changes (d : SimDisk) (path : Path) (mode : OpenMode) :
    Sat (openPath path mode d) (fun _ t => Changes d c t) fun t => Changes d c t := by
  unfold openPath
  refine ((needsPower_sat d).mono (fun _ _ h => h) fun _ h => changes_of_files h).bind ?_
  rintro _ t rfl
  refine Sat.bind (Q := fun s u => s = t ∧ u = t) ⟨rfl, rfl⟩ ?_
  rintro _ u ⟨rfl, rfl⟩
  refine Sat.ite (fun _ => changes_of_files rfl) fun _ => ?_
  exact (findOrCreate_changes u (normalize path) mode).bind fun _ t ht => ht

private theorem pwrite_changes (d : SimDisk) (id : Nat) (data : Bytes) (offset : Nat)
    (refused : Bool) :
    Sat (pwrite id data offset refused d) (fun _ t => Changes d c t) fun t => Changes d c t := by
  unfold pwrite
  refine ((resolve_sat d id true).mono (fun _ _ h => h) fun _ h => changes_of_files h).bind ?_
  rintro ⟨path, f⟩ t ⟨rfl, hf⟩
  refine ((refusedIf_sat t refused).mono (fun _ _ h => h) fun _ h => changes_of_files h).bind ?_
  rintro _ u rfl
  refine Sat.ite (fun _ => changes_of_files rfl) fun hne =>
    Sat.ite (fun _ => changes_of_files rfl) fun hcap => ?_
  exact changes_insert rfl (.written hf offset data hne (Nat.not_lt.1 hcap))

private theorem fsync_changes (d : SimDisk) (id : Nat) (refused : Bool) :
    Sat (fsync id refused d) (fun _ t => Changes d c t) fun t => Changes d c t := by
  unfold fsync
  refine ((resolve_sat d id false).mono (fun _ _ h => h) fun _ h => changes_of_files h).bind ?_
  rintro ⟨path, f⟩ t ⟨rfl, hf⟩
  refine ((refusedIf_sat t refused).mono (fun _ _ h => h) fun _ h => changes_of_files h).bind ?_
  rintro _ u rfl
  exact changes_insert rfl (.flushed hf)

private theorem truncate_changes (d : SimDisk) (id size : Nat) :
    Sat (truncate id size d) (fun _ t => Changes d c t) fun t => Changes d c t := by
  unfold truncate
  refine ((resolve_sat d id true).mono (fun _ _ h => h) fun _ h => changes_of_files h).bind ?_
  rintro ⟨path, f⟩ t ⟨rfl, hf⟩
  refine Sat.ite (fun _ => changes_of_files rfl) fun hcap => ?_
  exact changes_insert rfl (.truncated hf size (Nat.not_lt.1 hcap))

private theorem makeDirectoriesFrom_files (p : Path) (parts : List Nat) (d : SimDisk) :
    Sat (makeDirectoriesFrom p parts d) (fun _ t => t.files = d.files)
      fun t => t.files = d.files := by
  induction parts generalizing d with
  | nil => exact rfl
  | cons i parts ih =>
      unfold makeDirectoriesFrom
      refine Sat.ite (fun _ => ih d) fun _ => ?_
      refine Sat.bind (Q := fun s u => s = d ∧ u = d) ⟨rfl, rfl⟩ ?_
      rintro _ u ⟨rfl, rfl⟩
      refine Sat.ite (fun _ => rfl) fun _ => ?_
      refine Sat.bind (Q := fun _ t => t.files = u.files) ?_ fun _ t ht =>
        (ih t).mono (fun _ _ h => h.trans ht) fun _ h => h.trans ht
      exact rfl

private theorem crash_changes (d : SimDisk) (draws : Path → Nat → Draw) :
    Changes d c (d.crash draws) := by
  intro path f hf
  have hlookup : (d.crash draws).file path =
      (d.file path).map fun f => f.powerCut (draws path) := by
    unfold crash file
    rw [AList.lookup_to_alist]
    exact List.dlookup_map₂ (f := fun p (f : File) => f.powerCut (draws p)) path
  rw [hlookup, Option.map_eq_some_iff] at hf
  obtain ⟨g, hg, rfl⟩ := hf
  exact .cut hg (draws path)

private theorem rotting_file {pick : Nat} {path : Path} {f : File}
    (h : d.rotting pick = some (path, f)) : d.file path = some f ∧ f.durable ≠ [] := by
  unfold rotting at h
  obtain ⟨⟨p, g⟩, he, heq⟩ := Option.map_eq_some_iff.1 h
  obtain ⟨rfl, rfl⟩ := Prod.mk.inj heq
  obtain ⟨hmem, hne⟩ := List.mem_filter.1 (List.mem_of_getElem? he)
  exact ⟨AList.mem_lookup_iff.2 hmem, by simpa using hne⟩

/-- The one thing to know about a call. -/
theorem step_changes (d : SimDisk) (c : Call) : Changes d c (d.step c) := by
  cases c with
  | «open» path mode => exact after_of_sat (openPath_changes d path mode)
  | close id => exact changes_of_files rfl
  | pwrite id data offset refused => exact after_of_sat (pwrite_changes d id data offset refused)
  | pread id count offset refused =>
      apply after_of_sat
      refine ((resolve_sat d id false).mono (fun _ _ h => h) fun _ h => changes_of_files h).bind ?_
      rintro r t ⟨rfl, -⟩
      exact ((refusedIf_sat t refused).mono (fun _ _ h => h) fun _ h => changes_of_files h).bind
        fun _ u hu => changes_of_files (congrArg files hu)
  | fsync id refused => exact after_of_sat (fsync_changes d id refused)
  | truncate id size => exact after_of_sat (truncate_changes d id size)
  | size id =>
      apply after_of_sat
      refine ((resolve_sat d id false).mono (fun _ _ h => h) fun _ h => changes_of_files h).bind ?_
      rintro r t ⟨rfl, -⟩
      exact changes_of_files rfl
  | remove path =>
      apply after_of_sat
      refine ((needsPower_sat d).mono (fun _ _ h => h) fun _ h => changes_of_files h).bind ?_
      rintro _ t rfl
      refine Sat.bind (Q := fun s u => s = t ∧ u = t) ⟨rfl, rfl⟩ ?_
      rintro _ u ⟨rfl, rfl⟩
      cases hf : u.file (normalize path) with
      | none => exact Sat.ite (fun _ => changes_of_files rfl) fun _ => changes_of_files rfl
      | some f => exact changes_erase rfl
  | makeDirectories path =>
      apply after_of_sat
      refine ((needsPower_sat d).mono (fun _ _ h => h) fun _ h => changes_of_files h).bind ?_
      rintro _ t rfl
      refine Sat.ite (fun _ => changes_of_files rfl) fun _ => ?_
      exact (makeDirectoriesFrom_files _ _ t).mono (fun _ _ h => changes_of_files h)
        fun _ h => changes_of_files h
  | crash draws => exact crash_changes d draws
  | powerOn => exact changes_of_files rfl
  | corruptRandomByte pick index bit =>
      show Changes d _ (d.corruptRandomByte pick index bit).2
      unfold corruptRandomByte
      cases hpick : d.rotting pick with
      | none => exact changes_of_files rfl
      | some e =>
          obtain ⟨path, f⟩ := e
          exact changes_insert rfl (.rotten (rotting_file hpick).1 pick index bit rfl hpick)

end Changes

/-- The bit that rots is not under a pending write that has put the same byte there. -/
def Spares (d : SimDisk) : Call → Prop
  | .corruptRandomByte pick index _ => ∀ e ∈ d.rotting pick,
      ¬ (Covered e.2.pending (index % e.2.durable.length) ∧
        e.2.visible[index % e.2.durable.length]? = e.2.durable[index % e.2.durable.length]?)
  | _ => True

instance (d : SimDisk) (c : Call) : Decidable (d.Spares c) :=
  match c with
  | .corruptRandomByte pick _ _ => inferInstanceAs (Decidable (∀ e ∈ d.rotting pick, _))
  | .open _ _ => isTrue trivial
  | .close _ => isTrue trivial
  | .pwrite _ _ _ _ => isTrue trivial
  | .pread _ _ _ _ => isTrue trivial
  | .fsync _ _ => isTrue trivial
  | .truncate _ _ => isTrue trivial
  | .size _ => isTrue trivial
  | .remove _ => isTrue trivial
  | .makeDirectories _ => isTrue trivial
  | .crash _ => isTrue trivial
  | .powerOn => isTrue trivial

/-- Every file is consistent. -/
def Consistent (d : SimDisk) : Prop := ∀ path f, d.file path = some f → f.Consistent

theorem Consistent.step_iff {d : SimDisk} (h : d.Consistent) (c : Call) :
    (d.step c).Consistent ↔ d.Spares c := by
  constructor
  · intro hstep
    cases c with
    | corruptRandomByte pick index bit =>
        rintro ⟨path, f⟩ hpick
        obtain ⟨hf, hne⟩ := rotting_file hpick
        have hi : index % f.durable.length < f.durable.length :=
          Nat.mod_lt _ (List.length_pos_of_ne_nil hne)
        apply ((h path f hf).rot_iff hi bit).1
        apply hstep path
        show (d.corruptRandomByte pick index bit).2.file path = _
        unfold corruptRandomByte
        rw [Option.mem_def.1 hpick]
        exact AList.lookup_insert _
    | _ => trivial
  · intro hspares path f hf
    cases step_changes d c path f hf with
    | kept hg => exact h path _ hg
    | created => exact File.consistent_empty
    | written hg offset data _ _ => exact (h path _ hg).write offset data
    | flushed hg =>
        rw [(h path _ hg).flush]
        rfl
    | truncated hg size _ => exact (h path _ hg).truncate size
    | cut hg draws => exact File.consistent_powerCut _ draws
    | rotten hg pick index bit hcall hpick =>
        subst hcall
        have hi := Nat.mod_lt index (List.length_pos_of_ne_nil (rotting_file hpick).2)
        exact ((h path _ hg).rot_iff hi bit).2 (hspares _ hpick)

/-- The machine that the calls make. -/
def next (d : SimDisk) (c : Call) : Option SimDisk := some (d.step c)

/-- In every run in which rotten bits are spared pending writes of the same byte, replaying the
pending writes onto the platter gives what is visible; and from there on, a call keeps it so
just if it does that. -/
theorem images_agree {d : SimDisk} (h : Verified.Machine.Runs next (fun d c _ => d.Spares c) {} d) :
    d.Consistent ∧ ∀ c, (d.step c).Consistent ↔ d.Spares c := by
  have hd : d.Consistent := by
    refine h.invariant (fun path f hf => by cases hf) fun s c t hs hn hok => ?_
    obtain rfl := Option.some.inj hn
    exact (hs.step_iff c).2 hok
  exact ⟨hd, hd.step_iff⟩

/-- A byte that is flushed, another one written over its neighbour, and a bit that rots in the
first. -/
theorem images_agree_besideAWrite :
    ∃ d f, Verified.Machine.Runs next (fun d c _ => d.Spares c) {} d ∧ d.file ['a'] = some f ∧
      f.Consistent ∧ f.visible = [3, 9] ∧ f.durable = [3, 2] := by
  obtain ⟨d, hrun, hd⟩ := Verified.Machine.exists_of_replay next (fun d c _ => d.Spares c) {}
    [.open ['a'] .create, .pwrite 0 [1, 2] 0 false, .fsync 0 false, .pwrite 0 [9] 1 false,
      .corruptRandomByte 0 0 1]
    (p := fun d => (d.file ['a']).any fun f : File =>
      decide (f.visible = [3, 9]) && decide (f.durable = [3, 2])) (by decide +kernel)
  obtain ⟨f, hf, hbytes⟩ := (Option.any_eq_true _ _).1 hd
  rw [Bool.and_eq_true, decide_eq_true_eq, decide_eq_true_eq] at hbytes
  exact ⟨d, f, hrun, hf, (images_agree hrun).1 _ _ hf, hbytes⟩

/-- A byte that is flushed and written once more with the same value; then a bit of it rots, and
what is visible is the damaged byte, although the pending write is to replace it. -/
theorem images_disagree :
    ∃ d f, Verified.Machine.Runs next (fun _ _ _ => True) {} d ∧ d.file ['a'] = some f ∧
      replay f.durable f.pending = [1] ∧ f.visible = [0] := by
  obtain ⟨d, hrun, hd⟩ := Verified.Machine.exists_of_replay next (fun _ _ _ => True) {}
    [.open ['a'] .create, .pwrite 0 [1] 0 false, .fsync 0 false, .pwrite 0 [1] 0 false,
      .corruptRandomByte 0 0 0]
    (p := fun d => (d.file ['a']).any fun f : File =>
      decide (replay f.durable f.pending = [1]) && decide (f.visible = [0])) (by decide +kernel)
  obtain ⟨f, hf, hbytes⟩ := (Option.any_eq_true _ _).1 hd
  rw [Bool.and_eq_true, decide_eq_true_eq, decide_eq_true_eq] at hbytes
  exact ⟨d, f, hrun, hf, hbytes⟩

end SimDisk

end LogEngine.Io
