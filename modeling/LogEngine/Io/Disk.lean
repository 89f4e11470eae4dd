import LogEngine.Base.Bytes
import LogEngine.Verified.Fallible
import Mathlib.Data.List.AList

/-!
# The disk

`src/io/disk.h` as `src/io/sim/sim_disk.cpp` implements it.  A file has two
images, what is on the platter and what a read returns, and the writes between the
two.  `fsync` replays those writes onto the platter; a power cut loses all but some
first of them, and may tear the next one.  Creating, truncating and removing a
file take effect on the platter at once.

Any operation may be refused.  Which ones are refused is the environment's choice,
`Faults`, by the number of the operation and its kind.  A refused operation has no
effect, except that some first bytes of a refused write may be in the file all the
same, as `src/io/real/real_disk.cpp` may leave them; on the simulator's disk there are
none of these (`Atomic`).

A handle stands for the path it was opened on, as `SimDisk::resolve` looks it up,
so the operations take the name of the file.  Only the data directory of one broker
is modelled, and a name in it by what it stands for.
-/

namespace LogEngine.Io

open Base Verified.Fallible

/-- The codes of `src/base/error.h` that the modelled code returns. -/
inductive ErrorCode
  | notLeader
  | requestTimedOut
  | wouldBlock
  | offsetOutOfRange
  | corruptRecord
  | messageTooLarge
  | invalidRequest
  | unsupportedVersion
  | ioError
  | closed
  | notFound
  | invalidArgument
  deriving DecidableEq, Repr

/-- A file of a broker's data directory. -/
inductive FileName
  /-- `Segment::log_name`. -/
  | log (baseOffset : Nat)
  /-- `Segment::index_name`. -/
  | index (baseOffset : Nat)
  /-- `raft.state`. -/
  | state
  deriving DecidableEq, Repr

def FileName.isIndex : FileName → Bool
  | .log _ => false
  | .index _ => true
  | .state => false

inductive Operation
  | open
  | pwrite
  | pread
  | fsync
  | truncate
  | size
  | remove
  | makeDirectories
  | listDirectory
  deriving DecidableEq, Repr

/-- Which operations fail, and how much of a failed write is written. -/
class Faults where
  refuses : Nat → Operation → Bool
  /-- How many bytes a refused write leaves in the file. -/
  written : Nat → Nat

/-- Nothing fails. -/
@[reducible] def healthy : Faults := ⟨fun _ _ => false, fun _ => 0⟩

/-- A refused write has no effect. -/
def Faults.Atomic (faults : Faults) : Prop := ∀ n, faults.written n = 0

/-! ## Files -/

/-- `SimDisk::PendingWrite`. -/
structure PendingWrite where
  offset : Nat
  bytes : Bytes
  deriving DecidableEq, Repr

/-- `SimDisk::File`. -/
structure File where
  /-- The platter, as of the last successful `fsync`. -/
  durable : Bytes := []
  /-- What `pread` returns. -/
  visible : Bytes := []
  /-- In the order of issue; `fsync` clears it. -/
  pending : List PendingWrite := []
  deriving DecidableEq, Repr

/-- `apply_bytes`: past the end of the file, zeros fill the gap. -/
def applyBytes (image : Bytes) (offset : Nat) (data : Bytes) : Bytes :=
  if data = [] then image
  else
    (image ++ List.replicate (offset - image.length) 0).take offset ++ data ++
      image.drop (offset + data.length)

/-- `std::vector::resize` with zeros. -/
def resize (image : Bytes) (size : Nat) : Bytes :=
  (image ++ List.replicate (size - image.length) 0).take size

/-- The writes, in order, onto an image. -/
def replay (image : Bytes) (writes : List PendingWrite) : Bytes :=
  writes.foldl (fun image w => applyBytes image w.offset w.bytes) image

section ApplyBytes

variable {image data : Bytes} {offset : Nat}

theorem applyBytes_length (h : data ≠ []) :
    (applyBytes image offset data).length = max image.length (offset + data.length) := by
  simp only [applyBytes, if_neg h, List.length_append, List.length_take, List.length_drop,
    List.length_replicate]
  omega

theorem length_le_applyBytes (image : Bytes) (offset : Nat) (data : Bytes) :
    image.length ≤ (applyBytes image offset data).length := by
  by_cases h : data = []
  · rw [applyBytes, if_pos h]
  · rw [applyBytes_length h]
    exact le_max_left _ _

/-- The bytes before a write, with zeros up to it. -/
private theorem take_length (image : Bytes) (offset : Nat) :
    ((image ++ List.replicate (offset - image.length) 0).take offset).length = offset := by
  simp only [List.length_take, List.length_append, List.length_replicate]
  omega

/-- What was written is read back. -/
theorem subslice_applyBytes_self (image data : Bytes) (offset : Nat) :
    subslice (applyBytes image offset data) offset data.length = data := by
  by_cases h : data = []
  · subst h
    simp [subslice]
  · rw [applyBytes, if_neg h, List.append_assoc,
      subslice_append_right (take_length image offset).le, take_length, Nat.sub_self,
      subslice_append_left (by omega), subslice_all le_rfl]

/-- What lies before a write stays. -/
theorem subslice_applyBytes_before {i n : Nat} (hi : i + n ≤ offset)
    (hn : i + n ≤ image.length) :
    subslice (applyBytes image offset data) i n = subslice image i n := by
  by_cases h : data = []
  · rw [applyBytes, if_pos h]
  · rw [applyBytes, if_neg h, List.append_assoc,
      subslice_append_left (by rw [take_length]; exact hi)]
    unfold subslice
    rw [List.drop_take, List.take_take, Nat.min_eq_left (by omega),
      List.drop_append_of_le_length (by omega), List.take_append_of_le_length]
    rw [List.length_drop]
    omega

/-- What lies behind a write stays. -/
theorem subslice_applyBytes_after {i n : Nat} (hi : offset + data.length ≤ i) :
    subslice (applyBytes image offset data) i n = subslice image i n := by
  by_cases h : data = []
  · rw [applyBytes, if_pos h]
  · rw [applyBytes, if_neg h, subslice_append_right (by
      rw [List.length_append, take_length]
      exact hi), List.length_append, take_length]
    unfold subslice
    rw [List.drop_drop]
    congr 2
    omega

/-- A write at the end of a prefix of the file goes on with it. -/
theorem append_isPrefix_applyBytes {a : Bytes} (h : a <+: image) (data : Bytes) :
    a ++ data <+: applyBytes image a.length data := by
  obtain ⟨r, rfl⟩ := h
  by_cases hd : data = []
  · rw [applyBytes, if_pos hd, hd, List.append_nil]
    exact List.prefix_append _ _
  · have hz : a.length - (a ++ r).length = 0 := by
      rw [List.length_append]
      omega
    rw [applyBytes, if_neg hd, hz, List.replicate_zero, List.append_nil, List.take_left]
    exact List.prefix_append _ _

/-- A write behind a prefix of the file leaves it. -/
theorem isPrefix_applyBytes {a : Bytes} (h : a <+: image) (data : Bytes) :
    a <+: applyBytes image a.length data :=
  (List.prefix_append _ _).trans (append_isPrefix_applyBytes h data)

theorem resize_eq {a : Bytes} (h : a <+: image) : resize image a.length = a := by
  obtain ⟨r, rfl⟩ := h
  rw [resize, List.append_assoc, List.take_left]

theorem replay_append (image : Bytes) (ws vs : List PendingWrite) :
    replay image (ws ++ vs) = replay (replay image ws) vs :=
  List.foldl_append

end ApplyBytes

namespace File

/-- What a write leaves: visible at once, on the platter later. -/
def write (f : File) (offset : Nat) (data : Bytes) : File :=
  { f with
    visible := applyBytes f.visible offset data
    pending := f.pending ++ [⟨offset, data⟩] }

/-- What `fsync` leaves. -/
def flush (f : File) : File :=
  { f with durable := replay f.durable f.pending, pending := [] }

/-- A write as far as it lies below `size`. -/
def clip (size : Nat) (w : PendingWrite) : PendingWrite :=
  { w with bytes := if size ≤ w.offset then [] else w.bytes.take (size - w.offset) }

/-- What `truncate` leaves, on both images at once. -/
def truncate (f : File) (size : Nat) : File where
  durable := resize f.durable size
  visible := resize f.visible size
  pending := (f.pending.map (clip size)).filter fun w => w.bytes ≠ []

/-- What a power cut leaves when the first `kept` pending writes made it and
`torn` bytes of the one after them. -/
def crash (f : File) (kept torn : Nat) : File :=
  let image := replay f.durable (f.pending.take kept)
  let image := match f.pending[kept]? with
    | none => image
    | some w => applyBytes image w.offset (w.bytes.take torn)
  { durable := image, visible := image }

/-- What is on the platter, as a file of its own. -/
def platter (f : File) : File := { durable := f.durable, visible := f.durable }

/-- Of one more write, a power cut leaves nothing new or some first bytes. -/
theorem crash_write (x : File) (w : PendingWrite) (kept torn : Nat) :
    (x.write w.offset w.bytes).crash kept torn = x.crash kept torn ∨
      ∃ n, ((x.write w.offset w.bytes).crash kept torn).visible =
        applyBytes (replay x.durable x.pending) w.offset (w.bytes.take n) := by
  have hp : (x.write w.offset w.bytes).pending = x.pending ++ [w] := rfl
  have hd : (x.write w.offset w.bytes).durable = x.durable := rfl
  rcases lt_trichotomy kept x.pending.length with hlt | rfl | hgt
  · refine .inl ?_
    simp only [crash, hp, hd, List.take_append_of_le_length hlt.le,
      List.getElem?_append_left hlt]
  · refine .inr ⟨torn, ?_⟩
    have hget : (x.pending ++ [w])[x.pending.length]? = some w := List.getElem?_concat_length
    simp only [crash, hp, hd, List.take_left, hget]
  · refine .inr ⟨w.bytes.length, ?_⟩
    have hlen : (x.pending ++ [w]).length ≤ kept := by
      rw [List.length_append, List.length_singleton]
      exact hgt
    have hlast : replay (replay x.durable x.pending) [w] =
        applyBytes (replay x.durable x.pending) w.offset w.bytes := rfl
    simp only [crash, hp, hd, List.take_of_length_le hlen, List.getElem?_eq_none hlen,
      replay_append, hlast, List.take_length]

/-- A power cut that all the writes survive. -/
theorem crash_all (x : File) (torn : Nat) :
    (x.crash x.pending.length torn).visible = replay x.durable x.pending := by
  simp only [crash, List.take_length, List.getElem?_eq_none le_rfl]

theorem crash_of_pending {x : File} (h : x.pending = []) (kept torn : Nat) :
    (x.crash kept torn).visible = x.durable := by
  simp [crash, h, replay]

end File

/-! ## The disk and its operations -/

structure Disk where
  files : AList fun _ : FileName => File := ∅
  /-- How many operations have been tried. -/
  clock : Nat := 0

/-- A program that talks to a disk. -/
abbrev DiskM := EStateM ErrorCode Disk

namespace Disk

def file (d : Disk) (f : FileName) : Option File := d.files.lookup f

def put (d : Disk) (f : FileName) (file : File) : Disk :=
  { d with files := d.files.insert f file }

/-- `kMaxFileBytes`. -/
def kMaxFileBytes : Nat := 0x40000000

section Operations

variable [Faults]

/-- An operation is tried: refused without effect, or carried out. -/
def attemptOp (op : Operation) : DiskM Unit := fun d =>
  let d' := { d with clock := d.clock + 1 }
  if Faults.refuses d.clock op then .error .ioError d' else .ok () d'

/-- `resolve`. -/
def resolve (f : FileName) : DiskM File := fun d =>
  match d.file f with
  | none => .error .notFound d
  | some file => .ok file d

/-- The file is replaced by `file`. -/
def store (f : FileName) (file : File) : DiskM Unit := fun d => .ok () (d.put f file)

/-- `open` with `kCreate`: never truncates. -/
def openCreate (f : FileName) : DiskM Unit := do
  attemptOp .open
  let found ← attempt (resolve f)
  match found with
  | .ok _ => return ()
  | .error _ => store f {}

/-- `open` with `kRead`. -/
def openRead (f : FileName) : DiskM Unit := do
  attemptOp .open
  let _ ← resolve f
  return ()

/-- A write is refused: some first bytes of it may be in the file. -/
def refuseWrite (f : FileName) (file : File) (data : Bytes) (offset : Nat) (e : ErrorCode) :
    DiskM Nat := do
  if data = [] then throw e else
  store f (file.write offset data)
  throw e

/-- `pwrite`: what it returns is all of the data, or an error. -/
def pwrite (f : FileName) (data : Bytes) (offset : Nat) : DiskM Nat := do
  let file ← resolve f
  let d ← get
  match ← attempt (attemptOp .pwrite) with
  | .error e => refuseWrite f file (data.take (Faults.written d.clock)) offset e
  | .ok _ =>
      if data = [] then return 0 else
      if kMaxFileBytes < offset + data.length then throw .invalidArgument else
      store f (file.write offset data)
      return data.length

/-- `pread`: short at the end of the file. -/
def pread (f : FileName) (count offset : Nat) : DiskM Bytes := do
  let file ← resolve f
  attemptOp .pread
  return subslice file.visible offset count

def fsync (f : FileName) : DiskM Unit := do
  let file ← resolve f
  attemptOp .fsync
  store f file.flush

def truncate (f : FileName) (size : Nat) : DiskM Unit := do
  let file ← resolve f
  attemptOp .truncate
  if kMaxFileBytes < size then throw .invalidArgument else
  store f (file.truncate size)

def size (f : FileName) : DiskM Nat := do
  let file ← resolve f
  attemptOp .size
  return file.visible.length

def remove (f : FileName) : DiskM Unit := do
  attemptOp .remove
  let _ ← resolve f
  modify fun d => { d with files := d.files.erase f }

/-- `make_directories`: the data directory is there, or is made. -/
def makeDirectories : DiskM Unit := attemptOp .makeDirectories

/-- `list_directory`. -/
def listDirectory : DiskM (List FileName) := do
  attemptOp .listDirectory
  let d ← get
  return d.files.keys

end Operations

/-- Every file of the disk changed by `g`. -/
def mapFiles (d : Disk) (g : FileName → File → File) : Disk where
  files := (d.files.entries.map fun e => ⟨e.1, g e.1 e.2⟩ : List (Σ _ : FileName, File)).toAList
  clock := d.clock

/-- `crash`, with how much of each file's pending writes is kept. -/
def crash (d : Disk) (kept torn : FileName → Nat) : Disk :=
  d.mapFiles fun f file => file.crash (kept f) (torn f)

/-- The disk as its platter alone would be read. -/
def platter (d : Disk) : Disk := d.mapFiles fun _ file => file.platter

/-- Every file of the disk has been flushed. -/
def fsyncAll (d : Disk) : Disk := d.mapFiles fun _ file => file.flush

/-- The disk without the other files. -/
def keepFiles (d : Disk) (keep : FileName → Bool) : Disk where
  files := (d.files.entries.filter fun e => keep e.1).toAList
  clock := d.clock

/-- The disk with its index sidecars removed. -/
def withoutSidecars (d : Disk) : Disk := d.keepFiles fun f => !f.isIndex

/-! ## What the operations do -/

theorem file_put (d : Disk) (f : FileName) (file : File) :
    (d.put f file).file = Function.update d.file f (some file) := by
  funext g
  by_cases hg : g = f
  · subst hg
    rw [Function.update_self]
    exact AList.lookup_insert _
  · rw [Function.update_of_ne hg]
    exact AList.lookup_insert_ne hg

theorem file_erase (d : Disk) (f : FileName) :
    ({ d with files := d.files.erase f } : Disk).file = Function.update d.file f none := by
  funext g
  by_cases hg : g = f
  · subst hg
    rw [Function.update_self]
    exact AList.lookup_erase _ _
  · rw [Function.update_of_ne hg]
    exact AList.lookup_erase_ne hg

theorem file_mapFiles (d : Disk) (g : FileName → File → File) (f : FileName) :
    (d.mapFiles g).file f = (d.file f).map (g f) := by
  have key : ∀ l : List (Σ _ : FileName, File),
      (l.map fun e => (⟨e.1, g e.1 e.2⟩ : Σ _ : FileName, File)).dlookup f =
        (l.dlookup f).map (g f) := by
    intro l
    induction l with
    | nil => rfl
    | cons e l ih =>
        obtain ⟨k, file⟩ := e
        by_cases hk : k = f
        · subst hk
          simp
        · have hk' : f ≠ k := Ne.symm hk
          rw [List.map_cons, List.dlookup_cons_ne _ _ hk', List.dlookup_cons_ne _ _ hk', ih]
  unfold mapFiles file
  rw [AList.lookup_to_alist, key]
  rfl

private theorem file_keepFiles (d : Disk) (keep : FileName → Bool) (f : FileName) :
    (d.keepFiles keep).file f = if keep f then d.file f else none := by
  have key : ∀ l : List (Σ _ : FileName, File),
      (l.filter fun e => keep e.1).dlookup f = if keep f then l.dlookup f else none := by
    intro l
    induction l with
    | nil => exact (ite_self _).symm
    | cons e l ih =>
        obtain ⟨k, file⟩ := e
        by_cases hk : k = f
        · subst hk
          cases hkeep : keep k with
          | true => simp [hkeep]
          | false =>
              rw [hkeep] at ih
              simpa [List.filter_cons, hkeep] using ih
        · have hk' : f ≠ k := Ne.symm hk
          rw [List.filter_cons, List.dlookup_cons_ne _ _ hk', ← ih]
          split
          · exact List.dlookup_cons_ne _ _ hk'
          · rfl
  unfold keepFiles file
  rw [AList.lookup_to_alist, key]
  rfl

theorem withoutSidecars_index (d : Disk) (b : Nat) : d.withoutSidecars.file (.index b) = none :=
  file_keepFiles d _ _

theorem withoutSidecars_log (d : Disk) (b : Nat) :
    d.withoutSidecars.file (.log b) = d.file (.log b) :=
  file_keepFiles d _ _

section Specs

variable [Faults] {d : Disk} {f : FileName} {x : File}

/-- Some operation of this kind is refused. -/
def Refuses (op : Operation) : Prop := ∃ n, Faults.refuses n op = true

omit [Faults] in
theorem not_refuses_healthy (op : Operation) : ¬ @Refuses healthy op := fun ⟨_, h⟩ =>
  Bool.noConfusion h

theorem attemptOp_sat (op : Operation) (d : Disk) :
    Sat (attemptOp op d) (fun _ t => t.file = d.file)
      (fun t => t.file = d.file ∧ Refuses op) := by
  unfold attemptOp
  dsimp only
  split
  case isTrue h => exact ⟨rfl, _, h⟩
  case isFalse h => exact rfl

omit [Faults] in
private theorem resolve_sat (h : d.file f = some x) :
    Sat (resolve f d) (fun y t => y = x ∧ t = d) (fun _ => False) := by
  unfold resolve
  rw [h]
  exact ⟨rfl, rfl⟩

theorem openCreate_sat (f : FileName) (d : Disk) :
    Sat (openCreate f d)
      (fun _ t => t.file = Function.update d.file f (some ((d.file f).getD {})))
      (fun t => t.file = d.file ∧ Refuses .open) := by
  refine (attemptOp_sat .open d).bind fun _ t ht => ?_
  cases hf : d.file f with
  | none =>
      have hr : resolve f t = .error .notFound t := by simp [resolve, ht, hf]
      show Sat ((attempt (resolve f) >>= _) t) _ _
      simp only [bind, EStateM.bind, attempt, hr]
      exact (file_put t f {}).trans (by rw [ht]; rfl)
  | some x =>
      have hr : resolve f t = .ok x t := by simp [resolve, ht, hf]
      show Sat ((attempt (resolve f) >>= _) t) _ _
      simp only [bind, EStateM.bind, attempt, hr]
      show t.file = _
      rw [ht, Option.getD_some, ← hf, Function.update_eq_self]

theorem openRead_sat (f : FileName) (d : Disk) :
    Sat (openRead f d) (fun _ t => t.file = d.file ∧ (d.file f).isSome)
      (fun t => t.file = d.file) := by
  refine ((attemptOp_sat .open d).mono (fun _ _ h => h) fun _ h => h.1).bind fun _ t ht => ?_
  simp only [bind, EStateM.bind, resolve, ht]
  cases hf : d.file f with
  | none => exact ht
  | some x => exact ⟨ht, rfl⟩

/-- An operation on a file that is there: refused, or carried out. -/
private theorem resolve_attempt_sat {α : Type} {op : Operation} {k : File → DiskM α}
    {Q : α → Disk → Prop} {E : Disk → Prop} (h : d.file f = some x)
    (hk : ∀ t : Disk, t.file = d.file → Sat (k x t) Q E)
    (hE : ∀ t : Disk, t.file = d.file → Refuses op → E t) :
    Sat ((do
      let file ← resolve f
      attemptOp op
      k file : DiskM α) d) Q E := by
  refine ((resolve_sat h).mono (fun _ _ h => h) (fun _ hf => hf.elim)).bind ?_
  rintro _ _ ⟨rfl, rfl⟩
  exact ((attemptOp_sat op _).mono (fun _ _ h => h) fun t ht => hE t ht.1 ht.2).bind
    fun _ t ht => hk t ht

/-- What a refused write of `data` may leave of a file. -/
inductive Attempted (x : File) (offset : Nat) (data : Bytes) : File → Prop
  | none : Attempted x offset data x
  | some (k : Nat) (ha : ¬ Faults.Atomic ‹_›) (hne : data.take k ≠ []) :
      Attempted x offset data (x.write offset (data.take k))

theorem pwrite_sat (h : d.file f = some x) {data : Bytes} (hne : data ≠ []) (offset : Nat) :
    Sat (pwrite f data offset d)
      (fun n t => n = data.length ∧ offset + data.length ≤ kMaxFileBytes ∧
        t.file = Function.update d.file f (some (x.write offset data)))
      (fun t => ∃ y, t.file = Function.update d.file f (some y) ∧
        Attempted x offset data y) := by
  have hsame : ∀ {t : Disk}, t.file = d.file → t.file = Function.update d.file f (some x) := by
    intro t ht
    rw [ht, ← h, Function.update_eq_self]
  refine ((resolve_sat h).mono (fun _ _ h => h) (fun _ hf => hf.elim)).bind ?_
  rintro y u ⟨rfl, rfl⟩
  refine (Sat.attempt (R := fun _ t => t.file = u.file)
    ((attemptOp_sat .pwrite u).mono (fun _ _ h => h) fun _ h _ => h.1)).bind fun found t ht => ?_
  cases found with
  | error e =>
      refine Sat.ite (fun _ => ⟨y, hsame ht, .none⟩) fun hsome => ?_
      refine ⟨y.write offset (data.take (Faults.written u.clock)), ?_, .some _ ?_ hsome⟩
      · rw [← ht]
        exact file_put _ _ _
      · intro ha
        rw [ha] at hsome
        exact hsome rfl
  | ok _ =>
      dsimp only
      rw [if_neg hne]
      refine Sat.ite (fun _ => ⟨y, hsame ht, .none⟩) fun hfits => ?_
      exact ⟨rfl, Nat.not_lt.1 hfits, by rw [file_put, ht]⟩

/-- A write that is not refused and fits into a file is carried out. -/
theorem pwrite_fits (hno : ¬ Refuses .pwrite) (h : d.file f = some x) {data : Bytes}
    (hne : data ≠ []) {offset : Nat} (hcap : offset + data.length ≤ kMaxFileBytes) :
    Sat (pwrite f data offset d)
      (fun n t => n = data.length ∧
        t.file = Function.update d.file f (some (x.write offset data)))
      (fun _ => False) := by
  refine ((resolve_sat h).mono (fun _ _ h => h) (fun _ hf => hf.elim)).bind ?_
  rintro y u ⟨rfl, rfl⟩
  refine (Sat.attempt (R := fun r t => r = .ok () ∧ t.file = u.file)
    ((attemptOp_sat .pwrite u).mono (fun _ _ ht => ⟨rfl, ht⟩) fun _ ht => absurd ht.2 hno)).bind ?_
  rintro _ t ⟨rfl, ht⟩
  dsimp only
  rw [if_neg hne, if_neg (Nat.not_lt.2 hcap)]
  exact ⟨rfl, by rw [file_put, ht]⟩

theorem pread_sat (h : d.file f = some x) (count offset : Nat) :
    Sat (pread f count offset d)
      (fun bytes t => t.file = d.file ∧ bytes = subslice x.visible offset count)
      (fun t => t.file = d.file ∧ Refuses .pread) :=
  resolve_attempt_sat h (fun _ ht => ⟨ht, rfl⟩) fun _ ht hr => ⟨ht, hr⟩

theorem fsync_sat (h : d.file f = some x) :
    Sat (fsync f d) (fun _ t => t.file = Function.update d.file f (some x.flush))
      (fun t => t.file = d.file ∧ Refuses .fsync) := by
  refine resolve_attempt_sat h (fun t ht => ?_) fun _ ht hr => ⟨ht, hr⟩
  exact (file_put t f _).trans (by rw [ht])

theorem truncate_ends (h : d.file f = some x) (size : Nat) :
    Ends (truncate f size d)
      (fun _ t => size ≤ kMaxFileBytes ∧
        t.file = Function.update d.file f (some (x.truncate size)))
      (fun e t => t.file = d.file ∧
        (Refuses .truncate ∨ e = .invalidArgument ∧ kMaxFileBytes < size)) := by
  refine (Ends.of_sat (resolve_sat h) fun _ _ hf => hf.elim).bind ?_
  rintro y u ⟨rfl, rfl⟩
  refine (Ends.of_sat (attemptOp_sat .truncate u) fun _ t ht => ⟨ht.1, .inl ht.2⟩).bind
    fun _ t ht => Ends.ite (fun hlt => ⟨ht, .inr ⟨rfl, hlt⟩⟩) fun hle => ⟨Nat.not_lt.1 hle, ?_⟩
  exact (file_put t f _).trans (by rw [ht])

theorem size_sat (h : d.file f = some x) :
    Sat (size f d) (fun n t => t.file = d.file ∧ n = x.visible.length)
      (fun t => t.file = d.file ∧ Refuses .size) :=
  resolve_attempt_sat h (fun _ ht => ⟨ht, rfl⟩) fun _ ht hr => ⟨ht, hr⟩

theorem remove_sat (f : FileName) (d : Disk) :
    Sat (remove f d) (fun _ t => t.file = Function.update d.file f none)
      (fun t => t.file = d.file ∧ (Refuses .remove ∨ d.file f = none)) := by
  refine ((attemptOp_sat .remove d).mono (fun _ _ h => h) fun _ h => ⟨h.1, .inl h.2⟩).bind
    fun _ t ht => ?_
  simp only [bind, EStateM.bind, resolve, ht]
  cases hf : d.file f with
  | none => exact ⟨ht, .inr rfl⟩
  | some x => exact (file_erase t f).trans (by rw [ht])

theorem listDirectory_sat (d : Disk) :
    Sat (listDirectory d)
      (fun names t => t.file = d.file ∧ names.Nodup ∧
        ∀ f, f ∈ names ↔ (d.file f).isSome)
      (fun t => t.file = d.file ∧ Refuses .listDirectory) := by
  refine (attemptOp_sat .listDirectory d).bind fun _ t ht => ?_
  refine ⟨ht, t.files.keys_nodup, fun f => ?_⟩
  rw [← ht, ← AList.mem_keys]
  exact AList.lookup_isSome.symm

end Specs

/-! ## What the operations leave alone -/

/-- The file `g` is as it was. -/
def Untouched (g : FileName) (d t : Disk) : Prop := t.file g = d.file g

namespace Untouched

variable {g : FileName}

theorem refl (d : Disk) : Untouched g d d := rfl

theorem trans {d t u : Disk} (h : Untouched g d t) (h' : Untouched g t u) :
    Untouched g d u :=
  Eq.trans h' h

/-- A program that leaves every file leaves the disk. -/
theorem sat {α : Type} {p : DiskM α} (h : ∀ g, Keeps (Untouched g) p) (d : Disk) :
    Sat (p d) (fun _ t => t.file = d.file) (fun t => t.file = d.file) :=
  (Keeps.forall_ h d).mono (fun _ _ ht => funext ht) fun _ ht => funext ht

theorem pure {α : Type} (a : α) : Keeps (Untouched g) (Pure.pure a : DiskM α) :=
  Keeps.pure refl a

theorem throw {α : Type} (e : ErrorCode) :
    Keeps (Untouched g) (MonadExcept.throw e : DiskM α) :=
  Keeps.throw refl e

theorem bind {α β : Type} {x : DiskM α} {k : α → DiskM β} (hx : Keeps (Untouched g) x)
    (hk : ∀ a, Keeps (Untouched g) (k a)) : Keeps (Untouched g) (x >>= k) :=
  Keeps.bind (R := Untouched g) trans hx hk

private theorem resolve (f : FileName) : Keeps (Untouched g) (resolve f) := by
  intro d
  unfold Disk.resolve
  split <;> exact refl d

private theorem store {f : FileName} (h : g ≠ f) (x : File) : Keeps (Untouched g) (store f x) := by
  intro d
  show (d.put f x).file g = d.file g
  rw [file_put, Function.update_of_ne h]

section Operations

variable [Faults]

theorem attemptOp (op : Operation) : Keeps (Untouched g) (attemptOp op) :=
  fun d => (attemptOp_sat op d).mono (fun _ _ h => congrFun h g) fun _ h => congrFun h.1 g

theorem openCreate {f : FileName} (h : g ≠ f) : Keeps (Untouched g) (openCreate f) := by
  refine bind (attemptOp _) fun _ => bind (Keeps.attempt (resolve f)) fun found => ?_
  cases found with
  | ok _ => exact pure _
  | error _ => exact store h _

theorem openRead (f : FileName) : Keeps (Untouched g) (openRead f) :=
  bind (attemptOp _) fun _ => bind (resolve f) fun _ => pure _

theorem pread (f : FileName) (count offset : Nat) :
    Keeps (Untouched g) (pread f count offset) :=
  bind (resolve f) fun _ => bind (attemptOp _) fun _ => pure _

theorem size (f : FileName) : Keeps (Untouched g) (size f) :=
  bind (resolve f) fun _ => bind (attemptOp _) fun _ => pure _

theorem pwrite {f : FileName} (h : g ≠ f) (data : Bytes) (offset : Nat) :
    Keeps (Untouched g) (pwrite f data offset) := by
  refine bind (resolve f) fun file => bind (fun d => refl d) fun d =>
    bind (Keeps.attempt (attemptOp _)) fun found => ?_
  cases found with
  | error e => exact Keeps.ite (throw _) (bind (store h _) fun _ => throw _)
  | ok _ => exact Keeps.ite (pure _) (Keeps.ite (throw _) (bind (store h _) fun _ => pure _))

theorem fsync {f : FileName} (h : g ≠ f) : Keeps (Untouched g) (fsync f) :=
  bind (resolve f) fun _ => bind (attemptOp _) fun _ => store h _

theorem truncate {f : FileName} (h : g ≠ f) (size : Nat) :
    Keeps (Untouched g) (truncate f size) :=
  bind (resolve f) fun _ => bind (attemptOp _) fun _ => Keeps.ite (throw _) (store h _)

theorem remove {f : FileName} (h : g ≠ f) : Keeps (Untouched g) (remove f) := by
  refine bind (attemptOp _) fun _ => bind (resolve f) fun _ => fun d => ?_
  show ({ d with files := d.files.erase f } : Disk).file g = d.file g
  rw [file_erase, Function.update_of_ne h]

theorem listDirectory : Keeps (Untouched g) listDirectory :=
  bind (attemptOp _) fun _ d => refl d

end Operations

end Untouched

end Disk

end LogEngine.Io
