import LogEngine.Base.Bytes

/-!
# The stream buffer

`src/base/buffer.h`: bytes are appended at the back and consumed from the front.  The
consumed part stays in the vector until it is half of it, so a `Buffer` is a vector and
a read position, and what it holds is what is behind the position (`Buffer.contents`).

The assertions of the source are hypotheses of the operations that make them.

* `contents_consume`, `contents_append`: a buffer is a queue of bytes, whether or not an
  operation compacts it;
* `receive_eq_append`: growing the buffer, reading into the room and giving the rest
  back appends what was read.
-/

namespace LogEngine.Base

/-- `Buffer`. -/
@[ext]
structure Buffer where
  bytes : Bytes
  readPos : Nat
  readPos_le : readPos ≤ bytes.length
  deriving DecidableEq

namespace Buffer

/-- A buffer that was just made. -/
def empty : Buffer := ⟨[], 0, le_rfl⟩

variable (b : Buffer)

/-- `slice`: the bytes from `data()` on. -/
def contents : Bytes := b.bytes.drop b.readPos

def size : Nat := b.bytes.length - b.readPos

@[simp] theorem contents_length : b.contents.length = b.size := List.length_drop

theorem contents_eq_nil : b.contents = [] ↔ b.size = 0 := by
  rw [← List.length_eq_zero_iff, contents_length]

/-- `compact`: the consumed part is given back. -/
def compact : Buffer := ⟨b.bytes.drop b.readPos, 0, Nat.zero_le _⟩

/-- The end of `consume`: when all is consumed the vector is cleared, and it is compacted
when the consumed part is half of it. -/
def reclaim : Buffer :=
  if b.readPos = b.bytes.length then empty
  else if b.bytes.length ≤ b.readPos * 2 then b.compact
  else b

/-- `consume`. -/
def consume (n : Nat) (h : n ≤ b.size) : Buffer :=
  reclaim ⟨b.bytes, b.readPos + n, by
    have := b.readPos_le
    unfold size at h
    omega⟩

/-- `append`. -/
def append (s : Bytes) : Buffer :=
  ⟨b.bytes ++ s, b.readPos, by
    have := b.readPos_le
    simp only [List.length_append]
    omega⟩

/-- `append_u16_le`, `append_u32_le`: `append_fixed` at a number of bytes. -/
def appendLe (width v : Nat) : Buffer := b.append (storeLe width v)

/-- `append_uninitialized`: the buffer has grown by `n` bytes, and the view of them begins
where the vector ended before. -/
def appendUninitialized (n : Nat) : Buffer := b.append (List.replicate n 0)

/-- What a reader does with the view: `data` is written from position `pos` on. -/
def fill (pos : Nat) (data : Bytes) : Buffer :=
  ⟨b.bytes.take pos ++ data ++ b.bytes.drop (pos + data.length), b.readPos, by
    have := b.readPos_le
    simp only [List.length_append, List.length_take, List.length_drop]
    omega⟩

/-- `shrink_by`. -/
def shrinkBy (n : Nat) (h : n ≤ b.size) : Buffer :=
  ⟨b.bytes.take (b.bytes.length - n), b.readPos, by
    have := b.readPos_le
    unfold size at h
    simp only [List.length_take]
    omega⟩

@[simp] theorem contents_compact : b.compact.contents = b.contents := rfl

private theorem contents_reclaim : b.reclaim.contents = b.contents := by
  unfold reclaim
  split
  case isTrue hall =>
    unfold contents
    rw [hall, List.drop_length]
    rfl
  case isFalse =>
    split
    · exact contents_compact b
    · rfl

/-- Consuming takes bytes off the front. -/
@[simp] theorem contents_consume {n : Nat} (h : n ≤ b.size) :
    (b.consume n h).contents = b.contents.drop n := by
  rw [consume, contents_reclaim, contents, contents, List.drop_drop]

@[simp] theorem contents_append (s : Bytes) : (b.append s).contents = b.contents ++ s := by
  unfold contents append
  exact List.drop_append_of_le_length b.readPos_le

private theorem size_appendUninitialized (n : Nat) :
    (b.appendUninitialized n).size = b.size + n := by
  rw [← contents_length, appendUninitialized, contents_append]
  simp

private theorem size_fill {pos : Nat} {data : Bytes} (h : pos + data.length ≤ b.bytes.length) :
    (b.fill pos data).size = b.size := by
  unfold size fill
  simp only [List.length_append, List.length_take, List.length_drop]
  omega

/-- One read of at most `room` bytes: `append_uninitialized`, the read itself into the
view, and `shrink_by` for what it did not fill. -/
def receive (room : Nat) (data : Bytes) (h : data.length ≤ room) : Buffer :=
  ((b.appendUninitialized room).fill b.bytes.length data).shrinkBy (room - data.length) (by
    rw [size_fill, size_appendUninitialized]
    · omega
    · simp only [appendUninitialized, append, List.length_append, List.length_replicate]
      omega)

theorem receive_eq_append {room : Nat} {data : Bytes} (h : data.length ≤ room) :
    b.receive room data h = b.append data := by
  ext1
  · have hdrop : (List.replicate room (0 : UInt8)).drop data.length
        = List.replicate (room - data.length) 0 := List.drop_replicate
    simp only [receive, shrinkBy, fill, appendUninitialized, append, List.take_left,
      List.drop_append, hdrop, Nat.add_sub_cancel_left, List.length_append,
      List.drop_of_length_le (Nat.le_add_right _ _), List.nil_append, List.length_replicate]
    exact List.take_left' (by simp only [List.length_append]; omega)
  · rfl

end Buffer

end LogEngine.Base
