import LogEngine.Base.Buffer
import LogEngine.Io.Disk

/-!
# Frames on a connection

`src/wire/frame.cpp`: a frame is its length in four bytes, eight bytes of header and the
payload, and the decoder peeks at the frame at the front of a read buffer before it is
consumed.

`stream fs` is what frames `fs` are on a connection, one behind the other.  A buffer that
holds the first part of a stream of frames within the decoder's limit is never refused:

* `next_of_frame`: when the first frame is complete, `next` hands it out as it was sent;
* `next_of_torn`: when it is not, `next` waits for more.
-/

namespace LogEngine.Wire

open Base Io

def kLengthFieldBytes : Nat := 4
def kHeaderBytes : Nat := 8
def kFramePrefixBytes : Nat := kLengthFieldBytes + kHeaderBytes

/-- `kDefaultMaxFrameBytes`: 16 MiB. -/
def kDefaultMaxFrameBytes : UInt32 := 16 * 1024 * 1024

/-- `ApiKey`, an `enum class` over 16 bits: `next` casts any number to it. -/
abbrev ApiKey := UInt16

def ApiKey.kRequestVote : ApiKey := 100
def ApiKey.kAppendEntries : ApiKey := 101

def kApiVersion0 : UInt16 := 0

/-- `is_broker_api`. -/
def isBrokerApi (key : ApiKey) : Bool := 100 ≤ key && key < 1000

structure FrameHeader where
  apiKey : ApiKey
  apiVersion : UInt16
  correlationId : UInt32
  deriving DecidableEq, Repr

/-- What `send` is given and `next` hands out. -/
@[ext]
structure Frame where
  header : FrameHeader
  payload : Bytes
  deriving DecidableEq, Repr

/-- `encode_frame`. -/
def encodeFrame (out : Buffer) (header : FrameHeader) (payload : Bytes) : Buffer :=
  let length := (kHeaderBytes + payload.length) % 0x100000000
  ((((out.appendLe 4 length).appendLe 2 header.apiKey.toNat).appendLe 2
    header.apiVersion.toNat).appendLe 4 header.correlationId.toNat).append payload

structure FrameDecoder where
  maxFrameBytes : UInt32 := kDefaultMaxFrameBytes
  deriving DecidableEq, Repr

namespace FrameDecoder

/-- `FrameDecoder::next`: `none` is the source's `false`. -/
def next (d : FrameDecoder) (buf : Buffer) : Except ErrorCode (Option Frame) :=
  if buf.size < kLengthFieldBytes then .ok none
  else
    let length := field buf.contents 0 4
    if length < kHeaderBytes then .error .invalidRequest
    else if d.maxFrameBytes.toNat < length then .error .messageTooLarge
    else if buf.size < kLengthFieldBytes + length then .ok none
    else
      .ok (some
        { header :=
            { apiKey := UInt16.ofNat (field buf.contents kLengthFieldBytes 2)
              apiVersion := UInt16.ofNat (field buf.contents (kLengthFieldBytes + 2) 2)
              correlationId := UInt32.ofNat (field buf.contents (kLengthFieldBytes + 4) 4) }
          payload := subslice buf.contents kFramePrefixBytes (length - kHeaderBytes) })

/-- `FrameDecoder::consume_frame`. -/
def consumeFrame (buf : Buffer) : Buffer :=
  if buf.size < kLengthFieldBytes then buf
  else
    let total := kLengthFieldBytes + field buf.contents 0 4
    if h : buf.size < total then buf else buf.consume total (Nat.not_lt.1 h)

end FrameDecoder

/-! ## The bytes of a frame -/

namespace Frame

/-- The decoder's limit allows the frame. -/
def Fits (d : FrameDecoder) (f : Frame) : Prop :=
  kHeaderBytes + f.payload.length ≤ d.maxFrameBytes.toNat

instance (d : FrameDecoder) (f : Frame) : Decidable (f.Fits d) := Nat.decLe _ _

/-- What `encode_frame` appends. -/
def bytes (f : Frame) : Bytes :=
  storeLe 4 ((kHeaderBytes + f.payload.length) % 0x100000000) ++
    (storeLe 2 f.header.apiKey.toNat ++ (storeLe 2 f.header.apiVersion.toNat ++
      (storeLe 4 f.header.correlationId.toNat ++ f.payload)))

theorem bytes_length (f : Frame) : f.bytes.length = kFramePrefixBytes + f.payload.length := by
  simp only [bytes, List.length_append, storeLe_length, kFramePrefixBytes, kLengthFieldBytes,
    kHeaderBytes]
  omega

variable {d : FrameDecoder} {f : Frame}

/-- A length that fits is not cut off at 32 bits. -/
theorem Fits.mod_eq (h : f.Fits d) :
    (kHeaderBytes + f.payload.length) % 0x100000000 = kHeaderBytes + f.payload.length := by
  apply Nat.mod_eq_of_lt
  have := d.maxFrameBytes.toNat_lt
  unfold Fits at h
  omega

theorem Fits.length_field (h : f.Fits d) :
    field f.bytes 0 4 = kHeaderBytes + f.payload.length := by
  have hlt : kHeaderBytes + f.payload.length < 256 ^ 4 := by
    have := d.maxFrameBytes.toNat_lt
    unfold Fits at h
    omega
  rw [bytes, h.mod_eq, field_append_left (by simp), field_storeLe hlt]

private theorem apiKey_field (f : Frame) : UInt16.ofNat (field f.bytes 4 2) = f.header.apiKey := by
  have hlt : f.header.apiKey.toNat < 256 ^ 2 := f.header.apiKey.toNat_lt
  rw [bytes, field_append_right (by simp), field_append_left (by simp)]
  simp only [storeLe_length, Nat.sub_self]
  rw [field_storeLe hlt, UInt16.ofNat_toNat]

private theorem apiVersion_field (f : Frame) :
    UInt16.ofNat (field f.bytes 6 2) = f.header.apiVersion := by
  have hlt : f.header.apiVersion.toNat < 256 ^ 2 := f.header.apiVersion.toNat_lt
  rw [bytes, field_append_right (by simp), field_append_right (by simp),
    field_append_left (by simp)]
  simp only [storeLe_length, Nat.reduceSub]
  rw [field_storeLe hlt, UInt16.ofNat_toNat]

private theorem correlationId_field (f : Frame) :
    UInt32.ofNat (field f.bytes 8 4) = f.header.correlationId := by
  have hlt : f.header.correlationId.toNat < 256 ^ 4 := f.header.correlationId.toNat_lt
  rw [bytes, field_append_right (by simp), field_append_right (by simp),
    field_append_right (by simp), field_append_left (by simp)]
  simp only [storeLe_length, Nat.reduceSub]
  rw [field_storeLe hlt, UInt32.ofNat_toNat]

private theorem payload_subslice (f : Frame) :
    subslice f.bytes kFramePrefixBytes f.payload.length = f.payload := by
  have h12 : kFramePrefixBytes = 12 := rfl
  rw [bytes, h12, subslice_append_right (by simp), subslice_append_right (by simp),
    subslice_append_right (by simp), subslice_append_right (by simp)]
  simp only [storeLe_length, Nat.reduceSub]
  exact subslice_all le_rfl

end Frame

@[simp] theorem contents_encodeFrame (out : Buffer) (header : FrameHeader) (payload : Bytes) :
    (encodeFrame out header payload).contents = out.contents ++ Frame.bytes ⟨header, payload⟩ := by
  simp only [encodeFrame, Buffer.appendLe, Buffer.contents_append, Frame.bytes, List.append_assoc]

/-- The frames on a connection, one behind the other. -/
def stream (fs : List Frame) : Bytes := fs.flatMap Frame.bytes

@[simp] theorem stream_nil : stream [] = [] := rfl

@[simp] theorem stream_cons (f : Frame) (fs : List Frame) :
    stream (f :: fs) = f.bytes ++ stream fs := List.flatMap_cons

@[simp] theorem stream_append (fs gs : List Frame) :
    stream (fs ++ gs) = stream fs ++ stream gs := List.flatMap_append

/-! ## The decoder on a stream -/

namespace FrameDecoder

variable {d : FrameDecoder} {f : Frame} {buf : Buffer}

/-- The sizes of a buffer with a complete frame at the front. -/
private theorem sizes_of_frame (hfit : f.Fits d) {tail : Bytes}
    (h : buf.contents = f.bytes ++ tail) : f.bytes.length = 12 + f.payload.length ∧
      buf.size = 12 + f.payload.length + tail.length ∧
      field buf.contents 0 4 = 8 + f.payload.length := by
  have hbytes : f.bytes.length = 12 + f.payload.length := f.bytes_length
  refine ⟨hbytes, ?_, ?_⟩
  · rw [← Buffer.contents_length, h, List.length_append, hbytes]
  · rw [h, field_append_left (by omega)]
    exact hfit.length_field

/-- A complete frame at the front is handed out. -/
theorem next_of_frame (hfit : f.Fits d) {tail : Bytes} (h : buf.contents = f.bytes ++ tail) :
    d.next buf = .ok (some f) := by
  obtain ⟨hbytes, hsize, hlength⟩ := sizes_of_frame hfit h
  have hmax : 8 + f.payload.length ≤ d.maxFrameBytes.toNat := hfit
  have hframe : (⟨⟨UInt16.ofNat (field buf.contents 4 2), UInt16.ofNat (field buf.contents 6 2),
      UInt32.ofNat (field buf.contents 8 4)⟩,
      subslice buf.contents kFramePrefixBytes f.payload.length⟩ : Frame) = f := by
    rw [h, field_append_left (by omega), field_append_left (by omega),
      field_append_left (by omega), subslice_append_left (by
        rw [hbytes]
        exact le_rfl),
      f.apiKey_field, f.apiVersion_field, f.correlationId_field, f.payload_subslice]
  simp only [next, hlength, kLengthFieldBytes, kHeaderBytes, Nat.add_sub_cancel_left]
  rw [if_neg (by omega), if_neg (by omega), if_neg (by omega), if_neg (by omega), hframe]

/-- For the rest of a frame the decoder waits. -/
theorem next_of_torn (hfit : f.Fits d) {tail : Bytes} (h : buf.contents ++ tail = f.bytes)
    (htail : tail ≠ []) : d.next buf = .ok none := by
  unfold next
  by_cases hshort : buf.size < kLengthFieldBytes
  · rw [if_pos hshort]
  · have hfour : 4 ≤ buf.contents.length := by
      rw [Buffer.contents_length]
      exact Nat.not_lt.1 hshort
    have hlength : field buf.contents 0 4 = 8 + f.payload.length := by
      rw [← field_append_left (b := tail) (by omega), h]
      exact hfit.length_field
    have hmax : 8 + f.payload.length ≤ d.maxFrameBytes.toNat := hfit
    have htorn : buf.size + tail.length = 12 + f.payload.length := by
      rw [← Buffer.contents_length, ← List.length_append, h]
      exact f.bytes_length
    have hpos := List.length_pos_of_ne_nil htail
    simp only [hlength, kLengthFieldBytes, kHeaderBytes] at *
    rw [if_neg hshort, if_neg (by omega), if_neg (by omega), if_pos (by omega)]

theorem next_of_empty (h : buf.contents = []) : d.next buf = .ok none := by
  have hsize : buf.size = 0 := (Buffer.contents_eq_nil buf).1 h
  unfold next
  rw [if_pos]
  rw [hsize]
  exact Nat.zero_lt_succ 3

/-- `consume_frame` drops the frame that `next` handed out. -/
theorem contents_consumeFrame (hfit : f.Fits d) {tail : Bytes}
    (h : buf.contents = f.bytes ++ tail) : (consumeFrame buf).contents = tail := by
  obtain ⟨hbytes, hsize, hlength⟩ := sizes_of_frame hfit h
  have htotal : kLengthFieldBytes + field buf.contents 0 4 = f.bytes.length := by
    rw [hlength, hbytes, kLengthFieldBytes]
    omega
  have hfour : kLengthFieldBytes = 4 := rfl
  unfold consumeFrame
  rw [if_neg (by omega), dif_neg (by omega), Buffer.contents_consume, htotal, h, List.drop_left]

/-- What `next` says of a buffer that holds the first part of a stream: the first frame
when it is complete, and otherwise that there is none yet. -/
theorem next_of_stream {rest : List Frame} {more : Bytes} (hfits : ∀ f ∈ rest, f.Fits d)
    (h : buf.contents ++ more = stream rest) :
    (d.next buf = .ok none ∧ (more = [] → rest = [])) ∨
      ∃ f tail behind, rest = f :: tail ∧ buf.contents = f.bytes ++ behind ∧
        behind ++ more = stream tail ∧ d.next buf = .ok (some f) := by
  cases rest with
  | nil =>
      left
      rw [stream_nil, List.append_eq_nil_iff] at h
      exact ⟨next_of_empty h.1, fun _ => rfl⟩
  | cons f tail =>
      have hfit : f.Fits d := hfits f List.mem_cons_self
      rw [stream_cons] at h
      -- either the frame ends inside the buffer or the buffer inside the frame
      rcases List.append_eq_append_iff.1 h with ⟨missing, hbytes, hmore⟩ | ⟨behind, hbuf, htail⟩
      · by_cases hmissing : missing = []
        · right
          subst hmissing
          rw [List.append_nil] at hbytes
          have hfull : buf.contents = f.bytes ++ [] := by rw [hbytes, List.append_nil]
          exact ⟨f, tail, [], rfl, hfull, hmore, next_of_frame hfit hfull⟩
        · left
          constructor
          · exact next_of_torn hfit hbytes.symm hmissing
          · intro hnil
            rw [hmore, List.append_eq_nil_iff] at hnil
            exact absurd hnil.1 hmissing
      · right
        exact ⟨f, tail, behind, rfl, hbuf, htail.symm, next_of_frame hfit hbuf⟩

end FrameDecoder

end LogEngine.Wire
