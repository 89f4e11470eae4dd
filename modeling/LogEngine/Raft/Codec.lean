import LogEngine.Raft.Node
import LogEngine.Wire.Frame

/-!
# Messages between brokers

`src/raft/codec.{h,cpp}`: a header of 72 bytes, and behind it the batch that the message
carries, if it carries one.  The batch travels as it is in the log, header and checksum
included.

`decode_encodeMessage` is the round trip: a message whose fields fit the widths of the
header arrives as it was sent.  What a message says of an entry it does not carry is not
sent (`Message.bare`).  `decodeMessage_accepts` says which payloads are messages at all, and
`encode_decodeMessage` that such a payload is written again as it was, apart from what the
decoder reads past: a `granted` of more than one bit, the reserved bytes, and the entry's
fields where there is no entry.
-/

namespace LogEngine.Raft

open Base Io Wire

def kMessageHeaderBytes : Nat := 72

/-- `kNoIndex`, which is `none` here, in a field of the header. -/
def kNoIndex : Nat := 0xffffffffffffffff

/-- `message_bytes`. -/
def messageBytes (entrySize : Nat) : Nat := kMessageHeaderBytes + entrySize

/-- The numbers of the `enum class`. -/
def MessageType.code : MessageType → Nat
  | .requestVote => 1
  | .requestVoteResponse => 2
  | .appendEntries => 3
  | .appendEntriesResponse => 4

def MessageType.ofCode : Nat → Option MessageType
  | 1 => some .requestVote
  | 2 => some .requestVoteResponse
  | 3 => some .appendEntries
  | 4 => some .appendEntriesResponse
  | _ => none

theorem MessageType.ofCode_code (t : MessageType) : ofCode t.code = some t := by
  cases t <;> rfl

theorem MessageType.code_lt (t : MessageType) : t.code < 256 := by
  cases t <;> decide

/-- An index as it is read from a field. -/
def indexOf (v : Nat) : Option Nat := if v = kNoIndex then none else some v

/-! ## The codec -/

/-- The message without what it says of an entry. -/
def Message.bare (m : Message) : Message :=
  { m with entryIndex := none, entryTerm := kNoTerm, entryEnd := 0 }

/-- The header, with the size of the entry behind it. -/
def encodeFields (m : Message) (entrySize : Nat) : Bytes :=
  storeLe 1 m.type.code ++ storeLe 1 m.granted.toNat ++ storeLe 2 0 ++ storeLe 4 m.sender ++
    storeLe 4 m.target ++ storeLe 4 entrySize ++ storeLe 8 m.term ++
    storeLe 8 (indexValue m.logIndex) ++ storeLe 8 m.logTerm ++ storeLe 8 m.commitIndex ++
    storeLe 8 (indexValue m.entryIndex) ++ storeLe 8 m.entryTerm ++ storeLe 8 m.entryEnd

/-- `encode_message`: `out` is written only if it has the size of the message. -/
def encodeMessage (out : Bytes) (m : Message) (entry : Bytes) : Bytes :=
  if m.carriesEntry && !entry.isEmpty then
    if out.length ≠ messageBytes entry.length then out
    else encodeFields m entry.length ++ entry
  else if out.length ≠ messageBytes 0 then out
  else encodeFields m.bare 0

/-- The message in a header. -/
def loadMessage (type : MessageType) (payload : Bytes) : Message where
  type := type
  granted := field payload 1 1 ≠ 0
  sender := field payload 4 4
  target := field payload 8 4
  term := field payload 16 8
  logIndex := indexOf (field payload 24 8)
  logTerm := field payload 32 8
  commitIndex := field payload 40 8
  entryIndex := indexOf (field payload 48 8)
  entryTerm := field payload 56 8
  entryEnd := field payload 64 8

/-- `decode_message`: the message, and the bytes of its entry. -/
def decodeMessage (payload : Bytes) : Except ErrorCode (Message × Bytes) :=
  if payload.length < kMessageHeaderBytes then .error .invalidRequest
  else match MessageType.ofCode (field payload 0 1) with
    | none => .error .invalidRequest
    | some type =>
        if payload.length ≠ messageBytes (field payload 12 4) then .error .invalidRequest
        else if (loadMessage type payload).carriesEntry ≠ decide (field payload 12 4 ≠ 0) then
          .error .invalidRequest
        else
          .ok (loadMessage type payload,
            subslice payload kMessageHeaderBytes (field payload 12 4))

/-- `api_key_for`: a request and its response share a key. -/
def apiKeyFor : MessageType → ApiKey
  | .requestVote => .kRequestVote
  | .requestVoteResponse => .kRequestVote
  | .appendEntries => .kAppendEntries
  | .appendEntriesResponse => .kAppendEntries

/-- Messages travel under the keys of brokers. -/
theorem isBrokerApi_apiKeyFor (t : MessageType) : isBrokerApi (apiKeyFor t) = true := by
  cases t <;> decide

/-! ## The round trip -/

/-- The fields of a message fit their widths, and no index is the sentinel. -/
structure Message.InRange (m : Message) : Prop where
  sender : m.sender < 0x100000000
  target : m.target < 0x100000000
  term : m.term < 0x10000000000000000
  logIndex : ∀ i ∈ m.logIndex, i < kNoIndex
  logTerm : m.logTerm < 0x10000000000000000
  commitIndex : m.commitIndex < 0x10000000000000000
  entryIndex : ∀ i ∈ m.entryIndex, i < kNoIndex
  entryTerm : m.entryTerm < 0x10000000000000000
  entryEnd : m.entryEnd < 0x10000000000000000

section RoundTrip

variable {m : Message} {n : Nat}

@[simp] theorem encodeFields_length (m : Message) (n : Nat) :
    (encodeFields m n).length = kMessageHeaderBytes := by
  simp [encodeFields, kMessageHeaderBytes]

private theorem indexOf_indexValue {i : Option Nat} (h : ∀ k ∈ i, k < kNoIndex) :
    indexOf (indexValue i) = i := by
  cases i with
  | none => rfl
  | some k => exact if_neg (h k rfl).ne

private theorem indexValue_lt {i : Option Nat} (h : ∀ k ∈ i, k < kNoIndex) :
    indexValue i < 0x10000000000000000 := by
  cases i with
  | none => decide
  | some k => exact (h k rfl).trans (by decide)

/-- The header reads back as it was written, whatever follows it. -/
theorem loadMessage_encodeFields (h : m.InRange) (n : Nat) (rest : Bytes) :
    loadMessage m.type (encodeFields m n ++ rest) = m := by
  have hgranted : m.granted.toNat < 256 ^ 1 := by cases m.granted <;> decide
  have hbool : decide (m.granted.toNat ≠ 0) = m.granted := by cases m.granted <;> rfl
  simp (disch := simp) only [loadMessage, encodeFields, List.append_assoc, field_append_right,
    field_append_left, storeLe_length, Nat.reduceSub]
  rw [field_storeLe h.sender, field_storeLe h.target, field_storeLe h.term,
    field_storeLe (indexValue_lt h.logIndex), field_storeLe h.logTerm,
    field_storeLe h.commitIndex, field_storeLe (indexValue_lt h.entryIndex),
    field_storeLe h.entryEnd, field_storeLe h.entryTerm, field_storeLe hgranted,
    indexOf_indexValue h.logIndex, indexOf_indexValue h.entryIndex, hbool]

private theorem field_type (m : Message) (n : Nat) (rest : Bytes) :
    field (encodeFields m n ++ rest) 0 1 = m.type.code := by
  simp (disch := simp) only [encodeFields, List.append_assoc, field_append_left]
  exact field_storeLe m.type.code_lt

private theorem field_entrySize (m : Message) (hn : n < 0x100000000) (rest : Bytes) :
    field (encodeFields m n ++ rest) 12 4 = n := by
  simp (disch := simp) only [encodeFields, List.append_assoc, field_append_right,
    field_append_left, storeLe_length, Nat.reduceSub]
  exact field_storeLe hn

/-- A payload that was put together from a header and an entry. -/
theorem decodeMessage_append (h : m.InRange) {entry : Bytes} (hlen : entry.length < 0x100000000)
    (hcarry : m.carriesEntry = decide (entry.length ≠ 0)) :
    decodeMessage (encodeFields m entry.length ++ entry) = .ok (m, entry) := by
  have hsize : (encodeFields m entry.length ++ entry).length = messageBytes entry.length := by
    rw [List.length_append, encodeFields_length, messageBytes]
  have hentry : subslice (encodeFields m entry.length ++ entry) kMessageHeaderBytes entry.length =
      entry := by
    rw [subslice_append_right (encodeFields_length _ _).le, encodeFields_length, Nat.sub_self,
      subslice_all le_rfl]
  unfold decodeMessage
  rw [if_neg (by rw [hsize, messageBytes]; omega), field_type, MessageType.ofCode_code]
  dsimp only
  rw [field_entrySize m hlen, loadMessage_encodeFields h, if_neg (not_not.2 hsize),
    if_neg (not_not.2 hcarry), hentry]

theorem Message.InRange.bare (h : m.InRange) : m.bare.InRange :=
  { h with
    entryIndex := fun i hi => by cases hi
    entryTerm := Nat.two_pow_pos 64
    entryEnd := Nat.two_pow_pos 64 }

/-- A message that is sent with its entry, or without one, arrives with it. -/
theorem decode_encodeMessage (h : m.InRange) {entry out : Bytes}
    (hlen : entry.length < 0x100000000) (hcarry : m.carriesEntry = !entry.isEmpty)
    (hout : out.length = messageBytes entry.length) :
    decodeMessage (encodeMessage out m entry) =
      .ok (if m.carriesEntry then m else m.bare, entry) := by
  unfold encodeMessage
  cases entry with
  | nil =>
      have hnone : m.carriesEntry = false := hcarry
      have hsize : out.length = messageBytes 0 := hout
      rw [if_neg (by simp [hnone]), if_neg (not_not.2 hsize), if_neg (by simp [hnone])]
      have hbare := @decodeMessage_append _ h.bare [] hlen rfl
      rwa [List.append_nil] at hbare
  | cons x entry =>
      have hsome : m.carriesEntry = true := hcarry
      rw [if_pos (by simp [hsome]), if_neg (not_not.2 hout), if_pos hsome]
      apply decodeMessage_append h hlen
      rw [hsome]
      rfl

end RoundTrip

/-! ## What is accepted -/

section Accepted

variable {payload entry : Bytes} {m : Message} {type : MessageType}

theorem MessageType.code_ofCode {n : Nat} (h : ofCode n = some type) : type.code = n := by
  unfold ofCode at h
  split at h
  · cases h; rfl
  · cases h; rfl
  · cases h; rfl
  · cases h; rfl
  · cases h

theorem MessageType.exists_ofCode {n : Nat} : (∃ t, ofCode n = some t) ↔ 1 ≤ n ∧ n ≤ 4 := by
  constructor
  · rintro ⟨t, h⟩
    rw [← code_ofCode h]
    cases t <;> decide
  · rintro ⟨hone, hfour⟩
    rcases (by omega : n = 1 ∨ n = 2 ∨ n = 3 ∨ n = 4) with rfl | rfl | rfl | rfl
    · exact ⟨_, rfl⟩
    · exact ⟨_, rfl⟩
    · exact ⟨_, rfl⟩
    · exact ⟨_, rfl⟩

private theorem indexValue_indexOf (v : Nat) : indexValue (indexOf v) = v := by
  unfold indexOf
  split
  case isTrue h => exact h.symm
  case isFalse => rfl

private theorem carriesEntry_loadMessage (type : MessageType) (payload : Bytes) :
    (loadMessage type payload).carriesEntry = decide (field payload 48 8 ≠ kNoIndex) := by
  unfold Message.carriesEntry loadMessage indexOf
  dsimp only
  split
  case isTrue h => simp [h]
  case isFalse h => simp [h]

private theorem decodeMessage_eq_ok :
    decodeMessage payload = .ok (m, entry) ↔
      kMessageHeaderBytes ≤ payload.length ∧
      MessageType.ofCode (field payload 0 1) = some m.type ∧
      payload.length = messageBytes (field payload 12 4) ∧
      (field payload 48 8 ≠ kNoIndex ↔ field payload 12 4 ≠ 0) ∧
      m = loadMessage m.type payload ∧
      entry = subslice payload kMessageHeaderBytes (field payload 12 4) := by
  unfold decodeMessage
  split
  case isTrue h =>
    constructor
    · intro hok
      cases hok
    · intro hok
      exact absurd hok.1 (Nat.not_le.2 h)
  case isFalse h =>
  have hlen : kMessageHeaderBytes ≤ payload.length := Nat.not_lt.1 h
  cases hcode : MessageType.ofCode (field payload 0 1) with
  | none =>
      constructor
      · intro hok
        cases hok
      · intro hok
        cases hok.2.1
  | some type =>
      dsimp only
      rw [carriesEntry_loadMessage]
      simp only [ne_eq, decide_eq_decide]
      split
      case isTrue hsize =>
        constructor
        · intro hok
          cases hok
        · intro hok
          exact absurd hok.2.2.1 hsize
      case isFalse hsize =>
      split
      case isTrue hcarry =>
        constructor
        · intro hok
          cases hok
        · intro hok
          exact absurd hok.2.2.2.1 hcarry
      case isFalse hcarry =>
        constructor
        · intro hok
          cases hok
          exact ⟨hlen, rfl, not_not.1 hsize, not_not.1 hcarry, rfl, rfl⟩
        · rintro ⟨-, htype, -, -, hm, rfl⟩
          cases htype
          rw [← hm]

/-- A payload is a message if it has a header, of one of the four types, if the entry takes
what is behind the header, and if there is an entry just where the header names one. -/
theorem decodeMessage_accepts (payload : Bytes) :
    (∃ r, decodeMessage payload = .ok r) ↔
      kMessageHeaderBytes ≤ payload.length ∧
      (1 ≤ field payload 0 1 ∧ field payload 0 1 ≤ 4) ∧
      payload.length = kMessageHeaderBytes + field payload 12 4 ∧
      (field payload 48 8 ≠ kNoIndex ↔ field payload 12 4 ≠ 0) := by
  rw [← MessageType.exists_ofCode]
  constructor
  · rintro ⟨⟨m, entry⟩, h⟩
    obtain ⟨hlen, htype, hsize, hcarry, -⟩ := decodeMessage_eq_ok.1 h
    exact ⟨hlen, ⟨_, htype⟩, hsize, hcarry⟩
  · rintro ⟨hlen, ⟨type, htype⟩, hsize, hcarry⟩
    exact ⟨(loadMessage type payload, subslice payload kMessageHeaderBytes (field payload 12 4)),
      decodeMessage_eq_ok.2 ⟨hlen, htype, hsize, hcarry, rfl, rfl⟩⟩

/-- The fields of a header that was read are written as they were. -/
theorem encodeFields_loadMessage (hlen : kMessageHeaderBytes ≤ payload.length)
    (htype : MessageType.ofCode (field payload 0 1) = some type)
    (hgranted : field payload 1 1 ≤ 1) (hreserved : field payload 2 2 = 0) :
    encodeFields (loadMessage type payload) (field payload 12 4) =
      subslice payload 0 kMessageHeaderBytes := by
  have hbool : (decide (field payload 1 1 ≠ 0)).toNat = field payload 1 1 := by
    rcases (by omega : field payload 1 1 = 0 ∨ field payload 1 1 = 1) with h | h
    · rw [h]
      rfl
    · rw [h]
      rfl
  unfold kMessageHeaderBytes at hlen
  have hzero : storeLe 2 0 = subslice payload 2 2 := by
    rw [← hreserved, storeLe_field (by omega)]
  unfold encodeFields loadMessage
  dsimp only
  rw [MessageType.code_ofCode htype, hbool, indexValue_indexOf, indexValue_indexOf, hzero,
    storeLe_field (by omega), storeLe_field (by omega), storeLe_field (by omega),
    storeLe_field (by omega), storeLe_field (by omega), storeLe_field (by omega),
    storeLe_field (by omega), storeLe_field (by omega), storeLe_field (by omega),
    storeLe_field (by omega), storeLe_field (by omega), storeLe_field (by omega)]
  -- the fields lie one behind the other
  rw [subslice_join rfl, subslice_join rfl, subslice_join rfl, subslice_join rfl,
    subslice_join rfl, subslice_join rfl, subslice_join rfl, subslice_join rfl,
    subslice_join rfl, subslice_join rfl, subslice_join rfl, subslice_join rfl]
  rfl

/-- What was accepted is written again as it was, if nothing of it was read past. -/
theorem encode_decodeMessage (h : decodeMessage payload = .ok (m, entry))
    (hgranted : field payload 1 1 ≤ 1) (hreserved : field payload 2 2 = 0)
    (hbare : entry = [] → field payload 56 8 = 0 ∧ field payload 64 8 = 0) {out : Bytes}
    (hout : out.length = payload.length) : encodeMessage out m entry = payload := by
  obtain ⟨hlen, htype, hsize, hcarry, hm, hentry⟩ := decodeMessage_eq_ok.1 h
  have hfields := encodeFields_loadMessage hlen htype hgranted hreserved
  rw [← hm] at hfields
  have hcount : entry.length = field payload 12 4 := by
    rw [hentry, subslice_length, hsize, messageBytes]
    omega
  have hcarries := carriesEntry_loadMessage m.type payload
  rw [← hm] at hcarries
  -- the header and the entry are all there is
  have hwhole : subslice payload 0 kMessageHeaderBytes ++ entry = payload := by
    have hsplit := subslice_split payload 0 kMessageHeaderBytes (field payload 12 4)
    rw [Nat.zero_add, ← hentry] at hsplit
    rw [← hsplit]
    exact subslice_all (Nat.le_of_eq hsize)
  rw [← hcount] at hsize
  unfold encodeMessage
  cases entry with
  | nil =>
      have hzero : field payload 12 4 = 0 := hcount.symm
      have hnone : m.carriesEntry = false := by
        rw [hcarries]
        simpa [hzero] using hcarry
      obtain ⟨hterm, hend⟩ := hbare rfl
      have hsame : m.bare = m := by
        have hindex : m.entryIndex = none := by
          rw [← Option.isNone_iff_eq_none, ← Option.isSome_eq_false_iff]
          exact hnone
        have hterm' : m.entryTerm = kNoTerm := by
          rw [hm]
          exact hterm
        have hend' : m.entryEnd = 0 := by
          rw [hm]
          exact hend
        unfold Message.bare
        rw [← hindex, ← hterm', ← hend']
      have hsize' : out.length = messageBytes 0 := hout.trans hsize
      rw [List.append_nil, ← hfields, hzero] at hwhole
      rw [if_neg (by simp [hnone]), if_neg (not_not.2 hsize'), hsame, hwhole]
  | cons x entry =>
      have hsome : m.carriesEntry = true := by
        rw [hcarries, decide_eq_true_iff, hcarry, ← hcount]
        exact Nat.succ_ne_zero _
      rw [if_pos (by simp [hsome]), if_neg (not_not.2 (hout.trans hsize)), hcount, hfields, hwhole]

/-- The codec is exact.  A message with its entry comes back as it was sent, where there is
no entry without the fields of one; a payload is accepted just where it is laid out as a
message is; and what is accepted, and was not read past anywhere, is written again as it
was. -/
theorem codec_exact :
    (∀ (m : Message) (entry out : Bytes), m.InRange → entry.length < 0x100000000 →
      (entry ≠ [] ↔ m.entryIndex ≠ none) → out.length = messageBytes entry.length →
      decodeMessage (encodeMessage out m entry) =
        .ok (if m.entryIndex ≠ none then m else { m with entryTerm := 0, entryEnd := 0 }, entry)) ∧
    (∀ payload : Bytes, (∃ r, decodeMessage payload = .ok r) ↔
      72 ≤ payload.length ∧ (1 ≤ field payload 0 1 ∧ field payload 0 1 ≤ 4) ∧
      payload.length = 72 + field payload 12 4 ∧
      (field payload 48 8 ≠ kNoIndex ↔ field payload 12 4 ≠ 0)) ∧
    ∀ (payload : Bytes) (m : Message) (entry out : Bytes),
      decodeMessage payload = .ok (m, entry) →
      (field payload 1 1 = 0 ∨ field payload 1 1 = 1) → field payload 2 2 = 0 →
      (entry = [] → field payload 56 8 = 0 ∧ field payload 64 8 = 0) →
      out.length = payload.length → encodeMessage out m entry = payload := by
  refine ⟨?_, decodeMessage_accepts, ?_⟩
  · intro m entry out hrange hlen hnames hout
    have hcarries : m.carriesEntry = !entry.isEmpty := by
      unfold Message.carriesEntry
      cases entry <;> cases hindex : m.entryIndex <;> simp_all
    rw [decode_encodeMessage hrange hlen hcarries hout]
    unfold Message.carriesEntry Message.bare
    cases hindex : m.entryIndex with
    | none => simp [kNoTerm]
    | some i => simp
  · intro payload m entry out h hgranted hreserved hbare hout
    exact encode_decodeMessage h (by omega) hreserved hbare hout

/-- An entry of two bytes is sent and comes back, and its payload is written again. -/
theorem codec_exact_entry :
    let m : Message := { type := .appendEntries, sender := 1, target := 2, entryIndex := some 7 }
    let payload := encodeFields m 2 ++ [5, 6]
    decodeMessage (encodeMessage (List.replicate 74 0) m [5, 6]) = .ok (m, [5, 6]) ∧
      encodeMessage (List.replicate 74 0) m [5, 6] = payload := by
  intro m payload
  have hrange : m.InRange := by constructor <;> decide
  have hsent := codec_exact.1 m [5, 6] (List.replicate 74 0) hrange (by decide) (by decide) rfl
  rw [if_pos (by decide)] at hsent
  have haccepted : decodeMessage payload = .ok (m, [5, 6]) := by decide +kernel
  have hlength : (List.replicate 74 (0 : UInt8)).length = payload.length := by decide +kernel
  have hagain := codec_exact.2.2 payload m [5, 6] (List.replicate 74 0) haccepted
    (by decide +kernel) (by decide +kernel) (fun hnil => by cases hnil) hlength
  exact ⟨hsent, hagain⟩

end Accepted

end LogEngine.Raft
