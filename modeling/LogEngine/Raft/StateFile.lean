import LogEngine.Io.Disk
import LogEngine.Raft.Types

/-!
# `raft.state`

`src/raft/state_file.{h,cpp}`: two 32-byte slots, written alternately, each with a
checksum and a sequence number.  Reading picks the intact slot with the higher
sequence number.

`scan_written` is why a write that succeeded is what the next reader gets: as long as
the other slot, if it can be read, has a lower sequence number, the slot just
written wins, whatever was tried in its place before.
-/

namespace LogEngine.Raft

open Base Io

def kStateSlotBytes : Nat := 32
def kStateFileBytes : Nat := 64
def kStateMagic : Nat := 0x52
def kStateVersion : Nat := 0

structure PersistedState where
  hard : HardState := {}
  sequence : Nat := 0
  deriving DecidableEq, Repr

/-- `state_slot_offset`: which half of the file a sequence number belongs in. -/
def stateSlotOffset (sequence : Nat) : Nat := sequence % 2 * kStateSlotBytes

/-- The part of a slot that the checksum covers. -/
def slotPayload (state : HardState) (sequence : Nat) : Bytes :=
  storeLe 1 kStateMagic ++ storeLe 1 kStateVersion ++ storeLe 2 0 ++ storeLe 8 sequence ++
    storeLe 8 state.term ++ storeLe 4 state.votedFor ++ storeLe 4 0

/-- `encode_state_slot`. -/
def encodeStateSlot (state : HardState) (sequence : Nat) : Bytes :=
  storeLe 4 (crc32c 0 (slotPayload state sequence)).toNat ++ slotPayload state sequence

/-- `decode_state_slot`. -/
def decodeStateSlot (slot : Bytes) : Except ErrorCode PersistedState :=
  if slot.length ≠ kStateSlotBytes then .error .corruptRecord
  else if field slot 4 1 ≠ kStateMagic then .error .corruptRecord
  else if field slot 5 1 ≠ kStateVersion then .error .unsupportedVersion
  else if field slot 0 4 ≠ (crc32c 0 (subslice slot 4 28)).toNat then .error .corruptRecord
  else .ok { hard := ⟨field slot 16 8, field slot 24 4⟩, sequence := field slot 8 8 }

/-- The slot with number `k`. -/
def slot (image : Bytes) (k : Nat) : Bytes :=
  subslice image (k * kStateSlotBytes) kStateSlotBytes

/-- The better of what has been found and the next slot. -/
def betterSlot (best : Option PersistedState) (slot : Except ErrorCode PersistedState) :
    Option PersistedState :=
  match slot, best with
  | .error _, best => best
  | .ok s, none => some s
  | .ok s, some b => if b.sequence < s.sequence then some s else some b

/-- `scan_state_file`. -/
def scanStateFile (file : Bytes) : Except ErrorCode PersistedState :=
  if file.length < kStateSlotBytes then .error .corruptRecord
  else
    let slots := min file.length kStateFileBytes / kStateSlotBytes
    let best := (List.range slots).foldl
      (fun best k => betterSlot best (decodeStateSlot (slot file k))) none
    match best with
    | none => .error .corruptRecord
    | some s => .ok s

/-! ## One slot -/

@[simp] theorem slotPayload_length (state : HardState) (sequence : Nat) :
    (slotPayload state sequence).length = 28 := by
  simp [slotPayload]

@[simp] theorem encodeStateSlot_length (state : HardState) (sequence : Nat) :
    (encodeStateSlot state sequence).length = kStateSlotBytes := by
  simp [encodeStateSlot, kStateSlotBytes]

/-- A slot reads back as it was written, up to the width of its fields. -/
theorem decode_encodeStateSlot {state : HardState} {sequence : Nat}
    (ht : state.term < 0x10000000000000000) (hv : state.votedFor < 0x100000000)
    (hs : sequence < 0x10000000000000000) :
    decodeStateSlot (encodeStateSlot state sequence) = .ok ⟨state, sequence⟩ := by
  have hpayload : subslice (encodeStateSlot state sequence) 4 28 =
      slotPayload state sequence := by
    simp (disch := simp) [encodeStateSlot, subslice_append_right, subslice_all]
  have hsum : field (encodeStateSlot state sequence) 0 4 =
      (crc32c 0 (slotPayload state sequence)).toNat := by
    rw [encodeStateSlot, field_append_left (by simp), field_storeLe]
    exact (crc32c 0 (slotPayload state sequence)).toNat_lt
  have hfields : field (encodeStateSlot state sequence) 4 1 = kStateMagic ∧
      field (encodeStateSlot state sequence) 5 1 = kStateVersion ∧
      field (encodeStateSlot state sequence) 8 8 = sequence ∧
      field (encodeStateSlot state sequence) 16 8 = state.term ∧
      field (encodeStateSlot state sequence) 24 4 = state.votedFor := by
    simp (disch := simp) only [encodeStateSlot, slotPayload, List.append_assoc,
      field_append_right, field_append_left, storeLe_length, Nat.reduceSub]
    exact ⟨field_storeLe (by decide), field_storeLe (by decide), field_storeLe hs,
      field_storeLe ht, field_storeLe hv⟩
  obtain ⟨hmagic, hversion, hseq, hterm, hvote⟩ := hfields
  simp [decodeStateSlot, hmagic, hversion, hsum, hpayload, hseq, hterm, hvote]

/-! ## Two slots -/

/-- Every intact slot has a sequence number below `S`. -/
def Below (S : Nat) (image : Bytes) : Prop :=
  ∀ k < 2, ∀ s, decodeStateSlot (slot image k) = .ok s → s.sequence < S

/-- What `load_hard_state` makes of the image of `raft.state`: the hard state, and the
sequence number of the next write. -/
def recover (image : Bytes) : Except ErrorCode (HardState × Nat) :=
  if image = [] then .ok ({}, 0)
  else
    match scanStateFile (subslice image 0 kStateFileBytes) with
    | .error e => .error e
    | .ok found => .ok (found.hard, found.sequence + 1)

private theorem decodeStateSlot_length {bytes : Bytes} {s : PersistedState}
    (h : decodeStateSlot bytes = .ok s) : bytes.length = kStateSlotBytes := by
  unfold decodeStateSlot at h
  split at h
  · cases h
  case isFalse hlen => exact not_not.1 hlen

private theorem slot_take (image : Bytes) {k : Nat} (hk : k < 2) :
    slot (subslice image 0 kStateFileBytes) k = slot image k := by
  unfold slot subslice
  rw [List.drop_zero, List.drop_take, List.take_take, Nat.min_eq_left]
  unfold kStateSlotBytes kStateFileBytes
  omega

/-- The scan, slot by slot. -/
theorem scanStateFile_eq (image : Bytes) :
    scanStateFile (subslice image 0 kStateFileBytes) =
      if image.length < 32 then .error .corruptRecord
      else
        match
          if image.length < 64 then betterSlot none (decodeStateSlot (slot image 0))
          else betterSlot (betterSlot none (decodeStateSlot (slot image 0)))
            (decodeStateSlot (slot image 1)) with
        | none => .error .corruptRecord
        | some s => .ok s := by
  have hfile : (subslice image 0 kStateFileBytes).length = min 64 image.length := by
    rw [subslice_length]
    rfl
  have h0 := slot_take image (k := 0) (by omega)
  have h1 := slot_take image (k := 1) (by omega)
  generalize subslice image 0 kStateFileBytes = file at hfile h0 h1 ⊢
  unfold scanStateFile
  by_cases hshort : image.length < 32
  · rw [if_pos hshort, if_pos (by rw [hfile, kStateSlotBytes]; omega)]
  rw [if_neg hshort, if_neg (by rw [hfile, kStateSlotBytes]; omega)]
  by_cases hone : image.length < 64
  · have hslots : min file.length kStateFileBytes / kStateSlotBytes = 1 := by
      simp only [kStateFileBytes, kStateSlotBytes]
      omega
    rw [if_pos hone, hslots, ← h0]
    rfl
  · have hslots : min file.length kStateFileBytes / kStateSlotBytes = 2 := by
      simp only [kStateFileBytes, kStateSlotBytes]
      omega
    rw [if_neg hone, hslots, ← h0, ← h1]
    rfl

theorem slot_whole {image : Bytes} {k : Nat} {s : PersistedState}
    (h : decodeStateSlot (slot image k) = .ok s) : k * 32 + 32 ≤ image.length := by
  have := decodeStateSlot_length h
  rw [slot, subslice_length] at this
  simp only [kStateSlotBytes] at this
  omega

/-- The intact slot with the highest sequence number is the one that is read,
whatever the other slot holds. -/
theorem scan_newest {image : Bytes} {p : Nat} {s : PersistedState} (hp : p < 2)
    (hs : decodeStateSlot (slot image p) = .ok s)
    (hq : ∀ s', decodeStateSlot (slot image (1 - p)) = .ok s' → s'.sequence < s.sequence) :
    scanStateFile (subslice image 0 kStateFileBytes) = .ok s := by
  have hlen := slot_whole hs
  rw [scanStateFile_eq, if_neg (by omega)]
  have hp' : p = 0 ∨ p = 1 := by omega
  rcases hp' with rfl | rfl
  · cases ho : decodeStateSlot (slot image 1) with
    | error e => simp [hs, betterSlot]
    | ok s' => simp [hs, betterSlot, Nat.not_lt.2 (hq s' ho).le]
  · rw [if_neg (by omega)]
    cases ho : decodeStateSlot (slot image 0) with
    | error e => simp [hs, betterSlot]
    | ok s' => simp [hs, betterSlot, hq s' ho]

/-- Neither the slot nor what was found before is better than what is kept. -/
theorem betterSlot_best {best : Option PersistedState} {slot : Except ErrorCode PersistedState}
    {s : PersistedState} (h : betterSlot best slot = some s) :
    (∀ t, slot = .ok t → t.sequence ≤ s.sequence) ∧
      ∀ t, best = some t → t.sequence ≤ s.sequence := by
  cases slot with
  | error e =>
      cases h
      exact ⟨fun t ht => (nomatch ht), fun t ht => (Option.some.inj ht) ▸ le_rfl⟩
  | ok s' =>
      cases best with
      | none =>
          cases h
          exact ⟨fun t ht => (Except.ok.inj ht) ▸ le_rfl, fun t ht => nomatch ht⟩
      | some b =>
          simp only [betterSlot] at h
          split at h
          case isTrue hlt =>
            cases h
            exact ⟨fun t ht => (Except.ok.inj ht) ▸ le_rfl,
              fun t ht => (Option.some.inj ht) ▸ hlt.le⟩
          case isFalse hge =>
            cases h
            exact ⟨fun t ht => (Except.ok.inj ht) ▸ Nat.not_lt.1 hge,
              fun t ht => (Option.some.inj ht) ▸ le_rfl⟩

/-- What is read has the highest sequence number there is. -/
theorem scan_best {image : Bytes} {s : PersistedState}
    (h : scanStateFile (subslice image 0 kStateFileBytes) = .ok s) :
    32 ≤ image.length ∧ Below (s.sequence + 1) image := by
  rw [scanStateFile_eq] at h
  split at h
  · cases h
  case isFalse hlen =>
    refine ⟨by omega, fun k hk t ht => Nat.lt_succ_of_le ?_⟩
    have hwhole := slot_whole ht
    by_cases hone : image.length < 64
    · obtain rfl : k = 0 := by omega
      rw [if_pos hone] at h
      split at h
      · cases h
      case h_2 s' hbest =>
        cases h
        exact (betterSlot_best hbest).1 t ht
    · rw [if_neg hone] at h
      split at h
      · cases h
      case h_2 s' hbest =>
        cases h
        obtain ⟨hsecond, hfirst⟩ := betterSlot_best hbest
        have hk' : k = 0 ∨ k = 1 := by omega
        rcases hk' with rfl | rfl
        · cases hb : betterSlot none (decodeStateSlot (slot image 0)) with
          | none =>
              rw [ht] at hb
              cases hb
          | some b => exact ((betterSlot_best hb).1 t ht).trans (hfirst b hb)
        · exact hsecond t ht

/-! ## Writing a slot -/

/-- An attempt at writing a slot: the first `count` bytes of it got into the file. -/
structure Attempt where
  state : HardState
  count : Nat := kStateSlotBytes
  deriving DecidableEq, Repr

/-- The attempt with the sequence number `S`, as a write. -/
def Attempt.write (S : Nat) (a : Attempt) : PendingWrite :=
  ⟨stateSlotOffset S, (encodeStateSlot a.state S).take a.count⟩

/-- All of the slot got into the file. -/
def Attempt.Whole (a : Attempt) : Prop := kStateSlotBytes ≤ a.count

theorem Attempt.Whole.write {a : Attempt} (h : a.Whole) (S : Nat) :
    a.write S = ⟨stateSlotOffset S, encodeStateSlot a.state S⟩ := by
  rw [Attempt.write, List.take_of_length_le (by rw [encodeStateSlot_length]; exact h)]

/-- A write within one slot, in the place of the sequence number `S`. -/
def SlotWrite (S : Nat) (w : PendingWrite) : Prop :=
  w.offset = stateSlotOffset S ∧ w.bytes.length ≤ kStateSlotBytes

theorem Attempt.slotWrite (S : Nat) (a : Attempt) : SlotWrite S (a.write S) := by
  refine ⟨rfl, ?_⟩
  rw [Attempt.write, List.length_take, encodeStateSlot_length]
  omega

/-- An image that the next write of sequence number `S` goes onto: the other slot, if
it can be read, is older. -/
structure Awaits (S : Nat) (image : Bytes) : Prop where
  below : ∀ s, decodeStateSlot (slot image (1 - S % 2)) = .ok s → s.sequence < S
  long : 0 < S → kStateSlotBytes ≤ image.length

private theorem awaits_nil : Awaits 0 [] where
  below s h := by
    have := decodeStateSlot_length h
    simp [slot, subslice, kStateSlotBytes] at this
  long h := absurd h (lt_irrefl 0)

theorem recover_of_scan {image : Bytes} {s : PersistedState}
    (h : scanStateFile (subslice image 0 kStateFileBytes) = .ok s) :
    recover image = .ok (s.hard, s.sequence + 1) := by
  have hne : image ≠ [] := by
    rintro rfl
    have := (scan_best h).1
    simp at this
  rw [recover, if_neg hne, h]

/-- What was read is below the write that comes next. -/
theorem awaits_of_recover {image : Bytes} {hard : HardState} {S : Nat}
    (h : recover image = .ok (hard, S)) : Awaits S image := by
  unfold recover at h
  split at h
  case isTrue hnil =>
    cases h
    rw [hnil]
    exact awaits_nil
  case isFalse =>
    split at h
    · cases h
    case h_2 found hscan =>
      cases h
      exact ⟨(scan_best hscan).2 _ (by omega), fun _ => (scan_best hscan).1⟩

/-- A write within one slot leaves the other one as it was. -/
theorem slot_applyBytes_other {S : Nat} {image : Bytes} {w : PendingWrite}
    (hl : 0 < S → kStateSlotBytes ≤ image.length) (hw : SlotWrite S w) :
    slot (applyBytes image w.offset w.bytes) (1 - S % 2) = slot image (1 - S % 2) := by
  obtain ⟨ho, hb⟩ := hw
  simp only [stateSlotOffset, kStateSlotBytes] at *
  have hS : S % 2 = 0 ∨ S % 2 = 1 := by omega
  unfold slot kStateSlotBytes
  rcases hS with hS | hS <;> rw [hS] at ho ⊢
  · exact subslice_applyBytes_after (by omega)
  · exact subslice_applyBytes_before (by omega) (by have := hl (by omega); omega)

/-- However much of it is written, an attempt can be made again. -/
theorem Awaits.write {S : Nat} {image : Bytes} (h : Awaits S image) {w : PendingWrite}
    (hw : SlotWrite S w) : Awaits S (applyBytes image w.offset w.bytes) where
  below := by
    rw [slot_applyBytes_other h.long hw]
    exact h.below
  long hS := (h.long hS).trans (length_le_applyBytes _ _ _)

theorem Awaits.replay {S : Nat} {ws : List PendingWrite} (hws : ∀ w ∈ ws, SlotWrite S w) :
    ∀ {image : Bytes}, Awaits S image → Awaits S (Io.replay image ws) := by
  induction ws with
  | nil => exact fun h => h
  | cons w ws ih =>
      intro image h
      have hw := hws w List.mem_cons_self
      exact ih (fun v hv => hws v (List.mem_cons_of_mem w hv)) (h.write hw)

section Written

variable {S : Nat} {image : Bytes} {state : HardState}

/-- A slot that was written can be read. -/
theorem decode_slot_written (image : Bytes) (ht : state.term < 0x10000000000000000)
    (hv : state.votedFor < 0x100000000) (hS : S < 0x10000000000000000) :
    decodeStateSlot
      (slot (applyBytes image (stateSlotOffset S) (encodeStateSlot state S)) (S % 2)) =
        .ok ⟨state, S⟩ := by
  have hread := subslice_applyBytes_self image (encodeStateSlot state S) (stateSlotOffset S)
  rw [encodeStateSlot_length] at hread
  rw [slot, ← stateSlotOffset, hread, decode_encodeStateSlot ht hv hS]

/-- **A slot that was written is what the next reader gets.** -/
theorem scan_written (h : Awaits S image) (ht : state.term < 0x10000000000000000)
    (hv : state.votedFor < 0x100000000) (hS : S < 0x10000000000000000) :
    scanStateFile (subslice (applyBytes image (stateSlotOffset S) (encodeStateSlot state S)) 0
      kStateFileBytes) = .ok ⟨state, S⟩ := by
  have hw : SlotWrite S ⟨stateSlotOffset S, encodeStateSlot state S⟩ :=
    ⟨rfl, (encodeStateSlot_length state S).le⟩
  exact scan_newest (Nat.mod_lt S (by omega)) (decode_slot_written image ht hv hS)
    (h.write hw).below

end Written

end LogEngine.Raft
