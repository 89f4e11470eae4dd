import LogEngine.Base.Crc
import LogEngine.Storage.Frame

/-!
# Batches that are not as they were written

One byte of a valid batch that is changed, from the length field on, is found by
`validate_batch`, whatever follows the batch (`validateBatch_altered`).  Three things find it:

* the checksum covers the bytes behind its own field, and cannot confuse two strings that
  differ in one byte;
* a changed checksum is not the checksum of the bytes it stands before;
* a changed length leaves the records where they are, and so their walk does not end where
  the batch is now said to end.  The checksum is then one of other bytes than before, and
  proves nothing.
-/

namespace LogEngine.Storage

open Base Io

section Bytes

variable {front rest : Bytes} {x y : UInt8} {i n : Nat}

/-- A field before the byte. -/
theorem field_altered_before (h : i + n ≤ front.length) :
    field (front ++ [y] ++ rest) i n = field front i n := by
  rw [List.append_assoc, field_append_left h]

/-- A field behind the byte. -/
theorem field_altered_behind (h : front.length < i) :
    field (front ++ [y] ++ rest) i n = field rest (i - (front.length + 1)) n := by
  have hlen : (front ++ [y]).length = front.length + 1 := by simp
  rw [field_append_right (by omega), hlen]

/-- A field with the byte in it. -/
theorem field_altered_inside (hlo : i ≤ front.length) (hhi : front.length < i + n)
    (hlen : i + n ≤ (front ++ [y] ++ rest).length)
    (h : field (front ++ [y] ++ rest) i n = field (front ++ [x] ++ rest) i n) : y = x := by
  have hlen' : i + n ≤ (front ++ [x] ++ rest).length := by simpa using hlen
  have hbytes : subslice (front ++ [y] ++ rest) i n = subslice (front ++ [x] ++ rest) i n := by
    rw [← storeLe_field hlen, ← storeLe_field hlen', h]
  have hget : ∀ z : UInt8,
      (subslice (front ++ [z] ++ rest) i n)[front.length - i]? = some z := by
    intro z
    unfold subslice
    rw [List.getElem?_take_of_lt (by omega), List.getElem?_drop]
    simp [show i + (front.length - i) = front.length by omega]
  have hx := hget x
  rw [← hbytes, hget y] at hx
  exact Option.some.inj hx

end Bytes

/-- Walks over the same records end at one place, whatever the batches are said to be. -/
theorem walkRecords_unique {a b : Bytes} {total total' : Nat}
    (hfield : ∀ pos, kBatchHeaderBytes ≤ pos → pos + 4 ≤ total → field a pos 4 = field b pos 4)
    {count pos stop stop' : Nat} (hpos : kBatchHeaderBytes ≤ pos)
    (h : walkRecords a total count pos = some stop)
    (h' : walkRecords b total' count pos = some stop') : stop = stop' := by
  induction count generalizing pos with
  | zero =>
      cases h
      cases h'
      rfl
  | succ count ih =>
      unfold walkRecords at h h'
      split at h
      · cases h
      case isFalse hfits =>
      split at h'
      · cases h'
      dsimp only at h h'
      split at h
      · cases h
      split at h'
      · cases h'
      -- both read the length of the same record
      have hroom : pos + 4 ≤ total := by
        unfold kRecordLengthBytes at hfits
        omega
      rw [← hfield pos hpos hroom] at h'
      exact ih (by omega) h h'

namespace Frame

variable (f : Frame) {front rest : Bytes} {x y : UInt8}

private theorem header_eq : f.header = loadHeader f.bytes :=
  (decodeHeader_eq_ok.1 f.decode).2.1.symm

private theorem checked : computeCrc f.bytes f.bytes.length = f.header.crc ∧
    walkRecords f.bytes f.bytes.length f.header.recordCount kBatchHeaderBytes =
      some f.bytes.length := by
  obtain ⟨h, hd, -, hcrc, -, -, -, hwalk⟩ := validateBatch_eq_ok.1 f.valid
  obtain rfl : f.header = h := Except.ok.inj (f.decode.symm.trans hd)
  rw [f.whole]
  exact ⟨hcrc, hwalk⟩

variable {f}

/-- What the checksum covers, of a string that is one batch. -/
theorem computeCrc_whole (a : Bytes) :
    computeCrc a a.length = (crc32c 0 (a.drop kCrcCoveredFrom)).toNat := by
  unfold computeCrc subslice
  rw [List.take_of_length_le (by rw [List.length_drop])]

/-- A byte behind the length: the checksum does not agree any more. -/
theorem altered_crc (hbytes : f.bytes = front ++ [x] ++ rest) (hfront : 12 ≤ front.length)
    (h : computeCrc (front ++ [y] ++ rest) f.bytes.length = field (front ++ [y] ++ rest) 12 4) :
    y = x := by
  have hlen : (front ++ [y] ++ rest).length = f.bytes.length := by
    rw [hbytes]
    simp
  have hcrc := f.checked.1
  have hstored : f.header.crc = field (front ++ [x] ++ rest) 12 4 := by
    rw [f.header_eq, hbytes]
    rfl
  rw [hstored, computeCrc_whole, hbytes] at hcrc
  rw [← hlen, computeCrc_whole] at h
  by_cases hcovered : kCrcCoveredFrom ≤ front.length
  · -- the byte is covered, and the field before it is as it was
    have hsplit : ∀ z : UInt8, (front ++ [z] ++ rest).drop kCrcCoveredFrom =
        front.drop kCrcCoveredFrom ++ [z] ++ rest := by
      intro z
      rw [List.append_assoc, List.drop_append_of_le_length hcovered, List.append_assoc]
    unfold kCrcCoveredFrom at hcovered
    rw [field_altered_before (by omega)] at h hcrc
    rw [hsplit] at h hcrc
    have hsame := UInt32.toNat_inj.1 (h.trans hcrc.symm)
    exact List.singleton_inj.1 (crc32c_burst rfl (by simp) hsame)
  · -- the byte is of the field itself
    have hsplit : ∀ z : UInt8, (front ++ [z] ++ rest).drop kCrcCoveredFrom =
        rest.drop (kCrcCoveredFrom - (front.length + 1)) := by
      intro z
      have hz : (front ++ [z]).length = front.length + 1 := by simp
      rw [List.drop_append, List.drop_of_length_le (by omega), List.nil_append, hz]
    unfold kCrcCoveredFrom at hcovered
    have hmin := f.header_le
    unfold kBatchHeaderBytes at hmin
    rw [hsplit] at h hcrc
    exact field_altered_inside hfront (by omega) (by omega) (h.symm.trans hcrc)

end Frame

/-- A batch with one byte changed, from the length field on, is not accepted. -/
theorem validateBatch_altered {f : Frame} {front rest : Bytes} {x y : UInt8}
    (hbytes : f.bytes = front ++ [x] ++ rest) (hfront : 8 ≤ front.length) (hne : y ≠ x)
    (tail : Bytes) : validateBatch (front ++ [y] ++ rest ++ tail) ≠ .ok () := by
  intro hv
  have hlen : (front ++ [y] ++ rest).length = f.bytes.length := by
    rw [hbytes]
    simp
  have hmin := f.header_le
  have hhead : kBatchHeaderBytes ≤ (front ++ [y] ++ rest).length := by omega
  obtain ⟨h, hd, htotal, hcrc, -, -, -, hwalk⟩ := validateBatch_eq_ok.1 hv
  rw [decodeHeader_append hhead] at hd
  have hload := (decodeHeader_eq_ok.1 hd).2.1
  have hsize : f.bytes.length = 12 + field (front ++ [x] ++ rest) 8 4 := by
    rw [f.whole, f.header_eq, hbytes]
    rfl
  have hsize' : h.totalBytes = 12 + field (front ++ [y] ++ rest) 8 4 := by
    rw [← hload]
    rfl
  unfold kBatchHeaderBytes at hmin
  by_cases hlength : 12 ≤ front.length
  · rw [field_altered_before (by omega)] at hsize hsize'
    have hsame : h.totalBytes = f.bytes.length := by omega
    rw [hsame, computeCrc_append hlen.ge, ← hload] at hcrc
    exact hne (Frame.altered_crc hbytes hlength hcrc)
  · -- the records are where they were, and there are as many of them
    have hbehind : ∀ pos, 12 ≤ pos → pos + 4 ≤ f.bytes.length →
        field f.bytes pos 4 = field (front ++ [y] ++ rest ++ tail) pos 4 := by
      intro pos hpos hroom
      rw [field_append_left (by omega), hbytes, field_altered_behind (by omega),
        field_altered_behind (by omega)]
    have hcount : f.header.recordCount = h.recordCount := by
      have hcount' := hbehind 48 (by omega) (by omega)
      rw [field_append_left (by omega)] at hcount'
      rw [f.header_eq, ← hload]
      exact hcount'
    have hends := walkRecords_unique
      (fun pos hpos hroom => hbehind pos (by unfold kBatchHeaderBytes at hpos; omega) hroom)
      le_rfl f.checked.2 (hcount ▸ hwalk)
    refine hne (@field_altered_inside front rest x y 8 4 hfront (by omega) (by omega) ?_)
    omega

/-! ## Bits -/

/-- A string with one bit of one byte flipped. -/
def flipBit (bytes : Bytes) (i bit : Nat) : Bytes :=
  bytes.modify i fun b => b ^^^ (1 <<< UInt8.ofNat bit)

private theorem flipBit_eq {bytes : Bytes} {i bit : Nat} (hi : i < bytes.length) (hbit : bit < 8) :
    ∃ x y, y ≠ x ∧ bytes = bytes.take i ++ [x] ++ bytes.drop (i + 1) ∧
      flipBit bytes i bit = bytes.take i ++ [y] ++ bytes.drop (i + 1) := by
  have hmask : ∀ bit < 8, (1 <<< UInt8.ofNat bit : UInt8) ≠ 0 := by decide
  refine ⟨bytes[i], bytes[i] ^^^ (1 <<< UInt8.ofNat bit), ?_, ?_, ?_⟩
  · intro hsame
    exact hmask bit hbit ((UInt8.xor_right_inj _).1 (hsame.trans UInt8.xor_zero.symm))
  · simp
  · rw [flipBit, List.modify_eq_take_cons_drop hi]
    simp

private theorem validateBatch_of_ne {a : Bytes} (h : validateBatch a ≠ .ok ()) :
    validateBatch a = .error .corruptRecord := by
  have hheader : ∀ e, decodeHeader a = .error e → e = .corruptRecord := by
    intro e he
    unfold decodeHeader at he
    dsimp only at he
    repeat' split at he
    all_goals cases he
    all_goals rfl
  unfold validateBatch at h ⊢
  cases hd : decodeHeader a with
  | error e => rw [hheader e hd]
  | ok header =>
      rw [hd] at h
      dsimp only at h ⊢
      repeat' split at h
      all_goals first
        | exact absurd rfl h
        | simp_all

/-- Every flipped bit of a batch is found, from the length field to the last byte, whatever
follows the batch. -/
theorem finish_flipped (b : BatchBuilder) (hne : b.records ≠ []) (base : Nat) (info : BatchMeta)
    {i bit : Nat} (hi : 8 ≤ i) (hlast : i < (b.finish base info).length) (hbit : bit < 8)
    (tail : Bytes) :
    validateBatch (flipBit (b.finish base info) i bit ++ tail) = .error .corruptRecord := by
  obtain ⟨x, y, hxy, hold, hnew⟩ := flipBit_eq hlast hbit
  apply validateBatch_of_ne
  rw [hnew]
  refine validateBatch_altered (f := b.frame hne base info) hold ?_ hxy tail
  rw [List.length_take]
  omega

/-- The lowest bit of the length of a batch, before more bytes. -/
theorem finish_flipped_length :
    validateBatch (flipBit (BatchBuilder.finish { records := [[7], []] } 5 {}) 8 0 ++ [0, 0]) =
      .error .corruptRecord :=
  finish_flipped { records := [[7], []] } (by decide) 5 {} (by decide) (by decide) (by decide)
    [0, 0]

end LogEngine.Storage
