import LogEngine.Base.Bytes
import LogEngine.Verified.ShiftRegister

/-!
# The three forms of the checksum

`src/base/crc32c.cpp` has the checksum twice: byte by byte from a table
(`crc32c_software`, which is `crc32c` in `Base/Bytes`), and with the instructions of the
processor, byte by byte up to an aligned address and then eight bytes at a time
(`crc32cHardware` here).  Both are the register of the polynomial, fed with the bits of the
data one after the other (`crc32cBitwise`), with all of its bits inverted before and
after.

What the register cannot confuse, the checksum cannot confuse: four bytes that differ
(`crc32c_burst`), wherever in the data they are.
-/

namespace LogEngine.Base

open Verified.ShiftRegister

/-! ## Bit by bit -/

/-- The polynomial, in the register. -/
def crcPoly : BitVec 32 := kReflectedPoly.toBitVec

private theorem crcPoly_top : crcPoly.getLsbD (32 - 1) = true := by decide

/-- The bits of a byte, the lowest first. -/
def byteBits (b : UInt8) : List Bool := (List.range 8).map b.toBitVec.getLsbD

/-- One byte goes into the register. -/
def crcByte (c : UInt32) (b : UInt8) : UInt32 :=
  .ofBitVec ((byteBits b).foldl (feed crcPoly) c.toBitVec)

/-- The reflected CRC of the polynomial, bit by bit. -/
def crc32cBitwise (crc : UInt32) (data : Bytes) : UInt32 :=
  .ofBitVec ((data.flatMap byteBits).foldl (feed crcPoly) (crc ^^^ 0xFFFFFFFF).toBitVec) ^^^
    0xFFFFFFFF

@[simp] theorem byteBits_length (b : UInt8) : (byteBits b).length = 8 := by
  simp [byteBits]

private theorem byteBits_injective {b b' : UInt8} (h : byteBits b = byteBits b') : b = b' := by
  apply UInt8.toBitVec_inj.1
  apply BitVec.eq_of_getLsbD_eq
  intro i hi
  exact List.map_inj_left.1 h i (List.mem_range.2 hi)

private theorem ofBits_byteBits (b : UInt8) :
    (ofBits (byteBits b) : BitVec 32) = b.toUInt32.toBitVec := by
  apply BitVec.eq_of_getLsbD_eq
  intro i hi
  rw [getLsbD_ofBits, decide_eq_true hi, byteBits, Bool.true_and]
  by_cases hlt : i < 8
  · simp [hlt, hi]
  · simp [hlt, BitVec.getLsbD_of_ge b.toBitVec i (by omega)]

/-- The bytes of a message that starts with a given register. -/
theorem foldl_crcByte (c : UInt32) (data : Bytes) :
    data.foldl crcByte c = .ofBitVec ((data.flatMap byteBits).foldl (feed crcPoly) c.toBitVec) := by
  induction data generalizing c with
  | nil => rfl
  | cons b data ih =>
      rw [List.foldl_cons, ih, List.flatMap_cons, List.foldl_append]
      rfl

/-! ## From the table -/

private theorem low_bit (c : UInt32) : c &&& 1 ≠ 0 ↔ c.toBitVec.getLsbD 0 = true := by
  have hand : (c &&& 1).toBitVec = (BitVec.ofBool (c.toBitVec.getLsbD 0)).setWidth 32 :=
    BitVec.and_one_eq_setWidth_ofBool_getLsbD
  rw [Ne, ← UInt32.toBitVec_inj, hand]
  cases c.toBitVec.getLsbD 0 <;> decide

private theorem toBitVec_tableBits (k : Nat) (c : UInt32) :
    (tableBits k c).toBitVec = steps crcPoly k c.toBitVec := by
  induction k generalizing c with
  | zero => rfl
  | succ k ih =>
      unfold tableBits steps
      rw [ih]
      refine congrArg (steps crcPoly k) ?_
      unfold step
      by_cases hc : c.toBitVec.getLsbD 0 = true
      · rw [if_pos ((low_bit c).2 hc), if_pos hc]
        rfl
      · rw [if_neg (fun h => hc ((low_bit c).1 h)), if_neg hc]
        rfl

/-- Eight steps of the register: those of its low byte, and the rest moves down. -/
theorem steps_eight (x : BitVec 32) :
    steps crcPoly 8 x = steps crcPoly 8 (x &&& 0xFF#32) ^^^ (x >>> 8) := by
  have hsplit : x = (x &&& 0xFF#32) ^^^ (x &&& ~~~0xFF#32) := by
    apply BitVec.eq_of_getLsbD_eq
    intro i hi
    simp only [BitVec.getLsbD_xor, BitVec.getLsbD_and, BitVec.getLsbD_not, hi, decide_true,
      Bool.true_and]
    cases x.getLsbD i <;> cases (0xFF#32).getLsbD i <;> rfl
  have hmask : ∀ i, (0xFF#32).getLsbD i = decide (i < 8) := by
    intro i
    rw [BitVec.getLsbD_ofNat]
    have hbits : Nat.testBit 0xFF i = decide (i < 8) := Nat.testBit_two_pow_sub_one 8 i
    rw [hbits]
    by_cases hi : i < 8
    · simp [hi, show i < 32 by omega]
    · simp [hi]
  have hclear : ∀ i < 8, (x &&& ~~~0xFF#32).getLsbD i = false := by
    intro i hi
    rw [BitVec.getLsbD_and, BitVec.getLsbD_not, hmask, decide_eq_true hi]
    simp
  have hhigh : (x &&& ~~~0xFF#32) >>> 8 = x >>> 8 := by
    apply BitVec.eq_of_getLsbD_eq
    intro i _
    rw [BitVec.getLsbD_ushiftRight, BitVec.getLsbD_ushiftRight, BitVec.getLsbD_and,
      BitVec.getLsbD_not, hmask]
    by_cases hlt : 8 + i < 32
    · simp [hlt]
    · rw [BitVec.getLsbD_of_ge x (8 + i) (by omega), Bool.false_and]
  calc steps crcPoly 8 x
      = steps crcPoly 8 ((x &&& 0xFF#32) ^^^ (x &&& ~~~0xFF#32)) := by rw [← hsplit]
    _ = steps crcPoly 8 (x &&& 0xFF#32) ^^^ steps crcPoly 8 (x &&& ~~~0xFF#32) := steps_xor ..
    _ = steps crcPoly 8 (x &&& 0xFF#32) ^^^ (x >>> 8) := by rw [steps_of_clear hclear, hhigh]

/-- The loop of `crc32c_software` feeds one byte. -/
theorem crcByte_eq (c : UInt32) (b : UInt8) :
    crcByte c b = kTable ((c ^^^ b.toUInt32) &&& 0xFF) ^^^ (c >>> 8) := by
  apply UInt32.toBitVec_inj.1
  have hfit : (byteBits b).length ≤ 32 := by simp
  have hbyte : (c.toBitVec ^^^ b.toUInt32.toBitVec) >>> 8 = c.toBitVec >>> 8 := by
    apply BitVec.eq_of_getLsbD_eq
    intro i _
    have hnone : b.toUInt32.toBitVec.getLsbD (8 + i) = false := by
      simp
    rw [BitVec.getLsbD_ushiftRight, BitVec.getLsbD_ushiftRight, BitVec.getLsbD_xor, hnone,
      Bool.xor_false]
  show (byteBits b).foldl (feed crcPoly) c.toBitVec = _
  rw [foldl_feed hfit, byteBits_length, ofBits_byteBits, steps_eight, hbyte, UInt32.toBitVec_xor,
    kTable, toBitVec_tableBits]
  rfl

/-- The table computes the checksum. -/
theorem crc32c_eq_bitwise (crc : UInt32) (data : Bytes) :
    crc32c crc data = crc32cBitwise crc data := by
  unfold crc32c crc32cBitwise
  rw [← foldl_crcByte]
  refine congrArg (· ^^^ 0xFFFFFFFF) (congrArg (fun f => data.foldl f _) ?_)
  funext c b
  exact (crcByte_eq c b).symm

private theorem crc32c_eq_foldl (crc : UInt32) (data : Bytes) :
    crc32c crc data = data.foldl crcByte (crc ^^^ 0xFFFFFFFF) ^^^ 0xFFFFFFFF := by
  rw [crc32c_eq_bitwise, crc32cBitwise, foldl_crcByte]

/-- A checksum can be continued. -/
theorem crc32c_append (crc : UInt32) (a b : Bytes) :
    crc32c (crc32c crc a) b = crc32c crc (a ++ b) := by
  simp only [crc32c_eq_foldl, List.foldl_append, UInt32.xor_assoc, UInt32.xor_self,
    UInt32.xor_zero]

/-! ## With the instructions -/

section Hardware

-- the instructions, `_mm_crc32_u8` or `__crc32cb`, and `_mm_crc32_u64` or `__crc32cd`
variable (crc8 : UInt32 → UInt8 → UInt32) (crc64 : UInt32 → UInt64 → UInt32)

/-- The first loop: byte by byte to an address that is a multiple of eight. -/
def alignLoop (address : Nat) (c : UInt32) : Bytes → UInt32 × Bytes
  | [] => (c, [])
  | b :: rest =>
      if address % 8 ≠ 0 then alignLoop (address + 1) (crc8 c b) rest else (c, b :: rest)

/-- The second loop: eight bytes at a time, loaded as one word. -/
def wordLoop (c : UInt32) : Bytes → UInt32 × Bytes
  | b₀ :: b₁ :: b₂ :: b₃ :: b₄ :: b₅ :: b₆ :: b₇ :: rest =>
      wordLoop (crc64 c (UInt64.ofNat (loadLe [b₀, b₁, b₂, b₃, b₄, b₅, b₆, b₇]))) rest
  | data => (c, data)

/-- `crc32c` of a processor with the instructions, for data that lies at `address`. -/
def crc32cHardware (address : Nat) (crc : UInt32) (data : Bytes) : UInt32 :=
  let (c, rest) := alignLoop crc8 address (crc ^^^ 0xFFFFFFFF) data
  let (c, rest) := wordLoop crc64 c rest
  rest.foldl crc8 c ^^^ 0xFFFFFFFF

variable {crc8 crc64}

private theorem foldl_alignLoop (h8 : ∀ c b, crc8 c b = crcByte c b) (address : Nat) (c : UInt32)
    (data : Bytes) :
    (alignLoop crc8 address c data).2.foldl crcByte (alignLoop crc8 address c data).1 =
      data.foldl crcByte c := by
  induction data generalizing address c with
  | nil => rfl
  | cons b rest ih =>
      unfold alignLoop
      split
      · rw [ih, h8]
        rfl
      · rfl

/-- Eight bytes come back from the word that they were loaded as. -/
theorem storeLe_ofNat_loadLe {bytes : Bytes} (h : bytes.length = 8) :
    storeLe 8 (UInt64.ofNat (loadLe bytes)).toNat = bytes := by
  have hlt := loadLe_lt bytes
  have hstore := storeLe_loadLe bytes
  rw [h] at hlt hstore
  rw [UInt64.toNat_ofNat', Nat.mod_eq_of_lt (by norm_num at hlt ⊢; exact hlt), hstore]

private theorem foldl_wordLoop (h64 : ∀ c v, crc64 c v = (storeLe 8 v.toNat).foldl crcByte c)
    (c : UInt32) (data : Bytes) :
    (wordLoop crc64 c data).2.foldl crcByte (wordLoop crc64 c data).1 = data.foldl crcByte c := by
  fun_induction wordLoop crc64 c data with
  | case1 c b₀ b₁ b₂ b₃ b₄ b₅ b₆ b₇ rest ih =>
      rw [ih, h64, storeLe_ofNat_loadLe (by rfl)]
      rfl
  | case2 => rfl

/-- The loops of the instructions compute the checksum, wherever the data lies. -/
theorem crc32cHardware_eq (h8 : ∀ c b, crc8 c b = crcByte c b)
    (h64 : ∀ c v, crc64 c v = (storeLe 8 v.toNat).foldl crcByte c) (address : Nat) (crc : UInt32)
    (data : Bytes) : crc32cHardware crc8 crc64 address crc data = crc32c crc data := by
  have hcrc8 : crc8 = crcByte := by
    funext c b
    exact h8 c b
  unfold crc32cHardware
  dsimp only
  rw [crc32c_eq_foldl, hcrc8, foldl_wordLoop h64, foldl_alignLoop fun _ _ => rfl]

end Hardware

/-! ## What cannot be confused -/

private theorem flatMap_byteBits_injective {a b : Bytes} (hlen : a.length = b.length)
    (h : a.flatMap byteBits = b.flatMap byteBits) : a = b := by
  induction a generalizing b with
  | nil => exact (List.length_eq_zero_iff.1 hlen.symm).symm
  | cons x a ih =>
      cases b with
      | nil => cases hlen
      | cons y b =>
          rw [List.flatMap_cons, List.flatMap_cons] at h
          obtain ⟨hx, hrest⟩ := List.append_inj h (by simp)
          rw [byteBits_injective hx, ih (Nat.succ.inj hlen) hrest]

private theorem flatMap_byteBits_length (a : Bytes) :
    (a.flatMap byteBits).length = 8 * a.length := by
  induction a with
  | nil => rfl
  | cons x a ih =>
      rw [List.flatMap_cons, List.length_append, ih, byteBits_length, List.length_cons]
      omega

/-- Data that differs within four bytes has different checksums. -/
theorem crc32c_burst {a b : Bytes} (hlen : a.length = b.length) (hfour : a.length ≤ 4)
    {crc : UInt32} {front rest : Bytes}
    (h : crc32c crc (front ++ a ++ rest) = crc32c crc (front ++ b ++ rest)) : a = b := by
  rw [crc32c_eq_bitwise, crc32c_eq_bitwise, crc32cBitwise, crc32cBitwise,
    UInt32.xor_left_inj] at h
  replace h := congrArg UInt32.toBitVec h
  simp only [List.append_assoc, List.flatMap_append] at h
  rw [List.foldl_append, List.foldl_append (l := front.flatMap byteBits)] at h
  have ha := flatMap_byteBits_length a
  have hb := flatMap_byteBits_length b
  exact flatMap_byteBits_injective hlen
    (feed_burst (by decide) crcPoly_top (by omega) (by omega) _ _ h)

/-- The table and the instructions, where these do the steps they are specified to do, both
give the reflected CRC of the polynomial; the checksum of data in two parts is the one of
the whole; and four bytes cannot be exchanged for others without the checksum changing. -/
theorem crc32c_agreement :
    (∀ crc data, crc32c crc data = crc32cBitwise crc data) ∧
    (∀ (crc8 : UInt32 → UInt8 → UInt32) (crc64 : UInt32 → UInt64 → UInt32),
      (∀ c b, crc8 c b = crcByte c b) →
      (∀ c v, crc64 c v = (storeLe 8 v.toNat).foldl crcByte c) →
      ∀ address crc data,
        crc32cHardware crc8 crc64 address crc data = crc32cBitwise crc data) ∧
    (∀ crc a b, crc32c (crc32c crc a) b = crc32c crc (a ++ b)) ∧
    ∀ crc front rest w w', w.length = 4 → w'.length = 4 → w ≠ w' →
      crc32c crc (front ++ w ++ rest) ≠ crc32c crc (front ++ w' ++ rest) := by
  refine ⟨crc32c_eq_bitwise, ?_, crc32c_append, ?_⟩
  · intro crc8 crc64 h8 h64 address crc data
    rw [crc32cHardware_eq h8 h64, crc32c_eq_bitwise]
  · intro crc front rest w w' hw hw' hne h
    exact hne (crc32c_burst (hw.trans hw'.symm) (Nat.le_of_eq hw) h)

/-- With the steps themselves for the instructions, from an address that is not aligned. -/
theorem crc32c_agreement_steps :
    crc32cHardware crcByte (fun c v => (storeLe 8 v.toNat).foldl crcByte c) 3 0 [1, 2, 3] =
        crc32cBitwise 0 [1, 2, 3] ∧
      crc32c 0 ([] ++ [1, 2, 3, 4] ++ [5]) ≠ crc32c 0 ([] ++ [1, 2, 3, 5] ++ [5]) :=
  ⟨crc32c_agreement.2.1 _ _ (fun _ _ => rfl) (fun _ _ => rfl) 3 0 [1, 2, 3],
    crc32c_agreement.2.2.2 0 [] [5] _ _ rfl rfl (by decide)⟩

end LogEngine.Base
