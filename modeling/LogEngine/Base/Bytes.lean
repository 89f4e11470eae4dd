import Mathlib.Data.List.Basic
import Mathlib.Tactic.Ring

/-!
# Bytes, little-endian fields and the checksum

`src/base/endian.h` and `src/base/crc32c.cpp`.  Everything the project writes is
little-endian; the accessors of the source for 16, 32 and 64 bits are `storeLe`
and `loadLe` at 2, 4 and 8 bytes.  The checksum is the table-driven CRC-32C, with
the table as a function of the index.
-/

namespace LogEngine.Base

abbrev Bytes := List UInt8

/-- `Slice::subslice`: clamped to what is there. -/
def subslice (bytes : Bytes) (offset count : Nat) : Bytes := (bytes.drop offset).take count

theorem subslice_append_left {a b : Bytes} {i n : Nat} (h : i + n ≤ a.length) :
    subslice (a ++ b) i n = subslice a i n := by
  unfold subslice
  rw [List.drop_append_of_le_length (by omega), List.take_append_of_le_length]
  rw [List.length_drop]
  omega

theorem subslice_append_right {a b : Bytes} {i n : Nat} (h : a.length ≤ i) :
    subslice (a ++ b) i n = subslice b (i - a.length) n := by
  unfold subslice
  rw [List.drop_append, List.drop_of_length_le h, List.nil_append]

theorem subslice_all {a : Bytes} {n : Nat} (h : a.length ≤ n) : subslice a 0 n = a := by
  rw [subslice, List.drop_zero, List.take_of_length_le h]

theorem subslice_split (bytes : Bytes) (i m n : Nat) :
    subslice bytes i (m + n) = subslice bytes i m ++ subslice bytes (i + m) n := by
  unfold subslice
  rw [List.take_add, List.drop_drop]

theorem subslice_join {bytes : Bytes} {i j m n : Nat} (h : i + m = j) :
    subslice bytes i m ++ subslice bytes j n = subslice bytes i (m + n) := by
  rw [← h, subslice_split]

theorem subslice_length (a : Bytes) (i n : Nat) :
    (subslice a i n).length = min n (a.length - i) := by
  simp [subslice]

/-- `store_u16_le`, `store_u32_le` and `store_u64_le`, by the number of bytes. -/
def storeLe : Nat → Nat → Bytes
  | 0, _ => []
  | width + 1, v => UInt8.ofNat v :: storeLe width (v / 256)

/-- `load_u16_le`, `load_u32_le` and `load_u64_le`. -/
def loadLe : Bytes → Nat
  | [] => 0
  | b :: rest => b.toNat + 256 * loadLe rest

/-- The field of `width` bytes at `offset`. -/
def field (bytes : Bytes) (offset width : Nat) : Nat := loadLe (subslice bytes offset width)

@[simp] theorem storeLe_length (width v : Nat) : (storeLe width v).length = width := by
  induction width generalizing v with
  | zero => rfl
  | succ width ih => simp [storeLe, ih]

/-- A field holds a number up to its width. -/
theorem loadLe_storeLe (width v : Nat) : loadLe (storeLe width v) = v % 256 ^ width := by
  induction width generalizing v with
  | zero => simp [storeLe, loadLe, Nat.mod_one]
  | succ width ih =>
      have hbyte : (UInt8.ofNat v).toNat = v % 256 := UInt8.toNat_ofNat'
      show (UInt8.ofNat v).toNat + 256 * loadLe (storeLe width (v / 256)) = _
      rw [ih, hbyte, Nat.pow_succ, Nat.mul_comm (256 ^ width), Nat.mod_mul]

theorem loadLe_storeLe_of_lt {width v : Nat} (h : v < 256 ^ width) :
    loadLe (storeLe width v) = v := by
  rw [loadLe_storeLe, Nat.mod_eq_of_lt h]

section Fields

variable {a b : Bytes} {i n : Nat}

/-- A field lies behind the bytes before it. -/
theorem field_append_right (h : a.length ≤ i) : field (a ++ b) i n = field b (i - a.length) n := by
  rw [field, subslice_append_right h, field]

theorem field_append_left (h : i + n ≤ a.length) : field (a ++ b) i n = field a i n := by
  rw [field, subslice_append_left h, field]

/-- A field reads back as it was stored. -/
theorem field_storeLe {v : Nat} (h : v < 256 ^ n) : field (storeLe n v) 0 n = v := by
  rw [field, subslice_all (by simp), loadLe_storeLe_of_lt h]

end Fields

theorem loadLe_lt (bytes : Bytes) : loadLe bytes < 256 ^ bytes.length := by
  induction bytes with
  | nil => simp [loadLe]
  | cons b rest ih =>
      have hb : b.toNat < 256 := b.toNat_lt
      show b.toNat + 256 * loadLe rest < 256 ^ (rest.length + 1)
      rw [pow_succ]
      omega

/-- Bytes are stored as they were loaded. -/
theorem storeLe_loadLe (bytes : Bytes) : storeLe bytes.length (loadLe bytes) = bytes := by
  induction bytes with
  | nil => rfl
  | cons b rest ih =>
      have hb : b.toNat < 256 := b.toNat_lt
      have hdiv : (b.toNat + 256 * loadLe rest) / 256 = loadLe rest := by omega
      have hbyte : UInt8.ofNat (b.toNat + 256 * loadLe rest) = b := by
        apply UInt8.toNat_inj.1
        rw [UInt8.toNat_ofNat']
        omega
      show UInt8.ofNat (b.toNat + 256 * loadLe rest) ::
        storeLe rest.length ((b.toNat + 256 * loadLe rest) / 256) = b :: rest
      rw [hdiv, ih, hbyte]

theorem storeLe_field {bytes : Bytes} {i n : Nat} (h : i + n ≤ bytes.length) :
    storeLe n (field bytes i n) = subslice bytes i n := by
  have hlen : (subslice bytes i n).length = n := by
    rw [subslice_length]
    omega
  have hstore := storeLe_loadLe (subslice bytes i n)
  rw [hlen] at hstore
  exact hstore

/-- `store_i64_le`: the two's complement. -/
def storeI64 (v : Int) : Bytes := storeLe 8 (v % 0x10000000000000000).toNat

/-- `load_i64_le`. -/
def loadI64 (bytes : Bytes) : Int :=
  if loadLe bytes < 0x8000000000000000 then loadLe bytes
  else loadLe bytes - 0x10000000000000000

/-! ## CRC-32C -/

def kReflectedPoly : UInt32 := 0x82F63B78

/-- The inner loop of `make_table`. -/
def tableBits : Nat → UInt32 → UInt32
  | 0, c => c
  | k + 1, c =>
      tableBits k (if c &&& 1 ≠ 0 then kReflectedPoly ^^^ (c >>> 1) else c >>> 1)

/-- `kTable[i]`. -/
def kTable (i : UInt32) : UInt32 := tableBits 8 i

/-- `crc32c_software`. -/
def crc32c (crc : UInt32) (data : Bytes) : UInt32 :=
  data.foldl (fun c b => kTable ((c ^^^ b.toUInt32) &&& 0xFF) ^^^ (c >>> 8))
    (crc ^^^ 0xFFFFFFFF) ^^^ 0xFFFFFFFF

-- the standard check value of the polynomial: the checksum of "123456789"
example : crc32c 0 [49, 50, 51, 52, 53, 54, 55, 56, 57] = 0xE3069283 := by decide +kernel

end LogEngine.Base
