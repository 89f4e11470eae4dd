import LogEngine.Storage.Log
import LogEngine.Verified.Positional

/-!
# The names of the segment files

`offset_to_name`, `log_name`, `index_name` and `parse_log_name` of `src/storage/segment.cpp`.
A name is the offset in twenty decimal digits with a suffix, so that the order of the names
is the order of the offsets (`logName_lt`), and the name gives the offset back
(`parseLogName_logName`).

Twenty digits hold any offset, but not only offsets: `parse_log_name` accumulates their value
in 64 bits and does not look whether it fits.  A file whose name has a number of `2^64` or
more is taken for the segment of that number modulo `2^64`, which has another name
(`parseLogName_exact_iff`, `parseLogName_alias`).

`parseLogName_fileText` connects the names with those of `Io/Disk`, where a file name is
its kind and its offset.
-/

namespace LogEngine.Storage.Segment

open Io Verified.Positional

/-! ## Writing and reading a name -/

def kOffsetDigits : Nat := 20

def kLogSuffix : List Char := ['.', 'l', 'o', 'g']

def kIndexSuffix : List Char := ['.', 'i', 'n', 'd', 'e', 'x']

def digitChar (d : Nat) : Char := Char.ofNat ('0'.toNat + d)

/-- The loop of `offset_to_name`: the digits from the last place on, until nothing is
left. -/
def writeDigits : Nat → Nat → List Char → List Char
  | 0, _, name => name
  | i + 1, v, name =>
      if 0 < v then writeDigits i (v / 10) (name.set i (digitChar (v % 10))) else name

/-- `offset_to_name`. -/
def offsetToName (offset : Nat) (suffix : List Char) : List Char :=
  writeDigits kOffsetDigits offset (List.replicate kOffsetDigits '0') ++ suffix

/-- `log_name`. -/
def logName (baseOffset : Nat) : List Char := offsetToName baseOffset kLogSuffix

/-- `index_name`. -/
def indexName (baseOffset : Nat) : List Char := offsetToName baseOffset kIndexSuffix

/-- The loop of `parse_log_name`; `value` is a `u64`. -/
def parseDigits : List Char → Nat → Except ErrorCode Nat
  | [], value => .ok value
  | c :: rest, value =>
      if c < '0' ∨ '9' < c then .error .invalidArgument
      else parseDigits rest ((value * 10 + (c.toNat - '0'.toNat)) % 0x10000000000000000)

/-- `parse_log_name`. -/
def parseLogName (name : List Char) : Except ErrorCode Nat :=
  if name.length ≠ kOffsetDigits + kLogSuffix.length then .error .invalidArgument
  else if name.drop kOffsetDigits ≠ kLogSuffix then .error .invalidArgument
  else parseDigits (name.take kOffsetDigits) 0

/-! ## Digits -/

/-- A character that `parse_log_name` takes for a digit. -/
def IsDigit (c : Char) : Prop := ¬ (c < '0' ∨ '9' < c)

/-- The digits of a text. -/
def digits (text : List Char) : List Nat := text.map fun c => c.toNat - '0'.toNat

/-- The number in a text, however large. -/
def decimal (text : List Char) : Nat := value 10 (digits text)

instance : DecidablePred IsDigit := fun c => inferInstanceAs (Decidable (¬ (c < '0' ∨ '9' < c)))

private theorem isDigit_iff {c : Char} : IsDigit c ↔ 48 ≤ c.toNat ∧ c.toNat ≤ 57 := by
  have hzero : '0'.toNat = 48 := rfl
  have hnine : '9'.toNat = 57 := rfl
  unfold IsDigit
  rw [Char.lt_def, Char.lt_def, UInt32.lt_iff_toNat_lt, UInt32.lt_iff_toNat_lt]
  change ¬ (c.toNat < '0'.toNat ∨ '9'.toNat < c.toNat) ↔ _
  omega

private theorem toNat_digitChar : ∀ d < 10, (digitChar d).toNat = 48 + d := by decide

private theorem isDigit_digitChar : ∀ d < 10, IsDigit (digitChar d) := by decide

private theorem digitChar_lt : ∀ d < 10, ∀ e < 10, d < e → digitChar d < digitChar e := by decide

private theorem digitChar_toNat {c : Char} (h : IsDigit c) :
    digitChar (c.toNat - '0'.toNat) = c := by
  have hle : '0'.toNat ≤ c.toNat := (isDigit_iff.1 h).1
  unfold digitChar
  rw [Nat.add_sub_cancel' hle, Char.ofNat_toNat]

/-- Digits are written and read. -/
theorem digits_map_digitChar {ds : List Nat} (h : ∀ d ∈ ds, d < 10) :
    digits (ds.map digitChar) = ds := by
  unfold digits
  rw [List.map_map]
  conv_rhs => rw [← List.map_id ds]
  apply List.map_congr_left
  intro d hd
  have hzero : '0'.toNat = 48 := rfl
  rw [Function.comp_apply, toNat_digitChar d (h d hd), hzero, Nat.add_sub_cancel_left]
  rfl

/-- Digits are read and written. -/
theorem map_digitChar_digits {text : List Char} (h : ∀ c ∈ text, IsDigit c) :
    (digits text).map digitChar = text := by
  unfold digits
  rw [List.map_map]
  conv_rhs => rw [← List.map_id text]
  apply List.map_congr_left
  intro c hc
  exact digitChar_toNat (h c hc)

private theorem digits_lt {text : List Char} (h : ∀ c ∈ text, IsDigit c) :
    ∀ d ∈ digits text, d < 10 := by
  intro d hd
  unfold digits at hd
  rw [List.mem_map] at hd
  obtain ⟨c, hc, rfl⟩ := hd
  have hrange := isDigit_iff.1 (h c hc)
  have hzero : '0'.toNat = 48 := rfl
  omega

/-! ## The loops -/

/-- The loop of `offset_to_name` leaves the zeros where it stops. -/
theorem writeDigits_eq (i v : Nat) (rest : List Char) :
    writeDigits i v (List.replicate i '0' ++ rest) = (numeral 10 i v).map digitChar ++ rest := by
  induction i generalizing v rest with
  | zero => rfl
  | succ i ih =>
      unfold writeDigits
      split
      case isTrue =>
        have hset : (List.replicate (i + 1) '0' ++ rest).set i (digitChar (v % 10)) =
            List.replicate i '0' ++ (digitChar (v % 10) :: rest) := by
          rw [List.replicate_succ', List.append_assoc,
            List.set_append_right _ _ (Nat.le_of_eq List.length_replicate),
            List.length_replicate, Nat.sub_self]
          rfl
        rw [hset, ih, numeral, List.map_append, List.append_assoc]
        rfl
      case isFalse hv =>
        obtain rfl : v = 0 := Nat.eq_zero_of_not_pos hv
        rw [numeral_zero, List.map_replicate]
        rfl

private theorem offsetToName_eq (offset : Nat) (suffix : List Char) :
    offsetToName offset suffix = (numeral 10 kOffsetDigits offset).map digitChar ++ suffix := by
  have h := writeDigits_eq kOffsetDigits offset []
  rw [List.append_nil, List.append_nil] at h
  unfold offsetToName
  rw [h]

private theorem parseDigits_eq_ok {text : List Char} {acc v : Nat} :
    parseDigits text acc = .ok v ↔
      (∀ c ∈ text, IsDigit c) ∧
        v = (digits text).foldl (fun acc d => (acc * 10 + d) % 0x10000000000000000) acc := by
  induction text generalizing acc with
  | nil =>
      unfold parseDigits
      constructor
      · intro h
        cases h
        exact ⟨List.forall_mem_nil _, rfl⟩
      · rintro ⟨-, rfl⟩
        rfl
  | cons c text ih =>
      unfold parseDigits
      rw [List.forall_mem_cons]
      split
      case isTrue h =>
        constructor
        · intro hok
          cases hok
        · intro hok
          exact absurd h hok.1.1
      case isFalse h =>
        rw [ih]
        constructor
        · rintro ⟨hall, hv⟩
          exact ⟨⟨h, hall⟩, hv⟩
        · rintro ⟨⟨-, hall⟩, hv⟩
          exact ⟨hall, hv⟩

/-! ## Names and offsets -/

/-- Twenty digits and the suffix of a log file. -/
def WellFormed (name : List Char) : Prop :=
  name.length = kOffsetDigits + kLogSuffix.length ∧ name.drop kOffsetDigits = kLogSuffix ∧
    ∀ c ∈ name.take kOffsetDigits, IsDigit c

instance : DecidablePred WellFormed := fun _ => inferInstanceAs (Decidable (_ ∧ _ ∧ _))

section Names

variable {name : List Char} {v a b : Nat}

/-- `parse_log_name` accepts twenty digits, and returns their value modulo the size of a
word. -/
theorem parseLogName_eq_ok :
    parseLogName name = .ok v ↔
      WellFormed name ∧ v = decimal (name.take kOffsetDigits) % 0x10000000000000000 := by
  unfold parseLogName WellFormed decimal
  rw [← foldl_wrapped]
  split
  case isTrue h =>
    constructor
    · intro hok
      cases hok
    · intro hok
      exact absurd hok.1.1 h
  case isFalse hlen =>
  split
  case isTrue h =>
    constructor
    · intro hok
      cases hok
    · intro hok
      exact absurd hok.1.2.1 h
  case isFalse hsuffix =>
    rw [parseDigits_eq_ok]
    constructor
    · rintro ⟨hall, hv⟩
      exact ⟨⟨not_not.1 hlen, not_not.1 hsuffix, hall⟩, hv⟩
    · rintro ⟨⟨-, -, hall⟩, hv⟩
      exact ⟨hall, hv⟩

private theorem take_logName (v : Nat) :
    (logName v).take kOffsetDigits = (numeral 10 kOffsetDigits v).map digitChar := by
  unfold logName
  rw [offsetToName_eq]
  exact List.take_left' (by rw [List.length_map, numeral_length])

private theorem wellFormed_logName (v : Nat) : WellFormed (logName v) := by
  refine ⟨?_, ?_, ?_⟩
  · unfold logName
    rw [offsetToName_eq, List.length_append, List.length_map, numeral_length]
  · unfold logName
    rw [offsetToName_eq]
    exact List.drop_left' (by rw [List.length_map, numeral_length])
  · rw [take_logName]
    intro c hc
    rw [List.mem_map] at hc
    obtain ⟨d, hd, rfl⟩ := hc
    exact isDigit_digitChar d (numeral_lt (by decide) d hd)

/-- The digits of a name have its offset for their value. -/
theorem decimal_logName (hv : v < 0x10000000000000000) :
    decimal ((logName v).take kOffsetDigits) = v := by
  unfold decimal
  rw [take_logName, digits_map_digitChar (numeral_lt (by decide))]
  exact value_numeral (hv.trans (by decide))

/-- A well-formed name is the name of its number. -/
theorem WellFormed.eq_logName (h : WellFormed name) :
    name = logName (decimal (name.take kOffsetDigits)) := by
  obtain ⟨hlen, hsuffix, hall⟩ := h
  have hcount : (digits (name.take kOffsetDigits)).length = kOffsetDigits := by
    unfold digits
    rw [List.length_map, List.length_take, hlen]
    rfl
  have hnumeral := numeral_value (digits_lt hall)
  rw [hcount] at hnumeral
  unfold logName decimal
  rw [offsetToName_eq, ← hsuffix, hnumeral, map_digitChar_digits hall, List.take_append_drop]

private theorem parseLogName_logName (hv : v < 0x10000000000000000) :
    parseLogName (logName v) = .ok v := by
  rw [parseLogName_eq_ok, decimal_logName hv, Nat.mod_eq_of_lt hv]
  exact ⟨wellFormed_logName v, rfl⟩

private theorem logName_lt (hab : a < b) (hb : b < 0x10000000000000000) :
    logName a < logName b := by
  unfold logName
  rw [offsetToName_eq, offsetToName_eq]
  apply append_lt_append
  · rw [List.length_map, List.length_map, numeral_length, numeral_length]
  · apply map_lt_map
    · intro d hd e he
      exact digitChar_lt d (numeral_lt (by decide) d hd) e (numeral_lt (by decide) e he)
    · exact numeral_strictMono hab (hb.trans (by decide))

/-- A name that is accepted is the one of the offset returned just where its number is one
of 64 bits. -/
theorem eq_logName_iff (h : parseLogName name = .ok v) :
    name = logName v ↔ decimal (name.take kOffsetDigits) < 0x10000000000000000 := by
  obtain ⟨hwell, rfl⟩ := parseLogName_eq_ok.1 h
  have hlt : decimal (name.take kOffsetDigits) % 0x10000000000000000 < 0x10000000000000000 :=
    Nat.mod_lt _ (by decide)
  constructor
  · intro heq
    have hdecimal := decimal_logName hlt
    rw [← heq] at hdecimal
    exact hdecimal.trans_lt hlt
  · intro hfits
    rw [Nat.mod_eq_of_lt hfits]
    exact hwell.eq_logName

end Names

/-- The name on the disk of a file of the data directory. -/
def fileText : FileName → List Char
  | .log baseOffset => logName baseOffset
  | .index baseOffset => indexName baseOffset
  | .state => "raft.state".toList

/-- A sidecar is not taken for a segment. -/
theorem parseLogName_indexName (baseOffset : Nat) :
    parseLogName (indexName baseOffset) = .error .invalidArgument := by
  have hlen : (indexName baseOffset).length ≠ kOffsetDigits + kLogSuffix.length := by
    unfold indexName
    rw [offsetToName_eq, List.length_append, List.length_map, numeral_length]
    decide
  exact if_pos hlen

/-- Of the files a broker writes, with offsets of 64 bits, those are taken for segments that
are. -/
theorem parseLogName_fileText {f : FileName}
    (h : ∀ baseOffset, f = .log baseOffset → baseOffset < 0x10000000000000000) :
    (parseLogName (fileText f)).toOption = Log.parseLogName f := by
  cases f with
  | log baseOffset => exact congrArg Except.toOption (parseLogName_logName (h baseOffset rfl))
  | index baseOffset => exact congrArg Except.toOption (parseLogName_indexName baseOffset)
  | state => rfl

/-- The name gives the offset back, names are ordered as their offsets, and a name is
accepted only as the name of the offset it is accepted for, if and only if it is not twenty
digits with a value of `2^64` or more. -/
theorem parseLogName_exact_iff (name : List Char) :
    ((∀ offset < 0x10000000000000000, parseLogName (logName offset) = .ok offset) ∧
      (∀ a b, a < b → b < 0x10000000000000000 → logName a < logName b) ∧
      ∀ v, parseLogName name = .ok v → name = logName v) ↔
      (WellFormed name → decimal (name.take kOffsetDigits) < 0x10000000000000000) := by
  constructor
  · rintro ⟨-, -, h⟩ hwell
    have hok := parseLogName_eq_ok.2 ⟨hwell, rfl⟩
    exact (eq_logName_iff hok).1 (h _ hok)
  · intro h
    refine ⟨fun offset h => parseLogName_logName h, fun a b hab hb => logName_lt hab hb, ?_⟩
    intro v hok
    exact (eq_logName_iff hok).2 (h (parseLogName_eq_ok.1 hok).1)

/-- A name that is too short for a segment. -/
theorem parseLogName_exact_foreign :
    (∀ v, parseLogName "1.log".toList = .ok v → "1.log".toList = logName v) ∧
      parseLogName (logName 0xffffffffffffffff) = .ok 0xffffffffffffffff ∧
      logName 9 < logName 10 := by
  obtain ⟨hback, horder, hexact⟩ := (parseLogName_exact_iff "1.log".toList).2 fun _ => by decide
  exact ⟨hexact, hback _ (by decide), horder 9 10 (by decide) (by decide)⟩

/-- The first number that does not fit is taken for the segment at offset zero. -/
theorem parseLogName_alias :
    parseLogName "18446744073709551616.log".toList = .ok 0 ∧
      "18446744073709551616.log".toList ≠ logName 0 := by
  decide

end LogEngine.Storage.Segment
