import Mathlib.Data.List.Induction
import Mathlib.Data.List.Lex
import Mathlib.Tactic.Ring

/-!
# Numerals of a fixed width

The positional numerals of `n` digits in a base `b`, the highest digit first, and their
value.  Up to `b ^ n` the two are inverse to each other (`value_numeral`, `numeral_value`),
and the lexicographic order of the numerals is the order of the numbers
(`numeral_strictMono`).

A value that is accumulated in a machine word is the value modulo the size of the word
(`foldl_wrapped`).
-/

namespace LogEngine.Verified.Positional

variable {b n v w m : Nat} {ds : List Nat}

/-- The value of a numeral. -/
def value (b : Nat) (ds : List Nat) : Nat := ds.foldl (fun acc d => acc * b + d) 0

/-- The numeral of `n` digits. -/
def numeral (b : Nat) : Nat → Nat → List Nat
  | 0, _ => []
  | n + 1, v => numeral b n (v / b) ++ [v % b]

private theorem value_snoc (b : Nat) (ds : List Nat) (d : Nat) :
    value b (ds ++ [d]) = value b ds * b + d := by
  unfold value
  rw [List.foldl_append]
  rfl

@[simp] theorem numeral_length (b n v : Nat) : (numeral b n v).length = n := by
  induction n generalizing v with
  | zero => rfl
  | succ n ih =>
      unfold numeral
      rw [List.length_append, ih]
      rfl

theorem numeral_lt (hb : 0 < b) : ∀ d ∈ numeral b n v, d < b := by
  induction n generalizing v with
  | zero =>
      intro d hd
      cases hd
  | succ n ih =>
      intro d hd
      unfold numeral at hd
      rw [List.mem_append, List.mem_singleton] at hd
      rcases hd with hd | rfl
      · exact ih d hd
      · exact Nat.mod_lt v hb

theorem numeral_zero (b n : Nat) : numeral b n 0 = List.replicate n 0 := by
  induction n with
  | zero => rfl
  | succ n ih =>
      unfold numeral
      rw [Nat.zero_div, Nat.zero_mod, ih, List.replicate_succ']

/-! ## There and back -/

theorem value_numeral (hv : v < b ^ n) : value b (numeral b n v) = v := by
  induction n generalizing v with
  | zero =>
      rw [Nat.pow_zero] at hv
      exact (Nat.lt_one_iff.1 hv).symm
  | succ n ih =>
      unfold numeral
      rw [value_snoc, ih (Nat.div_lt_of_lt_mul (by rwa [Nat.pow_succ'] at hv)),
        Nat.div_add_mod']

theorem numeral_value (hds : ∀ d ∈ ds, d < b) : numeral b ds.length (value b ds) = ds := by
  induction ds using List.reverseRecOn with
  | nil => rfl
  | append_singleton ds d ih =>
      have hd : d < b := hds d (by simp)
      have hpos : 0 < b := Nat.zero_lt_of_lt hd
      rw [List.length_append, List.length_singleton]
      unfold numeral
      rw [value_snoc, Nat.mul_comm, Nat.mul_add_div hpos, Nat.mul_add_mod,
        Nat.div_eq_of_lt hd, Nat.mod_eq_of_lt hd, Nat.add_zero,
        ih fun d hmem => hds d (List.mem_append_left _ hmem)]

/-- Accumulating modulo `m` loses nothing but the multiples of `m`. -/
theorem foldl_wrapped (b m : Nat) (ds : List Nat) :
    ds.foldl (fun acc d => (acc * b + d) % m) 0 = value b ds % m := by
  induction ds using List.reverseRecOn with
  | nil => exact (Nat.zero_mod m).symm
  | append_singleton ds d ih =>
      rw [List.foldl_append, ih, value_snoc, List.foldl_cons, List.foldl_nil, Nat.add_mod,
        Nat.mul_mod, Nat.mod_mod, ← Nat.mul_mod, ← Nat.add_mod]

/-! ## The order -/

section Lexicographic

variable {α β : Type} [LT α] [LT β] {x y s t : List α}

/-- Lists of one length that differ decide the order of what they begin. -/
theorem append_lt_append (hlen : x.length = y.length) (h : x < y) : x ++ s < y ++ t := by
  induction x generalizing y with
  | nil =>
      cases y with
      | nil => cases h
      | cons => cases hlen
  | cons a x ih =>
      cases y with
      | nil => cases hlen
      | cons c y =>
          rw [List.cons_append, List.cons_append, List.cons_lt_cons_iff]
          rw [List.cons_lt_cons_iff] at h
          rcases h with h | ⟨rfl, h⟩
          · exact .inl h
          · exact .inr ⟨rfl, ih (Nat.succ.inj hlen) h⟩

theorem map_lt_map {f : α → β} (hf : ∀ a ∈ x, ∀ c ∈ y, a < c → f a < f c) (h : x < y) :
    x.map f < y.map f := by
  induction x generalizing y with
  | nil =>
      cases y with
      | nil => cases h
      | cons => exact List.nil_lt_cons _ _
  | cons a x ih =>
      cases y with
      | nil => cases h
      | cons c y =>
          rw [List.map_cons, List.map_cons, List.cons_lt_cons_iff]
          rw [List.cons_lt_cons_iff] at h
          rcases h with h | ⟨rfl, h⟩
          · exact .inl (hf a List.mem_cons_self c List.mem_cons_self h)
          · refine .inr ⟨rfl, ih (fun i hi j hj => ?_) h⟩
            exact hf i (List.mem_cons_of_mem _ hi) j (List.mem_cons_of_mem _ hj)

end Lexicographic

/-- The numerals are ordered as the numbers. -/
theorem numeral_strictMono (hvw : v < w) (hw : w < b ^ n) : numeral b n v < numeral b n w := by
  induction n generalizing v w with
  | zero =>
      rw [Nat.pow_zero] at hw
      omega
  | succ n ih =>
      unfold numeral
      have hdiv : w / b < b ^ n := Nat.div_lt_of_lt_mul (by rwa [Nat.pow_succ'] at hw)
      rcases Nat.lt_or_eq_of_le (Nat.div_le_div_right (c := b) (Nat.le_of_lt hvw)) with h | h
      · exact append_lt_append (by simp) (ih h hdiv)
      · -- the same but for the last digit
        rw [h]
        apply List.append_left_lt
        rw [List.cons_lt_cons_iff]
        left
        have hv := Nat.div_add_mod v b
        have hw := Nat.div_add_mod w b
        rw [h] at hv
        omega

end LogEngine.Verified.Positional
