import Mathlib.Data.List.Basic

/-!
# Shift registers

The register behind a reflected cyclic redundancy check: it moves to the right, and where a
one falls out the polynomial is folded in.  Message bits meet the bit that falls out
(`feed`), one after the other.

A register whose polynomial has its highest bit set forgets nothing: one step is injective
(`step_injective`), because the bit that fell out stands at the top afterwards.  A step is
linear as well (`step_xor`), and so up to `w` message bits act like their word folded into the
register at once (`foldl_feed`).  From these two it follows that messages which differ in up
to `w` adjacent bits, and nowhere else, leave different registers (`feed_burst`).
-/

namespace LogEngine.Verified.ShiftRegister

variable {w : Nat} (poly : BitVec w)

/-- The register moves by one bit. -/
def step (c : BitVec w) : BitVec w :=
  if c.getLsbD 0 then poly ^^^ (c >>> 1) else c >>> 1

def steps : Nat → BitVec w → BitVec w
  | 0, c => c
  | k + 1, c => steps k (step poly c)

/-- The register takes one bit of a message. -/
def feed (c : BitVec w) (bit : Bool) : BitVec w :=
  if c.getLsbD 0 ^^ bit then poly ^^^ (c >>> 1) else c >>> 1

/-- The word whose bits these are, the lowest first. -/
def ofBits : List Bool → BitVec w
  | [] => 0
  | b :: bits => (ofBits bits <<< 1) ^^^ (BitVec.ofBool b).setWidth w

variable {poly} {a b c : BitVec w}

/-! ## One step -/

private theorem getLsbD_step (c : BitVec w) (i : Nat) :
    (step poly c).getLsbD i = ((c.getLsbD 0 && poly.getLsbD i) ^^ c.getLsbD (1 + i)) := by
  unfold step
  cases c.getLsbD 0 <;> simp

private theorem step_xor (a b : BitVec w) : step poly (a ^^^ b) = step poly a ^^^ step poly b := by
  apply BitVec.eq_of_getLsbD_eq
  intro i _
  simp only [getLsbD_step, BitVec.getLsbD_xor]
  cases a.getLsbD 0 <;> cases b.getLsbD 0 <;> cases poly.getLsbD i <;>
    cases a.getLsbD (1 + i) <;> cases b.getLsbD (1 + i) <;> rfl

/-- Below a zero the register only moves. -/
theorem step_of_even (h : c.getLsbD 0 = false) : step poly c = c >>> 1 := by
  unfold step
  rw [h]
  rfl

/-- The bit that falls out is the highest one afterwards. -/
theorem step_injective (hpoly : poly.getLsbD (w - 1) = true) (h : step poly a = step poly b) :
    a = b := by
  have hbit : ∀ i, (step poly a).getLsbD i = (step poly b).getLsbD i := fun i => by rw [h]
  simp only [getLsbD_step] at hbit
  have hfirst : a.getLsbD 0 = b.getLsbD 0 := by
    have htop := hbit (w - 1)
    rw [hpoly, BitVec.getLsbD_of_ge a (1 + (w - 1)) (by omega),
      BitVec.getLsbD_of_ge b (1 + (w - 1)) (by omega)] at htop
    simpa using htop
  apply BitVec.eq_of_getLsbD_eq
  intro i _
  cases i with
  | zero => exact hfirst
  | succ i =>
      have hi := hbit i
      rw [hfirst, Bool.xor_right_inj, Nat.add_comm] at hi
      exact hi

/-! ## Many steps -/

theorem steps_xor (k : Nat) (a b : BitVec w) :
    steps poly k (a ^^^ b) = steps poly k a ^^^ steps poly k b := by
  induction k generalizing a b with
  | zero => rfl
  | succ k ih =>
      unfold steps
      rw [step_xor]
      exact ih _ _

private theorem steps_injective (hpoly : poly.getLsbD (w - 1) = true) {k : Nat}
    (h : steps poly k a = steps poly k b) : a = b := by
  induction k generalizing a b with
  | zero => exact h
  | succ k ih => exact step_injective hpoly (ih h)

/-- A register whose lowest bits are clear only moves, as long as they last. -/
theorem steps_of_clear {k : Nat} (h : ∀ i < k, c.getLsbD i = false) :
    steps poly k c = c >>> k := by
  induction k generalizing c with
  | zero => exact (BitVec.ushiftRight_zero c).symm
  | succ k ih =>
      unfold steps
      rw [step_of_even (h 0 (Nat.zero_lt_succ k)), ih, ← BitVec.shiftRight_add, Nat.add_comm]
      intro i hi
      rw [BitVec.getLsbD_ushiftRight]
      exact h (1 + i) (by omega)

/-! ## Messages -/

private theorem getLsbD_ofBool (b : Bool) (i : Nat) :
    ((BitVec.ofBool b).setWidth w).getLsbD i = (decide (i < w) && (decide (i = 0) && b)) := by
  rw [BitVec.getLsbD_setWidth, BitVec.getLsbD_ofBool]

theorem getLsbD_ofBits (bits : List Bool) (i : Nat) :
    (ofBits bits : BitVec w).getLsbD i = (decide (i < w) && bits.getD i false) := by
  induction bits generalizing i with
  | nil => simp [ofBits]
  | cons b bits ih =>
      unfold ofBits
      rw [BitVec.getLsbD_xor, BitVec.getLsbD_shiftLeft, getLsbD_ofBool, ih]
      cases i with
      | zero => simp
      | succ i =>
          by_cases hi : i + 1 < w
          · simp [hi, Nat.lt_of_succ_lt hi]
          · simp [hi]

/-- Bits of one number make one word, as long as there are no more than fit. -/
theorem ofBits_injective {bits bits' : List Bool} (hlen : bits.length = bits'.length)
    (hfit : bits.length ≤ w) (h : (ofBits bits : BitVec w) = ofBits bits') : bits = bits' := by
  apply List.ext_getElem hlen
  intro i hi hi'
  have hbit : (ofBits bits : BitVec w).getLsbD i = (ofBits bits' : BitVec w).getLsbD i := by
    rw [h]
  rw [getLsbD_ofBits, getLsbD_ofBits, decide_eq_true (by omega : i < w)] at hbit
  simpa [hi, hi'] using hbit

/-- A message bit acts like a bit of the register. -/
theorem feed_eq (hw : 0 < w) (c : BitVec w) (bit : Bool) :
    feed poly c bit = step poly (c ^^^ (BitVec.ofBool bit).setWidth w) := by
  have hlow : (c ^^^ (BitVec.ofBool bit).setWidth w).getLsbD 0 = (c.getLsbD 0 ^^ bit) := by
    rw [BitVec.getLsbD_xor, getLsbD_ofBool]
    simp [hw]
  have hrest : (c ^^^ (BitVec.ofBool bit).setWidth w) >>> 1 = c >>> 1 := by
    apply BitVec.eq_of_getLsbD_eq
    intro i _
    rw [BitVec.getLsbD_ushiftRight, BitVec.getLsbD_ushiftRight, BitVec.getLsbD_xor, getLsbD_ofBool]
    simp
  unfold feed step
  rw [hlow, hrest]

private theorem feed_injective (hw : 0 < w) (hpoly : poly.getLsbD (w - 1) = true) {bit : Bool}
    (h : feed poly a bit = feed poly b bit) : a = b := by
  rw [feed_eq hw, feed_eq hw] at h
  exact (BitVec.xor_left_inj _).1 (step_injective hpoly h)

private theorem foldl_feed_injective (hw : 0 < w) (hpoly : poly.getLsbD (w - 1) = true)
    {bits : List Bool} (h : bits.foldl (feed poly) a = bits.foldl (feed poly) b) : a = b := by
  induction bits generalizing a b with
  | nil => exact h
  | cons bit bits ih => exact feed_injective hw hpoly (ih h)

/-- Message bits that fit into the register act like their word. -/
theorem foldl_feed {bits : List Bool} (hfit : bits.length ≤ w) (c : BitVec w) :
    bits.foldl (feed poly) c = steps poly bits.length (c ^^^ ofBits bits) := by
  induction bits generalizing c with
  | nil =>
      exact (BitVec.xor_zero (x := c)).symm
  | cons bit bits ih =>
      rw [List.length_cons] at hfit
      -- the highest bit of the rest is clear, so nothing of it is shifted out
      have hrest : step poly (ofBits bits <<< 1) = ofBits bits := by
        have hzero : (ofBits bits <<< 1 : BitVec w).getLsbD 0 = false := by simp
        rw [step_of_even hzero]
        apply BitVec.eq_of_getLsbD_eq
        intro i hi
        rw [BitVec.getLsbD_ushiftRight, BitVec.getLsbD_shiftLeft, getLsbD_ofBits, getLsbD_ofBits]
        by_cases hlast : 1 + i < w
        · simp [hlast, hi]
        · have hnone : bits.length ≤ i := by omega
          simp [hlast, hnone]
      rw [List.foldl_cons, ih (by omega), feed_eq (by omega), List.length_cons]
      show _ = steps poly bits.length (step poly (c ^^^ ((ofBits bits <<< 1) ^^^ _)))
      rw [BitVec.xor_comm (ofBits bits <<< 1), ← BitVec.xor_assoc, step_xor _ (ofBits bits <<< 1),
        hrest]

/-- Messages that differ within the width of the register leave different registers. -/
theorem feed_burst (hw : 0 < w) (hpoly : poly.getLsbD (w - 1) = true)
    {bits bits' : List Bool} (hlen : bits.length = bits'.length) (hfit : bits.length ≤ w)
    (c : BitVec w) (rest : List Bool)
    (h : (bits ++ rest).foldl (feed poly) c = (bits' ++ rest).foldl (feed poly) c) :
    bits = bits' := by
  rw [List.foldl_append, List.foldl_append] at h
  have hburst := foldl_feed_injective hw hpoly h
  rw [foldl_feed hfit, foldl_feed (hlen ▸ hfit), ← hlen] at hburst
  have hword := (BitVec.xor_right_inj c).1 (steps_injective hpoly hburst)
  exact ofBits_injective hlen hfit hword

end LogEngine.Verified.ShiftRegister
