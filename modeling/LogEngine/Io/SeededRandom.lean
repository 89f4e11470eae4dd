import Mathlib.Data.Nat.Count
import Mathlib.Data.Int.CardIntervalMod
import Mathlib.Data.Set.Card
import Mathlib.Data.UInt

/-!
# The random numbers of a run

`src/io/seeded_random.h`: xoshiro256**, from any state, and `next_below` on top of it.  The
remainder of a word by the bound would favour the small numbers where the bound does not
divide the number of words, so `next_below` draws again while the word is less than
`2^64 mod bound`, which it computes without leaving 64 bits (`toNat_threshold`).

The words from there on are as many whole rounds of the remainders
(`nextBelow_unbiased`), and there are never fewer of them than of the others.
-/

namespace LogEngine.Io

/-! ## Remainders over an interval -/

section Residues

variable {m b k : Nat}

/-- From `m % b` up to `m`, each remainder by `b` occurs `m / b` times. -/
theorem count_residue (hk : k < b) :
    ((Finset.range m).filter fun r => m % b ≤ r ∧ r % b = k).card = m / b := by
  have hb : 0 < b := Nat.zero_lt_of_lt hk
  have hcount (n : Nat) : ((Finset.range n).filter fun r => r % b = k).card =
      n / b + if k < n % b then 1 else 0 := by
    have h := Nat.count_modEq_card n hb k
    rw [Nat.count_eq_card_filter_range, Nat.mod_eq_of_lt hk] at h
    rw [← h]
    refine congrArg Finset.card (Finset.filter_congr fun r _ => ?_)
    unfold Nat.ModEq
    rw [Nat.mod_eq_of_lt hk]
  -- the numbers below `m % b` are the ones that would be too many
  have hsplit : (Finset.range m).filter (fun r => m % b ≤ r ∧ r % b = k) =
      (Finset.range m).filter (fun r => r % b = k) \
        (Finset.range (m % b)).filter (fun r => r % b = k) := by
    ext r
    simp only [Finset.mem_filter, Finset.mem_range, Finset.mem_sdiff]
    have := Nat.mod_le m b
    omega
  have hsub : (Finset.range (m % b)).filter (fun r => r % b = k) ⊆
      (Finset.range m).filter (fun r => r % b = k) :=
    Finset.filter_subset_filter _ (Finset.range_subset_range.2 (Nat.mod_le m b))
  rw [hsplit, Finset.card_sdiff_of_subset hsub, hcount, hcount, Nat.mod_mod,
    Nat.div_eq_of_lt (Nat.mod_lt m hb), Nat.zero_add, Nat.add_sub_cancel]

/-- So many numbers are from `k` up to `m`. -/
theorem count_from : ((Finset.range m).filter fun r => k ≤ r).card = m - k := by
  rw [← Nat.card_Ico]
  congr 1
  ext r
  simp only [Finset.mem_filter, Finset.mem_range, Finset.mem_Ico]
  omega

private theorem two_mul_mod_le (hb : 0 < b) (hle : b ≤ m) : 2 * (m % b) ≤ m := by
  have hlt := Nat.mod_lt m hb
  have hdiv := Nat.div_add_mod m b
  have hone : b * 1 ≤ b * (m / b) := Nat.mul_le_mul_left b (Nat.div_pos hle hb)
  omega

end Residues

/-! ## The generator -/

/-- The state `s_`. -/
structure SeededRandom where
  s0 : UInt64
  s1 : UInt64
  s2 : UInt64
  s3 : UInt64
  deriving DecidableEq, Repr

namespace SeededRandom

def rotl (x k : UInt64) : UInt64 := (x <<< k) ||| (x >>> (64 - k))

/-- `next_u64`. -/
def nextU64 (s : SeededRandom) : UInt64 × SeededRandom :=
  let result := rotl (s.s1 * 5) 7 * 9
  let t := s.s1 <<< 17
  let s2 := s.s2 ^^^ s.s0
  let s3 := s.s3 ^^^ s.s1
  let s1 := s.s1 ^^^ s2
  let s0 := s.s0 ^^^ s3
  let s2 := s2 ^^^ t
  let s3 := rotl s3 45
  (result, { s0, s1, s2, s3 })

/-- `threshold` of `next_below`. -/
def threshold (bound : UInt64) : UInt64 := (~~~bound + 1) % bound

/-- The loop of `next_below`, for so many words at most. -/
def drawBelow (bound : UInt64) : Nat → SeededRandom → Option (UInt64 × SeededRandom)
  | 0, _ => none
  | words + 1, s =>
      let (r, s) := s.nextU64
      if threshold bound ≤ r then some (r % bound, s) else drawBelow bound words s

/-- `next_below`. -/
def nextBelow (bound : UInt64) (words : Nat) (s : SeededRandom) : Option (UInt64 × SeededRandom) :=
  if bound ≤ 1 then some (0, s) else drawBelow bound words s

/-- The generator after so many words. -/
def after (s : SeededRandom) : Nat → SeededRandom
  | 0 => s
  | n + 1 => (s.after n).nextU64.2

/-- The word drawn after so many others. -/
def word (s : SeededRandom) (n : Nat) : UInt64 := (s.after n).nextU64.1

private theorem after_nextU64 (s : SeededRandom) (n : Nat) :
    s.nextU64.2.after n = s.after (n + 1) := by
  induction n with
  | zero => rfl
  | succ n ih =>
      rw [after, ih]
      rfl

/-- The first word that is not below the threshold decides, and the words behind it are not
drawn. -/
theorem drawBelow_eq_some {bound v : UInt64} {words : Nat} {s s' : SeededRandom} :
    drawBelow bound words s = some (v, s') ↔
      ∃ n < words, (∀ i < n, s.word i < threshold bound) ∧ threshold bound ≤ s.word n ∧
        v = s.word n % bound ∧ s' = s.after (n + 1) := by
  induction words generalizing s with
  | zero =>
      constructor
      · intro h
        cases h
      · rintro ⟨n, hn, -⟩
        omega
  | succ words ih =>
      unfold drawBelow
      dsimp only
      split
      case isTrue haccept =>
        constructor
        · intro h
          cases h
          exact ⟨0, Nat.succ_pos _, fun i hi => by omega, haccept, rfl, rfl⟩
        · rintro ⟨n, -, hbefore, -, rfl, rfl⟩
          cases n with
          | zero => rfl
          | succ n => exact absurd haccept (UInt64.not_le.2 (hbefore 0 (Nat.succ_pos n)))
      case isFalse hreject =>
        rw [ih]
        constructor
        · rintro ⟨n, hn, hbefore, haccept, hv, hs⟩
          unfold word at hbefore haccept hv
          simp only [after_nextU64] at hbefore haccept hv hs
          refine ⟨n + 1, by omega, ?_, haccept, hv, hs⟩
          intro i hi
          cases i with
          | zero => exact UInt64.not_le.1 hreject
          | succ i => exact hbefore i (by omega)
        · rintro ⟨n, hn, hbefore, haccept, hv, hs⟩
          cases n with
          | zero => exact absurd haccept hreject
          | succ n =>
              refine ⟨n, by omega, ?_, ?_, ?_, ?_⟩
              · intro i hi
                unfold word
                rw [after_nextU64]
                exact hbefore (i + 1) (by omega)
              · unfold word
                rw [after_nextU64]
                exact haccept
              · unfold word
                rw [after_nextU64]
                exact hv
              · rw [after_nextU64]
                exact hs

/-! ## What the words give -/

/-- The threshold is the number of words modulo the bound. -/
theorem toNat_threshold {bound : UInt64} (h : 0 < bound.toNat) :
    (threshold bound).toNat = 0x10000000000000000 % bound.toNat := by
  have hlt := bound.toNat_lt
  unfold threshold
  rw [UInt64.toNat_mod, ← UInt64.neg_eq_not_add, UInt64.toNat_neg]
  unfold UInt64.size
  rw [Nat.mod_eq_of_lt (by omega : 0x10000000000000000 - bound.toNat < 0x10000000000000000),
    ← Nat.mod_eq_sub_mod (by omega)]

/-- Words with a property are counted as numbers. -/
theorem ncard_words (p : Nat → Prop) [DecidablePred p] :
    {r : UInt64 | p r.toNat}.ncard =
      ((Finset.range 0x10000000000000000).filter p).card := by
  rw [← Set.ncard_coe_finset, ← Set.ncard_image_of_injective _ fun _ _ => UInt64.toNat_inj.1]
  congr 1
  ext n
  simp only [Set.mem_image, Set.mem_ofPred_eq, Finset.coe_filter, Finset.mem_range]
  constructor
  · rintro ⟨r, hr, rfl⟩
    exact ⟨r.toNat_lt, hr⟩
  · rintro ⟨hn, hp⟩
    refine ⟨UInt64.ofNat n, ?_, UInt64.toNat_ofNat_of_lt' hn⟩
    rw [UInt64.toNat_ofNat_of_lt' hn]
    exact hp

/-- Of the words that `next_below` accepts, which are those from the threshold on, each
number below the bound is the remainder of equally many, and half of all words at least are
accepted. -/
theorem nextBelow_unbiased (bound : UInt64) (hbound : 2 ≤ bound) :
    (∀ words s v s', nextBelow bound words s = some (v, s') ↔
      ∃ n < words, (∀ i < n, s.word i < threshold bound) ∧ threshold bound ≤ s.word n ∧
        v = s.word n % bound ∧ s' = s.after (n + 1)) ∧
    (∀ k < bound, {r : UInt64 | threshold bound ≤ r ∧ r % bound = k}.ncard =
      0x10000000000000000 / bound.toNat) ∧
    0x10000000000000000 ≤ 2 * {r : UInt64 | threshold bound ≤ r}.ncard := by
  have htwo : 2 ≤ bound.toNat := UInt64.le_iff_toNat_le.1 hbound
  have hlt := bound.toNat_lt
  refine ⟨?_, ?_, ?_⟩
  · intro words s v s'
    unfold nextBelow
    rw [if_neg (by rw [UInt64.le_iff_toNat_le]; exact Nat.not_le.2 htwo), drawBelow_eq_some]
  · intro k hk
    simp only [UInt64.le_iff_toNat_le, ← UInt64.toNat_inj, UInt64.toNat_mod,
      toNat_threshold (Nat.zero_lt_of_lt htwo)]
    rw [ncard_words fun r => 0x10000000000000000 % bound.toNat ≤ r ∧ r % bound.toNat = k.toNat]
    exact count_residue (UInt64.lt_iff_toNat_lt.1 hk)
  · simp only [UInt64.le_iff_toNat_le, toNat_threshold (Nat.zero_lt_of_lt htwo)]
    rw [ncard_words fun r => 0x10000000000000000 % bound.toNat ≤ r]
    have hhalf : 2 * (0x10000000000000000 % bound.toNat) ≤ 0x10000000000000000 :=
      two_mul_mod_le (by omega) (by omega)
    rw [count_from]
    omega

/-- With a bound of three, each remainder has a third of the words but one. -/
theorem nextBelow_unbiased_three :
    {r : UInt64 | threshold 3 ≤ r ∧ r % 3 = 2}.ncard = 0x5555555555555555 :=
  (nextBelow_unbiased 3 (by decide)).2.1 2 (by decide)

end SeededRandom

end LogEngine.Io
