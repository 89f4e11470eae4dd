import Mathlib.Data.Finset.Card
import Mathlib.Data.List.Sort

/-!
# Quorums, and the highest mark a quorum has reached

Two facts every majority protocol uses.  The first is that any two quorums
meet, which is taken as the definition of a quorum system and proved once for
majorities.  The second is the arithmetic behind "sort the marks in descending
order and take the `k`-th": at least `k` of the marks are at or above the one
chosen (`lt_countP_of_sorted`), and no higher mark has been reached by so many
(`le_getElem_of_lt_countP`).
-/

namespace LogEngine.Verified

/-- A family of sets of voters, any two of which share a voter. -/
structure QuorumSystem (ν : Type*) where
  /-- Which sets of voters decide. -/
  IsQuorum : Finset ν → Prop
  /-- Two deciding sets share a voter. -/
  meet : ∀ {Q R : Finset ν}, IsQuorum Q → IsQuorum R → ∃ v, v ∈ Q ∧ v ∈ R

namespace QuorumSystem

variable {ν : Type*} [DecidableEq ν]

/-- The majorities of a finite membership. -/
def majority (members : Finset ν) : QuorumSystem ν where
  IsQuorum Q := Q ⊆ members ∧ members.card / 2 + 1 ≤ Q.card
  meet := by
    rintro Q R ⟨hQ, hQc⟩ ⟨hR, hRc⟩
    by_contra hnone
    have hdisj : Disjoint Q R :=
      Finset.disjoint_left.2 fun v hvQ hvR => hnone ⟨v, hvQ, hvR⟩
    have hcard := Finset.card_le_card (Finset.union_subset hQ hR)
    rw [Finset.card_union_of_disjoint hdisj] at hcard
    omega

theorem majority_isQuorum {members Q : Finset ν} :
    (majority members).IsQuorum Q ↔
      Q ⊆ members ∧ members.card / 2 + 1 ≤ Q.card := Iff.rfl

end QuorumSystem

/-- In a list sorted in descending order, everything up to position `k` is at
or above the element there. -/
theorem lt_countP_of_sorted {l : List Nat} (hs : l.Pairwise (· ≥ ·))
    {k : Nat} (hk : k < l.length) :
    k < l.countP fun x => decide (l[k] ≤ x) := by
  have htake : ∀ x ∈ l.take (k + 1), decide (l[k] ≤ x) = true := by
    intro x hx
    obtain ⟨j, hj, rfl⟩ := List.mem_iff_getElem.1 hx
    simp only [List.length_take] at hj
    rw [List.getElem_take, decide_eq_true_eq]
    rcases Nat.lt_or_ge j k with hjk | hjk
    · exact List.pairwise_iff_getElem.1 hs j k (by omega) hk hjk
    · obtain rfl : j = k := by omega
      exact Nat.le_refl _
  calc k < (l.take (k + 1)).length := by rw [List.length_take]; omega
    _ = (l.take (k + 1)).countP fun x => decide (l[k] ≤ x) :=
        (List.countP_eq_length.2 htake).symm
    _ ≤ l.countP fun x => decide (l[k] ≤ x) :=
        (List.take_sublist _ _).countP_le

/-- In a list sorted in descending order, what more than `k` elements have reached is at
or below the element at position `k`. -/
theorem le_getElem_of_lt_countP {l : List Nat} (hs : l.Pairwise (· ≥ ·)) {k e : Nat}
    (hk : k < l.length) (h : k < l.countP fun x => decide (e ≤ x)) : e ≤ l[k] := by
  by_contra hlt
  -- from position `k` on nothing has reached `e`
  have hdrop : (l.drop k).countP (fun x => decide (e ≤ x)) = 0 := by
    apply List.countP_eq_zero.2
    intro x hx
    obtain ⟨j, hj, rfl⟩ := List.mem_iff_getElem.1 hx
    rw [List.length_drop] at hj
    rw [List.getElem_drop, decide_eq_true_eq]
    rcases Nat.eq_zero_or_pos j with rfl | hpos
    · exact hlt
    · have hle : l[k] ≥ l[k + j] :=
        List.pairwise_iff_getElem.1 hs k (k + j) hk (by omega) (by omega)
      omega
  have hsplit : l.countP (fun x => decide (e ≤ x)) =
      (l.take k).countP (fun x => decide (e ≤ x)) + (l.drop k).countP fun x => decide (e ≤ x) := by
    rw [← List.countP_append, List.take_append_drop]
  have htake : (l.take k).countP (fun x => decide (e ≤ x)) ≤ (l.take k).length :=
    List.countP_le_length
  rw [List.length_take] at htake
  omega

end LogEngine.Verified
