import LogEngine.Raft.Effects
import LogEngine.Verified.Quorum
import Mathlib.Order.Bounds.Defs

/-!
# The commit rule

`Node::advance_commit_index` looks at one end only, the highest that a quorum has
reached, and asks whether the entry below it is of the leader's own term.  Raft's rule
speaks of every index: commit up to the highest that a quorum has reached and whose last
entry is of the current term.  The two agree because the terms of a log do not go down
(`Node.termAt_mono`): where the entry below the highest end is of an earlier term, so is
every entry before it.
-/

namespace LogEngine.Raft

open Verified

/-- The epochs follow one another in term and in start. -/
def Ascending (epochs : List Epoch) : Prop :=
  epochs.Pairwise fun a b => a.term ≤ b.term ∧ a.start ≤ b.start

instance (epochs : List Epoch) : Decidable (Ascending epochs) :=
  inferInstanceAs (Decidable (epochs.Pairwise _))

namespace Node

variable {n : Node}

/-- The end of the leader's log and what each peer is known to hold. -/
def ends (n : Node) : List Nat := n.logEnd :: n.config.peers.map n.matchEnd

/-- A quorum has reached `e`, and the entry below it is of the current term. -/
def Committable (n : Node) (e : Nat) : Prop :=
  0 < e ∧ n.config.quorum ≤ n.ends.countP (fun x => decide (e ≤ x)) ∧
    n.termAt (e - 1) = n.hard.term

instance (n : Node) (e : Nat) : Decidable (n.Committable e) :=
  inferInstanceAs (Decidable (_ ∧ _ ∧ _))

/-! ## Terms along the log -/

/-- The epoch of a later index is the same or a later one. -/
theorem epochsUpTo_isPrefix (epochs : List Epoch) {i j : Nat} (h : i ≤ j) :
    epochsUpTo epochs i <+: epochsUpTo epochs j := by
  induction epochs with
  | nil => exact List.prefix_rfl
  | cons e epochs ih =>
      unfold epochsUpTo at ih ⊢
      rw [List.takeWhile_cons, List.takeWhile_cons]
      by_cases hi : e.start ≤ i
      · have hj : e.start ≤ j := by omega
        rw [if_pos (decide_eq_true hi), if_pos (decide_eq_true hj)]
        exact (List.prefix_cons_inj e).2 ih
      · rw [if_neg (by simpa using hi)]
        exact List.nil_prefix

/-- The term of the last epoch of a list, `kNoTerm` for none. -/
def lastEpochTerm (epochs : List Epoch) : Nat := (epochs.getLast?.map Epoch.term).getD kNoTerm

private theorem termAt_eq_lastEpochTerm {i : Nat} (h : i < n.logEnd) :
    n.termAt i = lastEpochTerm (epochsUpTo n.epochs i) := by
  unfold termAt lastEpochTerm
  by_cases hnil : n.epochs = []
  · rw [if_pos (.inr hnil), hnil]
    rfl
  · rw [if_neg (by rintro (hle | h'); exacts [by omega, hnil h'])]
    cases (epochsUpTo n.epochs i).getLast? <;> rfl

private theorem lastEpochTerm_mono {a b : List Epoch} (hb : Ascending b) (h : a <+: b) :
    lastEpochTerm a ≤ lastEpochTerm b := by
  obtain ⟨r, rfl⟩ := h
  rcases List.eq_nil_or_concat' r with rfl | ⟨r, y, rfl⟩
  · rw [List.append_nil]
  rcases List.eq_nil_or_concat' a with rfl | ⟨a, x, rfl⟩
  · exact Nat.zero_le _
  have hxy : x.term ≤ y.term :=
    ((List.pairwise_append.1 hb).2.2 x (by simp) y (by simp)).1
  rw [← List.append_assoc]
  simp only [lastEpochTerm, List.getLast?_concat, Option.map_some, Option.getD_some]
  exact hxy

/-- The terms of a log do not go down. -/
theorem termAt_mono (h : Ascending n.epochs) {i j : Nat} (hij : i ≤ j) (hj : j < n.logEnd) :
    n.termAt i ≤ n.termAt j := by
  rw [termAt_eq_lastEpochTerm (by omega), termAt_eq_lastEpochTerm hj]
  apply lastEpochTerm_mono
  · exact h.sublist (List.takeWhile_sublist _)
  · exact epochsUpTo_isPrefix _ hij

/-- No entry is of a later term than every epoch. -/
theorem termAt_le {T : Nat} (h : ∀ e ∈ n.epochs, e.term ≤ T) (i : Nat) : n.termAt i ≤ T := by
  unfold termAt
  split
  · exact Nat.zero_le _
  split
  · exact Nat.zero_le _
  case h_2 e he =>
    apply h
    exact (List.takeWhile_sublist _).subset (List.mem_of_getLast? he)

/-! ## The end that is looked at -/

private theorem quorum_pos (c : Config) : 0 < c.quorum := Nat.succ_pos _

private theorem quorum_le_length (n : Node) : n.config.quorum ≤ n.sortedEnds.length := by
  rw [sortedEnds, List.length_insertionSort, List.length_cons, List.length_map, Config.quorum,
    Config.clusterSize]
  omega

/-- The end that `advance_commit_index` looks at. -/
def quorumEnd (n : Node) : Nat := n.sortedEnds.getD (n.config.quorum - 1) 0

private theorem quorumEnd_eq (n : Node) (h : n.config.quorum - 1 < n.sortedEnds.length) :
    n.quorumEnd = n.sortedEnds[n.config.quorum - 1] := by
  rw [quorumEnd, List.getD_eq_getElem?_getD, List.getElem?_eq_getElem h, Option.getD_some]

/-- A quorum has reached an end exactly when it is not above the one that is looked at. -/
theorem reached_iff (n : Node) (e : Nat) :
    n.config.quorum ≤ n.ends.countP (fun x => decide (e ≤ x)) ↔ e ≤ n.quorumEnd := by
  have hpos := quorum_pos n.config
  have hlen := n.quorum_le_length
  have hk : n.config.quorum - 1 < n.sortedEnds.length := by omega
  have hsorted : n.sortedEnds.Pairwise (· ≥ ·) := List.pairwise_insertionSort _ _
  have hperm : n.sortedEnds.Perm n.ends := List.perm_insertionSort _ _
  rw [← hperm.countP_eq, n.quorumEnd_eq hk]
  constructor
  · intro h
    exact le_getElem_of_lt_countP hsorted hk (by omega)
  · intro h
    have hcount := lt_countP_of_sorted hsorted hk
    have hmono : n.sortedEnds.countP (fun x => decide (n.sortedEnds[n.config.quorum - 1] ≤ x)) ≤
        n.sortedEnds.countP fun x => decide (e ≤ x) := by
      apply List.countP_mono_left
      intro x _ hx
      rw [decide_eq_true_eq] at hx ⊢
      omega
    omega

theorem quorumEnd_le (hmatch : ∀ p ∈ n.config.peers, n.matchEnd p ≤ n.logEnd) :
    n.quorumEnd ≤ n.logEnd := by
  have hpos := quorum_pos n.config
  have hlen := n.quorum_le_length
  have hk : n.config.quorum - 1 < n.sortedEnds.length := by omega
  have hperm : n.sortedEnds.Perm n.ends := List.perm_insertionSort _ _
  have hmem : n.quorumEnd ∈ n.ends := by
    rw [n.quorumEnd_eq hk]
    exact hperm.subset (List.getElem_mem hk)
  rcases List.mem_cons.1 hmem with heq | hmem
  · exact heq.le
  · obtain ⟨p, hp, heq⟩ := List.mem_map.1 hmem
    rw [← heq]
    exact hmatch p hp

/-! ## The rule -/

/-- Where the entry below the highest end is not of the current term, no index can be
committed. -/
theorem not_committable (hasc : Ascending n.epochs)
    (hterm : ∀ e ∈ n.epochs, e.term ≤ n.hard.term)
    (hmatch : ∀ p ∈ n.config.peers, n.matchEnd p ≤ n.logEnd)
    (hne : n.termAt (n.quorumEnd - 1) ≠ n.hard.term) (e : Nat) : ¬ n.Committable e := by
  rintro ⟨hpos, hquorum, hcurrent⟩
  have hle : e ≤ n.quorumEnd := (n.reached_iff e).1 hquorum
  have hend := quorumEnd_le hmatch
  have hup : n.termAt (e - 1) ≤ n.termAt (n.quorumEnd - 1) :=
    termAt_mono hasc (by omega) (by omega)
  have hdown := termAt_le hterm (n.quorumEnd - 1)
  omega

/-- `advance_commit_index` commits up to the greatest index that a quorum has reached and
whose last entry is of the current term, and leaves everything else as it is. -/
theorem advanceCommitIndex_rule (hleader : n.role = .leader) (hasc : Ascending n.epochs)
    (hterm : ∀ e ∈ n.epochs, e.term ≤ n.hard.term)
    (hmatch : ∀ p ∈ n.config.peers, n.matchEnd p ≤ n.logEnd) :
    (∀ e, IsGreatest {e | n.Committable e} e →
      n.advanceCommitIndex = n.withCommit (max n.commitIndex e)) ∧
    ((∀ e, ¬ n.Committable e) → n.advanceCommitIndex = n) := by
  have hunfold : n.advanceCommitIndex =
      if n.quorumEnd ≤ n.commitIndex then n
      else if n.termAt (n.quorumEnd - 1) ≠ n.hard.term then n
      else n.withCommit n.quorumEnd := by
    unfold advanceCommitIndex
    rw [if_neg (not_not.2 hleader)]
    rfl
  rw [hunfold]
  constructor
  · rintro e ⟨he, hgreatest⟩
    have hreached : e ≤ n.quorumEnd := (n.reached_iff e).1 he.2.1
    by_cases hold : n.quorumEnd ≤ n.commitIndex
    · rw [if_pos hold, Nat.max_eq_left (by omega)]
      rfl
    rw [if_neg hold]
    by_cases hcur : n.termAt (n.quorumEnd - 1) = n.hard.term
    · -- the end that is looked at can be committed itself, so it is the greatest
      have hself : n.Committable n.quorumEnd :=
        ⟨by omega, (n.reached_iff _).2 le_rfl, hcur⟩
      have hle : n.quorumEnd ≤ e := hgreatest hself
      rw [if_neg (not_not.2 hcur), Nat.max_eq_right (by omega)]
      congr 1
      omega
    · exact absurd he (not_committable hasc hterm hmatch hcur e)
  · intro hnone
    by_cases hold : n.quorumEnd ≤ n.commitIndex
    · rw [if_pos hold]
    rw [if_neg hold]
    by_cases hcur : n.termAt (n.quorumEnd - 1) = n.hard.term
    · exact absurd ⟨by omega, (n.reached_iff _).2 le_rfl, hcur⟩ (hnone n.quorumEnd)
    · rw [if_pos hcur]

/-- A leader of three in term 2 whose peers have confirmed 4 and 1 of its 5 entries, the
last three of them its own. -/
def ofThree : Node where
  config := { id := 1, peers := [2, 3] }
  hard := ⟨2, 1⟩
  role := .leader
  logEnd := 5
  lastTerm := 2
  commitIndex := 1
  epochs := [⟨1, 0⟩, ⟨2, 2⟩]
  match_ := fun p => if p = 2 then some 4 else if p = 3 then some 1 else none

private theorem ofThree_greatest : IsGreatest {e | ofThree.Committable e} 4 := by
  constructor
  · show ofThree.Committable 4
    decide
  · intro e he
    have hle : e ≤ ofThree.quorumEnd := (ofThree.reached_iff e).1 he.2.1
    have hend : ofThree.quorumEnd = 4 := by decide
    omega

theorem advanceCommitIndex_rule_ofThree :
    IsGreatest {e | ofThree.Committable e} 4 ∧
      ofThree.advanceCommitIndex = ofThree.withCommit (max 1 4) :=
  ⟨ofThree_greatest, (advanceCommitIndex_rule (by decide) (by decide) (by decide)
    (by decide)).1 4 ofThree_greatest⟩

end Node

end LogEngine.Raft
