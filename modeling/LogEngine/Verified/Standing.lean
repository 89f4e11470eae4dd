import LogEngine.Verified.Completeness

/-!
# Confirmations that still stand

What a member confirmed in a term it still holds, as long as it has not left that
term (`Standing`).  Committed or not: a member of term `T` takes batches and cuts
conflicts only at the word of the chief of `T`, whose history does not change.

Every step keeps this except a restart that brings a member back to an earlier term.
Such a member may have changed its log in the later one, so the lemma asks that no
member's term goes down.
-/

namespace LogEngine.Verified.Replication

open LogEngine.Verified.Tiling Extent Stamped

variable {ν α : Type*} [Stamped α] {𝒬 : QuorumSystem ν} {a b : State ν α}

/-- Every member holds what it has confirmed in its present term. -/
def Standing (a : State ν α) : Prop :=
  ∀ p T c, (p, T, c) ∈ a.acks → (a.el.mem p).term = T →
    ∃ q, q <+: a.leaderLog T ∧ q <+: a.log p ∧ endFrom 0 q = c

theorem standing_init : Standing (init : State ν α) := by
  intro p T c h
  simp [init] at h

/-- No member goes back to an earlier term. -/
def Onward (a b : State ν α) : Prop := ∀ x, (a.el.mem x).term ≤ (b.el.mem x).term

/-- A member in whose term it has confirmed something was in that term before. -/
theorem Onward.term_eq (hon : Onward a b) (ha : Inv 𝒬 a) {p : ν} {T c : Nat}
    (hk : (p, T, c) ∈ a.acks) (hT : (b.el.mem p).term = T) : (a.el.mem p).term = T := by
  have hdur := ha.ack_term hk
  have hmem := ha.election.dur_le p
  have hle := hon p
  omega

/-- Steps that send nothing of the kind and only add to logs. -/
theorem Standing.of_grows (hs : Standing a) (ha : Inv 𝒬 a) (hg : Grows a b)
    (hon : Onward a b) (hk : b.acks = a.acks) (hl : ∀ p, a.log p <+: b.log p) :
    Standing b := by
  intro p T c hmem hT
  rw [hk] at hmem
  obtain ⟨q, hqL, hq, hend⟩ := hs p T c hmem (hon.term_eq ha hmem hT)
  exact ⟨q, hqL.trans (hg.leaderLog T), hq.trans (hl p), hend⟩

/-- What is confirmed is held. -/
theorem Standing.ack (hs : Standing a) (ha : Inv 𝒬 a) {x : ν} {m : Append α}
    (hm : m ∈ a.appends) (hmt : m.Matches (a.log x))
    (he : ∀ e ∈ m.entry, m.start < endFrom 0 (a.log x) ∧
      termAt (a.log x) m.start = term e) :
    Standing { a with acks := insert (x, m.term, m.confirmed) a.acks } := by
  intro p T c hmem hT
  rcases Set.mem_insert_iff.1 hmem with hnew | hold
  · obtain ⟨rfl, rfl, rfl⟩ : p = x ∧ T = m.term ∧ c = m.confirmed := by simpa using hnew
    exact ha.confirmed_isPrefix hm hmt he
  · exact hs p T c hold hT

variable [DecidableEq ν]

/-- A conflict is cut behind everything that was confirmed. -/
theorem Standing.trim (hs : Standing a) (ha : Inv 𝒬 a) {x : ν} {m : Append α} {e : α}
    {l : List α} (hm : m ∈ a.appends) (ht : m.term = (a.el.mem x).term)
    (hmt : m.Matches (a.log x)) (he : m.entry = some e)
    (hne : termAt (a.log x) m.start ≠ term e) (hkeep : upTo (a.log x) m.start <+: l) :
    Standing { a with log := Function.update a.log x l } := by
  intro p T c hmem hT
  obtain ⟨q, hqL, hq, hend⟩ := hs p T c hmem hT
  by_cases hp : p = x
  case neg => exact ⟨q, hqL, by simpa [hp] using hq, hend⟩
  subst hp
  obtain ⟨r, hr, hrend, hprev, hent⟩ := ha.append_sound hm
  have hTm : T = m.term := hT.symm.trans ht.symm
  rw [hTm] at hqL ⊢
  have hrx := ha.prefix_of_matches hr hrend hprev hmt
  have hqr := ha.prefix_of_conflict (hent e he) hrend hrx hne hqL hq
  refine ⟨q, hqL, ?_, hend⟩
  have hcut : upTo (a.log p) m.start = r := hrend ▸ (ha.tiles p).upTo_eq hrx
  rw [hcut] at hkeep
  simpa using hqr.trans hkeep

theorem Standing.step (hs : Standing a) (ha : Inv 𝒬 a) (h : Step 𝒬 a b)
    (hon : Onward a b) : Standing b := by
  have hg := h.grows ha
  have hsame : ∀ p, a.log p <+: a.log p := fun _ => List.prefix_rfl
  cases h with
  | quiet hq => exact hs.of_grows ha hg hon rfl hsame
  | request x hr hd => exact hs.of_grows ha hg hon rfl hsame
  | grant v x hv hd hc hup => exact hs.of_grows ha hg hon rfl hsame
  | win x hr hd hq => exact hs.of_grows ha hg hon rfl hsame
  | append x m hr ht p hp hend hprev hent => exact hs.of_grows ha hg hon rfl hsame
  | propose x e hr hb hst ht =>
      refine hs.of_grows ha hg hon rfl fun p => ?_
      by_cases hp : p = x
      · subst hp
        simp
      · simp [hp]
  | extend x m e hm ht hr hmt he hend =>
      refine hs.of_grows ha hg hon rfl fun p => ?_
      by_cases hp : p = x
      · subst hp
        simp
      · simp [hp]
  | trim x m e l hm ht hr hmt he hlt hne hkeep hcut => exact hs.trim ha hm ht hmt he hne hkeep
  | ack x m hm ht hd hmt he => exact hs.ack ha hm hmt he

end LogEngine.Verified.Replication
