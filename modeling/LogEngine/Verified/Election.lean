import Mathlib.Data.Finset.Insert
import Mathlib.Logic.Relation
import LogEngine.Verified.Quorum

/-!
# Elections with durable ballots

An abstract one-vote-per-term election.  Every voter keeps a *ballot*, the
term it is in and whom it voted for there, once in memory and once on disk.
Memory runs ahead of the disk; a request for votes or a granted vote leaves a
voter only while the two agree; a restart falls back to the disk.  Requests
and grants are never taken back: they may be lost, delayed, duplicated and
reordered by whoever reads these sets.

The history variables `chief` and `electors` record, for each term, who won it
and with whose votes.  The invariant `Inv` links memory, disk, what is on the
wire, and the tallies of candidates; `Inv.win_fresh` says that a term is won at
most once and `Inv.leader_unique` is election safety.
-/

namespace LogEngine.Verified.Election

/-- A voter's term, and whom it voted for in that term. -/
structure Ballot (ν : Type*) where
  term : Nat
  vote : Option ν

/-- What a member is doing in its current term. -/
inductive Role
  | follower
  | candidate
  | leader

/-- The election state of a whole cluster. -/
structure State (ν : Type*) where
  /-- The ballot each member acts on. -/
  mem : ν → Ballot ν
  /-- The ballot each member would come back with. -/
  dur : ν → Ballot ν
  role : ν → Role
  /-- The votes a candidate has counted. -/
  tally : ν → Finset ν
  /-- Requests for votes ever sent: candidate and term. -/
  requests : Set (ν × Nat)
  /-- Votes ever announced: voter, candidate and term. -/
  grants : Set (ν × ν × Nat)
  /-- Who won each term. -/
  chief : Nat → Option ν
  /-- The votes each term was won with. -/
  electors : Nat → Finset ν

variable {ν : Type*}

/-- The state after member `x` asks for votes. -/
def request (a : State ν) (x : ν) : State ν :=
  { a with requests := insert (x, (a.mem x).term) a.requests }

/-- The state after member `v` announces its vote for `x`. -/
def grant (a : State ν) (v x : ν) : State ν :=
  { a with grants := insert (v, x, (a.mem v).term) a.grants }

/-- `x` is settled as the vote of ballot `b` in term `T`: the ballot has
reached `T`, and while it stands at `T` it names `x`. -/
def Settled (b : Ballot ν) (T : Nat) (x : ν) : Prop :=
  T ≤ b.term ∧ (b.term = T → b.vote = some x)

/-- The vote of `v` in term `T` is settled on `x`, in memory and on disk. -/
def Bound (a : State ν) (v : ν) (T : Nat) (x : ν) : Prop :=
  Settled (a.dur v) T x ∧ Settled (a.mem v) T x

/-- The election invariant. -/
structure Inv (𝒬 : QuorumSystem ν) (a : State ν) : Prop where
  dur_le : ∀ x, (a.dur x).term ≤ (a.mem x).term
  request_bound : ∀ {x T}, (x, T) ∈ a.requests → Bound a x T x
  grant_request : ∀ {v x T}, (v, x, T) ∈ a.grants → (x, T) ∈ a.requests
  grant_bound : ∀ {v x T}, (v, x, T) ∈ a.grants → Bound a v T x
  grant_unique : ∀ {v x y T}, (v, x, T) ∈ a.grants → (v, y, T) ∈ a.grants → x = y
  self_vote : ∀ {x}, a.role x ≠ .follower → (a.mem x).vote = some x
  term_pos : ∀ {x}, a.role x ≠ .follower → 0 < (a.mem x).term
  tally_grant : ∀ {x v}, a.role x = .candidate → v ∈ a.tally x →
    v = x ∨ (v, x, (a.mem x).term) ∈ a.grants
  candidate_ne_chief : ∀ {x}, a.role x = .candidate →
    a.chief (a.mem x).term ≠ some x
  chief_quorum : ∀ {T x}, a.chief T = some x → 𝒬.IsQuorum (a.electors T)
  chief_elected : ∀ {T x v}, a.chief T = some x → v ∈ a.electors T →
    v = x ∨ (v, x, T) ∈ a.grants
  chief_bound : ∀ {T x}, a.chief T = some x → Bound a x T x
  chief_grant : ∀ {T x y}, a.chief T = some x → (x, y, T) ∈ a.grants → y = x
  leader_chief : ∀ {x}, a.role x = .leader → a.chief (a.mem x).term = some x

/-- The state in which nobody has done anything. -/
def init : State ν where
  mem _ := ⟨0, none⟩
  dur _ := ⟨0, none⟩
  role _ := .follower
  tally _ := ∅
  requests := ∅
  grants := ∅
  chief _ := none
  electors _ := ∅

theorem inv_init (𝒬 : QuorumSystem ν) : Inv 𝒬 (init : State ν) := by
  constructor <;> simp [init]

/-! ## What the invariant says -/

/-- **Election safety**: two leaders of one term are the same member. -/
theorem Inv.leader_unique {𝒬 : QuorumSystem ν} {a : State ν} (ha : Inv 𝒬 a)
    {x y : ν} (hx : a.role x = .leader) (hy : a.role y = .leader)
    (hT : (a.mem x).term = (a.mem y).term) : x = y := by
  have hcx := ha.leader_chief hx
  rw [hT, ha.leader_chief hy] at hcx
  exact (Option.some.inj hcx).symm

/-- Everybody who elected the chief of a term has reached that term for good. -/
theorem Inv.elector_term {𝒬 : QuorumSystem ν} {a : State ν} (ha : Inv 𝒬 a)
    {T : Nat} {x v : ν} (hc : a.chief T = some x) (hv : v ∈ a.electors T) :
    T ≤ (a.dur v).term := by
  rcases ha.chief_elected hc hv with rfl | hg
  · exact (ha.chief_bound hc).1.1
  · exact (ha.grant_bound hg).1.1

/-- A member that starts a campaign is in a term nobody has asked about in its
name. -/
theorem Inv.fresh_campaign {𝒬 : QuorumSystem ν} {a : State ν} (ha : Inv 𝒬 a)
    {x : ν} {T : Nat} (hlt : (a.mem x).term < T) : (x, T) ∉ a.requests := by
  intro hreq
  have := (ha.request_bound hreq).2.1
  omega

/-- A quorum behind a candidate rules out that its term is already won. -/
theorem Inv.win_fresh {𝒬 : QuorumSystem ν} {a : State ν} (ha : Inv 𝒬 a)
    {x : ν} (hr : a.role x = .candidate) (hq : 𝒬.IsQuorum (a.tally x)) :
    a.chief (a.mem x).term = none := by
  cases hc : a.chief (a.mem x).term with
  | none => rfl
  | some y =>
      -- the voter both elections share voted once
      obtain ⟨v, hvx, hvy⟩ := 𝒬.meet hq (ha.chief_quorum hc)
      have hself := ha.self_vote (x := x) (by simp [hr])
      have hyx : y = x := by
        rcases ha.tally_grant hr hvx with rfl | hgx <;>
          rcases ha.chief_elected hc hvy with rfl | hgy
        · rfl
        · have := (ha.grant_bound hgy).2.2 rfl
          rw [hself] at this
          exact (Option.some.inj this).symm
        · exact (ha.chief_grant hc hgx).symm
        · exact ha.grant_unique hgy hgx
      exact absurd (hyx ▸ hc) (ha.candidate_ne_chief hr)

/-! ## Steps that send -/

private theorem inv_request {𝒬 : QuorumSystem ν} {a : State ν} (ha : Inv 𝒬 a)
    {x : ν} (hr : a.role x = .candidate) (hd : a.dur x = a.mem x) :
    Inv 𝒬 (request a x) where
  dur_le := ha.dur_le
  request_bound := by
    rintro y T (heq | hold)
    · obtain ⟨rfl, rfl⟩ := Prod.mk.inj heq
      have hself := ha.self_vote (x := y) (by simp [hr])
      exact ⟨⟨by simp [request, hd], fun _ => by simp [request, hd, hself]⟩,
        ⟨le_rfl, fun _ => hself⟩⟩
    · exact ha.request_bound hold
  grant_request hg := .inr (ha.grant_request hg)
  grant_bound := ha.grant_bound
  grant_unique := ha.grant_unique
  self_vote := ha.self_vote
  term_pos := ha.term_pos
  tally_grant := ha.tally_grant
  candidate_ne_chief := ha.candidate_ne_chief
  chief_quorum := ha.chief_quorum
  chief_elected := ha.chief_elected
  chief_bound := ha.chief_bound
  chief_grant := ha.chief_grant
  leader_chief := ha.leader_chief

private theorem inv_grant {𝒬 : QuorumSystem ν} {a : State ν} (ha : Inv 𝒬 a)
    {v x : ν} (hv : (a.mem v).vote = some x) (hd : a.dur v = a.mem v)
    (hr : (x, (a.mem v).term) ∈ a.requests) : Inv 𝒬 (grant a v x) := by
  -- any vote of `v` in its present term that is already out names `x` too
  have hsame : ∀ {y}, (v, y, (a.mem v).term) ∈ a.grants → y = x := by
    intro y hy
    have := (ha.grant_bound hy).2.2 rfl
    rw [hv] at this
    exact (Option.some.inj this).symm
  exact
    { dur_le := ha.dur_le
      request_bound := ha.request_bound
      grant_request := by
        rintro w y T (heq | hold)
        · obtain ⟨rfl, rfl, rfl⟩ : w = v ∧ y = x ∧ T = (a.mem v).term := by
            simpa using heq
          exact hr
        · exact ha.grant_request hold
      grant_bound := by
        rintro w y T (heq | hold)
        · obtain ⟨rfl, rfl, rfl⟩ : w = v ∧ y = x ∧ T = (a.mem v).term := by
            simpa using heq
          exact ⟨⟨by simp [grant, hd], fun _ => by simp [grant, hd, hv]⟩,
            ⟨le_rfl, fun _ => hv⟩⟩
        · exact ha.grant_bound hold
      grant_unique := by
        rintro w y z T (h₁ | h₁) (h₂ | h₂)
        · simp_all
        · obtain ⟨rfl, rfl, rfl⟩ : w = v ∧ y = x ∧ T = (a.mem v).term := by
            simpa using h₁
          exact (hsame h₂).symm
        · obtain ⟨rfl, rfl, rfl⟩ : w = v ∧ z = x ∧ T = (a.mem v).term := by
            simpa using h₂
          exact hsame h₁
        · exact ha.grant_unique h₁ h₂
      self_vote := ha.self_vote
      term_pos := ha.term_pos
      tally_grant := fun hc hw => (ha.tally_grant hc hw).imp id .inr
      candidate_ne_chief := ha.candidate_ne_chief
      chief_quorum := ha.chief_quorum
      chief_elected := fun hc hw => (ha.chief_elected hc hw).imp id .inr
      chief_bound := ha.chief_bound
      chief_grant := by
        rintro T y z hc (heq | hold)
        · obtain ⟨rfl, rfl, rfl⟩ : y = v ∧ z = x ∧ T = (a.mem v).term := by
            simpa using heq
          have := (ha.chief_bound hc).2.2 rfl
          rw [hv] at this
          exact Option.some.inj this
        · exact ha.chief_grant hc hold
      leader_chief := ha.leader_chief }

/-! ## The steps -/

section Steps

variable [DecidableEq ν]

/-- Steps that send nothing and decide nothing. -/
inductive Quiet : State ν → State ν → Prop
  /-- A higher term is observed: the vote is wiped and the role given up. -/
  | observe (a : State ν) (x : ν) (T : Nat) (h : (a.mem x).term < T) :
      Quiet a { a with
        mem := Function.update a.mem x ⟨T, none⟩
        role := Function.update a.role x .follower }
  /-- A member gives up its role without leaving its term. -/
  | stepDown (a : State ν) (x : ν) :
      Quiet a { a with role := Function.update a.role x .follower }
  /-- A member starts a campaign in the next term and votes for itself. -/
  | campaign (a : State ν) (x : ν) :
      Quiet a { a with
        mem := Function.update a.mem x ⟨(a.mem x).term + 1, some x⟩
        role := Function.update a.role x .candidate
        tally := Function.update a.tally x {x} }
  /-- A member that has not voted in its term decides to. -/
  | vote (a : State ν) (x y : ν) (h : (a.mem x).vote = none) :
      Quiet a { a with
        mem := Function.update a.mem x ⟨(a.mem x).term, some y⟩ }
  /-- The ballot reaches the disk. -/
  | persist (a : State ν) (x : ν) :
      Quiet a { a with dur := Function.update a.dur x (a.mem x) }
  /-- A candidate counts a vote announced for it in its term. -/
  | count (a : State ν) (x v : ν)
      (h : a.role x = .candidate → (v, x, (a.mem x).term) ∈ a.grants) :
      Quiet a { a with
        tally := Function.update a.tally x (insert v (a.tally x)) }
  /-- A member comes back with what its disk holds. -/
  | restart (a : State ν) (x : ν) :
      Quiet a { a with
        mem := Function.update a.mem x (a.dur x)
        role := Function.update a.role x .follower }

/-- The state after candidate `x` takes office. -/
def win (a : State ν) (x : ν) : State ν :=
  { a with
    role := Function.update a.role x .leader
    chief := Function.update a.chief (a.mem x).term (some x)
    electors := Function.update a.electors (a.mem x).term (a.tally x) }

/-- One step of the election. -/
inductive Step (𝒬 : QuorumSystem ν) : State ν → State ν → Prop
  | quiet {a b : State ν} (h : Quiet a b) : Step 𝒬 a b
  /-- A candidate whose ballot is on disk asks for votes. -/
  | request (a : State ν) (x : ν) (hr : a.role x = .candidate)
      (hd : a.dur x = a.mem x) : Step 𝒬 a (request a x)
  /-- A voter whose ballot is on disk announces it to a candidate that asked. -/
  | grant (a : State ν) (v x : ν) (hv : (a.mem v).vote = some x)
      (hd : a.dur v = a.mem v) (hr : (x, (a.mem v).term) ∈ a.requests) :
      Step 𝒬 a (grant a v x)
  /-- A candidate with a quorum takes office. -/
  | win (a : State ν) (x : ν) (hr : a.role x = .candidate)
      (hd : a.dur x = a.mem x) (hq : 𝒬.IsQuorum (a.tally x)) :
      Step 𝒬 a (win a x)

/-! ## What a quiet step can change -/

/-- A settled vote survives any quiet step, in memory and on disk. -/
theorem Quiet.bound {a b : State ν} (h : Quiet a b) {v : ν} {T : Nat} {x : ν}
    (hb : Bound a v T x) : Bound b v T x := by
  obtain ⟨⟨hd, hdv⟩, ⟨hm, hmv⟩⟩ := hb
  cases h with
  | observe y T' hlt =>
      refine ⟨⟨hd, hdv⟩, ?_⟩
      by_cases hvy : v = y
      · subst hvy
        exact ⟨by simp; omega, by simp; omega⟩
      · simpa [Settled, hvy] using ⟨hm, hmv⟩
  | stepDown y => exact ⟨⟨hd, hdv⟩, hm, hmv⟩
  | campaign y =>
      refine ⟨⟨hd, hdv⟩, ?_⟩
      by_cases hvy : v = y
      · subst hvy
        exact ⟨by simp; omega, by simp; omega⟩
      · simpa [Settled, hvy] using ⟨hm, hmv⟩
  | vote y z hnone =>
      refine ⟨⟨hd, hdv⟩, ?_⟩
      by_cases hvy : v = y
      · subst hvy
        refine ⟨by simpa using hm, fun heq => ?_⟩
        -- a ballot that stands at `T` has already voted, so it is not empty
        have := hmv (by simpa using heq)
        simp [hnone] at this
      · simpa [Settled, hvy] using ⟨hm, hmv⟩
  | persist y =>
      refine ⟨?_, hm, hmv⟩
      by_cases hvy : v = y
      · subst hvy
        simpa [Settled] using ⟨hm, hmv⟩
      · simpa [Settled, hvy] using ⟨hd, hdv⟩
  | count y w _ => exact ⟨⟨hd, hdv⟩, hm, hmv⟩
  | restart y =>
      refine ⟨⟨hd, hdv⟩, ?_⟩
      by_cases hvy : v = y
      · subst hvy
        simpa [Settled] using ⟨hd, hdv⟩
      · simpa [Settled, hvy] using ⟨hm, hmv⟩

/-- What a quiet step leaves of the seat of `x`: no office, or the same office with the
votes that were announced to it, or a campaign in the next term. -/
inductive QuietSeat (a b : State ν) (x : ν) : Prop
  | idle (role : b.role x = .follower)
  | kept (role : b.role x = a.role x) (mem : b.mem x = a.mem x)
      (tally : ∀ v ∈ b.tally x, v ∈ a.tally x ∨
        (a.role x = .candidate → (v, x, (a.mem x).term) ∈ a.grants))
  | campaign (role : b.role x = .candidate) (mem : b.mem x = ⟨(a.mem x).term + 1, some x⟩)
      (tally : b.tally x = {x})

private theorem quietSeat_of_quiet {𝒬 : QuorumSystem ν} {a b : State ν} (h : Quiet a b)
    (ha : Inv 𝒬 a) (x : ν) : QuietSeat a b x := by
  cases h with
  | observe y T _ =>
      by_cases hxy : x = y
      · exact .idle (by simp [hxy])
      · exact .kept (by simp [hxy]) (by simp [hxy]) fun _ => .inl
  | stepDown y =>
      by_cases hxy : x = y
      · exact .idle (by simp [hxy])
      · exact .kept (by simp [hxy]) rfl fun _ => .inl
  | campaign y =>
      by_cases hxy : x = y
      · subst hxy
        exact .campaign (by simp) (by simp) (by simp)
      · exact .kept (by simp [hxy]) (by simp [hxy]) fun v hv => .inl (by simpa [hxy] using hv)
  | vote y z hnone =>
      by_cases hrole : a.role x = .follower
      · exact .idle hrole
      · -- a member in office has voted for itself, so it is not the one voting
        have hxy : x ≠ y := by
          rintro rfl
          simp [ha.self_vote hrole] at hnone
        exact .kept rfl (by simp [hxy]) fun _ => .inl
  | persist y => exact .kept rfl rfl fun _ => .inl
  | count y w hg =>
      refine .kept rfl rfl fun v hv => ?_
      by_cases hxy : x = y
      · subst hxy
        rcases Finset.mem_insert.1 (by simpa using hv) with rfl | hv'
        · exact .inr hg
        · exact .inl hv'
      · exact .inl (by simpa [hxy] using hv)
  | restart y =>
      by_cases hxy : x = y
      · exact .idle (by simp [hxy])
      · exact .kept (by simp [hxy]) (by simp [hxy]) fun _ => .inl

/-- The ballot on disk does not go back, and memory stays ahead of it. -/
private theorem Quiet.dur {𝒬 : QuorumSystem ν} {a b : State ν} (h : Quiet a b)
    (ha : Inv 𝒬 a) (x : ν) :
    (a.dur x).term ≤ (b.dur x).term ∧ (b.dur x).term ≤ (b.mem x).term := by
  have hle := ha.dur_le x
  cases h with
  | observe y T hlt => by_cases hxy : x = y <;> simp_all; omega
  | stepDown y => exact ⟨le_rfl, hle⟩
  | campaign y => by_cases hxy : x = y <;> simp_all; omega
  | vote y z _ => by_cases hxy : x = y <;> simp_all
  | persist y => by_cases hxy : x = y <;> simp_all
  | count y w _ => exact ⟨le_rfl, hle⟩
  | restart y => by_cases hxy : x = y <;> simp_all

/-- What a quiet step leaves alone: everything on the wire and every result. -/
structure QuietSpec (a b : State ν) : Prop where
  requests : b.requests = a.requests
  grants : b.grants = a.grants
  chief : b.chief = a.chief
  electors : b.electors = a.electors
  dur_mono : ∀ x, (a.dur x).term ≤ (b.dur x).term
  seat : ∀ x, QuietSeat a b x

theorem Quiet.spec {𝒬 : QuorumSystem ν} {a b : State ν} (h : Quiet a b)
    (ha : Inv 𝒬 a) : QuietSpec a b := by
  have hseat := quietSeat_of_quiet h ha
  have hdur : ∀ x, (a.dur x).term ≤ (b.dur x).term := fun x => (h.dur ha x).1
  cases h <;> exact ⟨rfl, rfl, rfl, rfl, hdur, hseat⟩

omit [DecidableEq ν] in
theorem QuietSpec.leader {a b : State ν} (h : QuietSpec a b) (x : ν)
    (hx : b.role x = .leader) : a.role x = .leader ∧ b.mem x = a.mem x := by
  cases h.seat x with
  | idle role => simp [role] at hx
  | kept role mem _ => exact ⟨role ▸ hx, mem⟩
  | campaign role _ _ => simp [role] at hx

omit [DecidableEq ν] in
/-- A candidate may have started a campaign in a term of which it had not heard. -/
theorem QuietSpec.candidate {a b : State ν} (h : QuietSpec a b) (x : ν)
    (hx : b.role x = .candidate) : (a.role x = .candidate ∧ b.mem x = a.mem x) ∨
      (a.mem x).term < (b.mem x).term := by
  cases h.seat x with
  | idle role => simp [role] at hx
  | kept role mem _ => exact .inl ⟨role ▸ hx, mem⟩
  | campaign _ mem _ =>
      rw [mem]
      exact .inr (Nat.lt_succ_self _)

/-! ## The invariant is preserved -/

private theorem inv_quiet {𝒬 : QuorumSystem ν} {a b : State ν} (ha : Inv 𝒬 a)
    (h : Quiet a b) : Inv 𝒬 b := by
  have hs := h.spec ha
  refine
    { dur_le := fun x => (h.dur ha x).2
      request_bound := fun hr => h.bound (ha.request_bound (hs.requests ▸ hr))
      grant_request := fun hg => hs.requests ▸ ha.grant_request (hs.grants ▸ hg)
      grant_bound := fun hg => h.bound (ha.grant_bound (hs.grants ▸ hg))
      grant_unique := fun h₁ h₂ => ha.grant_unique (hs.grants ▸ h₁) (hs.grants ▸ h₂)
      self_vote := ?_
      term_pos := ?_
      tally_grant := ?_
      candidate_ne_chief := ?_
      chief_quorum := fun hc => hs.electors ▸ ha.chief_quorum (hs.chief ▸ hc)
      chief_elected := fun hc hv => hs.grants ▸
        ha.chief_elected (hs.chief ▸ hc) (hs.electors ▸ hv)
      chief_bound := fun hc => h.bound (ha.chief_bound (hs.chief ▸ hc))
      chief_grant := fun hc hg => ha.chief_grant (hs.chief ▸ hc) (hs.grants ▸ hg)
      leader_chief := ?_ }
  · intro x hx
    cases hs.seat x with
    | idle role => exact absurd role hx
    | kept role mem _ =>
        rw [mem]
        exact ha.self_vote (role ▸ hx)
    | campaign _ mem _ => rw [mem]
  · intro x hx
    cases hs.seat x with
    | idle role => exact absurd role hx
    | kept role mem _ =>
        rw [mem]
        exact ha.term_pos (role ▸ hx)
    | campaign _ mem _ =>
        rw [mem]
        exact Nat.succ_pos _
  · intro x v hx hv
    cases hs.seat x with
    | idle role => simp [role] at hx
    | kept role mem tally =>
        have hcand : a.role x = .candidate := role ▸ hx
        rw [mem, hs.grants]
        rcases tally v hv with hold | hnew
        · exact ha.tally_grant hcand hold
        · exact .inr (hnew hcand)
    | campaign _ _ tally =>
        rw [tally] at hv
        exact .inl (Finset.mem_singleton.1 hv)
  · intro x hx
    rw [hs.chief]
    rcases hs.candidate x hx with ⟨hc, hm⟩ | hlt
    · rw [hm]
      exact ha.candidate_ne_chief hc
    · intro hc
      have := (ha.chief_bound hc).2.1
      omega
  · intro x hx
    obtain ⟨hl, hm⟩ := hs.leader x hx
    rw [hs.chief, hm]
    exact ha.leader_chief hl

private theorem inv_win {𝒬 : QuorumSystem ν} {a : State ν} (ha : Inv 𝒬 a)
    {x : ν} (hr : a.role x = .candidate) (hd : a.dur x = a.mem x)
    (hq : 𝒬.IsQuorum (a.tally x)) : Inv 𝒬 (win a x) := by
  have hself := ha.self_vote (x := x) (by simp [hr])
  have hbound : Bound a x (a.mem x).term x :=
    ⟨⟨by rw [hd], fun _ => by rw [hd, hself]⟩, ⟨le_rfl, fun _ => hself⟩⟩
  have hfresh := ha.win_fresh hr hq
  -- a result on record is either the new one or an old one of another term
  have hsplit : ∀ {T y}, (win a x).chief T = some y →
      (T = (a.mem x).term ∧ y = x) ∨ (T ≠ (a.mem x).term ∧ a.chief T = some y) := by
    intro T y hc
    by_cases hT : T = (a.mem x).term
    · subst hT
      exact .inl ⟨rfl, by simpa [win, eq_comm] using hc⟩
    · exact .inr ⟨hT, by simpa [win, hT] using hc⟩
  refine
    { dur_le := ha.dur_le
      request_bound := ha.request_bound
      grant_request := ha.grant_request
      grant_bound := ha.grant_bound
      grant_unique := ha.grant_unique
      self_vote := ?_
      term_pos := ?_
      tally_grant := ?_
      candidate_ne_chief := ?_
      chief_quorum := ?_
      chief_elected := ?_
      chief_bound := ?_
      chief_grant := ?_
      leader_chief := ?_ }
  · intro y hy
    by_cases hyx : y = x
    · subst hyx
      exact hself
    · exact ha.self_vote (by simpa [win, hyx] using hy)
  · intro y hy
    by_cases hyx : y = x
    · subst hyx
      exact ha.term_pos (by simp [hr])
    · exact ha.term_pos (by simpa [win, hyx] using hy)
  · intro y v hy hv
    by_cases hyx : y = x
    · subst hyx
      simp [win] at hy
    · exact ha.tally_grant (by simpa [win, hyx] using hy) hv
  · intro y hy hc
    by_cases hyx : y = x
    · subst hyx
      simp [win] at hy
    · rcases hsplit hc with ⟨-, hyx'⟩ | ⟨-, hc'⟩
      · exact hyx hyx'
      · exact ha.candidate_ne_chief (by simpa [win, hyx] using hy) hc'
  · intro T y hc
    rcases hsplit hc with ⟨rfl, rfl⟩ | ⟨hT, hc'⟩
    · simpa [win] using hq
    · simpa [win, hT] using ha.chief_quorum hc'
  · intro T y v hc hv
    rcases hsplit hc with ⟨rfl, rfl⟩ | ⟨hT, hc'⟩
    · exact ha.tally_grant hr (by simpa [win] using hv)
    · exact ha.chief_elected hc' (by simpa [win, hT] using hv)
  · intro T y hc
    rcases hsplit hc with ⟨rfl, rfl⟩ | ⟨-, hc'⟩
    · exact hbound
    · exact ha.chief_bound hc'
  · intro T y z hc hg
    rcases hsplit hc with ⟨rfl, rfl⟩ | ⟨-, hc'⟩
    · have := (ha.grant_bound hg).2.2 rfl
      rw [hself] at this
      exact (Option.some.inj this).symm
    · exact ha.chief_grant hc' hg
  · intro y hy
    by_cases hyx : y = x
    · subst hyx
      simp [win]
    · have hl := ha.leader_chief (x := y) (by simpa [win, hyx] using hy)
      have hT : (a.mem y).term ≠ (a.mem x).term := by
        intro heq
        simp [heq, hfresh] at hl
      simpa [win, hT] using hl

/-- Every step keeps the election invariant. -/
theorem Inv.step {𝒬 : QuorumSystem ν} {a b : State ν} (ha : Inv 𝒬 a)
    (h : Step 𝒬 a b) : Inv 𝒬 b := by
  cases h with
  | quiet hq => exact inv_quiet ha hq
  | request x hr hd => exact inv_request ha hr hd
  | grant v x hv hd hr => exact inv_grant ha hv hd hr
  | win x hr hd hq => exact inv_win ha hr hd hq

end Steps

end LogEngine.Verified.Election
