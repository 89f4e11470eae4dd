import LogEngine.Verified.Election

/-!
# One member of an election

`Verified.Election` describes the steps of a whole cluster.  A program that is one
member sees its own ballots, role and tally, its *seat*, and does several abstract
steps in one of its own.  `Move` are the quiet steps as changes of a seat, and
`Acts i a b` says that `b` comes from `a` by steps of member `i`: every other seat is
as it was, and what is on the wire or has been decided stays so.

A member that fell behind its own disk is covered by `exists_catchUp`: coming back
with any later ballot is a restart followed by moves that it could have made.
-/

namespace LogEngine.Verified.Election

variable {ν : Type*}

/-- What the election keeps about one member. -/
structure Seat (ν : Type*) where
  mem : Ballot ν
  dur : Ballot ν
  role : Role
  tally : Finset ν

def State.seat (a : State ν) (i : ν) : Seat ν := ⟨a.mem i, a.dur i, a.role i, a.tally i⟩

/-- Member `i` takes `a` to `b`. -/
structure Acts (𝒬 : QuorumSystem ν) (i : ν) (a b : State ν) : Prop where
  inv : Inv 𝒬 b
  requests : a.requests ⊆ b.requests
  grants : a.grants ⊆ b.grants
  chief : ∀ {T x}, a.chief T = some x → b.chief T = some x
  others : ∀ j, j ≠ i → b.seat j = a.seat j

theorem Acts.refl {𝒬 : QuorumSystem ν} {i : ν} {a : State ν} (ha : Inv 𝒬 a) :
    Acts 𝒬 i a a :=
  ⟨ha, subset_rfl, subset_rfl, fun h => h, fun _ _ => rfl⟩

theorem Acts.trans {𝒬 : QuorumSystem ν} {i : ν} {a b c : State ν} (h : Acts 𝒬 i a b)
    (h' : Acts 𝒬 i b c) : Acts 𝒬 i a c where
  inv := h'.inv
  requests := h.requests.trans h'.requests
  grants := h.grants.trans h'.grants
  chief hc := h'.chief (h.chief hc)
  others j hj := (h'.others j hj).trans (h.others j hj)

/-- `b'` is a later ballot than `b`, or the same: a higher term, or a vote cast in the
same term. -/
def Ballot.Ahead (b b' : Ballot ν) : Prop :=
  b.term < b'.term ∨ b.term = b'.term ∧ (b.vote = none ∨ b.vote = b'.vote)

/-! ## Moves -/

section Moves

variable [DecidableEq ν] {𝒬 : QuorumSystem ν} {i : ν}

/-- The quiet steps of member `i`, with `G` the votes announced so far. -/
inductive Move (i : ν) (G : Set (ν × ν × Nat)) : Seat ν → Seat ν → Prop
  | observe (s : Seat ν) (T : Nat) (h : s.mem.term < T) :
      Move i G s { s with mem := ⟨T, none⟩, role := .follower }
  | stepDown (s : Seat ν) : Move i G s { s with role := .follower }
  | campaign (s : Seat ν) :
      Move i G s { s with
        mem := ⟨s.mem.term + 1, some i⟩
        role := .candidate
        tally := {i} }
  | vote (s : Seat ν) (y : ν) (h : s.mem.vote = none) :
      Move i G s { s with mem := ⟨s.mem.term, some y⟩ }
  | persist (s : Seat ν) : Move i G s { s with dur := s.mem }
  | count (s : Seat ν) (v : ν) (h : s.role = .candidate → (v, i, s.mem.term) ∈ G) :
      Move i G s { s with tally := insert v s.tally }
  | restart (s : Seat ν) : Move i G s { s with mem := s.dur, role := .follower }

/-- Any number of moves. -/
def Moves (i : ν) (G : Set (ν × ν × Nat)) : Seat ν → Seat ν → Prop :=
  Relation.ReflTransGen (Move i G)

private theorem exists_quiet {G : Set (ν × ν × Nat)} {a : State ν} {s : Seat ν} (hG : a.grants = G)
    (h : Move i G (a.seat i) s) :
    ∃ b, Quiet a b ∧ b.seat i = s ∧ ∀ j, j ≠ i → b.seat j = a.seat j := by
  cases h with
  | observe T hlt =>
      refine ⟨_, .observe a i T hlt, ?_, fun j hj => ?_⟩ <;> simp [State.seat, *]
  | stepDown => refine ⟨_, .stepDown a i, ?_, fun j hj => ?_⟩ <;> simp [State.seat, *]
  | campaign => refine ⟨_, .campaign a i, ?_, fun j hj => ?_⟩ <;> simp [State.seat, *]
  | vote y hnone => refine ⟨_, .vote a i y hnone, ?_, fun j hj => ?_⟩ <;> simp [State.seat, *]
  | persist => refine ⟨_, .persist a i, ?_, fun j hj => ?_⟩ <;> simp [State.seat, *]
  | count v hg =>
      rw [← hG] at hg
      refine ⟨_, .count a i v hg, ?_, fun j hj => ?_⟩ <;> simp [State.seat, *]
  | restart => refine ⟨_, .restart a i, ?_, fun j hj => ?_⟩ <;> simp [State.seat, *]

/-- Moves of member `i` are steps of the election. -/
theorem exists_acts {a : State ν} {s : Seat ν} (ha : Inv 𝒬 a)
    (h : Moves i a.grants (a.seat i) s) :
    ∃ b, Acts 𝒬 i a b ∧ b.seat i = s ∧ b.requests = a.requests ∧ b.grants = a.grants := by
  induction h with
  | refl => exact ⟨a, Acts.refl ha, rfl, rfl, rfl⟩
  | tail _ hmove ih =>
      obtain ⟨b, hb, rfl, hr, hg⟩ := ih
      obtain ⟨c, hq, hseat, hothers⟩ := exists_quiet hg hmove
      have hs := hq.spec hb.inv
      refine ⟨c, hb.trans ⟨hb.inv.step (.quiet hq), hs.requests.ge, hs.grants.ge, ?_, hothers⟩,
        hseat, hs.requests.trans hr, hs.grants.trans hg⟩
      intro T x hc
      rw [hs.chief]
      exact hc

/-! ## Steps that send or decide -/

theorem exists_request {a : State ν} (ha : Inv 𝒬 a) (hr : (a.seat i).role = .candidate)
    (hd : (a.seat i).dur = (a.seat i).mem) :
    ∃ b, Acts 𝒬 i a b ∧ b.seat i = a.seat i ∧ (i, (a.seat i).mem.term) ∈ b.requests :=
  ⟨_, ⟨ha.step (.request a i hr hd), Set.subset_insert _ _, subset_rfl, fun h => h,
    fun _ _ => rfl⟩, rfl, Set.mem_insert _ _⟩

theorem exists_grant {a : State ν} (ha : Inv 𝒬 a) {x : ν}
    (hv : (a.seat i).mem.vote = some x) (hd : (a.seat i).dur = (a.seat i).mem)
    (hr : (x, (a.seat i).mem.term) ∈ a.requests) :
    ∃ b, Acts 𝒬 i a b ∧ b.seat i = a.seat i ∧ (i, x, (a.seat i).mem.term) ∈ b.grants :=
  ⟨_, ⟨ha.step (.grant a i x hv hd hr), subset_rfl, Set.subset_insert _ _, fun h => h,
    fun _ _ => rfl⟩, rfl, Set.mem_insert _ _⟩

omit [DecidableEq ν] in
/-- A candidate that somebody else voted for has its ballot on disk: it was there when
it asked. -/
theorem Inv.dur_of_tally {a : State ν} (ha : Inv 𝒬 a) {x v : ν} (hr : a.role x = .candidate)
    (hv : v ∈ a.tally x) (hne : v ≠ x) : a.dur x = a.mem x := by
  have hself := ha.self_vote (x := x) (by simp [hr])
  rcases ha.tally_grant hr hv with heq | hg
  · exact absurd heq hne
  obtain ⟨⟨hle, hvote⟩, -⟩ := ha.request_bound (ha.grant_request hg)
  have hterm : (a.dur x).term = (a.mem x).term := le_antisymm (ha.dur_le x) hle
  have hdvote := hvote hterm
  cases hd : a.dur x with
  | mk T w =>
      cases hm : a.mem x with
      | mk T' w' =>
          rw [hd, hm] at hterm
          rw [hd] at hdvote
          rw [hm] at hself
          simp only at hterm hdvote hself
          rw [hterm, hdvote, hself]

theorem exists_win {a : State ν} (ha : Inv 𝒬 a) (hr : (a.seat i).role = .candidate)
    {v : ν} (hv : v ∈ (a.seat i).tally) (hne : v ≠ i) (hq : 𝒬.IsQuorum (a.seat i).tally) :
    ∃ b, Acts 𝒬 i a b ∧ b.seat i = { a.seat i with role := .leader } ∧
      b.requests = a.requests ∧ b.grants = a.grants := by
  have hfresh := ha.win_fresh hr hq
  refine ⟨_, ⟨ha.step (.win a i hr (ha.dur_of_tally hr hv hne) hq), subset_rfl, subset_rfl,
    ?_, ?_⟩, ?_, rfl, rfl⟩
  · intro T x hc
    have hT : T ≠ (a.mem i).term := by
      rintro rfl
      rw [hfresh] at hc
      cases hc
    simpa [win, hT] using hc
  · intro j hj
    simp [State.seat, win, hj]
  · simp [State.seat, win]

/-! ## Coming back -/

/-- A member that comes back with its ballot on disk, or with a later one. -/
theorem exists_catchUp (G : Set (ν × ν × Nat)) (s : Seat ν) {b : Ballot ν}
    (h : s.dur.Ahead b) :
    ∃ s', Moves i G s s' ∧ s'.mem = b ∧ s'.dur = b ∧ s'.role = .follower := by
  have hback : Moves i G s { s with mem := s.dur, role := .follower } :=
    .single (.restart s)
  -- from a ballot of term `T` without a vote to one with the vote `w`
  have hcast : ∀ (u : Seat ν) (w : Option ν), u.mem.vote = none → u.role = .follower →
      ∃ s', Moves i G u s' ∧ s'.mem = ⟨u.mem.term, w⟩ ∧ s'.dur = ⟨u.mem.term, w⟩ ∧
        s'.role = .follower := by
    intro u w hnone hrole
    cases w with
    | none =>
        have hmem : u.mem = ⟨u.mem.term, none⟩ := by rw [← hnone]
        exact ⟨_, .single (.persist u), hmem, hmem, hrole⟩
    | some y =>
        exact ⟨_, .tail (.single (.vote u y hnone)) (.persist _), rfl, rfl, hrole⟩
  rcases h with hlt | ⟨hterm, hvote⟩
  · obtain ⟨s', hs', hm, hd, hr⟩ := hcast
      { s with mem := ⟨b.term, none⟩, role := .follower } b.vote rfl rfl
    exact ⟨s', (hback.tail (.observe _ b.term hlt)).trans hs', hm, hd, hr⟩
  · rcases hvote with hnone | hsame
    · obtain ⟨s', hs', hm, hd, hr⟩ := hcast { s with mem := s.dur, role := .follower } b.vote
        hnone rfl
      rw [hterm] at hm hd
      exact ⟨s', hback.trans hs', hm, hd, hr⟩
    · have hb : s.dur = b := by
        cases hd : s.dur with
        | mk T w =>
            rw [hd] at hterm hsame
            simp only at hterm hsame
            rw [hterm, hsame]
      exact ⟨_, hback, hb, hb, rfl⟩

end Moves

end LogEngine.Verified.Election
