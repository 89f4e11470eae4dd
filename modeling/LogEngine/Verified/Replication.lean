import LogEngine.Verified.Election
import LogEngine.Verified.Tiling

/-!
# Replicated logs of batches

An abstract leader-based replication protocol over the elections of
`Election`.  A log is a tiling of record offsets by *batches*, each stamped
with the term that produced it; a leader appends batches of its own term, sends
each follower one batch together with the term of the record before it, and a
follower that agrees about that record cuts a conflicting tail and takes the
batch.

`leaderLog T` is a history variable: everything the chief of term `T` ever held
while it led.  The invariant `Inv` says that each log is made of pieces of such
histories: whatever prefix of a log ends with a batch of term `T` is a prefix of
`leaderLog T` (`Owned`).  Log matching is immediate from it
(`Owned.eq_of_overlap`), and so is the soundness of the follower's one-record
check (`Inv.prefix_of_matches`).

Memory and disk are told apart only for ballots.  A log changes on disk at once,
also in a term whose ballot never reached the disk before a crash.
-/

namespace LogEngine.Verified.Replication

open LogEngine.Verified.Tiling

/-- A batch: an extent of record offsets stamped with a term. -/
class Stamped (α : Type*) extends Extent α where
  /-- The term that produced the batch. -/
  term : α → Nat

open Extent Stamped

variable {ν α : Type*} [Stamped α]

/-- The term of the last batch, `0` for an empty log. -/
def lastTerm (l : List α) : Nat := (l.getLast?.map term).getD 0

/-- The term of the batch covering record `i`, `0` where there is none. -/
def termAt (l : List α) (i : Nat) : Nat := ((cover l i).map term).getD 0

@[simp] theorem lastTerm_nil : lastTerm ([] : List α) = 0 := rfl

@[simp] theorem lastTerm_snoc (l : List α) (e : α) :
    lastTerm (l ++ [e]) = term e := by
  simp [lastTerm]

/-- What a leader sends: where the batch goes, the term of the record before
that place, and the batch itself unless this is a heartbeat. -/
structure Append (α : Type*) where
  term : Nat
  start : Nat
  prevTerm : Nat
  entry : Option α

/-- The follower's check: it holds the record before `start`, of the same
term. -/
def Append.Matches (m : Append α) (l : List α) : Prop :=
  m.start = 0 ∨ (m.start ≤ endFrom 0 l ∧ termAt l (m.start - 1) = m.prevTerm)

/-- The check looks only below `start`. -/
theorem Append.Matches.congr {m : Append α} {p l l' : List α} (hm : m.Matches l)
    (hl : Tiles 0 l) (hp : p <+: l) (hp' : p <+: l') (hl' : Tiles 0 l')
    (hend : m.start ≤ endFrom 0 p) : m.Matches l' := by
  rcases hm with h0 | ⟨-, ht⟩
  · exact .inl h0
  · by_cases h0 : m.start = 0
    · exact .inl h0
    · refine .inr ⟨hend.trans (hl'.end_mono hp'), ?_⟩
      rw [← ht, termAt, termAt,
        hl.cover_congr hp hp' (Nat.zero_le (m.start - 1)) (by omega)]

/-- How far an accepted message confirms the follower's log. -/
def Append.confirmed (m : Append α) : Nat :=
  match m.entry with
  | none => m.start
  | some e => stop e

/-- A candidate with log end `e` and last term `t` may have the vote of a
member with log `l`. -/
def UpToDate (e t : Nat) (l : List α) : Prop :=
  lastTerm l < t ∨ (t = lastTerm l ∧ endFrom 0 l ≤ e)

/-- The state of a whole cluster. -/
structure State (ν α : Type*) where
  el : Election.State ν
  log : ν → List α
  /-- Log end and last term announced with each request for votes. -/
  canvass : Set (ν × Nat × Nat × Nat)
  /-- Batches and heartbeats ever sent. -/
  appends : Set (Append α)
  /-- Confirmations ever sent: follower, term and confirmed end. -/
  acks : Set (ν × Nat × Nat)
  /-- Everything the chief of a term ever held in that term. -/
  leaderLog : Nat → List α

/-- One step of the protocol. -/
inductive Step [DecidableEq ν] (𝒬 : QuorumSystem ν) :
    State ν α → State ν α → Prop
  | quiet (a : State ν α) {e : Election.State ν} (h : Election.Quiet a.el e) :
      Step 𝒬 a { a with el := e }
  | request (a : State ν α) (x : ν) (hr : a.el.role x = .candidate)
      (hd : a.el.dur x = a.el.mem x) :
      Step 𝒬 a { a with
        el := Election.request a.el x
        canvass := insert (x, (a.el.mem x).term, endFrom 0 (a.log x),
          lastTerm (a.log x)) a.canvass }
  | grant (a : State ν α) (v x : ν) (hv : (a.el.mem v).vote = some x)
      (hd : a.el.dur v = a.el.mem v) {e t : Nat}
      (hc : (x, (a.el.mem v).term, e, t) ∈ a.canvass)
      (hup : UpToDate e t (a.log v)) :
      Step 𝒬 a { a with el := Election.grant a.el v x }
  | win (a : State ν α) (x : ν) (hr : a.el.role x = .candidate)
      (hd : a.el.dur x = a.el.mem x) (hq : 𝒬.IsQuorum (a.el.tally x)) :
      Step 𝒬 a { a with
        el := Election.win a.el x
        leaderLog := Function.update a.leaderLog (a.el.mem x).term (a.log x) }
  /-- A leader appends a batch of its own term at the end of its log. -/
  | propose (a : State ν α) (x : ν) (e : α) (hr : a.el.role x = .leader)
      (hb : base e = endFrom 0 (a.log x)) (hs : base e < stop e)
      (ht : term e = (a.el.mem x).term) :
      Step 𝒬 a { a with
        log := Function.update a.log x (a.log x ++ [e])
        leaderLog := Function.update a.leaderLog (a.el.mem x).term
          (a.log x ++ [e]) }
  /-- A leader sends what follows one of its own batch boundaries. -/
  | append (a : State ν α) (x : ν) (m : Append α) (hr : a.el.role x = .leader)
      (ht : m.term = (a.el.mem x).term) (p : List α) (hp : p <+: a.log x)
      (hend : endFrom 0 p = m.start) (hprev : m.start ≠ 0 → m.prevTerm = lastTerm p)
      (hent : ∀ e ∈ m.entry, p ++ [e] <+: a.log x) :
      Step 𝒬 a { a with appends := insert m a.appends }
  /-- A follower drops part of a tail that conflicts with a batch it is
  sent, never anything before the conflict. -/
  | trim (a : State ν α) (x : ν) (m : Append α) (e : α) (l : List α)
      (hm : m ∈ a.appends) (ht : m.term = (a.el.mem x).term)
      (hr : a.el.role x = .follower) (hmt : m.Matches (a.log x))
      (he : m.entry = some e) (hlt : m.start < endFrom 0 (a.log x))
      (hne : termAt (a.log x) m.start ≠ term e)
      (hkeep : upTo (a.log x) m.start <+: l) (hcut : l <+: a.log x) :
      Step 𝒬 a { a with log := Function.update a.log x l }
  /-- A follower whose log ends where the batch begins takes it. -/
  | extend (a : State ν α) (x : ν) (m : Append α) (e : α)
      (hm : m ∈ a.appends) (ht : m.term = (a.el.mem x).term)
      (hr : a.el.role x = .follower) (hmt : m.Matches (a.log x))
      (he : m.entry = some e) (hend : m.start = endFrom 0 (a.log x)) :
      Step 𝒬 a { a with log := Function.update a.log x (a.log x ++ [e]) }
  /-- A follower whose ballot is on disk confirms a message it agrees with. -/
  | ack (a : State ν α) (x : ν) (m : Append α)
      (hm : m ∈ a.appends) (ht : m.term = (a.el.mem x).term)
      (hd : a.el.dur x = a.el.mem x) (hmt : m.Matches (a.log x))
      (he : ∀ e ∈ m.entry, m.start < endFrom 0 (a.log x) ∧
        termAt (a.log x) m.start = term e) :
      Step 𝒬 a { a with acks := insert (x, m.term, m.confirmed) a.acks }

/-! ## Logs made of leaders' histories -/

/-- Every prefix of `l` that ends with a batch of term `T` is a prefix of the
history `L T`. -/
def Owned (L : Nat → List α) (l : List α) : Prop :=
  ∀ p e, p ++ [e] <+: l → p ++ [e] <+: L (term e)

private theorem owned_nil (L : Nat → List α) : Owned L [] := by
  intro p e h
  simp at h

theorem Owned.of_isPrefix {L : Nat → List α} {l m : List α} (h : Owned L l)
    (hm : m <+: l) : Owned L m :=
  fun p e hp => h p e (hp.trans hm)

theorem Owned.mono {L L' : Nat → List α} {l : List α} (h : Owned L l)
    (hL : ∀ T, L T <+: L' T) : Owned L' l :=
  fun p e hp => (h p e hp).trans (hL _)

theorem Owned.snoc {L : Nat → List α} {l : List α} {e : α} (h : Owned L l)
    (he : l ++ [e] <+: L (term e)) : Owned L (l ++ [e]) := by
  intro p x hp
  rcases List.prefix_concat_iff.1 hp with heq | hp
  · obtain ⟨rfl, hx⟩ := List.append_inj' heq rfl
    obtain rfl : x = e := by simpa using hx
    exact he
  · exact h p x hp

/-- A member of an owned log is a member of its own term's history. -/
theorem Owned.mem {L : Nat → List α} {l : List α} (h : Owned L l) {e : α}
    (he : e ∈ l) : e ∈ L (term e) := by
  obtain ⟨l₁, l₂, rfl⟩ := List.append_of_mem he
  have hp : l₁ ++ [e] <+: L (term e) := h l₁ e ⟨l₂, by simp⟩
  exact hp.subset (by simp)

/-- A nonempty owned log is a prefix of its last term's history. -/
theorem Owned.prefix_last {L : Nat → List α} {l : List α} (h : Owned L l)
    (hne : l ≠ []) : l <+: L (lastTerm l) := by
  obtain ⟨p, e, rfl⟩ := (List.eq_nil_or_concat' l).resolve_left hne
  simpa using h p e (List.prefix_refl _)

/-- **Log matching.**  Two owned prefixes whose last batches have one term and
share a record are equal. -/
theorem Owned.eq_of_overlap {L : Nat → List α} {l m p q : List α} {x y : α}
    {i : Nat} (hl : Owned L l) (hm : Owned L m) (hL : ∀ T, Tiles 0 (L T))
    (hp : p ++ [x] <+: l) (hq : q ++ [y] <+: m) (ht : term x = term y)
    (hx : base x ≤ i ∧ i < stop x) (hy : base y ≤ i ∧ i < stop y) :
    p ++ [x] = q ++ [y] := by
  have hpx := hl p x hp
  have hqy := hm q y hq
  rw [← ht] at hqy
  have hcx := (hL (term x)).cover_eq hpx hx.1 hx.2
  have hcy := (hL (term x)).cover_eq hqy hy.1 hy.2
  obtain rfl : x = y := by
    rw [hcx] at hcy
    exact Option.some.inj hcy
  exact (hL (term x)).prefix_eq_of_end hpx hqy (by simp)

/-! ## The invariant -/

/-- The replication invariant. -/
structure Inv (𝒬 : QuorumSystem ν) (a : State ν α) : Prop where
  election : Election.Inv 𝒬 a.el
  tiles : ∀ x, Tiles 0 (a.log x)
  leader_tiles : ∀ T, Tiles 0 (a.leaderLog T)
  owned : ∀ x, Owned a.leaderLog (a.log x)
  leader_owned : ∀ T, Owned a.leaderLog (a.leaderLog T)
  leader_terms : ∀ {T e}, e ∈ a.leaderLog T → 0 < term e ∧ term e ≤ T
  no_chief : ∀ {T}, a.el.chief T = none → a.leaderLog T = []
  leader_log : ∀ {x}, a.el.role x = .leader →
    a.leaderLog (a.el.mem x).term = a.log x
  append_sound : ∀ {m}, m ∈ a.appends → ∃ p, p <+: a.leaderLog m.term ∧
    endFrom 0 p = m.start ∧ (m.start ≠ 0 → m.prevTerm = lastTerm p) ∧
    ∀ e ∈ m.entry, p ++ [e] <+: a.leaderLog m.term
  ack_term : ∀ {x T c}, (x, T, c) ∈ a.acks → T ≤ (a.el.dur x).term
  ack_sound : ∀ {x T c}, (x, T, c) ∈ a.acks →
    ∃ q, q <+: a.leaderLog T ∧ endFrom 0 q = c
  canvass_request : ∀ {x T e t}, (x, T, e, t) ∈ a.canvass →
    (x, T) ∈ a.el.requests
  canvass_log : ∀ {x T e t}, (x, T, e, t) ∈ a.canvass →
    a.el.role x = .candidate → (a.el.mem x).term = T →
    e = endFrom 0 (a.log x) ∧ t = lastTerm (a.log x)
  /-- A candidate that holds a batch of a term beyond its own, as a crash
  before the ballot reached the disk can leave it, has no vote from those who
  elected that term's chief. -/
  ahead : ∀ {v x e}, (v, x, (a.el.mem x).term) ∈ a.el.grants →
    a.el.role x = .candidate → e ∈ a.log x → (a.el.mem x).term < term e →
    v ∉ a.el.electors (term e)

/-- The state in which nobody has done anything. -/
def init : State ν α where
  el := Election.init
  log _ := []
  canvass := ∅
  appends := ∅
  acks := ∅
  leaderLog _ := []

theorem inv_init (𝒬 : QuorumSystem ν) : Inv 𝒬 (init : State ν α) := by
  constructor
  · exact Election.inv_init 𝒬
  all_goals simp [init, Election.init, owned_nil]

section Consequences

variable {𝒬 : QuorumSystem ν} {a : State ν α}

/-- A batch in a log belongs to a term that has been won. -/
theorem Inv.chief_of_mem (ha : Inv 𝒬 a) {x : ν} {e : α} (he : e ∈ a.log x) :
    ∃ y, a.el.chief (term e) = some y := by
  cases hc : a.el.chief (term e) with
  | some y => exact ⟨y, rfl⟩
  | none =>
      have := (ha.owned x).mem he
      simp [ha.no_chief hc] at this

theorem Inv.term_pos (ha : Inv 𝒬 a) {x : ν} {e : α} (he : e ∈ a.log x) :
    0 < term e :=
  (ha.leader_terms ((ha.owned x).mem he)).1

/-- Terms do not decrease along a log. -/
theorem Inv.term_le_lastTerm (ha : Inv 𝒬 a) {x : ν} {e : α}
    (he : e ∈ a.log x) : term e ≤ lastTerm (a.log x) := by
  have hne : a.log x ≠ [] := List.ne_nil_of_mem he
  exact (ha.leader_terms (((ha.owned x).prefix_last hne).subset he)).2

/-- A follower that passes the one-record check holds everything the leader
held below that record. -/
theorem Inv.prefix_of_matches (ha : Inv 𝒬 a) {x : ν} {T : Nat} {m : Append α}
    {p : List α} (hp : p <+: a.leaderLog T) (hend : endFrom 0 p = m.start)
    (hprev : m.start ≠ 0 → m.prevTerm = lastTerm p)
    (hmt : m.Matches (a.log x)) : p <+: a.log x := by
  rcases List.eq_nil_or_concat' p with rfl | ⟨q, y, rfl⟩
  · exact List.nil_prefix
  have hy := tiles_snoc.1 ((ha.leader_tiles T).of_isPrefix hp)
  have hstop : stop y = m.start := by simpa using hend
  have hpos : 0 < m.start := by omega
  obtain ⟨hle, hta⟩ := hmt.resolve_left (by omega)
  obtain ⟨r, z, hr, hzb, hzs, hcov⟩ :=
    (ha.tiles x).exists_snoc (i := m.start - 1) (Nat.zero_le _) (by omega)
  have hterm : term z = term y := by
    rw [termAt, hcov, hprev (by omega), lastTerm_snoc] at hta
    simpa using hta
  -- both batches cover the record before `start`
  rw [(ha.leader_owned T).eq_of_overlap (ha.owned x) ha.leader_tiles hp hr
    hterm.symm (i := m.start - 1) (by omega) (by omega)]
  exact hr

/-- The batch a matching message carries, when the log already holds a record
of its term in its place, is the batch the log holds there. -/
theorem Inv.entry_of_matches (ha : Inv 𝒬 a) {x : ν} {T : Nat} {m : Append α}
    {p : List α} {e : α} (hpe : p ++ [e] <+: a.leaderLog T)
    (hend : endFrom 0 p = m.start) (hlt : m.start < endFrom 0 (a.log x))
    (hterm : termAt (a.log x) m.start = term e) : p ++ [e] <+: a.log x := by
  have he := tiles_snoc.1 ((ha.leader_tiles T).of_isPrefix hpe)
  obtain ⟨r, z, hr, hzb, hzs, hcov⟩ :=
    (ha.tiles x).exists_snoc (i := m.start) (Nat.zero_le _) hlt
  have hz : term z = term e := by simpa [termAt, hcov] using hterm
  rw [(ha.leader_owned T).eq_of_overlap (ha.owned x) ha.leader_tiles hpe hr
    hz.symm (i := m.start) (by omega) (by omega)]
  exact hr

/-- Whatever a follower shares with the leader ends before a conflict. -/
theorem Inv.prefix_of_conflict (ha : Inv 𝒬 a) {x : ν} {T : Nat} {m : Append α}
    {p q : List α} {e : α} (hpe : p ++ [e] <+: a.leaderLog T)
    (hend : endFrom 0 p = m.start) (hpx : p <+: a.log x)
    (hne : termAt (a.log x) m.start ≠ term e)
    (hqL : q <+: a.leaderLog T) (hqx : q <+: a.log x) : q <+: p := by
  rcases List.prefix_or_prefix_of_prefix hqx hpx with h | ⟨r, rfl⟩
  · exact h
  cases r with
  | nil => simp
  | cons z r =>
      have hpz : p ++ [z] <+: p ++ z :: r := ⟨r, by simp⟩
      have heq : p ++ [z] = p ++ [e] :=
        (List.prefix_of_prefix_length_le (hpz.trans hqL) hpe (by simp)).eq_of_length
          (by simp)
      obtain rfl : z = e := by simpa using heq
      have hz := tiles_snoc.1 ((ha.leader_tiles T).of_isPrefix hpe)
      have hcov := (ha.tiles x).cover_eq (i := m.start) (hpz.trans hqx)
        (by omega) (by omega)
      simp [termAt, hcov] at hne

/-- A candidate that takes office holds only batches of earlier terms. -/
theorem Inv.win_terms (ha : Inv 𝒬 a) {x : ν} (hr : a.el.role x = .candidate)
    (hd : a.el.dur x = a.el.mem x) (hq : 𝒬.IsQuorum (a.el.tally x)) {e : α}
    (he : e ∈ a.log x) : term e < (a.el.mem x).term := by
  by_contra hge
  obtain ⟨y, hy⟩ := ha.chief_of_mem he
  rcases Nat.lt_or_eq_of_le (Nat.le_of_not_lt hge) with hlt | heq
  · -- the two electorates share a voter, who could not have gone back
    obtain ⟨v, hvx, hvy⟩ := 𝒬.meet hq (ha.election.chief_quorum hy)
    rcases ha.election.tally_grant hr hvx with rfl | hg
    · have := ha.election.elector_term hy hvy
      rw [hd] at this
      omega
    · exact ha.ahead hg hr he hlt hvy
  · rw [← heq, ha.election.win_fresh hr hq] at hy
    simp at hy

/-- A follower that may take the batch it is sent ends up with a prefix of the
leader's history. -/
theorem Inv.extend_isPrefix (ha : Inv 𝒬 a) {x : ν} {m : Append α} {e : α}
    (hm : m ∈ a.appends) (hmt : m.Matches (a.log x)) (he : m.entry = some e)
    (hend : m.start = endFrom 0 (a.log x)) :
    a.log x ++ [e] <+: a.leaderLog m.term := by
  obtain ⟨p, hp, hpend, hprev, hent⟩ := ha.append_sound hm
  have hpx := ha.prefix_of_matches hp hpend hprev hmt
  obtain rfl : p = a.log x :=
    (ha.tiles x).prefix_eq_of_end hpx (List.prefix_refl _) (by omega)
  exact hent e he

/-- A member that agrees with a message holds everything the message confirms. -/
theorem Inv.confirmed_isPrefix (ha : Inv 𝒬 a) {x : ν} {m : Append α}
    (hm : m ∈ a.appends) (hmt : m.Matches (a.log x))
    (he : ∀ e ∈ m.entry, m.start < endFrom 0 (a.log x) ∧
      termAt (a.log x) m.start = term e) :
    ∃ r, r <+: a.leaderLog m.term ∧ r <+: a.log x ∧ endFrom 0 r = m.confirmed := by
  obtain ⟨p, hp, hend, hprev, hent⟩ := ha.append_sound hm
  cases hme : m.entry with
  | none =>
      exact ⟨p, hp, ha.prefix_of_matches hp hend hprev hmt,
        by simp [Append.confirmed, hme, hend]⟩
  | some e =>
      obtain ⟨hlt, hta⟩ := he e hme
      exact ⟨p ++ [e], hent e hme, ha.entry_of_matches (hent e hme) hend hlt hta,
        by simp [Append.confirmed, hme]⟩

/-- What an append says stays true while the leaders' histories grow. -/
theorem Inv.append_mono (ha : Inv 𝒬 a) {L : Nat → List α} (hL : ∀ T, a.leaderLog T <+: L T)
    {m : Append α} (hm : m ∈ a.appends) : ∃ p, p <+: L m.term ∧ endFrom 0 p = m.start ∧
      (m.start ≠ 0 → m.prevTerm = lastTerm p) ∧ ∀ e ∈ m.entry, p ++ [e] <+: L m.term := by
  obtain ⟨p, hp, hend, hprev, hent⟩ := ha.append_sound hm
  exact ⟨p, hp.trans (hL _), hend, hprev, fun e he => (hent e he).trans (hL _)⟩

/-- So does a confirmation. -/
theorem Inv.ack_mono (ha : Inv 𝒬 a) {L : Nat → List α} (hL : ∀ T, a.leaderLog T <+: L T)
    {x : ν} {T c : Nat} (hk : (x, T, c) ∈ a.acks) : ∃ q, q <+: L T ∧ endFrom 0 q = c := by
  obtain ⟨q, hq, hc⟩ := ha.ack_sound hk
  exact ⟨q, hq.trans (hL _), hc⟩

end Consequences

/-! ## The invariant is preserved -/

section Preservation

variable [DecidableEq ν] {𝒬 : QuorumSystem ν} {a : State ν α}

private theorem inv_quiet (ha : Inv 𝒬 a) {e : Election.State ν}
    (h : Election.Quiet a.el e) : Inv 𝒬 { a with el := e } := by
  have hs := h.spec ha.election
  refine
    { ha with
      election := ha.election.step (.quiet h)
      no_chief := fun hc => ha.no_chief (hs.chief ▸ hc)
      leader_log := ?_
      ack_term := fun hk => le_trans (ha.ack_term hk) (hs.dur_mono _)
      canvass_request := fun hc => hs.requests ▸ ha.canvass_request hc
      canvass_log := ?_
      ahead := ?_ }
  · intro x hx
    obtain ⟨hl, hm⟩ := hs.leader x hx
    simpa only [hm] using ha.leader_log hl
  · intro x T c t hc hx hT
    rcases hs.candidate x hx with ⟨hcand, hm⟩ | hlt
    · exact ha.canvass_log hc hcand (hm ▸ hT)
    · -- a campaign that has just begun has asked nobody yet
      exact absurd (ha.canvass_request hc)
        (ha.election.fresh_campaign (by simpa only [← hT] using hlt))
  · intro v x y hg hx hy hlt
    simp only [hs.grants, hs.electors] at hg ⊢
    rcases hs.candidate x hx with ⟨hcand, hm⟩ | hfresh
    · rw [hm] at hg hlt
      exact ha.ahead hg hcand hy hlt
    · exact absurd (ha.election.grant_request hg)
        (ha.election.fresh_campaign hfresh)

private theorem inv_request (ha : Inv 𝒬 a) {x : ν}
    (hr : a.el.role x = .candidate) (hd : a.el.dur x = a.el.mem x) :
    Inv 𝒬 { a with
      el := Election.request a.el x
      canvass := insert (x, (a.el.mem x).term, endFrom 0 (a.log x),
        lastTerm (a.log x)) a.canvass } := by
  refine
    { ha with
      election := ha.election.step (.request _ x hr hd)
      canvass_request := ?_
      canvass_log := ?_ }
  · rintro y T c t (heq | hold)
    · simp only [Prod.mk.injEq] at heq
      exact .inl (by rw [heq.1, heq.2.1])
    · exact .inr (ha.canvass_request hold)
  · rintro y T c t (heq | hold) hy hT
    · obtain ⟨rfl, -, rfl, rfl⟩ := by simpa only [Prod.mk.injEq] using heq
      exact ⟨rfl, rfl⟩
    · exact ha.canvass_log hold hy hT

private theorem inv_grant (ha : Inv 𝒬 a) {v x : ν}
    (hv : (a.el.mem v).vote = some x) (hd : a.el.dur v = a.el.mem v)
    (hr : (x, (a.el.mem v).term) ∈ a.el.requests) :
    Inv 𝒬 { a with el := Election.grant a.el v x } := by
  refine
    { ha with
      election := ha.election.step (.grant _ v x hv hd hr)
      ahead := ?_ }
  rintro w y e (heq | hold) hy he hlt
  · obtain ⟨rfl, rfl, hT⟩ := by simpa only [Prod.mk.injEq] using heq
    -- an elector of a later term would already be in that term
    intro hw
    obtain ⟨z, hz⟩ := ha.chief_of_mem he
    have h₁ := ha.election.elector_term hz hw
    have h₂ := ha.election.dur_le w
    simp only [Election.grant] at hlt hT
    omega
  · exact ha.ahead hold hy he hlt

private theorem inv_win (ha : Inv 𝒬 a) {x : ν} (hr : a.el.role x = .candidate)
    (hd : a.el.dur x = a.el.mem x) (hq : 𝒬.IsQuorum (a.el.tally x)) :
    Inv 𝒬 { a with
      el := Election.win a.el x
      leaderLog := Function.update a.leaderLog (a.el.mem x).term (a.log x) } := by
  have hfresh := ha.election.win_fresh hr hq
  have hempty := ha.no_chief hfresh
  have hL : ∀ T, a.leaderLog T <+:
      Function.update a.leaderLog (a.el.mem x).term (a.log x) T := by
    intro T
    by_cases hT : T = (a.el.mem x).term
    · subst hT
      simp [hempty]
    · simp [hT]
  -- nobody else stands in the term that has just been won
  have hother : ∀ {y}, a.el.role y = .leader →
      (a.el.mem y).term ≠ (a.el.mem x).term := by
    intro y hy heq
    have := ha.election.leader_chief hy
    simp [heq, hfresh] at this
  refine
    { election := ha.election.step (.win _ x hr hd hq)
      tiles := ha.tiles
      leader_tiles := (Function.forall_update_iff _ fun _ l => Tiles 0 l).2
        ⟨ha.tiles x, fun T _ => ha.leader_tiles T⟩
      owned := fun y => (ha.owned y).mono hL
      leader_owned := (Function.forall_update_iff _ fun _ l => Owned _ l).2
        ⟨(ha.owned x).mono hL, fun T _ => (ha.leader_owned T).mono hL⟩
      leader_terms := ?_
      no_chief := ?_
      leader_log := ?_
      append_sound := ha.append_mono hL
      ack_term := ha.ack_term
      ack_sound := ha.ack_mono hL
      canvass_request := ha.canvass_request
      canvass_log := ?_
      ahead := ?_ }
  · intro T e he
    by_cases hT : T = (a.el.mem x).term
    · subst hT
      have he' : e ∈ a.log x := by simpa using he
      exact ⟨ha.term_pos he', (ha.win_terms hr hd hq he').le⟩
    · exact ha.leader_terms (by simpa [hT] using he)
  · intro T hc
    have hT : T ≠ (a.el.mem x).term := by
      rintro rfl
      simp [Election.win] at hc
    simpa [hT] using ha.no_chief (by simpa [Election.win, hT] using hc)
  · intro y hy
    by_cases hyx : y = x
    · subst hyx
      simp [Election.win]
    · have hl : a.el.role y = .leader := by simpa [Election.win, hyx] using hy
      simpa [Election.win, hother hl] using ha.leader_log hl
  · intro y T c t hc hy hT
    have hyx : y ≠ x := by
      rintro rfl
      simp [Election.win] at hy
    exact ha.canvass_log hc (by simpa [Election.win, hyx] using hy) hT
  · intro v y e hg hy he hlt
    have hyx : y ≠ x := by
      rintro rfl
      simp [Election.win] at hy
    have hT : term e ≠ (a.el.mem x).term := by
      intro heq
      obtain ⟨z, hz⟩ := ha.chief_of_mem he
      simp [heq, hfresh] at hz
    have := ha.ahead hg (by simpa [Election.win, hyx] using hy) he hlt
    simpa [Election.win, hT] using this

private theorem inv_propose (ha : Inv 𝒬 a) {x : ν} {e : α}
    (hr : a.el.role x = .leader) (hb : base e = endFrom 0 (a.log x))
    (hs : base e < stop e) (ht : term e = (a.el.mem x).term) :
    Inv 𝒬 { a with
      log := Function.update a.log x (a.log x ++ [e])
      leaderLog := Function.update a.leaderLog (a.el.mem x).term
        (a.log x ++ [e]) } := by
  have hlog := ha.leader_log hr
  have hL : ∀ T, a.leaderLog T <+:
      Function.update a.leaderLog (a.el.mem x).term (a.log x ++ [e]) T := by
    intro T
    by_cases hT : T = (a.el.mem x).term
    · subst hT
      simp [hlog]
    · simp [hT]
  have htiles : Tiles 0 (a.log x ++ [e]) :=
    tiles_snoc.2 ⟨ha.tiles x, hb, hb ▸ hs⟩
  have howned : Owned (Function.update a.leaderLog (a.el.mem x).term
      (a.log x ++ [e])) (a.log x ++ [e]) :=
    ((ha.owned x).mono hL).snoc (by simp [ht])
  have hcand : ∀ {y}, a.el.role y = .candidate → y ≠ x := by
    rintro y hy rfl
    simp [hr] at hy
  refine
    { election := ha.election
      tiles := (Function.forall_update_iff _ fun _ l => Tiles 0 l).2
        ⟨htiles, fun y _ => ha.tiles y⟩
      leader_tiles := (Function.forall_update_iff _ fun _ l => Tiles 0 l).2
        ⟨htiles, fun T _ => ha.leader_tiles T⟩
      owned := (Function.forall_update_iff _ fun _ l => Owned _ l).2
        ⟨howned, fun y _ => (ha.owned y).mono hL⟩
      leader_owned := (Function.forall_update_iff _ fun _ l => Owned _ l).2
        ⟨howned, fun T _ => (ha.leader_owned T).mono hL⟩
      leader_terms := ?_
      no_chief := ?_
      leader_log := ?_
      append_sound := ha.append_mono hL
      ack_term := ha.ack_term
      ack_sound := ha.ack_mono hL
      canvass_request := ha.canvass_request
      canvass_log := ?_
      ahead := ?_ }
  · intro T y hy
    by_cases hT : T = (a.el.mem x).term
    · subst hT
      rcases List.mem_append.1 (by simpa using hy : y ∈ a.log x ++ [e]) with hy | hy
      · exact ha.leader_terms (hlog ▸ hy)
      · obtain rfl : y = e := by simpa using hy
        rw [ht]
        exact ⟨ha.election.term_pos (by simp [hr]), le_rfl⟩
    · exact ha.leader_terms (by simpa [hT] using hy)
  · intro T hc
    have hT : T ≠ (a.el.mem x).term := by
      rintro rfl
      simp [ha.election.leader_chief hr] at hc
    simpa [hT] using ha.no_chief hc
  · intro y hy
    by_cases hyx : y = x
    · subst hyx
      simp
    · have hT : (a.el.mem y).term ≠ (a.el.mem x).term :=
        fun heq => hyx (ha.election.leader_unique hy hr heq)
      simpa [hyx, hT] using ha.leader_log hy
  · intro y T c t hc hy hT
    simpa [hcand hy] using ha.canvass_log hc hy hT
  · intro v y z hg hy hz hlt
    exact ha.ahead hg hy (by simpa [hcand hy] using hz) hlt

/-- A follower's log may be replaced by any tiling made of leaders'
histories. -/
private theorem inv_setLog (ha : Inv 𝒬 a) {x : ν} {l : List α}
    (hr : a.el.role x = .follower) (ht : Tiles 0 l)
    (ho : Owned a.leaderLog l) :
    Inv 𝒬 { a with log := Function.update a.log x l } := by
  have hne : ∀ {y r}, a.el.role y = r → r ≠ .follower → y ≠ x := by
    rintro y r hy hf rfl
    exact hf (hy.symm.trans hr)
  refine
    { ha with
      tiles := (Function.forall_update_iff _ fun _ l => Tiles 0 l).2
        ⟨ht, fun y _ => ha.tiles y⟩
      owned := (Function.forall_update_iff _ fun _ l => Owned _ l).2
        ⟨ho, fun y _ => ha.owned y⟩
      leader_log := ?_
      canvass_log := ?_
      ahead := ?_ }
  · intro y hy
    simpa [hne hy (by simp)] using ha.leader_log hy
  · intro y T c t hc hy hT
    simpa [hne hy (by simp)] using ha.canvass_log hc hy hT
  · intro v y z hg hy hz hlt
    exact ha.ahead hg hy (by simpa [hne hy (by simp)] using hz) hlt

omit [DecidableEq ν] in
private theorem inv_ack (ha : Inv 𝒬 a) {x : ν} {m : Append α}
    (hm : m ∈ a.appends) (ht : m.term = (a.el.mem x).term)
    (hd : a.el.dur x = a.el.mem x) :
    Inv 𝒬 { a with acks := insert (x, m.term, m.confirmed) a.acks } := by
  refine { ha with ack_term := ?_, ack_sound := ?_ }
  · rintro y T c (heq | hold)
    · obtain ⟨rfl, rfl, -⟩ := by simpa only [Prod.mk.injEq] using heq
      rw [ht, hd]
    · exact ha.ack_term hold
  · rintro y T c (heq | hold)
    · obtain ⟨-, rfl, rfl⟩ := by simpa only [Prod.mk.injEq] using heq
      obtain ⟨p, hp, hend, -, hent⟩ := ha.append_sound hm
      cases he : m.entry with
      | none => exact ⟨p, hp, by simp [Append.confirmed, he, hend]⟩
      | some e => exact ⟨p ++ [e], hent e he, by simp [Append.confirmed, he]⟩
    · exact ha.ack_sound hold

/-- Every step keeps the replication invariant. -/
theorem Inv.step (ha : Inv 𝒬 a) {b : State ν α} (h : Step 𝒬 a b) :
    Inv 𝒬 b := by
  cases h with
  | quiet h => exact inv_quiet ha h
  | request x hr hd => exact inv_request ha hr hd
  | grant v x hv hd hc _ => exact inv_grant ha hv hd (ha.canvass_request hc)
  | win x hr hd hq => exact inv_win ha hr hd hq
  | propose x e hr hb hs ht => exact inv_propose ha hr hb hs ht
  | append x m hr ht p hp hend hprev hent =>
      have hlog := ha.leader_log hr
      refine { ha with append_sound := ?_ }
      rintro m' (rfl | hold)
      · rw [ht, hlog]
        exact ⟨p, hp, hend, hprev, hent⟩
      · exact ha.append_sound hold
  | trim x m e l _ _ hr _ _ _ _ _ hcut =>
      exact inv_setLog ha hr ((ha.tiles x).of_isPrefix hcut)
        ((ha.owned x).of_isPrefix hcut)
  | extend x m e hm _ hr hmt he hend =>
      have hpre := ha.extend_isPrefix hm hmt he hend
      exact inv_setLog ha hr ((ha.leader_tiles _).of_isPrefix hpre)
        ((ha.leader_owned _).of_isPrefix hpre)
  | ack x m hm ht hd _ _ => exact inv_ack ha hm ht hd

end Preservation

end LogEngine.Verified.Replication
