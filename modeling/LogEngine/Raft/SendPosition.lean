import LogEngine.Raft.Commit

/-!
# Where a leader sends from

A leader reads the entry it sends to a peer from its own log, at `next_index`, and
its storage can only read where one of its batches begins.  Taking office, an append
and a confirmation all leave `next_index` on a boundary of the leader's log.  A
rejection does not: the hint is a boundary of the *follower's* log, and the leader's
batch at that place may reach across it.  The position is a boundary in every run in
which no such hint is taken (`Cluster.Strays`).
-/

namespace LogEngine.Raft

open Verified Verified.Tiling Verified.Replication
open Extent Stamped

variable {M : Membership} {a b : Protocol} {i : Nat}

/-- `k` is where the log ends or where one of its batches begins. -/
def Boundary (l : List Batch) (k : Nat) : Prop :=
  k = endFrom 0 l ∨ ∃ e ∈ l, e.base = k

instance (l : List Batch) (k : Nat) : Decidable (Boundary l k) :=
  inferInstanceAs (Decidable (_ ∨ _))

/-- Where a prefix ends, the next batch begins. -/
theorem boundary_of_isPrefix {l p : List Batch} (hl : Tiles 0 l) (hp : p <+: l) :
    Boundary l (endFrom 0 p) := by
  obtain ⟨r, rfl⟩ := hp
  cases r with
  | nil => exact .inl (by simp)
  | cons e r =>
      have hb : base e = endFrom 0 p := (tiles_append.1 hl).2.1
      exact .inr ⟨e, by simp, hb⟩

theorem Boundary.append {l : List Batch} {k : Nat} (h : Boundary l k) {e : Batch}
    (he : e.base = endFrom 0 l) : Boundary (l ++ [e]) k := by
  rcases h with rfl | ⟨f, hf, hk⟩
  · exact .inr ⟨e, by simp, he⟩
  · exact .inr ⟨f, by simp [hf], hk⟩

theorem Boundary.min {l : List Batch} {j k : Nat} (hj : Boundary l j) (hk : Boundary l k) :
    Boundary l (min j k) := by
  rcases min_choice j k with h | h <;> rw [h]
  · exact hj
  · exact hk

theorem Boundary.max {l : List Batch} {j k : Nat} (hj : Boundary l j) (hk : Boundary l k) :
    Boundary l (max j k) := by
  rcases max_choice j k with h | h <;> rw [h]
  · exact hj
  · exact hk

/-- Storage reads at every boundary below the end of the log. -/
theorem Boundary.readEntry {l : List Batch} (hl : Tiles 0 l) {k : Nat} (h : Boundary l k)
    (hk : k < endFrom 0 l) : ∃ e, readEntry l k = some e := by
  rcases h with rfl | ⟨e, he, rfl⟩
  · exact absurd hk (lt_irrefl _)
  · obtain ⟨p, r, rfl⟩ := List.append_of_mem he
    have hp : p ++ [e] <+: p ++ e :: r := ⟨r, by simp⟩
    obtain ⟨-, hb, hs⟩ := tiles_snoc.1 (hl.of_isPrefix hp)
    have hcov := hl.cover_eq (i := e.base) hp le_rfl (by rw [← hb] at hs; exact hs)
    exact ⟨e, by rw [LogEngine.Raft.readEntry, hcov]; simp⟩

/-! ## What an operation does to the send positions -/

namespace Node

/-- Whoever leads after the operation led before it and sends from the same places,
or has just taken office and sends from the end of its log. -/
def Places (n n' : Node) : Prop :=
  n'.role = .leader → (n.role = .leader ∧ n'.nextIndex = n.nextIndex) ∨
    ∀ p ∈ n'.config.peers, n'.nextIndex p = n'.logEnd

theorem Places.of_eq {n n' : Node} (hr : n'.role = n.role)
    (hn : n'.nextIndex = n.nextIndex) : n.Places n' :=
  fun h => .inl ⟨hr ▸ h, hn⟩

theorem Places.of_follower {n n' : Node} (hr : n'.role ≠ .leader) : n.Places n' :=
  fun h => absurd h hr

private theorem places_becomeLeader (n n' : Node) : n.Places n'.becomeLeader := by
  intro _
  rw [becomeLeader_eq]
  refine .inr fun p hp => ?_
  change p ∈ n'.config.peers at hp
  simp [nextIndex, say, takeOffice, hp]

private theorem places_tick (n : Node) (draw : Nat) : n.Places (n.tick draw) := by
  rcases tick_cases n draw with ⟨e, h, heq⟩ | ⟨-, h, heq⟩ | ⟨-, e, heq⟩ <;> rw [heq]
  · exact .of_eq rfl rfl
  · exact .of_eq rfl rfl
  · rw [campaign_eq]
    split
    · exact places_becomeLeader _ _
    · exact .of_follower nofun

/-- A message other than an answer to an append moves no send position. -/
theorem places_handle {n : Node} {draw : Nat} {m : Message}
    (ht : m.type ≠ .appendEntriesResponse) : n.Places (n.handle draw m) := by
  unfold handle
  split
  · rcases handleRequestVote_cases n m with heq | ⟨-, -, heq⟩ | ⟨-, -, heq⟩ <;> rw [heq] <;>
      exact .of_eq rfl rfl
  · rcases handleRequestVoteResponse_cases n m with heq | ⟨-, -, ⟨-, heq⟩ | heq⟩ <;> rw [heq]
    · exact .of_eq rfl rfl
    · exact places_becomeLeader _ _
    · exact .of_eq rfl rfl
  · rcases handleAppendEntries_cases n draw m with ⟨-, heq⟩ | ⟨hr, heq⟩ | ⟨hr, -, heq⟩ <;>
      rw [heq]
    · exact .of_eq rfl rfl
    · exact .of_follower nofun
    · obtain ⟨c, hc⟩ := adoptCommit_eq
        ((n.becomeFollower draw m.term m.sender).acceptEntry m) m
      have hfr : (n.becomeFollower draw m.term m.sender).role ≠ .leader := nofun
      refine .of_follower ?_
      rw [hc]
      change ((n.becomeFollower draw m.term m.sender).acceptEntry m).role ≠ .leader
      rw [(acceptEntry_frame hfr m).2.1]
      exact hfr
  case h_4 h => exact absurd h ht

theorem Places.trans_observe {n n' : Node} (draw : Nat) (m : Message)
    (h : (n.observeTerm draw m).Places n') : n.Places n' := by
  intro hr
  refine (h hr).imp (fun ⟨hl, hn⟩ => ?_) id
  rcases observeTerm_cases n draw m with ⟨-, heq⟩ | ⟨-, leader, heq⟩ <;> rw [heq] at hl hn
  · exact ⟨hl, hn⟩
  · cases hl

/-- The leader takes the answer `m`: it is of the leader's own term. -/
def TakesAnswer (n : Node) (m : Message) : Prop :=
  n.role = .leader ∧ m.type = .appendEntriesResponse ∧ m.term = n.hard.term

instance (n : Node) (m : Message) : Decidable (n.TakesAnswer m) :=
  inferInstanceAs (Decidable (_ ∧ _ ∧ _))

/-- Only an answer to an append moves a send position: a rejection to where it
hints, a confirmation forward to what it confirms. -/
theorem step_places (n : Node) (draw : Nat) (m : Message) :
    n.Places (n.step draw m) ∨
      (n.TakesAnswer m ∧ ∀ p, (n.step draw m).nextIndex p =
        if p = m.sender then
          if m.granted then max (n.nextIndex p) (min (indexValue m.logIndex) n.logEnd)
          else n.retryFrom m
        else n.nextIndex p) := by
  rcases step_cases n draw m with ⟨-, k, heq⟩ | ⟨-, heq⟩ | ⟨hterm, heq⟩
  · rw [heq]
    exact .inl (.of_eq rfl rfl)
  · rw [heq]
    refine .inl (Places.trans_observe draw m ?_)
    unfold answerStale
    split <;> exact .of_eq rfl rfl
  by_cases ht : m.type = .appendEntriesResponse
  case neg =>
    rw [heq]
    exact .inl (Places.trans_observe draw m (places_handle ht))
  have hhandle : (n.observeTerm draw m).handle draw m =
      (n.observeTerm draw m).handleAppendEntriesResponse m := by
    unfold handle
    rw [ht]
  rw [heq, hhandle]
  rcases handleAppendEntriesResponse_cases (n.observeTerm draw m) m with ⟨-, heq⟩ |
    ⟨hr, hg, heq⟩ | ⟨hr, hg, n', ms, hn', heq, -⟩
  · rw [heq]
    exact .inl (Places.trans_observe draw m (.of_eq rfl rfl))
  all_goals
    -- a leader that takes an answer has not stepped down for it
    have hsame : n.observeTerm draw m = n := by
      rcases observeTerm_cases n draw m with ⟨-, h⟩ | ⟨-, leader, h⟩
      · exact h
      · rw [h] at hr
        cases hr
    rw [hsame] at hr heq hterm ⊢
    refine .inr ⟨⟨hr, ht, hterm.symm⟩, fun p => ?_⟩
    rw [heq]
  · change (n.setNext m.sender (n.retryFrom m)).nextIndex p = _
    simp only [setNext_nextIndex, hg, Bool.false_eq_true, if_false]
  · rw [hsame] at hn'
    obtain ⟨c, hc⟩ := advanceCommitIndex_eq
      (n.noteConfirmed m.sender (min (indexValue m.logIndex) n.logEnd))
    rw [hn', hc]
    change (n.noteConfirmed m.sender _).nextIndex p = _
    rw [noteConfirmed_nextIndex, if_pos hg]
    split
    case isTrue h => rw [h]
    case isFalse => rfl

/-- A rejection whose hint lies strictly inside one of the leader's batches, beyond
what the peer has confirmed. -/
def Strays (n : Node) (l : List Batch) (m : Message) : Prop :=
  n.TakesAnswer m ∧ m.granted = false ∧ n.matchEnd m.sender < indexValue m.logIndex ∧
    indexValue m.logIndex < n.logEnd ∧ ∀ e ∈ l, e.base ≠ indexValue m.logIndex

instance (n : Node) (l : List Batch) (m : Message) : Decidable (n.Strays l m) :=
  inferInstanceAs (Decidable (_ ∧ _ ∧ _ ∧ _ ∧ _))

end Node

/-! ## Runs -/

/-- The action delivers a rejection that hints inside a batch of the leader. -/
def Cluster.Strays (s : Cluster) (act : Action) : Prop :=
  ∃ env ∈ s.arriving act, (s.replica env.message.target).node.Strays
    (s.replica env.message.target).log env.message

instance (s : Cluster) : DecidablePred s.Strays :=
  fun act => inferInstanceAs (Decidable (∃ env ∈ s.arriving act, _))

/-- The steps in which no leader takes such a hint. -/
def Cluster.Aligned (s : Cluster) (act : Action) : Prop := ¬ s.Strays act

instance (s : Cluster) : DecidablePred s.Aligned :=
  fun act => inferInstanceAs (Decidable (¬ s.Strays act))

/-- Every leader sends from boundaries of its own log. -/
def Positioned (M : Membership) (s : Cluster) : Prop :=
  ∀ i ∈ M.members, (s.replica i).node.role = .leader →
    ∀ p ∈ (s.replica i).node.config.peers,
      Boundary (s.replica i).log ((s.replica i).node.nextIndex p)

section Steps

variable {s : Cluster} {act : Action} {o : Replica × List Envelope}

/-- What a peer has confirmed to a leader ends at a boundary of the leader's log. -/
theorem boundary_of_ack (ha : Sound M.quorums a) {r : Replica} (hs : Settled M a i r)
    (hr : r.node.role = .leader) {x c : Nat} (hk : (x, r.node.hard.term, c) ∈ a.acks) :
    Boundary r.log c := by
  have hl : Tiles 0 r.log := by
    rw [← hs.stands.log]
    exact ha.inv.tiles i
  have hrole : (a.view i).role = .leader := by rw [hs.stands.role, Role.abs_eq_leader, hr]
  have hlog : a.leaderLog r.node.hard.term = r.log := by
    rw [← hs.stands.log, ← hs.stands.term]
    exact ha.inv.leader_log hrole
  obtain ⟨q, hq, rfl⟩ := ha.inv.ack_sound hk
  exact boundary_of_isPrefix hl (hlog ▸ hq)

private theorem boundary_matchEnd (ha : Sound M.quorums a) {r : Replica} (hs : Settled M a i r)
    (hr : r.node.role = .leader) (x : Nat) : Boundary r.log (r.node.matchEnd x) := by
  have hl : Tiles 0 r.log := by
    rw [← hs.stands.log]
    exact ha.inv.tiles i
  rcases hs.tracks.match_acked hr x with h0 | hk
  · rw [h0]
    exact boundary_of_isPrefix hl List.nil_prefix
  · exact boundary_of_ack ha hs hr hk

/-- A rejection that does not hint inside a batch leads to a boundary. -/
theorem boundary_retryFrom (ha : Sound M.quorums a) {r : Replica} (hs : Settled M a i r)
    {m : Message} (ht : r.node.TakesAnswer m) (hg : m.granted = false)
    (hok : ¬ r.node.Strays r.log m) : Boundary r.log (r.node.retryFrom m) := by
  have hmatch := boundary_matchEnd ha hs ht.1 m.sender
  have hend : Boundary r.log r.node.logEnd := .inl hs.tracks.views.logEnd
  unfold Node.retryFrom
  rcases Nat.lt_or_ge (r.node.matchEnd m.sender) (indexValue m.logIndex) with hlo | hlo
  · rcases Nat.lt_or_ge (indexValue m.logIndex) r.node.logEnd with hhi | hhi
    · rw [min_eq_left hhi.le, max_eq_left hlo.le]
      by_contra hnot
      exact hok ⟨ht, hg, hlo, hhi, fun e he heq => hnot (.inr ⟨e, he, heq⟩)⟩
    · rw [min_eq_right hhi]
      exact hend.max hmatch
  · rw [max_eq_right ((min_le_left _ _).trans hlo)]
    exact hmatch

/-- Whatever answer the leader takes, every position it then sends from is a boundary. -/
theorem boundary_answer (ha : Refines M a s) {r : Replica} (hs : Settled M a i r)
    {env : Envelope} (henv : env ∈ s.sent) (ht : r.node.TakesAnswer env.message)
    (hok : ¬ r.node.Strays r.log env.message) {p : Nat}
    (hp : Boundary r.log (r.node.nextIndex p)) :
    Boundary r.log (if p = env.message.sender then
      if env.message.granted then
        max (r.node.nextIndex p) (min (indexValue env.message.logIndex) r.node.logEnd)
      else r.node.retryFrom env.message
    else r.node.nextIndex p) := by
  split
  case isFalse => exact hp
  case isTrue =>
    split
    case isTrue hg =>
      obtain ⟨c, hlc, hack⟩ := (ha.sent env henv).confirm ht.2.1 hg
      rw [ht.2.2] at hack
      have hc : Boundary r.log (indexValue env.message.logIndex) := by
        rw [hlc]
        exact boundary_of_ack ha.sound hs ht.1 hack
      exact hp.max (hc.min (.inl hs.tracks.views.logEnd))
    case isFalse hg => exact boundary_retryFrom ha.sound hs ht (by simpa using hg) hok

/-- Whoever leads after a delivery has written nothing. -/
theorem Settled.deliver_log {r : Replica} (hs : Settled M a i r) (draw : Nat) (env : Envelope)
    (hr : (r.node.step draw env.message).role = .leader) :
    (r.deliver draw env).1.log = r.log := by
  rw [Replica.deliver, drive_log]
  rcases Node.step_outcome r.node draw env.message with hk | hadv | ⟨hacc, f, hf, heq⟩
  · exact carryOutLogOrders_none (hk.pendingTruncate.trans hs.pendingTruncate)
      (hk.pendingAppend.trans hs.pendingAppend) _ _
  · exact carryOutLogOrders_none (hadv.pendingTruncate.trans hs.pendingTruncate)
      (hadv.pendingAppend.trans hs.pendingAppend) _ _
  · obtain ⟨c, hc⟩ := Node.adoptCommit_eq (f.acceptEntry env.message) env.message
    have hfr : f.role ≠ .leader := by simp [hf.role]
    rw [heq, hc] at hr
    exact absurd ((Node.acceptEntry_frame hfr env.message).2.1.symm.trans hr) hfr

/-- What a member that acts does to the send positions. -/
theorem Outcome.positioned (ha : Refines M a s) (hi : i ∈ M.members)
    (ho : Outcome M s i act o) (hok : s.Aligned act)
    (h : (s.replica i).node.role = .leader → ∀ p ∈ (s.replica i).node.config.peers,
      Boundary (s.replica i).log ((s.replica i).node.nextIndex p))
    (hs' : ∃ b, Sound M.quorums b ∧ Settled M b i o.1) (hr : o.1.node.role = .leader)
    {p : Nat} (hp : p ∈ o.1.node.config.peers) :
    Boundary o.1.log (o.1.node.nextIndex p) := by
  have hs := ha.member i hi
  obtain ⟨b, hb, hsb⟩ := hs'
  have hcfg : o.1.node.config = (s.replica i).node.config := by
    rw [hsb.tracks.config, hs.tracks.config]
  -- an operation that only takes office or leaves the positions
  have hplaces : (s.replica i).node.Places o.1.node → o.1.log = (s.replica i).log →
      Boundary o.1.log (o.1.node.nextIndex p) := by
    intro hpl hlog
    rcases hpl hr with ⟨hl, hn⟩ | hend
    · rw [hn, hlog]
      exact h hl p (hcfg ▸ hp)
    · rw [hend p hp]
      exact .inl hsb.tracks.views.logEnd
  cases ho with
  | tick draw =>
      have hk := Node.keeps_tick (s.replica i).node draw
      refine hplaces ?_ ?_
      · rw [Replica.tick, drive_node]
        exact Node.places_tick (s.replica i).node draw
      · rw [Replica.tick, drive_log, carryOutLogOrders_none
          (hk.pendingTruncate.trans hs.pendingTruncate)
          (hk.pendingAppend.trans hs.pendingAppend)]
  | @deliver k env draw henv hto =>
      rw [Replica.deliver, drive_node] at hr hp
      have hlog := hs.deliver_log draw env hr
      rcases Node.step_places (s.replica i).node draw env.message with hpl | ⟨ht, hn⟩
      · refine hplaces ?_ hlog
        rw [Replica.deliver, drive_node]
        exact hpl
      · have hcp := h ht.1 p (hcfg ▸ by rw [Replica.deliver, drive_node]; exact hp)
        rw [hlog, Replica.deliver, drive_node]
        change Boundary _ (((s.replica i).node.step draw env.message).nextIndex p)
        rw [hn p]
        refine boundary_answer ha hs (List.mem_of_getElem? henv) ht ?_ hcp
        simpa [Cluster.Aligned, Cluster.Strays, Cluster.arriving, henv, hto] using hok
  | @propose records hne =>
      by_cases hl : (s.replica i).node.role = .leader
      case neg =>
        have hsame : (s.replica i).propose records = (s.replica i, []) := if_neg hl
        exact hplaces (by rw [hsame]; exact .of_eq rfl rfl) (by rw [hsame])
      have hpos := h hl p (hcfg ▸ hp)
      unfold Replica.propose
      rw [if_pos hl, drive_node, drive_log]
      dsimp only
      rw [Node.logAppended_leader hl]
      obtain ⟨c, hc⟩ := Node.advanceCommitIndex_eq ((s.replica i).node.appended
        ((s.replica i).nextBatch records).base ((s.replica i).nextBatch records).stop
        ((s.replica i).nextBatch records).term)
      rw [hc, carryOutLogOrders_none hs.pendingTruncate hs.pendingAppend]
      exact hpos.append rfl
  | restart draw => cases hr
  | crash draw => cases hr

/-- One step in which no leader takes a hint inside one of its batches. -/
theorem Positioned.next {t : Cluster} (ha : Refines M a s) (h : Positioned M s)
    (hn : s.next M act = some t) (hok : s.Aligned act) : Positioned M t := by
  obtain ⟨b, -, hb⟩ := ha.next hn
  obtain ⟨j, hj, o, ho, rfl⟩ := ha.outcome hn
  intro i hi hr p hp
  by_cases hij : i = j
  · subst hij
    have hs' := hb.member i hi
    simp only [Cluster.act, Function.update_self] at hs' hr hp ⊢
    exact ho.positioned ha hi hok (h i hi) ⟨b, hb.sound, hs'⟩ hr hp
  · simp only [Cluster.act, Function.update_of_ne hij] at hr hp ⊢
    exact h i hi hr p hp

end Steps

/-- The states of the runs in which no leader takes a hint inside one of its
batches. -/
def Cluster.AlignedReachable (M : Membership) (s : Cluster) : Prop :=
  ∃ s₀, Cluster.Initial M s₀ ∧ s₀.Runs M Cluster.Aligned s

theorem Cluster.AlignedReachable.positioned {s : Cluster} (h : s.AlignedReachable M) :
    ∃ a, Refines M a s ∧ Positioned M s := by
  obtain ⟨s₀, h₀, hs⟩ := h
  induction hs with
  | refl =>
      refine ⟨_, refines_initial h₀, fun i _ hr => ?_⟩
      obtain ⟨draw, heq⟩ := h₀.2 i
      rw [heq] at hr
      cases hr
  | tail _ hstep ih =>
      obtain ⟨a, ha, hpos⟩ := ih
      obtain ⟨act, hn, hok⟩ := hstep
      obtain ⟨b, -, hb⟩ := ha.next hn
      exact ⟨b, hb, hpos.next ha hn hok⟩

/-- **A leader can read what it is about to send**, in every run in which no leader
takes a hint inside one of its batches: each send position is the end of its log or
the first offset of one of its batches, and below the end the batch is found. -/
theorem nextIndex_boundary {s : Cluster} (h : s.AlignedReachable M) {i : Nat}
    (hi : i ∈ M.members) (hr : (s.replica i).node.role = .leader) {p : Nat}
    (hp : p ∈ (s.replica i).node.config.peers) :
    Boundary (s.replica i).log ((s.replica i).node.nextIndex p) ∧
      ((s.replica i).node.nextIndex p < (s.replica i).node.logEnd →
        ∃ e, readEntry (s.replica i).log ((s.replica i).node.nextIndex p) = some e) := by
  obtain ⟨a, ha, hpos⟩ := h.positioned
  have hs := ha.member i hi
  have hl : Tiles 0 (s.replica i).log := by
    rw [← hs.stands.log]
    exact ha.sound.inv.tiles i
  have hb := hpos i hi hr p hp
  refine ⟨hb, fun hlt => hb.readEntry hl ?_⟩
  rw [← hs.tracks.views.logEnd]
  exact hlt

/-- Member `0` leads term 1 and appends one record that nobody gets; member `1` leads
term 2 and appends a batch of two that nobody gets. -/
def twoHistories : List Action :=
  [.tick 0 0, .deliver 0 0, .deliver 2 0, .propose 0 [[1]], .tick 1 0, .deliver 8 0,
   .deliver 9 0, .propose 1 [[2], [3]]]

theorem nextIndex_boundary_twoHistories :
    ∃ s, Cluster.AlignedReachable threeMembers s ∧ (s.replica 1).node.role = .leader ∧
      Boundary (s.replica 1).log ((s.replica 1).node.nextIndex 0) := by
  obtain ⟨s, hs, hp⟩ := Machine.exists_of_replay (Cluster.next threeMembers)
    (fun s a _ => s.Aligned a) (Cluster.fresh threeMembers) twoHistories
    (p := fun s => decide ((s.replica 1).node.role = .leader ∧
      0 ∈ (s.replica 1).node.config.peers)) (by decide +kernel)
  obtain ⟨hr, hp⟩ := of_decide_eq_true hp
  have hreach : Cluster.AlignedReachable threeMembers s := ⟨_, Cluster.fresh_initial _, hs⟩
  exact ⟨s, hreach, hr, (nextIndex_boundary hreach (by decide) hr hp).1⟩

/-- Elected again in term 3, member `1` is refused by member `0`, whose log ends
inside the batch of two; it cannot read the entry it is to send next. -/
theorem twoHistories_strays :
    ∃ s, Cluster.Reachable threeMembers s ∧ (s.replica 1).node.role = .leader ∧
      (s.replica 1).node.nextIndex 0 = 1 ∧ (s.replica 1).node.logEnd = 2 ∧
      ¬ Boundary (s.replica 1).log 1 ∧ readEntry (s.replica 1).log 1 = none := by
  obtain ⟨s, hs, hp⟩ := Cluster.exists_reachable (M := threeMembers)
    (l := twoHistories ++ [.restart 1 0, .tick 1 0, .deliver 15 0, .deliver 16 0,
      .deliver 17 0, .deliver 19 0])
    (p := fun s => decide ((s.replica 1).node.role = .leader ∧
      (s.replica 1).node.nextIndex 0 = 1 ∧ (s.replica 1).node.logEnd = 2 ∧
      ¬ Boundary (s.replica 1).log 1 ∧ readEntry (s.replica 1).log 1 = none))
    (by decide +kernel)
  exact ⟨s, hs, of_decide_eq_true hp⟩

end LogEngine.Raft
