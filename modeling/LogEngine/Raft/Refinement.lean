import LogEngine.Raft.Cluster
import LogEngine.Raft.Effects
import LogEngine.Verified.Acts

/-!
# The cluster implements the protocol

The relation between a cluster and a state of the abstract protocol of
`Verified.Replication`, and the proof that whatever a member does is a sequence
of the protocol's steps.

`Stands` relates a member's ballot, role and log to the protocol's view of it;
`Tracks` says that the node's own bookkeeping (epoch map, match and next indices)
is truthful; `Carried` says that a message on the wire is one the protocol has
sent.  Inside one call the node is ahead of its disk, which is why the log and the
hard state on disk are arguments of `Stands` and not read off the node.
-/

namespace LogEngine.Raft

open Verified Verified.Tiling Verified.Replication
open Extent Stamped

/-- The protocol's state for a cluster of log-engine nodes. -/
abbrev Protocol := Replication.State Nat Batch

/-- What a hard state says, with "no vote" as an option. -/
def HardState.ballot (h : HardState) : Election.Ballot Nat :=
  ⟨h.term, if h.votedFor = kNoNode then none else some h.votedFor⟩

def Role.abs : Role → Election.Role
  | .follower => .follower
  | .candidate => .candidate
  | .leader => .leader

@[simp] theorem Role.abs_eq_follower {r : Role} : r.abs = .follower ↔ r = .follower := by
  cases r <;> simp [Role.abs]

@[simp] theorem Role.abs_eq_candidate {r : Role} :
    r.abs = .candidate ↔ r = .candidate := by
  cases r <;> simp [Role.abs]

@[simp] theorem Role.abs_eq_leader {r : Role} : r.abs = .leader ↔ r = .leader := by
  cases r <;> simp [Role.abs]

/-- The majorities of the cluster. -/
def Membership.quorums (M : Membership) : QuorumSystem Nat :=
  QuorumSystem.majority M.members

/-- Every member computes its quorum from the true size of the cluster. -/
theorem Membership.quorum_eq (M : Membership) {i : Nat} (hi : i ∈ M.members) :
    (M.config i).quorum = M.members.card / 2 + 1 := by
  have hset : (M.config i).peers.toFinset = M.members.erase i := by
    ext j
    rw [List.mem_toFinset, M.mem_peers i hi, Finset.mem_erase, and_comm]
  have hlen := List.toFinset_card_of_nodup (M.peers_nodup i hi)
  rw [hset, Finset.card_erase_of_mem hi] at hlen
  have hpos : 0 < M.members.card := Finset.card_pos.2 ⟨i, hi⟩
  have hsize : (M.config i).clusterSize = M.members.card := by
    unfold Config.clusterSize
    omega
  rw [Config.quorum, hsize]

/-! ## The relation -/

/-- The protocol's view of member `i` is node `n` with log `l` and hard state `d`
on disk. -/
structure Stands (a : Protocol) (i : Nat) (n : Node) (l : List Batch)
    (d : HardState) : Prop where
  mem : (a.view i).mem = n.hard.ballot
  dur : (a.view i).dur = d.ballot
  role : (a.view i).role = n.role.abs
  tally : n.role = .candidate → (a.view i).tally = n.votes
  log : (a.view i).log = l

/-- The node's own bookkeeping is that of member `i` with log `l`. -/
structure Tracks (M : Membership) (a : Protocol) (i : Nat) (n : Node)
    (l : List Batch) : Prop where
  config : n.config = M.config i
  views : n.Views l
  votes : n.role = .candidate → n.votes ⊆ M.members
  match_acked : n.role = .leader → ∀ p, n.matchEnd p = 0 ∨
    (p, n.hard.term, n.matchEnd p) ∈ a.acks
  match_le_next : n.role = .leader → ∀ p, n.matchEnd p ≤ n.nextIndex p
  next_le : n.role = .leader → ∀ p, n.nextIndex p ≤ n.logEnd

/-- The message and its batch are the protocol's `x`. -/
structure Encodes (env : Envelope) (x : Replication.Append Batch) : Prop where
  term : x.term = env.message.term
  start : x.start = Node.appendAt env.message
  prevTerm : x.start ≠ 0 → x.prevTerm = env.message.logTerm
  entry : x.entry = env.entry
  heartbeat : env.entry = none → env.message.entryIndex = none
  attached : ∀ e ∈ env.entry, env.message.entryIndex = some e.base ∧
    env.message.entryEnd = e.stop ∧ env.message.entryTerm = e.term

/-- The protocol has sent what the envelope says. -/
structure Carried (M : Membership) (a : Protocol) (env : Envelope) : Prop where
  sender_mem : env.message.sender ∈ M.members
  target_mem : env.message.target ∈ M.members
  target_ne : env.message.sender ≠ env.message.target
  request : env.message.type = .requestVote → ∃ e, env.message.logIndex = some e ∧
    (env.message.sender, env.message.term, e, env.message.logTerm) ∈ a.canvass
  grant : env.message.type = .requestVoteResponse → env.message.granted = true →
    (env.message.sender, env.message.target, env.message.term) ∈ a.el.grants
  append : env.message.type = .appendEntries → ∃ x ∈ a.appends, Encodes env x
  confirm : env.message.type = .appendEntriesResponse → env.message.granted = true →
    ∃ c, env.message.logIndex = some c ∧
      (env.message.sender, env.message.term, c) ∈ a.acks

/-- Between two calls: nothing is owed and nothing waits to be said. -/
structure Settled (M : Membership) (a : Protocol) (i : Nat) (r : Replica) :
    Prop where
  stands : Stands a i r.node r.log r.durable
  tracks : Tracks M a i r.node r.log
  durable : r.durable = r.node.hard
  clean : r.node.hardStateDirty = false
  out : r.node.out = []
  pendingTruncate : r.node.pendingTruncate = none
  pendingAppend : r.node.pendingAppend = false

/-- The cluster is in a state of the protocol. -/
structure Refines (M : Membership) (a : Protocol) (s : Cluster) : Prop where
  sound : Sound M.quorums a
  member : ∀ i ∈ M.members, Settled M a i (s.replica i)
  sent : ∀ env ∈ s.sent, Carried M a env

section Monotone

variable {M : Membership} {a b : Protocol}

theorem Carried.mono (hg : Grows a b) {env : Envelope} (h : Carried M a env) :
    Carried M b env where
  sender_mem := h.sender_mem
  target_mem := h.target_mem
  target_ne := h.target_ne
  request ht := (h.request ht).imp fun _ ⟨he, hc⟩ => ⟨he, hg.canvass hc⟩
  grant ht hgr := hg.grants (h.grant ht hgr)
  append ht := (h.append ht).imp fun _ ⟨hx, he⟩ => ⟨hg.appends hx, he⟩
  confirm ht hgr := (h.confirm ht hgr).imp fun _ ⟨he, hc⟩ => ⟨he, hg.acks hc⟩

theorem Tracks.mono (hg : Grows a b) {i : Nat} {n : Node} {l : List Batch}
    (h : Tracks M a i n l) : Tracks M b i n l :=
  { h with match_acked := fun hr p => (h.match_acked hr p).imp id fun hk => hg.acks hk }

theorem Stands.of_view {i : Nat} {n : Node} {l : List Batch} {d : HardState}
    (h : Stands a i n l d) (hv : b.view i = a.view i) : Stands b i n l d := by
  constructor
  · rw [hv, h.mem]
  · rw [hv, h.dur]
  · rw [hv, h.role]
  · rw [hv]
    exact h.tally
  · rw [hv, h.log]

theorem Stands.congr {i : Nat} {n n' : Node} {l : List Batch} {d : HardState}
    (h : Stands a i n l d) (hh : n'.hard = n.hard) (hr : n'.role = n.role)
    (hv : n'.votes = n.votes) : Stands a i n' l d := by
  constructor
  · rw [hh, h.mem]
  · exact h.dur
  · rw [hr, h.role]
  · rw [hr, hv]
    exact h.tally
  · exact h.log

theorem Stands.setLog {i : Nat} {n : Node} {l l' : List Batch} {d : HardState}
    (h : Stands a i n l d) (hv : b.view i = { a.view i with log := l' }) :
    Stands b i n l' d := by
  constructor
  · rw [hv, h.mem]
  · rw [hv, h.dur]
  · rw [hv, h.role]
  · rw [hv]
    exact h.tally
  · rw [hv]

/-- What another member does leaves a settled replica settled. -/
theorem Settled.frame {i j : Nat} (h : Acts M.quorums i a b) (hj : j ≠ i)
    {r : Replica} (hs : Settled M a j r) : Settled M b j r :=
  { hs with
    stands := hs.stands.of_view (h.others j hj)
    tracks := hs.tracks.mono h.grows }

end Monotone

/-! ## Changes of ballot and role -/

section Roles

variable {M : Membership} {a : Protocol} {i : Nat} {n : Node} {l : List Batch}
  {d : HardState}

@[simp] theorem HardState.ballot_term (h : HardState) : h.ballot.term = h.term := rfl

theorem HardState.ballot_none (T : Nat) : (⟨T, kNoNode⟩ : HardState).ballot = ⟨T, none⟩ := by
  simp [HardState.ballot]

theorem HardState.ballot_some {i : Nat} (hi : i ≠ kNoNode) (T : Nat) :
    (⟨T, i⟩ : HardState).ballot = ⟨T, some i⟩ := by
  simp [HardState.ballot, hi]

theorem Stands.term (h : Stands a i n l d) : (a.view i).mem.term = n.hard.term := by
  rw [h.mem, HardState.ballot_term]

theorem Stands.becomeFollower (ha : Sound M.quorums a) (h : Stands a i n l d)
    (draw T leader : Nat) :
    ∃ b, Steady M.quorums i a b ∧ Stands b i (n.becomeFollower draw T leader) l d := by
  by_cases hT : n.hard.term < T
  · obtain ⟨b, hb, hv⟩ := exists_observe ha (h.term ▸ hT : (a.view i).mem.term < T)
    refine ⟨b, hb, ?_, ?_, ?_, ?_, ?_⟩
    · simp [hv, Node.becomeFollower, Node.resetElectionTimer, hT, HardState.ballot_none]
    · simpa [hv] using h.dur
    · simp [hv, Node.becomeFollower, Node.resetElectionTimer, Role.abs]
    · simp [Node.becomeFollower, Node.resetElectionTimer]
    · simpa [hv] using h.log
  · obtain ⟨b, hb, hv⟩ := exists_stepDown (i := i) ha
    refine ⟨b, hb, ?_, ?_, ?_, ?_, ?_⟩
    · simpa [hv, Node.becomeFollower, Node.resetElectionTimer, hT] using h.mem
    · simpa [hv] using h.dur
    · simp [hv, Node.becomeFollower, Node.resetElectionTimer, Role.abs]
    · simp [Node.becomeFollower, Node.resetElectionTimer]
    · simpa [hv] using h.log

theorem Stands.becomeCandidate (ha : Sound M.quorums a) (h : Stands a i n l d)
    (hid : n.config.id = i) (hi : i ≠ kNoNode) (draw : Nat) :
    ∃ b, Steady M.quorums i a b ∧ Stands b i (n.becomeCandidate draw) l d := by
  obtain ⟨b, hb, hv⟩ := exists_campaign (i := i) ha
  refine ⟨b, hb, ?_, ?_, ?_, ?_, ?_⟩
  · simp [hv, Node.becomeCandidate, Node.resetElectionTimer, hid,
      HardState.ballot_some hi, h.term]
  · simpa [hv] using h.dur
  · simp [hv, Node.becomeCandidate, Node.resetElectionTimer, Role.abs]
  · simp [hv, Node.becomeCandidate, Node.resetElectionTimer, hid]
  · simpa [hv] using h.log

theorem Stands.persist (ha : Sound M.quorums a) (h : Stands a i n l d) :
    ∃ b, Steady M.quorums i a b ∧ Stands b i n l n.hard := by
  obtain ⟨b, hb, hv⟩ := exists_persist (i := i) ha
  refine ⟨b, hb, ?_, ?_, ?_, ?_, ?_⟩
  · simpa [hv] using h.mem
  · simpa [hv] using h.mem
  · simpa [hv] using h.role
  · simpa [hv] using h.tally
  · simpa [hv] using h.log

theorem Stands.becomeLeader (ha : Sound M.quorums a) (h : Stands a i n l n.hard)
    (hr : n.role = .candidate) (hq : M.quorums.IsQuorum n.votes) :
    ∃ b, Steady M.quorums i a b ∧ Stands b i n.becomeLeader l n.hard := by
  obtain ⟨b, hb, hv⟩ := exists_win ha (by rw [h.role, Role.abs_eq_candidate, hr])
    (by rw [h.dur, h.mem]) (by rw [h.tally hr]; exact hq)
  refine ⟨b, hb, ?_, ?_, ?_, ?_, ?_⟩
  · simpa [hv, Node.becomeLeader_eq, Node.takeOffice] using h.mem
  · simpa [hv] using h.dur
  · simp [hv, Node.becomeLeader_eq, Node.takeOffice, Role.abs]
  · simp [Node.becomeLeader_eq, Node.takeOffice]
  · simpa [hv] using h.log

/-- A member comes back with what its disk holds. -/
theorem Stands.restart (ha : Sound M.quorums a) (h : Stands a i n l d)
    (config : Config) (draw : Nat) :
    ∃ b, Acts M.quorums i a b ∧ (d.term = n.hard.term → Standing a → Standing b) ∧
      Stands b i (Replica.restart config draw l d).node l d := by
  obtain ⟨b, hb, hstanding, hv⟩ := exists_restart (i := i) ha
  rw [h.mem, h.dur] at hstanding
  refine ⟨b, hb, hstanding, ?_, ?_, ?_, ?_, ?_⟩
  · rw [hv]
    exact h.dur
  · simpa [hv] using h.dur
  · rw [hv]
    rfl
  · exact fun hr => nomatch (show Role.follower = .candidate from hr)
  · simpa [hv] using h.log

end Roles

/-! ## What a member says -/

/-- What member `i` may say in the state `n` with log `l`. -/
inductive Says (a : Protocol) (n : Node) (l : List Batch) : Message → Prop
  | refusal {m : Message} (ht : m.type = .requestVoteResponse ∨
      m.type = .appendEntriesResponse) (hg : m.granted = false) : Says a n l m
  | request (peer : Nat) (hr : n.role = .candidate) : Says a n l (n.voteRequest peer)
  | append (peer : Nat) (hr : n.role = .leader) : Says a n l (n.appendMessage peer)
  | grant {m : Message} (ht : m.type = .requestVoteResponse) (hn : m.target ≠ kNoNode)
      (hv : n.hard.votedFor = m.target) {e t : Nat}
      (hc : (m.target, n.hard.term, e, t) ∈ a.canvass) (hup : UpToDate e t l) :
      Says a n l m
  | confirm {m : Message} (ht : m.type = .appendEntriesResponse)
      {x : Replication.Append Batch} (hx : x ∈ a.appends) (hxt : x.term = n.hard.term)
      (hmt : x.Matches l)
      (he : ∀ e ∈ x.entry, x.start < endFrom 0 l ∧ termAt l x.start = Stamped.term e)
      (hl : m.logIndex = some x.confirmed) : Says a n l m

/-- Everything the node has to say is its own, of its own term, and justified. -/
def Speaks (a : Protocol) (n : Node) (l : List Batch) : Prop :=
  ∀ m ∈ n.out, m.sender = n.config.id ∧ m.term = n.hard.term ∧ Says a n l m

section Sending

variable {M : Membership} {a b : Protocol} {i : Nat} {n : Node} {l : List Batch}

theorem Says.mono (hg : Grows a b) {m : Message} (h : Says a n l m) : Says b n l m := by
  cases h with
  | refusal ht hgr => exact .refusal ht hgr
  | request peer hr => exact .request peer hr
  | append peer hr => exact .append peer hr
  | grant ht hn hv hc hup => exact .grant ht hn hv (hg.canvass hc) hup
  | confirm ht hx hxt hmt he hl => exact .confirm ht (hg.appends hx) hxt hmt he hl

/-- What `readEntry` finds is the batch that follows the boundary it is asked
about. -/
theorem readEntry_spec {l : List Batch} (hl : Tiles 0 l) {k : Nat} {e : Batch}
    (h : readEntry l k = some e) :
    ∃ p, p ++ [e] <+: l ∧ endFrom 0 p = k ∧ e.base = k := by
  unfold readEntry at h
  split at h
  · cases h
  case h_2 e' hcov =>
    split at h
    case isFalse => cases h
    case isTrue hbase =>
      obtain rfl : e' = e := Option.some.inj h
      obtain ⟨p, hp, -, -⟩ := cover_spec hcov
      have hb := (tiles_snoc.1 (hl.of_isPrefix hp)).2.1
      exact ⟨p, hp, hb.symm.trans hbase, hbase⟩

/-- The record before the end of a nonempty prefix is of its last term. -/
theorem termAt_end {l p : List Batch} (hl : Tiles 0 l) (hp : p <+: l)
    (hpos : endFrom 0 p ≠ 0) : termAt l (endFrom 0 p - 1) = lastTerm p := by
  rcases List.eq_nil_or_concat' p with rfl | ⟨q, e, rfl⟩
  · simp at hpos
  · obtain ⟨-, hb, hs⟩ := tiles_snoc.1 (hl.of_isPrefix hp)
    have hend : endFrom 0 (q ++ [e]) = stop e := by simp
    rw [hend, termAt, hl.cover_eq (i := stop e - 1) hp (by omega) (by omega), lastTerm_snoc]
    rfl

/-- The message a leader builds for a peer is, with the batch its driver attaches,
one of the protocol's. -/
theorem exists_send_append (ha : Sound M.quorums a) (h : Stands a i n l n.hard)
    (ht : Tracks M a i n l) (hr : n.role = .leader) {peer : Nat} {env : Envelope}
    (hs : sendRaft n.config l (n.appendMessage peer) = some env) :
    ∃ b x, Steady M.quorums i a b ∧ b.view i = a.view i ∧ x ∈ b.appends ∧ Encodes env x ∧
      env.message.type = .appendEntries ∧ env.message.sender = n.config.id ∧
      env.message.target = peer := by
  have hl : Tiles 0 l := h.log ▸ ha.inv.tiles i
  have hrole : (a.view i).role = .leader := by rw [h.role, Role.abs_eq_leader, hr]
  have hterm := ht.views.termAt_eq hl
  have hend := ht.views.logEnd
  have hnext := ht.next_le hr peer
  -- where the peer's next entry begins, as a prefix of the leader's log
  have key : ∃ p, p <+: l ∧ endFrom 0 p = n.nextIndex peer ∧
      env.message.type = .appendEntries ∧ env.message.sender = n.config.id ∧
      env.message.target = peer ∧ env.message.term = n.hard.term ∧
      env.message.logIndex = (n.appendMessage peer).logIndex ∧
      env.message.logTerm = (n.appendMessage peer).logTerm ∧
      (env.entry = none → env.message.entryIndex = none) ∧
      ∀ e ∈ env.entry, p ++ [e] <+: l ∧ env.message.entryIndex = some e.base ∧
        env.message.entryEnd = e.stop ∧ env.message.entryTerm = e.term := by
    unfold sendRaft at hs
    split at hs
    case isFalse => cases hs
    case isTrue hpeer =>
      by_cases hlt : n.nextIndex peer < n.logEnd
      · simp only [Node.appendMessage, hlt, if_true, Option.map_eq_some_iff] at hs
        obtain ⟨e, hread, rfl⟩ := hs
        obtain ⟨p, hp, hpe, hbase⟩ := readEntry_spec hl hread
        have hcov := hl.cover_eq (i := n.nextIndex peer) hp (by exact hbase.le)
          (by
            have := (tiles_snoc.1 (hl.of_isPrefix hp)).2.2
            rw [hpe] at this
            exact this)
        refine ⟨p, (List.prefix_append _ _).trans hp, hpe, rfl, rfl, rfl, rfl, rfl, rfl,
          by simp, ?_⟩
        intro e' he'
        obtain rfl : e = e' := by simpa using he'
        refine ⟨hp, by simp [hbase], rfl, ?_⟩
        simp [hterm, termAt, hcov]
        rfl
      · simp only [Node.appendMessage, hlt, if_false, Option.some.injEq] at hs
        subst hs
        exact ⟨l, List.prefix_refl _, by omega, rfl, rfl, rfl, rfl, rfl, rfl, by simp,
          by simp⟩
  obtain ⟨p, hp, hpe, htype, hsender, htarget, htm, hli, hlt, hhb, hatt⟩ := key
  obtain ⟨b, hb, hv, hx⟩ := exists_append ha
    ⟨n.hard.term, n.nextIndex peer, env.message.logTerm, env.entry⟩ hrole h.term.symm
    (p := p) (by rw [h.log]; exact hp) hpe
    (by
      intro hne
      simp only at hne ⊢
      rw [hlt]
      simp only [Node.appendMessage, if_neg hne]
      rw [hterm, ← hpe, termAt_end hl hp (by rw [hpe]; exact hne)])
    (by
      intro e he
      rw [h.log]
      exact (hatt e he).1)
  refine ⟨b, _, hb, hv, hx, ⟨htm.symm, ?_, fun _ => rfl, rfl, hhb,
    fun e he => (hatt e he).2⟩, htype, hsender, htarget⟩
  rw [Node.appendAt, hli]
  by_cases hz : n.nextIndex peer = 0
  · simp [Node.appendMessage, hz]
  · simp only [Node.appendMessage, hz, if_false]
    omega

/-- The driver changes nothing of a message but the extent of its entry. -/
theorem sendRaft_spec {config : Config} {m : Message} {env : Envelope}
    (hs : sendRaft config l m = some env) :
    m.target ∈ config.peers ∧ ∃ k, env.message = { m with entryEnd := k } := by
  unfold sendRaft at hs
  split at hs
  case isFalse => cases hs
  case isTrue hpeer =>
    refine ⟨hpeer, ?_⟩
    split at hs
    · cases hs
      exact ⟨_, rfl⟩
    · obtain ⟨e, -, rfl⟩ := Option.map_eq_some_iff.1 hs
      exact ⟨_, rfl⟩

/-- Whatever a member whose hard state is on disk says is the protocol's. -/
theorem exists_emit (hi : i ∈ M.members) (ha : Sound M.quorums a)
    (h : Stands a i n l n.hard) (ht : Tracks M a i n l) {m : Message}
    (hsender : m.sender = n.config.id) (hterm : m.term = n.hard.term)
    (hsay : Says a n l m) {env : Envelope} (hs : sendRaft n.config l m = some env) :
    ∃ b, Steady M.quorums i a b ∧ b.view i = a.view i ∧ Carried M b env := by
  have hid : n.config.id = i := ht.config ▸ M.config_id i hi
  obtain ⟨hpeer, k, hk⟩ := sendRaft_spec hs
  rw [ht.config, M.mem_peers i hi] at hpeer
  have hdur : (a.view i).dur = (a.view i).mem := by rw [h.dur, h.mem]
  have hfrom : env.message.sender = i := by rw [hk]; exact hsender.trans hid
  have hto : env.message.target = m.target := by rw [hk]
  have hends : env.message.sender ∈ M.members ∧ env.message.target ∈ M.members ∧
      env.message.sender ≠ env.message.target := by
    rw [hfrom, hto]
    exact ⟨hi, hpeer.1, hpeer.2.symm⟩
  cases hsay with
  | refusal hty hg =>
      refine ⟨a, Steady.refl ha, rfl, hends.1, hends.2.1, hends.2.2, ?_, ?_, ?_, ?_⟩ <;>
        rcases hty with hty | hty <;> simp [hk, hty, hg]
  | request peer hr =>
      obtain ⟨b, hb, hv, hc⟩ := exists_request ha
        (by rw [h.role, Role.abs_eq_candidate, hr]) hdur
      rw [h.term, h.log, ← ht.views.logEnd, ← ht.views.lastTerm, ← hid] at hc
      refine ⟨b, hb, hv, hends.1, hends.2.1, hends.2.2, ?_, ?_, ?_, ?_⟩ <;>
        simp only [hk, Node.voteRequest, reduceCtorEq, false_imp_iff]
      exact fun _ => ⟨_, rfl, hc⟩
  | append peer hr =>
      obtain ⟨b, x, hb, hv, hx, henc, hty, -, -⟩ := exists_send_append ha h ht hr hs
      refine ⟨b, hb, hv, hends.1, hends.2.1, hends.2.2, ?_, ?_, fun _ => ⟨x, hx, henc⟩,
        ?_⟩ <;> simp [hty]
  | grant hty hn hvote hc hup =>
      obtain ⟨b, hb, hv, hg⟩ := exists_grant (x := m.target) ha
        (by rw [h.mem, HardState.ballot, hvote, if_neg hn]) hdur
        (by rw [h.term]; exact hc) (by rw [h.log]; exact hup)
      rw [h.term, ← hterm, ← hid, ← hsender] at hg
      refine ⟨b, hb, hv, hends.1, hends.2.1, hends.2.2, ?_, ?_, ?_, ?_⟩ <;>
        simp only [hk, hty, reduceCtorEq, false_imp_iff]
      exact fun _ _ => hg
  | @confirm _ hty x hx hxt hmt he hl =>
      obtain ⟨b, hb, hv, hack⟩ := exists_ack (i := i) ha hx (by rw [h.term, hxt]) hdur
        (by rw [h.log]; exact hmt) (by rw [h.log]; exact he)
      rw [hxt, ← hterm, ← hid, ← hsender] at hack
      refine ⟨b, hb, hv, hends.1, hends.2.1, hends.2.2, ?_, ?_, ?_, ?_⟩ <;>
        simp only [hk, hty, reduceCtorEq, false_imp_iff]
      exact fun _ _ => ⟨_, hl, hack⟩

/-- The same for a list of messages, one after the other. -/
theorem exists_emit_all (hi : i ∈ M.members) (ms : List Message)
    (ha : Sound M.quorums a) (h : Stands a i n l n.hard) (ht : Tracks M a i n l)
    (hs : ∀ m ∈ ms, m.sender = n.config.id ∧ m.term = n.hard.term ∧ Says a n l m) :
    ∃ b, Steady M.quorums i a b ∧ b.view i = a.view i ∧
      ∀ env ∈ ms.filterMap (sendRaft n.config l), Carried M b env := by
  induction ms generalizing a with
  | nil => exact ⟨a, Steady.refl ha, rfl, by simp⟩
  | cons m ms ih =>
      obtain ⟨hsender, hterm, hsay⟩ := hs m (by simp)
      have rest : ∀ {b}, Steady M.quorums i a b → b.view i = a.view i →
          ∃ c, Steady M.quorums i b c ∧ c.view i = b.view i ∧
            ∀ env ∈ ms.filterMap (sendRaft n.config l), Carried M c env := by
        intro b hb hv
        refine ih hb.sound (h.of_view hv) (ht.mono hb.grows) fun m' hm' => ?_
        obtain ⟨h₁, h₂, h₃⟩ := hs m' (by simp [hm'])
        exact ⟨h₁, h₂, h₃.mono hb.grows⟩
      cases hsend : sendRaft n.config l m with
      | none =>
          obtain ⟨c, hc, hcv, hall⟩ := rest (Steady.refl ha) rfl
          exact ⟨c, hc, hcv, by simpa [hsend] using hall⟩
      | some env =>
          obtain ⟨b, hb, hv, hcar⟩ := exists_emit hi ha h ht hsender hterm hsay hsend
          obtain ⟨c, hc, hcv, hall⟩ := rest hb hv
          refine ⟨c, hb.trans hc, hcv.trans hv, ?_⟩
          simp only [List.filterMap_cons, hsend, List.mem_cons]
          rintro env' (rfl | henv')
          · exact hcar.mono hc.grows
          · exact hall env' henv'

end Sending

/-! ## The driver -/

section Driver

variable {M : Membership} {a : Protocol} {i : Nat}

/-- The node once its driver has done everything it asked for. -/
def Node.drained (n : Node) : Node :=
  { n with out := [], pendingTruncate := none, pendingAppend := false, hardStateDirty := false }

/-- What `drive` leaves behind and sends. -/
theorem drive_eq (r : Replica) (entry : Option Batch) :
    r.drive entry =
      let log := carryOutLogOrders r.node.takeReady.1 entry r.log
      (⟨r.node.drained, log, if r.node.hardStateDirty then r.node.hard else r.durable⟩,
       r.node.out.filterMap (sendRaft r.node.config log)) := by
  cases hd : r.node.hardStateDirty <;>
    simp [Replica.drive, Node.takeReady, Node.hardStatePersisted, Node.drained, hd]

theorem drive_node (r : Replica) (entry : Option Batch) :
    (r.drive entry).1.node = r.node.drained := by
  rw [drive_eq]

theorem drive_log (r : Replica) (entry : Option Batch) :
    (r.drive entry).1.log = carryOutLogOrders r.node.takeReady.1 entry r.log := by
  rw [drive_eq]

/-- Member `i` has acted: the protocol has seen its change of role and of log, and
its driver has still to write the hard state and to send. -/
structure Acted (M : Membership) (a : Protocol) (i : Nat) (n : Node) (l : List Batch)
    (durable : HardState) : Prop where
  stands : ∃ d, Stands a i n l d ∧ (n.hardStateDirty = false → d = n.hard)
  tracks : Tracks M a i n l
  speaks : Speaks a n l
  clean : n.hardStateDirty = false → durable = n.hard

/-- Once the protocol has seen a member's change of role and log, the rest of
`drive` (hard state to disk, then the messages) is the protocol's too. -/
theorem exists_drive (entry : Option Batch) (hi : i ∈ M.members) (ha : Sound M.quorums a)
    {r : Replica} {l : List Batch}
    (hl : carryOutLogOrders r.node.takeReady.1 entry r.log = l)
    (h : Acted M a i r.node l r.durable) :
    ∃ b, Steady M.quorums i a b ∧ Settled M b i (r.drive entry).1 ∧
      ∀ env ∈ (r.drive entry).2, Carried M b env := by
  obtain ⟨⟨d, hst₀, hd₀⟩, ht, hs, hclean⟩ := h
  -- what is on disk once the hard state has been written where that is owed
  obtain ⟨b, hb, hst⟩ : ∃ b, Steady M.quorums i a b ∧ Stands b i r.node l r.node.hard := by
    cases hd : r.node.hardStateDirty with
    | true => exact hst₀.persist ha
    | false => exact ⟨a, Steady.refl ha, hd₀ hd ▸ hst₀⟩
  obtain ⟨c, hc, hcv, hall⟩ := exists_emit_all hi r.node.out hb.sound hst
    (ht.mono hb.grows) fun m hm => by
      obtain ⟨h₁, h₂, h₃⟩ := hs m hm
      exact ⟨h₁, h₂, h₃.mono hb.grows⟩
  have htc := (ht.mono hb.grows).mono hc.grows
  have hdur : (if r.node.hardStateDirty then r.node.hard else r.durable) = r.node.hard := by
    cases hd : r.node.hardStateDirty with
    | true => rfl
    | false => exact hclean hd
  rw [drive_eq]
  simp only [hl, hdur]
  exact ⟨c, hb.trans hc,
    { stands := (hst.of_view hcv).congr rfl rfl rfl
      tracks := { htc with views := htc.views.congr rfl rfl rfl }
      durable := rfl
      clean := rfl
      out := rfl
      pendingTruncate := rfl
      pendingAppend := rfl }, hall⟩

end Driver

end LogEngine.Raft
