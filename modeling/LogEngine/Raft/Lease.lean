import LogEngine.Raft.Announce
import LogEngine.Raft.Safety

/-!
# A leader behind a cut

A leader `L` of term `T` whose quorum `Q` hears from it is not deposed by anybody
outside `Q`, whatever terms they campaign in.  A follower that has heard from its
leader within an election timeout drops every request for votes before it looks at
its term (`leaseRefuses`); the other ways for a higher term to enter `Q` are an
append, whose sender would need a quorum of that term, and a response, which
answers a request that was never delivered.

`Kempt` is what holds of every run: timers are set no shorter than the configured
timeout, no message is of a term its sender has not reached, and appends come from
the chief of their term.  `Holding` is the invariant behind the cut.
-/

namespace LogEngine.Raft

open Verified Verified.Replication

/-! ## One node -/

namespace Node

/-- The election timer is no shorter than the configured timeout. -/
def Timed (n : Node) : Prop := n.config.electionTimeoutTicks ≤ n.electionTimeout

private theorem timed_resetElectionTimer (n : Node) (draw : Nat) :
    (n.resetElectionTimer draw).Timed := by
  unfold Timed resetElectionTimer
  dsimp only
  split <;> split <;> omega

private theorem timed_becomeFollower (n : Node) (draw T leader : Nat) :
    (n.becomeFollower draw T leader).Timed :=
  timed_resetElectionTimer _ draw

private theorem timed_becomeLeader {n : Node} (h : n.Timed) : n.becomeLeader.Timed := by
  rw [becomeLeader_eq]
  exact h

private theorem timed_tick {n : Node} (h : n.Timed) (draw : Nat) : (n.tick draw).Timed := by
  rcases tick_cases n draw with ⟨e, k, heq⟩ | ⟨-, k, heq⟩ | ⟨-, e, heq⟩ <;> rw [heq]
  · exact h
  · exact h
  · have hc : (becomeCandidate { n with electionElapsed := e } draw).Timed :=
      timed_resetElectionTimer _ draw
    rw [campaign_eq]
    split
    · exact timed_becomeLeader hc
    · exact hc

private theorem timed_handle {n : Node} (h : n.Timed) (draw : Nat) (m : Message) :
    (n.handle draw m).Timed := by
  unfold handle
  split
  · rcases n.handleRequestVote_cases m with heq | ⟨-, -, heq⟩ | ⟨-, -, heq⟩ <;> rw [heq] <;>
      exact h
  · rcases n.handleRequestVoteResponse_cases m with heq | ⟨-, -, ⟨-, heq⟩ | heq⟩ <;> rw [heq]
    · exact h
    · exact timed_becomeLeader (n := n.countVote m.sender) h
    · exact h
  · have hf := timed_becomeFollower n draw m.term m.sender
    rcases n.handleAppendEntries_cases draw m with ⟨-, heq⟩ | ⟨-, heq⟩ | ⟨-, -, heq⟩ <;> rw [heq]
    · exact h
    · exact hf
    · obtain ⟨e, l, t, p, q, ha⟩ := acceptEntry_eq (n.becomeFollower_role draw m.term m.sender) m
      obtain ⟨c, hc⟩ := adoptCommit_eq ((n.becomeFollower draw m.term m.sender).acceptEntry m) m
      rw [hc, ha]
      exact hf
  · rcases n.handleAppendEntriesResponse_cases m with
      ⟨-, heq⟩ | ⟨-, -, heq⟩ | ⟨-, -, n', ms, hn', heq, -⟩ <;> rw [heq]
    · exact h
    · exact h
    · obtain ⟨f, g, hfg⟩ := n.noteConfirmed_eq m.sender (min (indexValue m.logIndex) n.logEnd)
      obtain ⟨c, hc⟩ := advanceCommitIndex_eq
        (n.noteConfirmed m.sender (min (indexValue m.logIndex) n.logEnd))
      rw [hn', hc, hfg]
      exact h

private theorem timed_step {n : Node} (h : n.Timed) (draw : Nat) (m : Message) :
    (n.step draw m).Timed := by
  have ho : (n.observeTerm draw m).Timed := by
    rcases n.observeTerm_cases draw m with ⟨-, heq⟩ | ⟨-, leader, heq⟩ <;> rw [heq]
    · exact h
    · exact timed_becomeFollower n draw m.term leader
  rcases n.step_cases draw m with ⟨-, k, heq⟩ | ⟨-, heq⟩ | ⟨-, heq⟩ <;> rw [heq]
  · exact h
  · unfold answerStale
    split <;> exact ho
  · exact timed_handle ho draw m

theorem Operates.timed {n n' : Node} {asked : Option Message} (hop : n.Operates asked n')
    (h : n.Timed) : n'.Timed := by
  cases hop with
  | tick draw => exact timed_tick h draw
  | step draw m => exact timed_step h draw m
  | append hr index stop =>
      obtain ⟨c, hc⟩ := advanceCommitIndex_eq (n.appended index stop n.hard.term)
      rw [logAppended_leader hr, hc]
      exact h

/-- A follower of `leader` that has heard from it in time. -/
structure Loyal (n : Node) (leader : Nat) : Prop where
  role : n.role = .follower
  leader : n.leader = leader
  fresh : n.electionElapsed < n.config.electionTimeoutTicks

theorem Loyal.tick {n : Node} {L : Nat} (h : n.Loyal L) (ht : n.Timed) (draw : Nat)
    (he : n.electionElapsed + 1 < n.config.electionTimeoutTicks) :
    (n.tick draw).Loyal L ∧ (n.tick draw).hard = n.hard := by
  have hne : ¬ n.role = .leader := by
    rw [h.role]
    exact fun h => Role.noConfusion h
  have htimeout : ¬ n.electionTimeout ≤ n.electionElapsed + 1 := Nat.not_le.2 (he.trans_le ht)
  have heq : n.tick draw = { n with electionElapsed := n.electionElapsed + 1 } := by
    unfold Node.tick
    rw [if_neg hne]
    exact if_neg htimeout
  rw [heq]
  exact ⟨⟨h.role, h.leader, he⟩, rfl⟩

/-- An append of the leader's makes its follower follow it anew. -/
theorem Loyal.handleAppendEntries {n : Node} {L : Nat} (h : n.Loyal L) (draw : Nat)
    {m : Message} (hterm : n.hard.term = m.term) (hs : m.sender = L) :
    (n.handleAppendEntries draw m).Loyal L ∧ (n.handleAppendEntries draw m).hard = n.hard := by
  have hf : (n.becomeFollower draw m.term m.sender).Loyal L := by
    have hzero : 0 < n.config.electionTimeoutTicks := Nat.lt_of_le_of_lt (Nat.zero_le _) h.fresh
    unfold becomeFollower
    split <;> exact ⟨rfl, hs, hzero⟩
  have hhard : (n.becomeFollower draw m.term m.sender).hard = n.hard := by
    rw [n.becomeFollower_hard, if_neg (by omega)]
  rcases n.handleAppendEntries_cases draw m with ⟨-, heq⟩ | ⟨-, heq⟩ | ⟨-, -, heq⟩ <;> rw [heq]
  · exact ⟨h, rfl⟩
  · exact ⟨⟨hf.role, hf.leader, hf.fresh⟩, hhard⟩
  · obtain ⟨e, l, t, p, q, ha⟩ := acceptEntry_eq (n.becomeFollower_role draw m.term m.sender) m
    obtain ⟨c, hc⟩ := adoptCommit_eq ((n.becomeFollower draw m.term m.sender).acceptEntry m) m
    rw [hc, ha]
    exact ⟨⟨hf.role, hf.leader, hf.fresh⟩, hhard⟩

/-- A loyal follower drops requests for votes, and nothing else that arrives is of a
later term. -/
theorem Loyal.step {n : Node} {L : Nat} (h : n.Loyal L) (hL : L ≠ kNoNode) (draw : Nat)
    {m : Message} (hterm : m.type ≠ .requestVote → m.term ≤ n.hard.term)
    (hsender : m.type = .appendEntries → m.term = n.hard.term → m.sender = L) :
    (n.step draw m).Loyal L ∧ (n.step draw m).hard = n.hard := by
  by_cases hrv : m.type = .requestVote
  · have hlease : n.leaseRefuses m = true := by
      simp [leaseRefuses, hrv, h.role, h.leader, hL, h.fresh]
    have heq : n.step draw m = { n with leaseRefusals := n.leaseRefusals + 1 } := by
      unfold Node.step
      exact if_pos hlease
    rw [heq]
    exact ⟨⟨h.role, h.leader, h.fresh⟩, rfl⟩
  have hle := hterm hrv
  have hsame : n.observeTerm draw m = n := by
    rcases n.observeTerm_cases draw m with ⟨-, heq⟩ | ⟨hlt, -⟩
    · exact heq
    · omega
  rcases n.step_cases draw m with ⟨hrv', -⟩ | ⟨-, heq⟩ | ⟨heqT, heq⟩
  · exact absurd hrv' hrv
  · rw [heq, hsame]
    unfold answerStale
    split <;> exact ⟨⟨h.role, h.leader, h.fresh⟩, rfl⟩
  · rw [hsame] at heq heqT
    rw [heq]
    unfold handle
    split
    case h_1 hrv' => exact absurd hrv' hrv
    · have hne : n.role ≠ .candidate := by
        rw [h.role]
        exact fun h => Role.noConfusion h
      rw [handleRequestVoteResponse, if_pos hne]
      exact ⟨h, rfl⟩
    case h_3 hae => exact h.handleAppendEntries draw heqT (hsender hae heqT.symm)
    · have hne : n.role ≠ .leader := by
        rw [h.role]
        exact fun h => Role.noConfusion h
      rw [handleAppendEntriesResponse, if_pos hne]
      exact ⟨h, rfl⟩

/-- A leader stays leader whatever arrives of its own term or an earlier one. -/
theorem leader_step {n : Node} (hr : n.role = .leader) (hv : n.hard.votedFor = n.config.id)
    (hid : n.config.id ≠ kNoNode) (draw : Nat) {m : Message} (hterm : m.term ≤ n.hard.term)
    (hs : m.sender ≠ n.config.id) :
    (n.step draw m).role = .leader ∧ (n.step draw m).hard = n.hard := by
  have hsame : n.observeTerm draw m = n := by
    rcases n.observeTerm_cases draw m with ⟨-, heq⟩ | ⟨hlt, -⟩
    · exact heq
    · omega
  rcases n.step_cases draw m with ⟨-, k, heq⟩ | ⟨-, heq⟩ | ⟨-, heq⟩
  · rw [heq]
    exact ⟨hr, rfl⟩
  · rw [heq, hsame]
    unfold answerStale
    split <;> exact ⟨hr, rfl⟩
  · rw [heq, hsame]
    unfold handle
    split
    · rcases n.handleRequestVote_cases m with heq | ⟨-, hvs, -⟩ | ⟨-, hnone, -⟩
      · rw [heq]
        exact ⟨hr, rfl⟩
      · exact absurd (hvs.symm.trans hv) hs
      · exact absurd (hv.symm.trans hnone) hid
    · have hne : n.role ≠ .candidate := by
        rw [hr]
        exact fun h => Role.noConfusion h
      rw [handleRequestVoteResponse, if_pos hne]
      exact ⟨hr, rfl⟩
    · rw [handleAppendEntries, if_pos hr]
      exact ⟨hr, rfl⟩
    · rcases n.handleAppendEntriesResponse_cases m with
        ⟨-, heq⟩ | ⟨-, -, heq⟩ | ⟨-, -, n', ms, hn', heq, -⟩ <;> rw [heq]
      · exact ⟨hr, rfl⟩
      · exact ⟨hr, rfl⟩
      · obtain ⟨f, g, hfg⟩ := n.noteConfirmed_eq m.sender (min (indexValue m.logIndex) n.logEnd)
        obtain ⟨c, hc⟩ := advanceCommitIndex_eq
          (n.noteConfirmed m.sender (min (indexValue m.logIndex) n.logEnd))
        rw [hn', hc, hfg]
        exact ⟨hr, rfl⟩

private theorem leader_tick {n : Node} (hr : n.role = .leader) (draw : Nat) :
    (n.tick draw).role = .leader ∧ (n.tick draw).hard = n.hard := by
  rcases n.tick_cases draw with ⟨e, k, heq⟩ | ⟨-, k, heq⟩ | ⟨hne, -⟩
  · rw [heq]
    exact ⟨hr, rfl⟩
  · rw [heq]
    exact ⟨hr, rfl⟩
  · exact absurd hr hne

private theorem leader_logAppended {n : Node} (hr : n.role = .leader) (index stop term : Nat) :
    (n.logAppended index stop term).role = .leader ∧
      (n.logAppended index stop term).hard = n.hard := by
  obtain ⟨c, hc⟩ := advanceCommitIndex_eq (n.appended index stop term)
  rw [logAppended_leader hr, hc]
  exact ⟨hr, rfl⟩

end Node

/-! ## One member -/

variable {M : Membership} {s t : Cluster} {i : Nat}

/-- What an action makes of the member that acts. -/
inductive Turn (M : Membership) (s : Cluster) (i : Nat) : Action → Replica × List Envelope → Prop
  /-- It operates its node and sends what the node says. -/
  | works {act : Action} {o : Replica × List Envelope} {asked : Option Message} {n : Node}
      (operates : (s.replica i).node.Operates asked n) (node : o.1.node = n.drained)
      (asks : ∀ m ∈ asked, ∃ k draw env, act = .deliver k draw ∧ s.sent[k]? = some env ∧
        env.message = m ∧ m.target = i)
      (sends : ∀ env ∈ o.2, ∃ m ∈ n.out, ∃ e, env.message = { m with entryEnd := e }) :
      Turn M s i act o
  /-- A proposal to a member that is not leader. -/
  | idle {records : List Record} : Turn M s i (.propose i records) (s.replica i, [])
  /-- It comes back from its disk. -/
  | returns {act : Action} {log : List Batch} (draw : Nat)
      (act_eq : act = .restart i draw ∨
        ∃ k env, act = .crash k draw log ∧ s.sent[k]? = some env ∧ env.message.target = i) :
      Turn M s i act (.restart (M.config i) draw log (s.replica i).durable, [])

/-- What `drive` sends, the node has said. -/
theorem mem_drive {r : Replica} {entry : Option Batch} {env : Envelope}
    (h : env ∈ (r.drive entry).2) :
    ∃ m ∈ r.node.out, ∃ e, env.message = { m with entryEnd := e } := by
  rw [drive_eq] at h
  obtain ⟨m, hm, hs⟩ := List.mem_filterMap.1 h
  exact ⟨m, hm, (sendRaft_spec hs).2⟩

theorem Outcome.turn {act : Action} {o : Replica × List Envelope} (h : Outcome M s i act o) :
    Turn M s i act o := by
  cases h with
  | tick draw => exact .works (.tick draw) (drive_node _ _) (by simp) fun _ => mem_drive
  | @deliver k env draw henv hto =>
      refine .works (.step draw env.message) (drive_node _ _) ?_ fun _ => mem_drive
      rintro m ⟨⟩
      exact ⟨k, draw, env, rfl, henv, rfl, hto⟩
  | propose hne =>
      unfold Replica.propose
      split
      case isTrue hr => exact .works (.append hr _ _) (drive_node _ _) (by simp) fun _ => mem_drive
      case isFalse => exact .idle
  | restart draw => exact .returns draw (.inl rfl)
  | @crash k env log draw henv hto hlog => exact .returns draw (.inr ⟨k, env, rfl, henv, hto⟩)

/-! ## What holds in every run -/

/-- Timers are no shorter than configured, nobody speaks for a term it has not
reached, and appends come from the chief of their term. -/
structure Kempt (M : Membership) (a : Protocol) (s : Cluster) : Prop where
  refines : Refines M a s
  timed : ∀ i ∈ M.members, (s.replica i).node.Timed
  dated : ∀ env ∈ s.sent, env.message.term ≤ (s.replica env.message.sender).node.hard.term
  led : ∀ env ∈ s.sent, env.message.type = .appendEntries →
    a.el.chief env.message.term = some env.message.sender

theorem Refines.id_eq {a : Protocol} (h : Refines M a s) (hi : i ∈ M.members) :
    (s.replica i).node.config.id = i := by
  rw [(h.member i hi).tracks.config, M.config_id i hi]

/-- A leader is the chief of its term. -/
theorem Refines.chief {a : Protocol} (h : Refines M a s) (hi : i ∈ M.members)
    (hr : (s.replica i).node.role = .leader) :
    a.el.chief (s.replica i).node.hard.term = some i := by
  have hs := (h.member i hi).stands
  have hrole : a.el.role i = .leader := by
    have := hs.role
    rw [hr] at this
    exact this
  have hterm : (a.el.mem i).term = (s.replica i).node.hard.term := hs.term
  rw [← hterm]
  exact h.sound.inv.election.leader_chief hrole

/-- A leader has voted for itself. -/
theorem Refines.self_vote {a : Protocol} (h : Refines M a s) (hi : i ∈ M.members)
    (hr : (s.replica i).node.role = .leader) : (s.replica i).node.hard.votedFor = i := by
  have hs := (h.member i hi).stands
  have hrole : a.el.role i ≠ .follower := by
    have := hs.role
    rw [hr] at this
    exact fun h => Election.Role.noConfusion (this.symm.trans h)
  have hvote : (s.replica i).node.hard.ballot.vote = some i := by
    rw [← hs.mem]
    exact h.sound.inv.election.self_vote hrole
  unfold HardState.ballot at hvote
  dsimp only at hvote
  split at hvote
  · cases hvote
  · exact Option.some.inj hvote

private theorem kempt_initial (h : s.Initial M) : Kempt M Replication.init s where
  refines := refines_initial h
  timed i _ := by
    obtain ⟨draw, hr⟩ := h.2 i
    rw [hr]
    exact Node.timed_resetElectionTimer _ draw
  dated := by simp [h.1]
  led := by simp [h.1]

/-- The member's term does not fall and its timer stays set. -/
theorem Turn.keeps {a : Protocol} (ha : Kempt M a s) (hi : i ∈ M.members) {act : Action}
    {o : Replica × List Envelope} (h : Turn M s i act o) :
    o.1.node.Timed ∧ (s.replica i).node.hard.term ≤ o.1.node.hard.term := by
  cases h with
  | works hop hnode _ _ =>
      rw [hnode]
      exact ⟨hop.timed (ha.timed i hi), hop.owes.ahead.term_le⟩
  | idle => exact ⟨ha.timed i hi, le_rfl⟩
  | returns draw _ =>
      refine ⟨Node.timed_resetElectionTimer _ draw, ?_⟩
      rw [← (ha.refines.member i hi).durable]
      exact le_rfl

/-- What the member sends is of its own new term, and appends only as leader. -/
theorem Turn.sends {a : Protocol} (ha : Kempt M a s) (hi : i ∈ M.members) {act : Action}
    {o : Replica × List Envelope} (h : Turn M s i act o) {env : Envelope} (henv : env ∈ o.2) :
    env.message.sender = i ∧ env.message.term = o.1.node.hard.term ∧
      (env.message.type = .requestVote → o.1.node.role = .candidate) ∧
      (env.message.type = .appendEntries → o.1.node.role = .leader) ∧
      (¬ env.message.IsRequest → ∃ k draw asked, act = .deliver k draw ∧
        s.sent[k]? = some asked ∧ asked.message.IsRequest ∧ asked.message.target = i ∧
        asked.message.sender = env.message.target) := by
  cases h with
  | works hop hnode hasks hsends =>
      obtain ⟨m, hm, e, heq⟩ := hsends env henv
      have hh := hop.announces (ha.refines.member i hi).out m hm
      rw [heq, hnode]
      refine ⟨hh.sender.trans (hop.owes.config ▸ ha.refines.id_eq hi), hh.term,
        fun ht => (hh.request ht).2, hh.append, fun hne => ?_⟩
      obtain ⟨q, hq, hreq, hto⟩ := hh.response hne
      obtain ⟨k, draw, asked, hact, hk, rfl, hi⟩ := hasks q hq
      exact ⟨k, draw, asked, hact, hk, hreq, hi, hto⟩
  | idle => cases henv
  | returns _ _ => cases henv

theorem Kempt.next {a : Protocol} (ha : Kempt M a s) {act : Action}
    (hn : s.next M act = some t) : ∃ b, Kempt M b t := by
  obtain ⟨b, hb, ht⟩ := ha.refines.next hn
  obtain ⟨i, hi, o, ho, rfl⟩ := ha.refines.outcome hn
  have hturn := ho.turn
  have hkeeps := hturn.keeps ha hi
  have hself : (s.act i o).replica i = o.1 := Function.update_self ..
  have hother : ∀ j, j ≠ i → (s.act i o).replica j = s.replica j := fun j hj =>
    Function.update_of_ne hj ..
  refine ⟨b, ht, fun j hj => ?_, fun env henv => ?_, fun env henv hty => ?_⟩
  · by_cases hji : j = i
    · rw [hji, hself]
      exact hkeeps.1
    · rw [hother j hji]
      exact ha.timed j hj
  · rcases List.mem_append.1 henv with hold | hnew
    · have hle := ha.dated env hold
      by_cases hji : env.message.sender = i
      · rw [hji] at hle ⊢
        rw [hself]
        exact hle.trans hkeeps.2
      · rw [hother _ hji]
        exact hle
    · obtain ⟨hsender, hterm, -⟩ := hturn.sends ha hi hnew
      rw [hsender, hterm, hself]
  · rcases List.mem_append.1 henv with hold | hnew
    · exact hb.chief (ha.led env hold hty)
    · obtain ⟨hsender, hterm, -, hlead, -⟩ := hturn.sends ha hi hnew
      have hc := ht.chief hi (by rw [hself]; exact hlead hty)
      rw [hself] at hc
      rw [hsender, hterm]
      exact hc

theorem Cluster.Steps.kempt {a : Protocol} (ha : Kempt M a s) (h : s.Steps M t) :
    ∃ b, Kempt M b t := by
  induction h with
  | refl => exact ⟨a, ha⟩
  | tail _ hstep ih =>
      obtain ⟨b, hb⟩ := ih
      obtain ⟨act, hn⟩ := hstep
      exact hb.next hn

/-! ## Behind the cut -/

/-- The actions of a continuation in which leader `L` and the nodes outside `Q` are
cut off from each other, nothing crosses that was asked or answered across the cut
among the first `start` messages, the members of `Q` stay up, and those that follow
`L` hear from it before their timeout. -/
def Cluster.Cut (L : Nat) (Q : Finset Nat) (start : Nat) (s : Cluster) : Action → Prop
  | .tick i _ => i ∈ Q → i ≠ L →
      (s.replica i).node.electionElapsed + 1 < (s.replica i).node.config.electionTimeoutTicks
  | .deliver k _ => ∀ env ∈ s.sent[k]?,
      (env.message.sender = L → env.message.target ∈ Q) ∧
      (env.message.target = L → env.message.sender ∈ Q) ∧
      (k < start → env.message.IsRequest → env.message.sender ∈ Q → env.message.target ∈ Q) ∧
      (k < start → ¬ env.message.IsRequest → env.message.target ∈ Q → env.message.sender ∈ Q)
  | .propose _ _ => True
  | .restart i _ => i ∉ Q
  | .crash k _ _ => ∀ env ∈ s.sent[k]?, env.message.target ∉ Q

instance (L : Nat) (Q : Finset Nat) (start : Nat) (s : Cluster) :
    DecidablePred (s.Cut L Q start)
  | .tick i _ => inferInstanceAs (Decidable (i ∈ Q → i ≠ L →
      (s.replica i).node.electionElapsed + 1 < (s.replica i).node.config.electionTimeoutTicks))
  | .deliver k _ => inferInstanceAs (Decidable (∀ env ∈ s.sent[k]?,
      (env.message.sender = L → env.message.target ∈ Q) ∧
      (env.message.target = L → env.message.sender ∈ Q) ∧
      (k < start → env.message.IsRequest → env.message.sender ∈ Q → env.message.target ∈ Q) ∧
      (k < start → ¬ env.message.IsRequest → env.message.target ∈ Q → env.message.sender ∈ Q)))
  | .propose _ _ => .isTrue trivial
  | .restart i _ => inferInstanceAs (Decidable (i ∉ Q))
  | .crash k _ _ => inferInstanceAs (Decidable (∀ env ∈ s.sent[k]?, env.message.target ∉ Q))

/-- `L` leads `Q`: all of `Q` are in its term and the others follow it in time. -/
structure Leads (s : Cluster) (L : Nat) (Q : Finset Nat) : Prop where
  leader : (s.replica L).node.role = .leader
  term : ∀ q ∈ Q, (s.replica q).node.hard.term = (s.replica L).node.hard.term
  loyal : ∀ q ∈ Q, q ≠ L → (s.replica q).node.Loyal L

/-- What a continuation of `s` behind the cut keeps. -/
structure Holding (s : Cluster) (L : Nat) (Q : Finset Nat) (t : Cluster) : Prop where
  leader : (t.replica L).node.role = .leader
  hard : ∀ q ∈ Q, (t.replica q).node.hard = (s.replica q).node.hard
  loyal : ∀ q ∈ Q, q ≠ L → (t.replica q).node.Loyal L
  grown : s.sent.length ≤ t.sent.length
  /-- Of `Q`, only `L` asks anything. -/
  asks : ∀ k, s.sent.length ≤ k → ∀ env ∈ t.sent[k]?, env.message.IsRequest →
    env.message.sender ∈ Q → env.message.sender = L
  /-- Nobody outside `Q` answers anybody in `Q`. -/
  answers : ∀ k, s.sent.length ≤ k → ∀ env ∈ t.sent[k]?, ¬ env.message.IsRequest →
    env.message.target ∈ Q → env.message.sender ∈ Q

section Behind

variable {L : Nat} {Q : Finset Nat}

private theorem holding_self (h : Leads s L Q) : Holding s L Q s where
  leader := h.leader
  hard _ _ := rfl
  loyal := h.loyal
  grown := le_rfl
  asks k hk env henv :=
    absurd (List.getElem?_eq_none hk) (by rw [henv]; exact Option.some_ne_none env)
  answers k hk env henv :=
    absurd (List.getElem?_eq_none hk) (by rw [henv]; exact Option.some_ne_none env)

/-- Nobody is elected to a later term while a quorum is in this one. -/
theorem no_later_chief {a : Protocol} (ha : Refines M a t) (hQ : M.quorums.IsQuorum Q)
    {T : Nat} (hterm : ∀ q ∈ Q, (t.replica q).node.hard.term = T) {U x : Nat}
    (hc : a.el.chief U = some x) : U ≤ T := by
  have hel := ha.sound.inv.election
  obtain ⟨v, hvU, hvQ⟩ := M.quorums.meet (hel.chief_quorum hc) hQ
  have hs := ha.member v (hQ.1 hvQ)
  have hdur : (a.el.dur v).term = T := by
    have := congrArg Election.Ballot.term hs.stands.dur
    rw [hs.durable] at this
    exact this.trans (hterm v hvQ)
  rw [← hdur]
  exact hel.elector_term hc hvU

/-- Nothing of a later term but requests for votes reaches `Q`. -/
theorem Holding.arriving {a : Protocol} (ht : Kempt M a t) (hl : Leads s L Q)
    (hQ : M.quorums.IsQuorum Q) (h : Holding s L Q t) {k : Nat} {env : Envelope}
    (hk : t.sent[k]? = some env) (hto : env.message.target ∈ Q)
    (hcut : k < s.sent.length → ¬ env.message.IsRequest → env.message.sender ∈ Q)
    (hrv : env.message.type ≠ .requestVote) :
    env.message.term ≤ (s.replica L).node.hard.term := by
  have hmem := List.mem_of_getElem? hk
  have hterm : ∀ q ∈ Q, (t.replica q).node.hard.term = (s.replica L).node.hard.term := by
    intro q hq
    rw [h.hard q hq]
    exact hl.term q hq
  by_cases hsender : env.message.sender ∈ Q
  · rw [← hterm _ hsender]
    exact ht.dated env hmem
  by_cases hae : env.message.type = .appendEntries
  · exact no_later_chief ht.refines hQ hterm (ht.led env hmem hae)
  · -- a response from outside would answer a request that was never delivered there
    have hne : ¬ env.message.IsRequest := fun hreq => hreq.elim hrv hae
    refine absurd ?_ hsender
    rcases Nat.lt_or_ge k s.sent.length with hlt | hge
    · exact hcut hlt hne
    · exact h.answers k hge env hk hne hto

/-- A member of `Q` that follows `L` goes on following it. -/
theorem Holding.follower {a : Protocol} (ht : Kempt M a t) (hl : Leads s L Q)
    (hQ : M.quorums.IsQuorum Q) (hLQ : L ∈ Q) (h : Holding s L Q t) (hi : i ∈ Q)
    (hiL : i ≠ L) {act : Action} (hcut : t.Cut L Q s.sent.length act)
    {o : Replica × List Envelope} (ho : Outcome M t i act o) :
    o.1.node.Loyal L ∧ o.1.node.hard = (t.replica i).node.hard := by
  have hloyal := h.loyal i hi hiL
  have hterm : (t.replica i).node.hard.term = (s.replica L).node.hard.term := by
    rw [h.hard i hi]
    exact hl.term i hi
  cases ho with
  | tick draw =>
      obtain ⟨hl', hh⟩ := hloyal.tick (ht.timed i (hQ.1 hi)) draw (hcut hi hiL)
      rw [Replica.tick, drive_node]
      exact ⟨⟨hl'.role, hl'.leader, hl'.fresh⟩, hh⟩
  | @deliver k env draw henv hto =>
      have hc := hcut env henv
      have hLT : a.el.chief (s.replica L).node.hard.term = some L := by
        rw [← h.hard L hLQ]
        exact ht.refines.chief (hQ.1 hLQ) h.leader
      obtain ⟨hl', hh⟩ := hloyal.step (M.member_ne L (hQ.1 hLQ)) draw (m := env.message)
        (fun hrv => by
          rw [hterm]
          exact h.arriving ht hl hQ henv (hto ▸ hi)
            (fun hlt hne => hc.2.2.2 hlt hne (hto ▸ hi)) hrv)
        (fun hae heq => by
          have hled := ht.led env (List.mem_of_getElem? henv) hae
          rw [heq, hterm, hLT] at hled
          exact (Option.some.inj hled).symm)
      rw [Replica.deliver, drive_node]
      exact ⟨⟨hl'.role, hl'.leader, hl'.fresh⟩, hh⟩
  | propose hne =>
      have hrole : ¬ (t.replica i).node.role = .leader := by
        rw [hloyal.role]
        exact fun h => Role.noConfusion h
      rw [Replica.propose, if_neg hrole]
      exact ⟨hloyal, rfl⟩
  | restart draw => exact absurd hi hcut
  | crash draw henv hto _ => exact absurd (hto ▸ hi) (hcut _ henv)

/-- `L` stays leader. -/
theorem Holding.stays {a : Protocol} (ht : Kempt M a t) (hl : Leads s L Q)
    (hQ : M.quorums.IsQuorum Q) (hLQ : L ∈ Q) (h : Holding s L Q t) {act : Action}
    (hcut : t.Cut L Q s.sent.length act) {o : Replica × List Envelope}
    (ho : Outcome M t L act o) :
    o.1.node.role = .leader ∧ o.1.node.hard = (t.replica L).node.hard := by
  have hLM := hQ.1 hLQ
  have hid := ht.refines.id_eq hLM
  cases ho with
  | tick draw =>
      rw [Replica.tick, drive_node]
      exact Node.leader_tick h.leader draw
  | @deliver k env draw henv hto =>
      have hmem := List.mem_of_getElem? henv
      have hsender := (hcut env henv).2.1 hto
      have hterm : env.message.term ≤ (t.replica L).node.hard.term := by
        have hle := ht.dated env hmem
        rw [h.hard _ hsender, hl.term _ hsender, ← h.hard L hLQ] at hle
        exact hle
      have hne : env.message.sender ≠ (t.replica L).node.config.id := by
        rw [hid, ← hto]
        exact (ht.refines.sent env hmem).target_ne
      rw [Replica.deliver, drive_node]
      exact Node.leader_step h.leader ((ht.refines.self_vote hLM h.leader).trans hid.symm)
        (by rw [hid]; exact M.member_ne L hLM) draw hterm hne
  | propose hne =>
      rw [Replica.propose, if_pos h.leader, drive_node]
      exact Node.leader_logAppended h.leader _ _ _
  | restart draw => exact absurd hLQ hcut
  | crash draw henv hto _ => exact absurd (hto ▸ hLQ) (hcut _ henv)

/-- What is sent behind the cut: of `Q` only `L` asks, and nobody outside answers
into `Q`. -/
theorem Holding.sends {a : Protocol} (ht : Kempt M a t) (h : Holding s L Q t)
    (hi : i ∈ M.members) {act : Action} (hcut : t.Cut L Q s.sent.length act)
    {o : Replica × List Envelope} (ho : Outcome M t i act o)
    (hrole : i ∈ Q → i ≠ L → o.1.node.role = .follower) {env : Envelope} (henv : env ∈ o.2) :
    (env.message.IsRequest → env.message.sender ∈ Q → env.message.sender = L) ∧
      (¬ env.message.IsRequest → env.message.target ∈ Q → env.message.sender ∈ Q) := by
  obtain ⟨hsender, -, hcand, hlead, hresp⟩ := ho.turn.sends ht hi henv
  rw [hsender]
  refine ⟨fun hreq hiQ => ?_, fun hne hto => ?_⟩
  · by_contra hiL
    have hf := hrole hiQ hiL
    rcases hreq with hrv | hae
    · exact Role.noConfusion (hf.symm.trans (hcand hrv))
    · exact Role.noConfusion (hf.symm.trans (hlead hae))
  · obtain ⟨k, draw, asked, rfl, hk, hreq, htarget, hfrom⟩ := hresp hne
    obtain ⟨hL, -, hold, -⟩ := hcut asked hk
    have hasked : asked.message.sender ∈ Q := hfrom ▸ hto
    rw [← htarget]
    rcases Nat.lt_or_ge k s.sent.length with hlt | hge
    · exact hold hlt hreq hasked
    · exact hL (h.asks k hge asked hk hreq hasked)

theorem Holding.next {a : Protocol} (ht : Kempt M a t) (hl : Leads s L Q)
    (hQ : M.quorums.IsQuorum Q) (hLQ : L ∈ Q) (h : Holding s L Q t) {act : Action} {u : Cluster}
    (hcut : t.Cut L Q s.sent.length act) (hn : t.next M act = some u) : Holding s L Q u := by
  obtain ⟨i, hi, o, ho, rfl⟩ := ht.refines.outcome hn
  have hself : (t.act i o).replica i = o.1 := Function.update_self ..
  have hother : ∀ j, j ≠ i → (t.act i o).replica j = t.replica j := fun j hj =>
    Function.update_of_ne hj ..
  have hsends := fun hrole env (henv : env ∈ o.2) => h.sends ht hi hcut ho hrole henv
  have hfollower : i ∈ Q → i ≠ L → o.1.node.Loyal L ∧ o.1.node.hard = (t.replica i).node.hard :=
    fun hiQ hiL => h.follower ht hl hQ hLQ hiQ hiL hcut ho
  -- a message behind the start was there already or is one that `i` sends now
  have hnew : ∀ k, s.sent.length ≤ k → ∀ env ∈ (t.act i o).sent[k]?,
      t.sent[k]? = some env ∨ env ∈ o.2 := by
    intro k _ env henv
    rcases Nat.lt_or_ge k t.sent.length with hlt | hge
    · exact .inl ((List.getElem?_append_left hlt).symm.trans henv)
    · exact .inr (List.mem_of_getElem? ((List.getElem?_append_right hge).symm.trans henv))
  have hleader : ((t.act i o).replica L).node.role = .leader := by
    by_cases hiL : L = i
    · subst hiL
      rw [hself]
      exact (h.stays ht hl hQ hLQ hcut ho).1
    · rw [hother L hiL]
      exact h.leader
  refine ⟨hleader, fun q hq => ?_, fun q hq hqL => ?_, ?_, fun k hk env henv => ?_,
    fun k hk env henv => ?_⟩
  · rw [← h.hard q hq]
    by_cases hqi : q = i
    · subst hqi
      rw [hself]
      by_cases hqL : q = L
      · subst hqL
        exact (h.stays ht hl hQ hLQ hcut ho).2
      · exact (hfollower hq hqL).2
    · rw [hother q hqi]
  · by_cases hqi : q = i
    · subst hqi
      rw [hself]
      exact (hfollower hq hqL).1
    · rw [hother q hqi]
      exact h.loyal q hq hqL
  · rw [Cluster.act, List.length_append]
    exact h.grown.trans (Nat.le_add_right _ _)
  · rcases hnew k hk env henv with hold | hnew
    · exact h.asks k hk env hold
    · exact (hsends (fun hiQ hiL => (hfollower hiQ hiL).1.role) env hnew).1
  · rcases hnew k hk env henv with hold | hnew
    · exact h.answers k hk env hold
    · exact (hsends (fun hiQ hiL => (hfollower hiQ hiL).1.role) env hnew).2

/-- The invariant holds in every continuation behind the cut. -/
theorem holding_of_runs {a : Protocol} (ha : Kempt M a s) (hl : Leads s L Q)
    (hQ : M.quorums.IsQuorum Q) (hLQ : L ∈ Q)
    (h : s.Runs M (Cluster.Cut L Q s.sent.length) t) :
    Holding s L Q t ∧ ∃ b, Kempt M b t := by
  induction h with
  | refl => exact ⟨holding_self hl, a, ha⟩
  | tail _ hstep ih =>
      obtain ⟨hhold, b, hb⟩ := ih
      obtain ⟨act, hn, hcut⟩ := hstep
      exact ⟨hhold.next hb hl hQ hLQ hcut hn, hb.next hn⟩

end Behind

/-- **A leader with a connected quorum is not deposed from behind a cut**: in every
continuation behind the cut `L` stays leader, no member of `Q` changes its term, vote
or role, and nobody outside `Q` leads a later term. -/
theorem leader_not_deposed (hs : s.Reachable M) {L : Nat} {Q : Finset Nat}
    (hQ : Q ⊆ M.members) (hcard : (M.config L).quorum ≤ Q.card) (hLQ : L ∈ Q)
    (hl : Leads s L Q) (hrun : s.Runs M (Cluster.Cut L Q s.sent.length) t) :
    (t.replica L).node.role = .leader ∧
      (∀ q ∈ Q, (t.replica q).node.hard = (s.replica q).node.hard ∧
        (t.replica q).node.role = (s.replica q).node.role) ∧
      ∀ j ∈ M.members, j ∉ Q → (t.replica j).node.role = .leader →
        (t.replica j).node.hard.term ≤ (s.replica L).node.hard.term := by
  have hquorum : M.quorums.IsQuorum Q :=
    QuorumSystem.majority_isQuorum.2 ⟨hQ, M.quorum_eq (hQ hLQ) ▸ hcard⟩
  obtain ⟨s₀, h₀, hsteps⟩ := hs
  obtain ⟨a, ha⟩ := hsteps.kempt (kempt_initial h₀)
  obtain ⟨hhold, b, hb⟩ := holding_of_runs ha hl hquorum hLQ hrun
  refine ⟨hhold.leader, fun q hq => ⟨hhold.hard q hq, ?_⟩, fun j hj _ hr => ?_⟩
  · by_cases hqL : q = L
    · rw [hqL, hhold.leader, hl.leader]
    · rw [(hhold.loyal q hq hqL).role, (hl.loyal q hq hqL).role]
  · refine no_later_chief hb.refines hquorum (fun q hq => ?_) (hb.refines.chief hj hr)
    rw [hhold.hard q hq]
    exact hl.term q hq

/-- Three members that time out after three ticks. -/
def patientMembers : Membership := .uniform 3 3 1 1 three_le_kNoNode

/-- Member `0` is elected with the vote of member `1`, which then hears from it. -/
def firstOffice : List Action :=
  [.tick 0 0, .tick 0 0, .tick 0 0, .deliver 0 0, .deliver 2 0, .deliver 3 0]

/-- Member `2` campaigns twice, and its requests reach member `1`. -/
def rivalCampaigns : List Action :=
  [.tick 2 0, .tick 2 0, .tick 2 0, .tick 1 0, .deliver 7 0, .tick 2 0, .tick 2 0, .tick 2 0,
    .deliver 9 0]

theorem leader_not_deposed_rivalCampaigns :
    ∃ s t, Cluster.Reachable patientMembers s ∧
      s.Runs patientMembers (Cluster.Cut 0 {0, 1} s.sent.length) t ∧
      (s.replica 0).node.hard.term < (t.replica 2).node.hard.term ∧
      0 < (t.replica 1).node.leaseRefusals ∧
      (t.replica 0).node.role = .leader ∧
      (t.replica 1).node.hard = (s.replica 1).node.hard := by
  obtain ⟨s, hs, hp⟩ := Cluster.exists_reachable (M := patientMembers) (l := firstOffice)
    (p := fun s : Cluster => decide ((s.replica 0).node.role = .leader ∧
        (s.replica 1).node.hard.term = (s.replica 0).node.hard.term ∧
        (s.replica 1).node.role = .follower ∧ (s.replica 1).node.leader = 0 ∧
        (s.replica 1).node.electionElapsed < (s.replica 1).node.config.electionTimeoutTicks) &&
      (Machine.replay (Cluster.next patientMembers)
        (fun s' act _ => s'.Cut 0 {0, 1} s.sent.length act) s rivalCampaigns).any
        fun t : Cluster => decide ((s.replica 0).node.hard.term < (t.replica 2).node.hard.term ∧
          0 < (t.replica 1).node.leaseRefusals)) (by decide +kernel)
  rw [Bool.and_eq_true, decide_eq_true_eq] at hp
  obtain ⟨⟨hr, hT, hrole, hleader, hfresh⟩, hcont⟩ := hp
  obtain ⟨t, hrun, ht⟩ := Machine.exists_of_replay _ _ _ _ hcont
  obtain ⟨hlt, hrefused⟩ := of_decide_eq_true ht
  have hl : Leads s 0 {0, 1} := by
    refine ⟨hr, ?_, ?_⟩
    · intro q hq
      rcases Finset.mem_insert.1 hq with rfl | hq
      · rfl
      · rw [Finset.mem_singleton.1 hq]
        exact hT
    · intro q hq hne
      rw [Finset.mem_singleton.1 ((Finset.mem_insert.1 hq).resolve_left hne)]
      exact ⟨hrole, hleader, hfresh⟩
  have h := leader_not_deposed hs (by decide) (by decide) (by decide) hl hrun
  exact ⟨s, t, hs, hrun, hlt, hrefused, h.1, (h.2.1 1 (by decide)).1⟩

end LogEngine.Raft
