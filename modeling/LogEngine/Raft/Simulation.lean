import LogEngine.Raft.Refinement

/-!
# Each operation is a step of the protocol

`tick`, `propose`, `deliver` and the two kinds of restart, one lemma each: a
settled replica that does any of these takes the protocol to a state in which it is
settled again and everything it sent is the protocol's.  The delivery of a message
is stated for every log that a power cut may leave, so that it serves a completed
delivery and an interrupted one alike.
-/

namespace LogEngine.Raft

open Verified Verified.Tiling Verified.Replication
open Extent Stamped

variable {M : Membership} {a : Protocol} {i : Nat}

/-! ## Bookkeeping -/

section Bookkeeping

variable {n : Node} {l : List Batch}

theorem Tracks.becomeFollower (h : Tracks M a i n l) (draw T leader : Nat) :
    Tracks M a i (n.becomeFollower draw T leader) l := by
  have hr : (n.becomeFollower draw T leader).role = .follower := rfl
  have hv := h.views
  unfold Node.becomeFollower
  split <;>
    exact ⟨h.config, hv.congr rfl rfl rfl, nofun, nofun, nofun, nofun⟩

theorem Tracks.becomeCandidate (hi : i ∈ M.members) (h : Tracks M a i n l)
    (draw : Nat) : Tracks M a i (n.becomeCandidate draw) l := by
  have hv := h.views
  refine ⟨h.config, hv.congr rfl rfl rfl, fun _ => ?_, nofun, nofun, nofun⟩
  have hid : n.config.id = i := h.config ▸ M.config_id i hi
  simpa [Node.becomeCandidate, Node.resetElectionTimer, hid] using hi

theorem Tracks.becomeLeader (h : Tracks M a i n l) : Tracks M a i n.becomeLeader l := by
  have hv := h.views
  rw [Node.becomeLeader_eq]
  refine ⟨h.config, hv.congr rfl rfl rfl, nofun,
    fun _ p => .inl (n.takeOffice_matchEnd p), fun _ p => ?_,
    fun _ p => n.takeOffice_nextIndex_le p⟩
  rw [Node.say_matchEnd, n.takeOffice_matchEnd]
  exact Nat.zero_le _

theorem speaks_becomeLeader (hout : n.out = []) : Speaks a n.becomeLeader l := by
  rw [Node.becomeLeader_eq]
  intro m hm
  have hout' : n.takeOffice.out = [] := hout
  simp only [Node.say_out, hout', List.nil_append, List.mem_map] at hm
  obtain ⟨p, -, rfl⟩ := hm
  exact ⟨rfl, rfl, .append p rfl⟩

theorem carryOutLogOrders_none {ready : Ready} (ht : ready.truncateFrom = none)
    (ha : ready.appendEntry = false) (entry : Option Batch) (l : List Batch) :
    carryOutLogOrders ready entry l = l := by
  simp [carryOutLogOrders, ht, ha]

end Bookkeeping

/-! ## Ticks -/

/-- A campaign; in a cluster of one it is won before anything is said. -/
theorem exists_campaign_node (hi : i ∈ M.members) (ha : Sound M.quorums a) {n : Node}
    {l : List Batch} {d : HardState} (hst : Stands a i n l d) (ht : Tracks M a i n l)
    (hout : n.out = []) (draw : Nat) :
    ∃ b, Steady M.quorums i a b ∧ Acted M b i (n.campaign draw) l d := by
  have hid : n.config.id = i := ht.config ▸ M.config_id i hi
  obtain ⟨b, hb, hstb⟩ := hst.becomeCandidate ha hid (M.member_ne i hi) draw
  have htb := (ht.becomeCandidate hi draw).mono hb.grows
  rw [Node.campaign_eq]
  by_cases hq : n.config.quorum ≤ 1
  · rw [if_pos hq]
    obtain ⟨c, hc, hstc⟩ := hstb.persist hb.sound
    have hquorum : M.quorums.IsQuorum (n.becomeCandidate draw).votes := by
      rw [ht.config, M.quorum_eq hi] at hq
      refine QuorumSystem.majority_isQuorum.2 ⟨htb.votes rfl, ?_⟩
      simpa [Node.becomeCandidate, Node.resetElectionTimer] using hq
    obtain ⟨e, he, hste⟩ := hstc.becomeLeader hc.sound rfl hquorum
    have hdirty : (n.becomeCandidate draw).becomeLeader.hardStateDirty = true := by
      rw [Node.becomeLeader_eq]
      rfl
    exact ⟨e, (hb.trans hc).trans he, ⟨_, hste, by simp [hdirty]⟩,
      ((htb.mono hc.grows).mono he.grows).becomeLeader, speaks_becomeLeader hout,
      by simp [hdirty]⟩
  · rw [if_neg hq]
    refine ⟨b, hb, ⟨_, hstb.congr rfl rfl rfl, fun h => Bool.noConfusion h⟩,
      { htb with views := htb.views.congr rfl rfl rfl }, ?_,
      fun h => Bool.noConfusion h⟩
    intro m hm
    have hout' : (n.becomeCandidate draw).out = [] := hout
    simp only [Node.say_out, hout', List.nil_append, List.mem_map] at hm
    obtain ⟨p, -, rfl⟩ := hm
    exact ⟨rfl, rfl, .request p rfl⟩

private theorem campaign_orders (n : Node) (draw : Nat) :
    (n.campaign draw).pendingTruncate = n.pendingTruncate ∧
      (n.campaign draw).pendingAppend = n.pendingAppend := by
  rw [Node.campaign_eq]
  split
  · rw [Node.becomeLeader_eq]
    exact ⟨rfl, rfl⟩
  · exact ⟨rfl, rfl⟩

theorem acted_tick (hi : i ∈ M.members) (ha : Sound M.quorums a) {r : Replica}
    (hs : Settled M a i r) (draw : Nat) :
    ∃ b, Steady M.quorums i a b ∧ Acted M b i (r.node.tick draw) r.log r.durable ∧
      (r.node.tick draw).pendingTruncate = none ∧
      (r.node.tick draw).pendingAppend = false := by
  obtain ⟨hst, ht, hdur, hclean, hout, hpt, hpa⟩ := hs
  have hv := ht.views
  rcases Node.tick_cases r.node draw with ⟨e, h, htick⟩ | ⟨hr, h, htick⟩ | ⟨hr, e, htick⟩
  · rw [htick]
    refine ⟨a, Steady.refl ha, ⟨⟨_, hst.congr rfl rfl rfl, fun _ => hdur⟩,
      { ht with views := hv.congr rfl rfl rfl }, ?_, fun _ => hdur⟩, hpt, hpa⟩
    intro m hm
    simp [hout] at hm
  · rw [htick]
    refine ⟨a, Steady.refl ha, ⟨⟨_, hst.congr rfl rfl rfl, fun _ => hdur⟩,
      { ht with views := hv.congr rfl rfl rfl }, ?_, fun _ => hdur⟩, hpt, hpa⟩
    intro m hm
    simp only [Node.say_out, hout, List.nil_append, List.mem_map] at hm
    obtain ⟨p, -, rfl⟩ := hm
    exact ⟨rfl, rfl, .append p hr⟩
  · rw [htick]
    obtain ⟨b, hb, hact⟩ := exists_campaign_node hi ha
      (n := { r.node with electionElapsed := e }) (hst.congr rfl rfl rfl)
      { ht with views := hv.congr rfl rfl rfl } hout draw
    obtain ⟨h₁, h₂⟩ := campaign_orders { r.node with electionElapsed := e } draw
    exact ⟨b, hb, hact, h₁.trans hpt, h₂.trans hpa⟩

theorem exists_tick (hi : i ∈ M.members) (ha : Sound M.quorums a) {r : Replica}
    (hs : Settled M a i r) (draw : Nat) :
    ∃ b, Steady M.quorums i a b ∧ Settled M b i (r.tick draw).1 ∧
      ∀ env ∈ (r.tick draw).2, Carried M b env := by
  obtain ⟨b, hb, hact, hpt, hpa⟩ := acted_tick hi ha hs draw
  obtain ⟨c, hc, hset, hall⟩ := exists_drive none (r := { r with node := r.node.tick draw })
    hi hb.sound (carryOutLogOrders_none hpt hpa _ _) hact
  exact ⟨c, hb.trans hc, hset, hall⟩

/-! ## Proposals and restarts -/

/-- The node of a leader that has appended `batch` to its log. -/
def Node.proposed (n : Node) (batch : Batch) : Node :=
  n.logAppended batch.base batch.stop batch.term

theorem acted_proposal (ha : Sound M.quorums a) {r : Replica}
    (hs : Settled M a i r) (hr : r.node.role = .leader) {records : List Record}
    (hne : records ≠ []) :
    ∃ b, Steady M.quorums i a b ∧
      Acted M b i (r.node.proposed (r.nextBatch records))
        (r.log ++ [r.nextBatch records]) r.durable ∧
      (r.node.proposed (r.nextBatch records)).pendingTruncate = none ∧
      (r.node.proposed (r.nextBatch records)).pendingAppend = false := by
  obtain ⟨hst, ht, hdur, hclean, hout, hpt, hpa⟩ := hs
  have hbase : base (r.nextBatch records) = endFrom 0 r.log := rfl
  have hterm : term (r.nextBatch records) = r.node.hard.term := rfl
  have hlt : base (r.nextBatch records) < stop (r.nextBatch records) :=
    Nat.lt_add_of_pos_right (List.length_pos_of_ne_nil hne)
  generalize r.nextBatch records = batch at hbase hterm hlt ⊢
  obtain ⟨b, hb, hv⟩ := exists_propose (i := i) ha batch
    (by rw [hst.role, Role.abs_eq_leader, hr]) (by rw [hst.log, hbase]) hlt
    (by rw [hst.term, hterm])
  have hviews := ht.views.snoc hlt
  have htb := ht.mono hb.grows
  have hgrow : r.node.logEnd ≤ (r.node.appended (base batch) (stop batch) (term batch)).logEnd := by
    rw [hviews.logEnd, ht.views.logEnd]
    exact (tiles_snoc.2 ⟨hst.log ▸ ha.inv.tiles i, hbase, hbase ▸ hlt⟩).end_mono
      (List.prefix_append _ _)
  rw [Node.proposed, Node.logAppended_leader hr]
  obtain ⟨c, hc⟩ := Node.advanceCommitIndex_eq
    (r.node.appended batch.base batch.stop batch.term)
  rw [hc]
  rw [hst.log] at hv
  refine ⟨b, hb, ⟨⟨_, (hst.setLog hv).congr rfl rfl rfl, fun _ => hdur⟩, ⟨ht.config,
    ⟨hviews.1, hviews.2, hviews.3⟩, htb.votes, htb.match_acked, htb.match_le_next,
    fun _ p => (ht.next_le hr p).trans hgrow⟩, ?_, fun _ => hdur⟩, hpt, hpa⟩
  intro m hm
  have hout' : ((r.node.appended batch.base batch.stop batch.term).withCommit c).out = [] :=
    hout
  rw [Node.say_out, hout', List.nil_append, List.mem_flatMap] at hm
  obtain ⟨p, -, hm⟩ := hm
  split at hm
  · obtain rfl := List.mem_singleton.1 hm
    exact ⟨rfl, rfl, .append p hr⟩
  · simp at hm

theorem exists_proposal (hi : i ∈ M.members) (ha : Sound M.quorums a) {r : Replica}
    (hs : Settled M a i r) {records : List Record} (hne : records ≠ []) :
    ∃ b, Steady M.quorums i a b ∧ Settled M b i (r.propose records).1 ∧
      ∀ env ∈ (r.propose records).2, Carried M b env := by
  unfold Replica.propose
  by_cases hr : r.node.role = .leader
  case neg =>
    rw [if_neg hr]
    exact ⟨a, Steady.refl ha, hs, by simp⟩
  rw [if_pos hr]
  obtain ⟨b, hb, hact, hpt, hpa⟩ := acted_proposal ha hs hr hne
  obtain ⟨c, hc, hset, hall⟩ := exists_drive none (r :=
    { r with
      node := r.node.proposed (r.nextBatch records)
      log := r.log ++ [r.nextBatch records] }) hi hb.sound
    (carryOutLogOrders_none hpt hpa _ _) hact
  exact ⟨c, hb.trans hc, hset, hall⟩

/-- A restart from what the disk holds, whatever the node was doing. -/
theorem exists_reboot (ha : Sound M.quorums a) {n : Node}
    {l : List Batch} {d : HardState} (hst : Stands a i n l d) (draw : Nat) :
    ∃ b, Acts M.quorums i a b ∧ (d.term = n.hard.term → Standing a → Standing b) ∧
      Settled M b i (.restart (M.config i) draw l d) := by
  obtain ⟨b, hb, hstanding, hstb⟩ := hst.restart ha (M.config i) draw
  have hl : Tiles 0 l := by
    rw [← hst.log]
    exact ha.inv.tiles i
  exact ⟨b, hb, hstanding,
    { stands := hstb
      tracks := ⟨rfl, Node.views_restoreLog _ hl, nofun, nofun, nofun, nofun⟩
      durable := rfl
      clean := rfl
      out := rfl
      pendingTruncate := rfl
      pendingAppend := rfl }⟩

end LogEngine.Raft
