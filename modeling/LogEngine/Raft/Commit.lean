import LogEngine.Raft.Delivery
import LogEngine.Raft.LogView

/-!
# The commit index of a leader and of a follower

A leader raises its commit index by counting (`advance_commit_index`), a follower
by adopting what a message says (`handle_append_entries`).  The first is always
backed by a quorum: what a leader commits is `Committed` in the protocol
(`committed_of_committing`).  For the second this module says exactly what an
accepted append does to the follower's log and commit index
(`taken_of_accepts`, `Outcome.commit`).
-/

namespace LogEngine.Raft

open Verified Verified.Tiling Verified.Replication
open Extent Stamped

/-! ## What a leader commits is committed -/

section Counting

variable {M : Membership} {a : Protocol} {i : Nat} {n : Node} {l : List Batch}
  {d : HardState}

/-- How far each member is known to hold the leader's log. -/
def Node.heldBy (n : Node) (p : Nat) : Nat :=
  if p = n.config.id then n.logEnd else n.matchEnd p

/-- Sorting and counting finds a quorum of members that hold all of what is
committed. -/
theorem exists_quorum (hi : i ∈ M.members) (hcfg : n.config = M.config i)
    (hc : n.Committing) :
    (∃ p ∈ M.members, n.commitIndex = n.heldBy p) ∧
      M.quorums.IsQuorum (M.members.filter fun p => n.commitIndex ≤ n.heldBy p) := by
  have hid : n.config.id = i := hcfg ▸ M.config_id i hi
  have hnot : i ∉ n.config.peers := by simp [hcfg, M.mem_peers i hi]
  have hnodup : (i :: n.config.peers).Nodup :=
    List.nodup_cons.2 ⟨hnot, hcfg ▸ M.peers_nodup i hi⟩
  have hset : (i :: n.config.peers).toFinset = M.members := by
    ext j
    simp only [List.toFinset_cons, Finset.mem_insert, List.mem_toFinset, hcfg,
      M.mem_peers i hi]
    by_cases hj : j = i <;> simp [hj, hi]
  -- the list that is sorted holds one end for each member
  have hends : n.logEnd :: n.config.peers.map n.matchEnd =
      (i :: n.config.peers).map n.heldBy := by
    rw [List.map_cons, Node.heldBy, if_pos hid.symm, List.cons.injEq]
    refine ⟨rfl, List.map_congr_left fun p hp => ?_⟩
    rw [Node.heldBy, if_neg]
    rintro rfl
    exact hnot (hid ▸ hp)
  have hperm : n.sortedEnds.Perm ((i :: n.config.peers).map n.heldBy) := by
    rw [← hends]
    exact List.perm_insertionSort _ _
  have hlen : n.config.quorum - 1 < n.sortedEnds.length := by
    rw [hperm.length_eq, List.length_map, ← List.toFinset_card_of_nodup hnodup, hset, hcfg,
      M.quorum_eq hi]
    have : 0 < M.members.card := Finset.card_pos.2 ⟨i, hi⟩
    omega
  have hq : n.commitIndex = n.sortedEnds[n.config.quorum - 1] := by
    rw [hc.quorum, List.getD_eq_getElem?_getD, List.getElem?_eq_getElem hlen,
      Option.getD_some]
  have hsorted : n.sortedEnds.Pairwise (· ≥ ·) := List.pairwise_insertionSort _ _
  have hcount := lt_countP_of_sorted hsorted hlen
  rw [← hq, hperm.countP_eq, List.countP_map] at hcount
  refine ⟨?_, QuorumSystem.majority_isQuorum.2 ⟨Finset.filter_subset _ _, ?_⟩⟩
  · have hmem : n.commitIndex ∈ (i :: n.config.peers).map n.heldBy := by
      rw [hq]
      exact hperm.subset (List.getElem_mem hlen)
    obtain ⟨p, hp, heq⟩ := List.mem_map.1 hmem
    exact ⟨p, hset ▸ List.mem_toFinset.2 hp, heq.symm⟩
  · have hfilter : M.members.filter (fun p => n.commitIndex ≤ n.heldBy p) =
        ((i :: n.config.peers).filter fun p => n.commitIndex ≤ n.heldBy p).toFinset := by
      rw [List.toFinset_filter, hset]
      simp
    rw [hfilter, List.toFinset_card_of_nodup (hnodup.filter _), ← List.countP_eq_length_filter,
      ← M.quorum_eq hi, ← hcfg]
    have : (fun p => decide (n.commitIndex ≤ n.heldBy p)) =
        (fun x => decide (n.commitIndex ≤ x)) ∘ n.heldBy := rfl
    rw [this]
    omega

/-- What a leader commits by counting is committed in the protocol. -/
theorem committed_of_committing (hi : i ∈ M.members) (ha : Sound M.quorums a)
    (hst : Stands a i n l d) (ht : Tracks M a i n l) (hr : n.role = .leader)
    (hc : n.Committing) :
    ∃ q, q <+: l ∧ endFrom 0 q = n.commitIndex ∧
      Committed M.quorums a n.hard.term q := by
  have hid : n.config.id = i := ht.config ▸ M.config_id i hi
  have hl : Tiles 0 l := hst.log ▸ ha.inv.tiles i
  have hrole : a.el.role i = .leader := by
    have := hst.role
    rw [hr] at this
    exact this
  have hlog : a.leaderLog n.hard.term = l := by
    rw [← hst.log, ← hst.term]
    exact ha.inv.leader_log hrole
  have hchief : a.el.chief n.hard.term = some i := by
    rw [← hst.term]
    exact ha.inv.election.leader_chief hrole
  obtain ⟨⟨p, -, hp⟩, hquorum⟩ := exists_quorum hi ht.config hc
  have hpos := hc.pos
  -- the committed end is a batch boundary: the leader's own end or a confirmed one
  obtain ⟨q, hql, hqe⟩ : ∃ q, q <+: l ∧ endFrom 0 q = n.commitIndex := by
    unfold Node.heldBy at hp
    split at hp
    · exact ⟨l, List.prefix_refl l, by rw [hp, ht.views.logEnd]⟩
    · obtain ⟨q, hq, hqe⟩ := ha.inv.ack_sound
        ((ht.match_acked hr p).resolve_left (by omega))
      exact ⟨q, hlog ▸ hq, by rw [hqe, hp]⟩
  refine ⟨q, hql, hqe, ⟨hlog.symm ▸ hql, ?_, ?_⟩, _, hquorum, fun v hv => ?_⟩
  · rw [← termAt_end hl hql (by omega), hqe, ← ht.views.termAt_eq hl, hc.own]
  · rintro rfl
    simp at hqe
    omega
  · have hv' := (Finset.mem_filter.1 hv).2
    unfold Node.heldBy at hv'
    split at hv'
    case isTrue heq => exact .inl (by rw [hchief, heq, hid])
    case isFalse =>
      exact .inr ⟨n.matchEnd v, (ht.match_acked hr v).resolve_left (by omega), by omega⟩

end Counting

/-! ## What a follower does with an append it accepts -/

/-- The follower already holds a record of the entry's term in the entry's
place. -/
def Node.Duplicate (n : Node) (m : Message) : Prop :=
  m.carriesEntry = true ∧ Node.appendAt m < n.logEnd ∧
    n.termAt (Node.appendAt m) = m.entryTerm

instance (n : Node) (m : Message) : Decidable (n.Duplicate m) :=
  inferInstanceAs (Decidable (_ ∧ _ ∧ _))

/-- What becomes of a log `l` whose holder `n` accepts the append `m` from a leader
that has held `L`: the node is `f` and the log `l'`. -/
structure Taken (L l l' : List Batch) (n f : Node) (m : Message) : Prop where
  /-- What is confirmed is common to both logs. -/
  confirmed : ∃ c, c <+: L ∧ c <+: l' ∧ endFrom 0 c = Node.confirmedEnd m
  /-- What was common to both logs stays. -/
  kept : ∀ r, r <+: l → (L ≠ [] → r <+: L) → r <+: l'
  /-- Only what was not common to both logs is cut. -/
  order : ∀ k ∈ f.pendingTruncate, ∀ r, r <+: l → (L ≠ [] → r <+: L) → endFrom 0 r ≤ k
  /-- A batch that is written is the last one. -/
  ends : m.carriesEntry = false ∨ (n.Duplicate m ∧ l' = l) ∨
    endFrom 0 l' = Node.confirmedEnd m

section Adopting

variable {M : Membership} {a : Protocol} {i : Nat}

/-- An append without a batch leaves the log. -/
theorem taken_of_heartbeat (ha : Sound M.quorums a) {l : List Batch} {n f : Node}
    {env : Envelope} {x : Replication.Append Batch} (hx : x ∈ a.appends) (henc : Encodes env x)
    (hlog : a.log i = l) (hmt : x.Matches l) (hent : env.entry = none)
    (hpt : f.pendingTruncate = none) :
    Taken (a.leaderLog env.message.term) l l n f env.message := by
  have hidx := henc.heartbeat hent
  obtain ⟨p, hpL, hpend, hprev, -⟩ := ha.inv.append_sound hx
  have hpx : p <+: l := by
    rw [← hlog] at hmt ⊢
    exact ha.inv.prefix_of_matches hpL hpend hprev hmt
  rw [henc.term] at hpL
  refine ⟨⟨p, hpL, hpx, ?_⟩, fun _ hr _ => hr, ?_, .inl (by simp [Message.carriesEntry, hidx])⟩
  · rw [Node.confirmedEnd, hidx, hpend, henc.start]
  · simp [hpt]

section Entry

variable {x : Replication.Append Batch} {e : Batch} {p l : List Batch} {env : Envelope}

/-- A batch that the log holds already is not written again. -/
theorem Attaches.taken_duplicate (h : Attaches a x e p l) (henc : Encodes env x)
    (ha : Sound M.quorums a) (hlog : a.log i = l) {n f : Node} (hv : n.Views l)
    (hL : p ++ [e] <+: a.leaderLog env.message.term) (hlt : x.start < endFrom 0 l)
    (hterm : termAt l x.start = Stamped.term e) (hpt : f.pendingTruncate = none) :
    Taken (a.leaderLog env.message.term) l l n f env.message := by
  obtain ⟨hidx, -, het⟩ := henc.attached e (henc.entry.symm.trans h.entry)
  have hl : Tiles 0 l := hlog ▸ ha.inv.tiles i
  have hheld : p ++ [e] <+: l := by
    rw [← hlog] at hlt hterm ⊢
    exact ha.inv.entry_of_matches hL h.front hlt hterm
  have hdup : n.Duplicate env.message := by
    refine ⟨by simp [Message.carriesEntry, hidx], ?_, ?_⟩
    · rw [hv.logEnd, ← henc.start]
      exact hlt
    · rw [hv.termAt_eq hl, ← henc.start, hterm, het]
      rfl
  exact ⟨⟨p ++ [e], hL, hheld, by rw [h.confirmedEnd henc]; simp⟩, fun _ hr _ => hr,
    by simp [hpt], .inr (.inl ⟨hdup, rfl⟩)⟩

/-- A batch goes behind a log that ends where it begins. -/
theorem Attaches.taken_extend (h : Attaches a x e l l) (henc : Encodes env x) {n f : Node}
    (hL : l ++ [e] <+: a.leaderLog env.message.term) (hpt : f.pendingTruncate = none) :
    Taken (a.leaderLog env.message.term) l (l ++ [e]) n f env.message := by
  have hends : endFrom 0 (l ++ [e]) = Node.confirmedEnd env.message := by
    rw [h.confirmedEnd henc]
    simp
  exact ⟨⟨l ++ [e], hL, List.prefix_refl _, hends⟩,
    fun _ hr _ => hr.trans (List.prefix_append _ _), by simp [hpt], .inr (.inr hends)⟩

/-- A batch takes the place of a tail that conflicts with it. -/
theorem Attaches.taken_replace (h : Attaches a x e p l) (henc : Encodes env x)
    (ha : Sound M.quorums a) (hlog : a.log i = l) {n f : Node}
    (hL : p ++ [e] <+: a.leaderLog env.message.term)
    (hconflict : termAt l x.start ≠ Stamped.term e)
    (hpt : f.pendingTruncate = some (endFrom 0 p)) :
    Taken (a.leaderLog env.message.term) l (p ++ [e]) n f env.message := by
  have hl : Tiles 0 l := hlog ▸ ha.inv.tiles i
  have hne : a.leaderLog env.message.term ≠ [] :=
    List.ne_nil_of_mem (hL.subset (by simp : e ∈ p ++ [e]))
  have hends : endFrom 0 (p ++ [e]) = Node.confirmedEnd env.message := by
    rw [h.confirmedEnd henc]
    simp
  -- what both logs hold lies before the conflict
  have hbefore : ∀ q, q <+: l →
      (a.leaderLog env.message.term ≠ [] → q <+: a.leaderLog env.message.term) → q <+: p := by
    intro q hq hqL
    have hpl := h.isPrefix
    rw [← hlog] at hq hpl hconflict
    exact ha.inv.prefix_of_conflict hL h.front hpl hconflict (hqL hne) hq
  refine ⟨⟨p ++ [e], hL, List.prefix_refl _, hends⟩,
    fun q hq hqL => (hbefore q hq hqL).trans (List.prefix_append _ _), ?_, .inr (.inr hends)⟩
  intro k hk q hq hqL
  obtain rfl : endFrom 0 p = k := Option.some.inj (hpt.symm.trans hk)
  exact (hl.of_isPrefix h.isPrefix).end_mono (hbefore q hq hqL)

end Entry

theorem taken_of_accepts (ha : Sound M.quorums a) {r : Replica} (hs : Settled M a i r)
    {env : Envelope} (hc : Carried M a env) (hacc : r.node.Accepts env.message) {f : Node}
    (hf : r.node.Follows f env.message) :
    Taken (a.leaderLog env.message.term) r.log
      (carryOutLogOrders (f.acceptEntry env.message).takeReady.1 env.entry r.log) r.node
      (f.acceptEntry env.message) env.message := by
  obtain ⟨x, hx, henc⟩ := hc.append hacc.type
  have hv := hs.tracks.views
  have hvf : f.Views r.log := hv.congr hf.keeps.logEnd hf.keeps.lastTerm hf.keeps.epochs
  have hlog : a.log i = r.log := hs.stands.log
  have hl : Tiles 0 r.log := hlog ▸ ha.inv.tiles i
  have hmt := matches_iff hv hl henc hacc.matches_
  have hpt : f.pendingTruncate = none := hf.keeps.pendingTruncate.trans hs.pendingTruncate
  have hpa : f.pendingAppend = false := hf.keeps.pendingAppend.trans hs.pendingAppend
  cases hent : env.entry with
  | none =>
      have hself : f.acceptEntry env.message = f := by
        simp [Node.acceptEntry, henc.heartbeat hent]
      rw [hself, carryOutLogOrders_none hpt hpa]
      exact taken_of_heartbeat ha hx henc hlog hmt hent hpt
  | some e =>
      obtain ⟨p, hattaches, hL⟩ := exists_attaches ha hlog hx hmt (henc.entry.trans hent)
      rw [henc.term] at hL
      rcases hattaches.acceptEntry_cases henc ha hlog (by simp [hf.role]) hvf with
        ⟨hself, hlt, hterm⟩ | ⟨rfl, htake⟩ | ⟨-, hconflict, htake⟩
      · rw [hself, carryOutLogOrders_none hpt hpa]
        exact hattaches.taken_duplicate henc ha hlog hv hL hlt hterm hpt
      · have hout : carryOutLogOrders
            (f.orderAppend.appended (base e) (stop e) (Stamped.term e)).takeReady.1 (some e)
            r.log = r.log ++ [e] := by
          simp [carryOutLogOrders, Node.takeReady, Node.appended, Node.orderAppend, hpt]
        rw [htake, hout]
        exact hattaches.taken_extend henc hL hpt
      · have hcut : upTo r.log (endFrom 0 p) = p := hl.upTo_eq hattaches.isPrefix
        have hout : carryOutLogOrders ((f.truncated (endFrom 0 p)).orderAppend.appended
            (base e) (stop e) (Stamped.term e)).takeReady.1 (some e) r.log = p ++ [e] := by
          simp [carryOutLogOrders, Node.takeReady, Node.appended, Node.orderAppend,
            Node.truncated, truncateTo, hcut]
        rw [htake, hout]
        exact hattaches.taken_replace henc ha hlog hL hconflict rfl

/-- Taking an entry changes neither the commit index, the role nor the hard state. -/
theorem Node.acceptEntry_frame {f : Node} (hr : f.role ≠ .leader) (m : Message) :
    (f.acceptEntry m).commitIndex = f.commitIndex ∧ (f.acceptEntry m).role = f.role ∧
      (f.acceptEntry m).hard = f.hard := by
  obtain ⟨e, l, t, p, q, heq⟩ := Node.acceptEntry_eq hr m
  rw [heq]
  exact ⟨rfl, rfl, rfl⟩

end Adopting

/-! ## What a step of the cluster does to a member's commit index -/

/-- The action restarts member `i`. -/
def Cluster.Restarts (s : Cluster) (i : Nat) : Action → Prop
  | .restart j _ => j = i
  | .crash k _ _ => ∃ env ∈ s.sent[k]?, env.message.target = i
  | _ => False

/-- Replica `r` has accepted the append in `env` and is `r'` now; `f` is the node
between the change of term and the change of log. -/
structure Adopts (r r' : Replica) (env : Envelope) (f : Node) : Prop where
  accepts : r.node.Accepts env.message
  follows : r.node.Follows f env.message
  role : r'.node.role = .follower
  term : r'.node.hard.term = env.message.term
  commitIndex : r'.node.commitIndex =
    if r.node.commitIndex < env.message.commitIndex then
      min env.message.commitIndex r'.node.logEnd
    else r.node.commitIndex
  log : r'.log = carryOutLogOrders (f.acceptEntry env.message).takeReady.1 env.entry r.log

section Steps

variable {M : Membership} {a : Protocol} {i : Nat} {s : Cluster} {act : Action}
  {o : Replica × List Envelope}

theorem Node.Committing.drained {n : Node} (h : n.Committing) : n.drained.Committing :=
  ⟨h.quorum, h.pos, h.own⟩

/-- The delivery of an append that is accepted. -/
theorem adopts_deliver {r : Replica} {draw : Nat} {env : Envelope} {f : Node}
    (hacc : r.node.Accepts env.message) (hf : r.node.Follows f env.message)
    (heq : r.node.step draw env.message =
      ((f.acceptEntry env.message).adoptCommit env.message).say
        [((f.acceptEntry env.message).adoptCommit env.message).confirmMessage env.message]) :
    Adopts r (r.deliver draw env).1 env f := by
  obtain ⟨hcommit, hrole, hhard⟩ := Node.acceptEntry_frame
    (by simp [hf.role] : f.role ≠ .leader) env.message
  obtain ⟨c, hc⟩ := Node.adoptCommit_eq (f.acceptEntry env.message) env.message
  have hidx : ((f.acceptEntry env.message).adoptCommit env.message).commitIndex =
      if r.node.commitIndex < env.message.commitIndex then
        min env.message.commitIndex (f.acceptEntry env.message).logEnd
      else r.node.commitIndex := by
    rw [Node.adoptCommit, hcommit, hf.keeps.commitIndex]
    split
    · rfl
    · exact hcommit.trans hf.keeps.commitIndex
  rw [hc] at hidx heq
  refine ⟨hacc, hf, ?_, ?_, ?_, ?_⟩
  · rw [Replica.deliver, drive_node, heq]
    exact hrole.trans hf.role
  · rw [Replica.deliver, drive_node, heq]
    exact (congrArg HardState.term hhard).trans hf.term
  · rw [Replica.deliver, drive_node, heq]
    exact hidx
  · rw [Replica.deliver, drive_log, heq]
    rfl

/-- A member that acts is restarted, leaves its commit index, raises it by
counting, or takes an append. -/
theorem Outcome.commit (hs : Settled M a i (s.replica i)) (ho : Outcome M s i act o) :
    (s.Restarts i act ∧ o.1.node.commitIndex = 0) ∨
      (o.1.node.commitIndex = (s.replica i).node.commitIndex ∧
        (s.replica i).node.hard.term ≤ o.1.node.hard.term ∧
        (s.replica i).log <+: o.1.log) ∨
      ((s.replica i).node.commitIndex < o.1.node.commitIndex ∧
        o.1.node.role = .leader ∧ o.1.node.Committing) ∨
      ∃ k draw env f, act = .deliver k draw ∧ s.sent[k]? = some env ∧
        env.message.target = i ∧ Adopts (s.replica i) o.1 env f := by
  have hpt := hs.pendingTruncate
  have hpa := hs.pendingAppend
  cases ho with
  | tick draw =>
      have hk := Node.keeps_tick (s.replica i).node draw
      refine .inr (.inl ?_)
      rw [Replica.tick, drive_node, drive_log, carryOutLogOrders_none
        (hk.pendingTruncate.trans hpt) (hk.pendingAppend.trans hpa)]
      exact ⟨hk.commitIndex, hk.term, List.prefix_refl _⟩
  | @deliver k env draw henv hto =>
      rcases Node.step_outcome (s.replica i).node draw env.message with hk | hadv |
        ⟨hacc, f, hf, heq⟩
      · refine .inr (.inl ?_)
        rw [Replica.deliver, drive_node, drive_log, carryOutLogOrders_none
          (hk.pendingTruncate.trans hpt) (hk.pendingAppend.trans hpa)]
        exact ⟨hk.commitIndex, hk.term, List.prefix_refl _⟩
      · rw [Replica.deliver, drive_node]
        exact .inr (.inr (.inl ⟨hadv.lt, hadv.role, hadv.committing.drained⟩))
      · exact .inr (.inr (.inr ⟨k, draw, env, f, rfl, henv, hto, adopts_deliver hacc hf heq⟩))
  | @propose records hne =>
      unfold Replica.propose
      by_cases hr : (s.replica i).node.role = .leader
      case neg =>
        rw [if_neg hr]
        exact .inr (.inl ⟨rfl, le_rfl, List.prefix_refl _⟩)
      rw [if_pos hr, drive_node, drive_log]
      dsimp only
      rw [Node.logAppended_leader hr]
      generalize (s.replica i).nextBatch records = batch
      rcases Node.advanceCommitIndex_cases
        ((s.replica i).node.appended batch.base batch.stop batch.term) with heq | hadv
      · refine .inr (.inl ?_)
        rw [heq, carryOutLogOrders_none hpt hpa]
        exact ⟨rfl, le_rfl, List.prefix_append _ _⟩
      · exact .inr (.inr (.inl ⟨hadv.lt, hadv.role,
          ⟨hadv.committing.quorum, hadv.committing.pos, hadv.committing.own⟩⟩))
  | restart draw =>
      refine .inl ⟨rfl, ?_⟩
      simp [Replica.restart, Node.restoreLog, Node.new, Node.resetElectionTimer]
  | crash draw henv hto hlog =>
      refine .inl ⟨⟨_, henv, hto⟩, ?_⟩
      simp [Replica.restart, Node.restoreLog, Node.new, Node.resetElectionTimer]

end Steps

end LogEngine.Raft
