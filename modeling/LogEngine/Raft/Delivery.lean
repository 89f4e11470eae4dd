import LogEngine.Raft.Simulation

/-!
# The delivery of a message is a sequence of the protocol's steps

One lemma for each handler, from a node that is ready to act (`Poised`) to one
whose driver has still to carry out what it wants.  The conclusion holds for every
log that carrying out its log orders may leave when it is interrupted, and says
more when they are all carried out (`Handles`).
-/

namespace LogEngine.Raft

open Verified Verified.Tiling Verified.Replication
open Extent Stamped

variable {M : Membership} {a : Protocol} {i : Nat} {n : Node} {l : List Batch}
  {d : HardState}

/-- Nothing is pending, and whoever holds an office has its hard state on disk. -/
structure Poised (M : Membership) (a : Protocol) (i : Nat) (n : Node) (l : List Batch)
    (d : HardState) : Prop where
  stands : Stands a i n l d
  tracks : Tracks M a i n l
  out : n.out = []
  pendingTruncate : n.pendingTruncate = none
  pendingAppend : n.pendingAppend = false
  clean : n.hardStateDirty = false → d = n.hard
  office : n.role ≠ .follower → d = n.hard

theorem Settled.poised {r : Replica} (h : Settled M a i r) :
    Poised M a i r.node r.log r.durable :=
  ⟨h.stands, h.tracks, h.out, h.pendingTruncate, h.pendingAppend, fun _ => h.durable,
    fun _ => h.durable⟩

/-- The protocol follows the node to `n'`, whatever log its driver leaves. -/
def Handles (M : Membership) (a : Protocol) (i : Nat) (n' : Node)
    (entry : Option Batch) (l : List Batch) (d : HardState) : Prop :=
  ∀ l', Interrupted n'.takeReady.1 entry l l' →
    ∃ b, Steady M.quorums i a b ∧ Stands b i n' l' d ∧
      (l' = carryOutLogOrders n'.takeReady.1 entry l → Acted M b i n' l' d)

/-- A node that orders nothing leaves the log alone. -/
theorem handles_of_acted {n' : Node} {entry : Option Batch}
    (hpt : n'.pendingTruncate = none) (hpa : n'.pendingAppend = false)
    (h : ∃ b, Steady M.quorums i a b ∧ Stands b i n' l d ∧ Tracks M b i n' l ∧
      Speaks b n' l ∧ (n'.hardStateDirty = false → d = n'.hard)) :
    Handles M a i n' entry l d := by
  obtain ⟨b, hb, hst, ht, hsp, hcl⟩ := h
  intro l' hl'
  have hl : l' = l := by
    rcases hl' with ⟨h₁, h₂⟩ | h
    · rw [carryOutLogOrders_none hpt rfl] at h₁
      exact h₂.eq_of_length (le_antisymm h₂.length_le h₁.length_le)
    · rw [h, carryOutLogOrders_none hpt hpa]
  subst hl
  exact ⟨b, hb, hst, fun _ => ⟨⟨d, hst, hcl⟩, ht, hsp, hcl⟩⟩

theorem Poised.becomeFollower (ha : Sound M.quorums a) (h : Poised M a i n l d)
    (draw T leader : Nat) :
    ∃ b, Steady M.quorums i a b ∧ Poised M b i (n.becomeFollower draw T leader) l d := by
  obtain ⟨b, hb, hst⟩ := h.stands.becomeFollower ha draw T leader
  refine ⟨b, hb, hst, (h.tracks.mono hb.grows).becomeFollower draw T leader, ?_, ?_, ?_,
    ?_, ?_⟩
  · unfold Node.becomeFollower
    split <;> exact h.out
  · unfold Node.becomeFollower
    split <;> exact h.pendingTruncate
  · unfold Node.becomeFollower
    split <;> exact h.pendingAppend
  · unfold Node.becomeFollower
    split
    · exact nofun
    · exact h.clean
  · exact fun hr => absurd rfl hr

/-- Something said on the side changes nothing else. -/
theorem Poised.handles_say (ha : Sound M.quorums a) (h : Poised M a i n l d)
    {entry : Option Batch} {ms : List Message}
    (hs : ∀ m ∈ ms, m.sender = n.config.id ∧ m.term = n.hard.term ∧ Says a n l m) :
    Handles M a i (n.say ms) entry l d := by
  have hv := h.tracks.views
  refine handles_of_acted h.pendingTruncate h.pendingAppend
    ⟨a, Steady.refl ha, h.stands.congr rfl rfl rfl,
      { h.tracks with views := hv.congr rfl rfl rfl }, ?_, h.clean⟩
  intro m hm
  rw [Node.say_out, h.out, List.nil_append] at hm
  obtain ⟨h₁, h₂, h₃⟩ := hs m hm
  refine ⟨h₁, h₂, ?_⟩
  cases h₃ with
  | refusal ht hg => exact .refusal ht hg
  | request p hr => exact .request (n := n.say ms) p hr
  | append p hr => exact .append (n := n.say ms) p hr
  | grant ht hn hv hc hup => exact .grant ht hn hv hc hup
  | confirm ht hx hxt hmt he hl => exact .confirm ht hx hxt hmt he hl

theorem Poised.handles_self (ha : Sound M.quorums a) (h : Poised M a i n l d)
    {entry : Option Batch} : Handles M a i n entry l d := by
  rw [← Node.say_nil n]
  exact h.handles_say ha (by simp)

/-- Timers, counters and the commit index are nothing the protocol knows of. -/
theorem Poised.aside (h : Poised M a i n l d) (elapsed refusals c : Nat) :
    Poised M a i
      { n with electionElapsed := elapsed, leaseRefusals := refusals, commitIndex := c } l d where
  stands := h.stands.congr rfl rfl rfl
  tracks := { h.tracks with views := h.tracks.views.congr rfl rfl rfl }
  out := h.out
  pendingTruncate := h.pendingTruncate
  pendingAppend := h.pendingAppend
  clean := h.clean
  office := h.office

theorem Poised.rested (h : Poised M a i n l d) : Poised M a i n.rested l d :=
  h.aside 0 n.leaseRefusals n.commitIndex

theorem Poised.withCommit (h : Poised M a i n l d) (c : Nat) : Poised M a i (n.withCommit c) l d :=
  h.aside n.electionElapsed n.leaseRefusals c

/-! ## Votes -/

private theorem logIsUpToDate_iff (hv : n.Views l) {e t : Nat} :
    n.logIsUpToDate e t = true ↔ UpToDate e t l := by
  unfold Node.logIsUpToDate UpToDate
  rw [hv.lastTerm, hv.logEnd]
  split
  case isTrue hne =>
    simp only [decide_eq_true_eq]
    refine ⟨.inl, fun h => h.resolve_right fun h' => hne h'.1⟩
  case isFalse heq =>
    simp only [ne_eq, not_not] at heq
    simp [heq]

private theorem handles_requestVote (ha : Sound M.quorums a) (h : Poised M a i n l d)
    {env : Envelope} (hc : Carried M a env) (ht : env.message.type = .requestVote)
    (hterm : n.hard.term = env.message.term) :
    Handles M a i (n.handleRequestVote env.message) env.entry l d := by
  obtain ⟨e, he, hcan⟩ := hc.request ht
  have hne := M.member_ne _ hc.sender_mem
  have hup : n.logIsUpToDate (indexValue env.message.logIndex) env.message.logTerm = true →
      UpToDate e env.message.logTerm l := by
    rw [he]
    exact (logIsUpToDate_iff h.tracks.views).1
  rw [← hterm] at hcan
  rcases Node.handleRequestVote_cases n env.message with heq | ⟨hlog, hvote, heq⟩ |
    ⟨hlog, hvote, heq⟩
  · rw [heq]
    refine h.handles_say ha fun m hm => ?_
    obtain rfl := List.mem_singleton.1 hm
    exact ⟨rfl, rfl, .refusal (.inl rfl) rfl⟩
  · -- the vote was already given
    rw [heq]
    refine h.rested.handles_say ha fun m hm => ?_
    obtain rfl := List.mem_singleton.1 hm
    exact ⟨rfl, rfl, .grant (n := n.rested) rfl hne hvote hcan (hup hlog)⟩
  · rw [heq]
    have hv := h.tracks.views
    obtain ⟨b, hb, hview⟩ := exists_vote ha env.message.sender
      (by rw [h.stands.mem, HardState.ballot, if_pos hvote] : (a.view i).mem.vote = none)
    have htr := h.tracks.mono hb.grows
    refine handles_of_acted h.pendingTruncate h.pendingAppend ⟨b, hb, ⟨?_, ?_, ?_, ?_, ?_⟩,
      { htr with views := hv.congr rfl rfl rfl }, ?_, fun h => Bool.noConfusion h⟩
    · rw [hview, h.stands.term]
      exact (HardState.ballot_some hne _).symm
    · rw [hview]
      exact h.stands.dur
    · rw [hview]
      exact h.stands.role
    · rw [hview]
      exact h.stands.tally
    · rw [hview]
      exact h.stands.log
    · intro m hm
      rw [Node.say_out, show ((n.withVote env.message.sender).rested).out = [] from h.out,
        List.nil_append] at hm
      obtain rfl := List.mem_singleton.1 hm
      exact ⟨rfl, rfl, .grant (n := (n.withVote env.message.sender).rested.say _) rfl hne rfl
        (hb.grows.canvass hcan) (hup hlog)⟩

private theorem handles_requestVoteResponse (hi : i ∈ M.members) (ha : Sound M.quorums a)
    (h : Poised M a i n l d) {env : Envelope} (hc : Carried M a env)
    (ht : env.message.type = .requestVoteResponse) (hto : env.message.target = i)
    (hterm : n.hard.term = env.message.term) :
    Handles M a i (n.handleRequestVoteResponse env.message) env.entry l d := by
  rcases Node.handleRequestVoteResponse_cases n env.message with heq | ⟨hr, hg, hcase⟩
  · rw [heq]
    exact h.handles_self ha
  have hd : d = n.hard := h.office (by simp [hr])
  have hgrant := hc.grant ht hg
  rw [hto, ← hterm, ← h.stands.term] at hgrant
  obtain ⟨b, hb, hview⟩ := exists_count ha hgrant
  have hv := h.tracks.views
  have htr := h.tracks.mono hb.grows
  have hstb : Stands b i (n.countVote env.message.sender) l d := by
    refine ⟨?_, ?_, ?_, fun _ => ?_, ?_⟩
    · rw [hview]
      exact h.stands.mem
    · rw [hview]
      exact h.stands.dur
    · rw [hview]
      exact h.stands.role
    · rw [hview]
      exact congrArg (insert env.message.sender) (h.stands.tally hr)
    · rw [hview]
      exact h.stands.log
  have htb : Tracks M b i (n.countVote env.message.sender) l :=
    { htr with
      views := hv.congr rfl rfl rfl
      votes := fun _ => Finset.insert_subset hc.sender_mem (h.tracks.votes hr) }
  rcases hcase with ⟨hq, heq⟩ | heq
  · rw [heq]
    have hquorum : M.quorums.IsQuorum (n.countVote env.message.sender).votes := by
      rw [h.tracks.config, M.quorum_eq hi] at hq
      exact QuorumSystem.majority_isQuorum.2 ⟨htb.votes hr, hq⟩
    subst hd
    obtain ⟨c, hbc, hstc⟩ := hstb.becomeLeader hb.sound hr hquorum
    refine handles_of_acted ?_ ?_ ⟨c, hb.trans hbc, hstc, (htb.mono hbc.grows).becomeLeader,
      speaks_becomeLeader h.out, fun _ => ?_⟩ <;> rw [Node.becomeLeader_eq]
    · exact h.pendingTruncate
    · exact h.pendingAppend
    · rfl
  · rw [heq]
    refine handles_of_acted h.pendingTruncate h.pendingAppend
      ⟨b, hb, hstb, htb, ?_, h.clean⟩
    intro m hm
    rw [show (n.countVote env.message.sender).out = [] from h.out] at hm
    simp at hm

/-! ## Confirmations -/

/-- The next index of a peer may be anywhere between what the peer has confirmed and the end of
the log. -/
theorem Poised.setNext (h : Poised M a i n l d) {p k : Nat} (hlo : n.matchEnd p ≤ k)
    (hhi : k ≤ n.logEnd) : Poised M a i (n.setNext p k) l d := by
  have hmatch : ∀ q, (n.setNext p k).matchEnd q = n.matchEnd q := fun _ => rfl
  refine ⟨h.stands.congr rfl rfl rfl, { h.tracks with
    views := h.tracks.views.congr rfl rfl rfl
    match_le_next := fun hr q => ?_
    next_le := fun hr q => ?_ }, h.out, h.pendingTruncate, h.pendingAppend, h.clean, h.office⟩
  · rw [Node.setNext_nextIndex, hmatch]
    split
    case isTrue hq =>
      subst hq
      exact hlo
    case isFalse => exact h.tracks.match_le_next hr q
  · rw [Node.setNext_nextIndex]
    split
    · exact hhi
    · exact h.tracks.next_le hr q

/-- What a peer has confirmed of the leader's log may be noted. -/
theorem Poised.noteConfirmed (h : Poised M a i n l d) {p c : Nat}
    (hack : (p, n.hard.term, c) ∈ a.acks) (hle : c ≤ n.logEnd) :
    Poised M a i (n.noteConfirmed p c) l d := by
  have hmatch := n.noteConfirmed_matchEnd p c
  have hnext := n.noteConfirmed_nextIndex p c
  obtain ⟨f, g, hfg⟩ := n.noteConfirmed_eq p c
  rw [hfg] at hmatch hnext ⊢
  refine ⟨h.stands.congr rfl rfl rfl, { h.tracks with
    views := h.tracks.views.congr rfl rfl rfl
    match_acked := fun hr q => ?_
    match_le_next := fun hr q => ?_
    next_le := fun hr q => ?_ }, h.out, h.pendingTruncate, h.pendingAppend, h.clean, h.office⟩
  · rw [hmatch]
    split
    case isTrue hq =>
      subst hq
      rcases Nat.le_total (n.matchEnd q) c with hle' | hle'
      · rw [max_eq_right hle']
        exact .inr hack
      · rw [max_eq_left hle']
        exact h.tracks.match_acked hr _
    case isFalse => exact h.tracks.match_acked hr q
  · rw [hmatch, hnext]
    split
    · exact max_le_max (h.tracks.match_le_next hr _) le_rfl
    · exact h.tracks.match_le_next hr q
  · rw [hnext]
    split
    · exact max_le (h.tracks.next_le hr _) hle
    · exact h.tracks.next_le hr q

private theorem handles_appendEntriesResponse (ha : Sound M.quorums a) (h : Poised M a i n l d)
    {env : Envelope} (hc : Carried M a env)
    (ht : env.message.type = .appendEntriesResponse)
    (hterm : n.hard.term = env.message.term) :
    Handles M a i (n.handleAppendEntriesResponse env.message) env.entry l d := by
  rcases Node.handleAppendEntriesResponse_cases n env.message with ⟨-, heq⟩ |
    ⟨hr, -, heq⟩ | ⟨hr, hg, n', ms, hn', heq, hms⟩
  · rw [heq]
    exact h.handles_self ha
  · -- a rejection: the hint stays between what is confirmed and the log end
    rw [heq, Node.sendAppendEntries_eq]
    have hret : n.retryFrom env.message ≤ n.logEnd :=
      max_le (min_le_right _ _)
        ((h.tracks.match_le_next hr _).trans (h.tracks.next_le hr _))
    refine (h.setNext (le_max_right _ _) hret).handles_say ha fun m hm => ?_
    obtain rfl := List.mem_singleton.1 hm
    exact ⟨rfl, rfl, .append _ hr⟩
  · -- a confirmation: the follower holds what it confirms of this very log
    obtain ⟨c, hlc, hack⟩ := hc.confirm ht hg
    rw [← hterm] at hack
    have hrole : (a.view i).role = .leader := by rw [h.stands.role, Role.abs_eq_leader, hr]
    have hlog : a.leaderLog n.hard.term = l := by
      have := ha.inv.leader_log (x := i) hrole
      rw [← h.stands.log, ← h.stands.term]
      exact this
    have hle : c ≤ n.logEnd := by
      rw [h.tracks.views.logEnd, ← hlog]
      exact ha.inv.ack_end_le hack
    have hmin : min (indexValue env.message.logIndex) n.logEnd = c := by
      rw [hlc]
      exact min_eq_left hle
    obtain ⟨k, hk⟩ := Node.advanceCommitIndex_eq (n.noteConfirmed env.message.sender c)
    rw [hmin, hk] at hn'
    subst hn'
    rw [heq]
    refine ((h.noteConfirmed hack hle).withCommit k).handles_say ha fun m hm => ?_
    obtain rfl := hms m hm
    obtain ⟨f, g, hfg⟩ := n.noteConfirmed_eq env.message.sender c
    refine ⟨rfl, rfl, .append _ ?_⟩
    rw [hfg]
    exact hr

/-! ## Appends -/

theorem matches_iff (hv : n.Views l) (hl : Tiles 0 l) {env : Envelope}
    {x : Replication.Append Batch} (hx : Encodes env x)
    (hm : n.matches_ env.message = true) : x.Matches l := by
  have hstart := hx.start
  unfold Node.matches_ at hm
  unfold Node.appendAt at hstart
  cases hli : env.message.logIndex with
  | none =>
      rw [hli] at hstart
      exact .inl hstart
  | some k =>
      rw [hli] at hstart hm
      simp only [Bool.and_eq_true, decide_eq_true_eq, beq_iff_eq] at hm hstart
      rw [hv.logEnd, hv.termAt_eq hl] at hm
      refine .inr ⟨by omega, ?_⟩
      rw [hx.prevTerm (by omega), ← hm.2]
      congr 1
      omega

/-- The batch of an append of the protocol goes behind the beginning `p` of the log. -/
structure Attaches (a : Protocol) (x : Replication.Append Batch) (e : Batch)
    (p l : List Batch) : Prop where
  sent : x ∈ a.appends
  entry : x.entry = some e
  agrees : x.Matches l
  isPrefix : p <+: l
  front : endFrom 0 p = x.start
  begins : base e = x.start
  extent : base e < stop e

section Attaches

variable {x : Replication.Append Batch} {e : Batch} {p : List Batch} {env : Envelope}

/-- The batch of an append that agrees with the log has its place there. -/
theorem exists_attaches (ha : Sound M.quorums a) (hlog : a.log i = l) (hx : x ∈ a.appends)
    (hmt : x.Matches l) (hxe : x.entry = some e) :
    ∃ p, Attaches a x e p l ∧ p ++ [e] <+: a.leaderLog x.term := by
  obtain ⟨p, hpL, hpend, hprev, hpe⟩ := ha.inv.append_sound hx
  have hpx : p <+: l := by
    rw [← hlog] at hmt ⊢
    exact ha.inv.prefix_of_matches hpL hpend hprev hmt
  obtain ⟨-, hbe, hse⟩ := tiles_snoc.1 ((ha.inv.leader_tiles x.term).of_isPrefix (hpe e hxe))
  exact ⟨p, ⟨hx, hxe, hmt, hpx, hpend, hbe.trans hpend, by omega⟩, hpe e hxe⟩

theorem Attaches.confirmedEnd (h : Attaches a x e p l) (henc : Encodes env x) :
    Node.confirmedEnd env.message = stop e := by
  obtain ⟨hidx, hext, -⟩ := henc.attached e (henc.entry.symm.trans h.entry)
  rw [Node.confirmedEnd, hidx]
  simp only [Node.entryEndOf, hext]
  exact if_pos h.extent

/-- What a follower does with the batch attached to a message it agrees with:
nothing where it already holds it, append it at its end, or cut a conflicting tail
and append it there. -/
theorem Attaches.acceptEntry_cases (h : Attaches a x e p l) (henc : Encodes env x)
    (ha : Sound M.quorums a) (hlog : a.log i = l) (hr : n.role ≠ .leader) (hv : n.Views l) :
    (n.acceptEntry env.message = n ∧ x.start < endFrom 0 l ∧
        termAt l x.start = Stamped.term e) ∨
      (p = l ∧ n.acceptEntry env.message =
        n.orderAppend.appended (base e) (stop e) (Stamped.term e)) ∨
      (x.start < endFrom 0 l ∧ termAt l x.start ≠ Stamped.term e ∧
        n.acceptEntry env.message =
          (n.truncated (endFrom 0 p)).orderAppend.appended (base e) (stop e) (Stamped.term e)) := by
  obtain ⟨hidx, hext, hterm⟩ := henc.attached e (henc.entry.symm.trans h.entry)
  have hl : Tiles 0 l := hlog ▸ ha.inv.tiles i
  have hpos : ∀ e ∈ l, 0 < Stamped.term e := fun e he =>
    ha.inv.term_pos (x := i) (hlog.symm ▸ he)
  have hend := h.front
  have hbase := h.begins
  have hstop := h.extent
  have hle := hl.end_mono h.isPrefix
  have hee : Node.entryEndOf env.message e.base = e.stop := by
    rw [Node.entryEndOf, hext]
    exact if_pos hstop
  have hat := hv.termAt_eq hl x.start
  unfold Node.acceptEntry
  rw [hidx]
  dsimp only
  rw [hee, hterm, ← henc.start, ← hbase]
  rw [← hbase] at hat hend
  rcases hle.eq_or_lt with heq | hlt
  · -- the log ends where the batch begins
    have hnone : n.termAt (base e) = kNoTerm := by
      rw [hat, termAt, hl.cover_none (by omega)]
      rfl
    have htail : n.truncateTail (base e) e.term = n := by
      simp [Node.truncateTail, hnone]
    refine .inr (.inl ⟨hl.prefix_eq_of_end h.isPrefix (List.prefix_refl _) heq, ?_⟩)
    rw [htail, if_pos (by rw [hv.logEnd]; omega),
      Node.logAppended_follower (n := n.orderAppend) hr]
    rfl
  · obtain ⟨y, hy⟩ := hl.exists_cover (Nat.zero_le (base e)) (by omega)
    have hty : n.termAt (base e) = Stamped.term y := by
      rw [hat, termAt, hy]
      rfl
    have hsome : n.termAt (base e) ≠ kNoTerm := by
      obtain ⟨q, hq, -, -⟩ := cover_spec hy
      rw [hty]
      exact (hpos y (hq.subset (by simp))).ne'
    by_cases hsame : n.termAt (base e) = e.term
    · -- a duplicate
      have htail : n.truncateTail (base e) e.term = n := by
        simp [Node.truncateTail, hsame]
      refine .inl ⟨?_, by omega, hat.symm.trans hsame⟩
      rw [htail, if_neg (by rw [hv.logEnd]; omega)]
    · have htail : n.truncateTail (base e) e.term = n.truncated (base e) := by
        simp [Node.truncateTail, hsome, hsame]
      refine .inr (.inr ⟨by omega, fun h => hsame (hat.trans h), ?_⟩)
      rw [htail, if_pos (show (n.truncated (base e)).logEnd ≤ base e from le_rfl),
        Node.logAppended_follower (n := (n.truncated (base e)).orderAppend) hr, hend]
      rfl

end Attaches

theorem Handles.of_steady {b : Protocol} (hb : Steady M.quorums i a b) {n' : Node}
    {entry : Option Batch} (h : Handles M b i n' entry l d) :
    Handles M a i n' entry l d := by
  intro l' hl'
  obtain ⟨c, hc, hst, hact⟩ := h l' hl'
  exact ⟨c, hb.trans hc, hst, hact⟩

section Attached

variable {x : Replication.Append Batch} {e : Batch} {p : List Batch} {m : Message} {n' : Node}
  {c : Nat}

/-- A follower whose log ends where the batch begins takes it and says so. -/
theorem exists_extend_node (ha : Sound M.quorums a) (hst : Stands a i n l d)
    (hcfg : n.config = M.config i) (hv : n.Views l) (hr : n.role = .follower)
    (hout : n.out = []) (hclean : n.hardStateDirty = false → d = n.hard)
    (hx : Attaches a x e l l) (hxt : x.term = n.hard.term)
    (hm : Node.confirmedEnd m = x.confirmed)
    (hn' : n' = (n.orderAppend.appended (base e) (stop e) (Stamped.term e)).withCommit c) :
    ∃ b, Steady M.quorums i a b ∧ Stands b i (n'.say [n'.confirmMessage m]) (l ++ [e]) d ∧
      Acted M b i (n'.say [n'.confirmMessage m]) (l ++ [e]) d := by
  have hfront := hx.front
  have hbase := hx.begins
  have hextent := hx.extent
  have hl : Tiles 0 l := hst.log ▸ ha.inv.tiles i
  have hle : Tiles 0 (l ++ [e]) := tiles_snoc.2 ⟨hl, by omega, by omega⟩
  obtain ⟨b, hb, hview⟩ := exists_extend ha hx.sent (by rw [hst.term, hxt])
    (by rw [hst.role, Role.abs_eq_follower, hr]) (by rw [hst.log]; exact hx.agrees) hx.entry
    (by rw [hst.log]; exact hfront.symm)
  rw [hst.log] at hview
  have hviews := hv.snoc hextent
  have hstb : Stands b i (n'.say [n'.confirmMessage m]) (l ++ [e]) d := by
    rw [hn']
    exact (hst.setLog hview).congr rfl rfl rfl
  have hrole : (n'.say [n'.confirmMessage m]).role ≠ .leader ∧
      (n'.say [n'.confirmMessage m]).role ≠ .candidate := by
    rw [hn']
    simp [Node.withCommit, Node.appended, Node.orderAppend, hr]
  have hcl : (n'.say [n'.confirmMessage m]).hardStateDirty = false →
      d = (n'.say [n'.confirmMessage m]).hard := by
    rw [hn']
    exact hclean
  refine ⟨b, hb, hstb, ⟨d, hstb, hcl⟩, ⟨?_, ?_, fun h => absurd h hrole.2,
    fun h => absurd h hrole.1, fun h => absurd h hrole.1, fun h => absurd h hrole.1⟩, ?_, hcl⟩
  · rw [hn']
    exact hcfg
  · rw [hn']
    exact hviews.congr rfl rfl rfl
  · intro m' hm'
    rw [Node.say_out, show n'.out = [] by rw [hn']; exact hout, List.nil_append] at hm'
    obtain rfl := List.mem_singleton.1 hm'
    refine ⟨rfl, rfl, .confirm rfl (hb.grows.appends hx.sent) (by rw [hxt, hn']; rfl)
      (hx.agrees.congr hl (List.prefix_refl l) (List.prefix_append l [e]) hle hfront.ge) ?_
      (congrArg some hm)⟩
    intro e' he'
    obtain rfl : e = e' := by
      rw [hx.entry] at he'
      exact Option.some.inj he'
    have hcov := hle.cover_eq (i := x.start) (List.prefix_refl _) (by omega) (by omega)
    refine ⟨by simp; omega, ?_⟩
    rw [termAt, hcov]
    rfl

/-- A follower that has nothing to write says how far it agrees. -/
theorem Poised.handles_confirm (ha : Sound M.quorums a) (h : Poised M a i n l d)
    (hx : x ∈ a.appends) (hxt : x.term = n.hard.term) (hmt : x.Matches l)
    (he : ∀ e ∈ x.entry, x.start < endFrom 0 l ∧ termAt l x.start = Stamped.term e)
    (hm : Node.confirmedEnd m = x.confirmed) {entry : Option Batch} :
    Handles M a i (n.say [n.confirmMessage m]) entry l d := by
  refine h.handles_say ha fun m' hm' => ?_
  obtain rfl := List.mem_singleton.1 hm'
  exact ⟨rfl, rfl, .confirm rfl hx hxt hmt he (congrArg some hm)⟩

/-- The batch goes to the end of the log. -/
theorem Poised.handles_extend (ha : Sound M.quorums a) (h : Poised M a i n l d)
    (hr : n.role = .follower) (hx : Attaches a x e l l) (hxt : x.term = n.hard.term)
    (hm : Node.confirmedEnd m = x.confirmed)
    (hn' : n' = (n.orderAppend.appended (base e) (stop e) (Stamped.term e)).withCommit c) :
    Handles M a i (n'.say [n'.confirmMessage m]) (some e) l d := by
  subst hn'
  intro l' hl'
  have hready : ∀ ready : Ready, ready.truncateFrom = none → ready.appendEntry = true →
      carryOutLogOrders ready (some e) l = l ++ [e] := by
    intro ready h₁ h₂
    simp [carryOutLogOrders, h₁, h₂]
  rw [hready _ h.pendingTruncate rfl]
  have hcases : l' = l ∨ l' = l ++ [e] := by
    rcases hl' with ⟨h₁, h₂⟩ | h'
    · rw [carryOutLogOrders_none h.pendingTruncate rfl] at h₁
      exact .inl (h₂.eq_of_length (le_antisymm h₂.length_le h₁.length_le))
    · exact .inr (h'.trans (hready _ h.pendingTruncate rfl))
  rcases hcases with rfl | rfl
  · exact ⟨a, Steady.refl ha, h.stands.congr rfl rfl rfl, fun h => by simp at h⟩
  · obtain ⟨b, hb, hst, hact⟩ := exists_extend_node ha h.stands h.tracks.config h.tracks.views hr
      h.out h.clean hx hxt hm (c := c) rfl
    exact ⟨b, hb, hst, fun _ => hact⟩

/-- A conflicting tail goes first, as much of it as the driver comes to cut. -/
theorem Poised.handles_replace (ha : Sound M.quorums a) (h : Poised M a i n l d)
    (hr : n.role = .follower) (hx : Attaches a x e p l) (hlt : x.start < endFrom 0 l)
    (hne : termAt l x.start ≠ Stamped.term e) (hxt : x.term = n.hard.term)
    (hm : Node.confirmedEnd m = x.confirmed)
    (hn' : n' = ((n.truncated (endFrom 0 p)).orderAppend.appended (base e) (stop e)
      (Stamped.term e)).withCommit c) :
    Handles M a i (n'.say [n'.confirmMessage m]) (some e) l d := by
  subst hn'
  intro l' hl'
  have hfront := hx.front
  have hbase := hx.begins
  have hextent := hx.extent
  have hl : Tiles 0 l := h.stands.log ▸ ha.inv.tiles i
  have hcut : upTo l (endFrom 0 p) = p := hl.upTo_eq hx.isPrefix
  have hready : ∀ ready : Ready, ready.truncateFrom = some (endFrom 0 p) →
      ready.appendEntry = true → carryOutLogOrders ready (some e) l = p ++ [e] := by
    intro ready h₁ h₂
    simp [carryOutLogOrders, h₁, h₂, truncateTo, hcut]
  have htrim : ∀ q, p <+: q → q <+: l →
      ∃ b, Steady M.quorums i a b ∧ b.view i = { a.view i with log := q } := by
    intro q hpq hql
    refine exists_trim (m := x) (e := e) ha hx.sent (by rw [h.stands.term, hxt])
      (by rw [h.stands.role, Role.abs_eq_follower, hr]) (by rw [h.stands.log]; exact hx.agrees)
      hx.entry ?_ ?_ ?_ ?_ <;> rw [h.stands.log]
    · exact hlt
    · exact hne
    · rw [← hfront, hcut]
      exact hpq
    · exact hql
  rw [hready _ rfl rfl]
  have hcases : (p <+: l' ∧ l' <+: l) ∨ l' = p ++ [e] := by
    rcases hl' with ⟨h₁, h₂⟩ | h'
    · refine .inl ⟨?_, h₂⟩
      rw [← hcut]
      exact h₁
    · exact .inr (h'.trans (hready _ rfl rfl))
  rcases hcases with ⟨h₁, h₂⟩ | rfl
  · obtain ⟨b, hb, hview⟩ := htrim l' h₁ h₂
    have hstb := h.stands.setLog hview
    refine ⟨b, hb, hstb.congr rfl rfl rfl, ?_⟩
    -- the log does not hold the batch it conflicts with
    rintro rfl
    have hcov := hl.cover_eq (i := x.start) h₂ (by omega) (by omega)
    rw [termAt, hcov] at hne
    exact absurd rfl hne
  · obtain ⟨b, hb, hview⟩ := htrim p (List.prefix_refl p) hx.isPrefix
    have hstb : Stands b i (n.truncated (endFrom 0 p)) p d :=
      (h.stands.setLog hview).congr rfl rfl rfl
    have hagrees : x.Matches p :=
      hx.agrees.congr hl hx.isPrefix (List.prefix_refl p) (hl.of_isPrefix hx.isPrefix) hfront.ge
    have hattaches : Attaches b x e p p :=
      { hx with sent := hb.grows.appends hx.sent, agrees := hagrees, isPrefix := List.prefix_rfl }
    obtain ⟨b₂, hb₂, hst₂, hact⟩ := exists_extend_node hb.sound hstb h.tracks.config
      (h.tracks.views.truncated hl hx.isPrefix) hr h.out h.clean hattaches hxt hm (c := c) rfl
    exact ⟨b₂, hb.trans hb₂, hst₂, fun _ => hact⟩

end Attached

private theorem handles_appendEntries (ha : Sound M.quorums a) (h : Poised M a i n l d)
    {env : Envelope} (hc : Carried M a env) (ht : env.message.type = .appendEntries)
    (hterm : n.hard.term = env.message.term) (draw : Nat) :
    Handles M a i (n.handleAppendEntries draw env.message) env.entry l d := by
  rcases Node.handleAppendEntries_cases n draw env.message with ⟨-, heq⟩ | ⟨-, heq⟩ |
    ⟨-, hmat, heq⟩
  · rw [heq]
    exact h.handles_self ha
  · obtain ⟨b, hb, hpb⟩ := h.becomeFollower ha draw env.message.term env.message.sender
    rw [heq]
    refine Handles.of_steady hb (hpb.handles_say hb.sound fun m hm => ?_)
    obtain rfl := List.mem_singleton.1 hm
    exact ⟨rfl, rfl, .refusal (.inr rfl) rfl⟩
  obtain ⟨b, hb, hpb⟩ := h.becomeFollower ha draw env.message.term env.message.sender
  rw [heq]
  have hrole : (n.becomeFollower draw env.message.term env.message.sender).role =
    .follower := rfl
  have hft : (n.becomeFollower draw env.message.term env.message.sender).hard.term =
      env.message.term := by
    rw [Node.becomeFollower_hard, if_neg (by omega), hterm]
  generalize n.becomeFollower draw env.message.term env.message.sender = f
    at hmat hpb hrole hft ⊢
  refine Handles.of_steady hb ?_
  clear heq h
  obtain ⟨c, hcommit⟩ := Node.adoptCommit_eq (f.acceptEntry env.message) env.message
  rw [hcommit]
  obtain ⟨x, hx, henc⟩ := (hc.mono hb.grows).append ht
  have hsound := hb.sound
  have hv := hpb.tracks.views
  have hl : Tiles 0 l := hpb.stands.log ▸ hsound.inv.tiles i
  have hmt := matches_iff hv hl henc hmat
  have hxt : x.term = f.hard.term := henc.term.trans hft.symm
  cases hent : env.entry with
  | none =>
      have hidx := henc.heartbeat hent
      have hxe : x.entry = none := henc.entry.trans hent
      have hacc : f.acceptEntry env.message = f := by simp [Node.acceptEntry, hidx]
      have hconf : Node.confirmedEnd env.message = x.confirmed := by
        simp [Node.confirmedEnd, hidx, Replication.Append.confirmed, hxe, henc.start]
      rw [hacc]
      exact (hpb.withCommit c).handles_confirm hsound hx hxt hmt (by simp [hxe]) hconf
  | some e =>
      have hxe : x.entry = some e := henc.entry.trans hent
      have hlog : b.log i = l := hpb.stands.log
      obtain ⟨p, hattaches, -⟩ := exists_attaches hsound hlog hx hmt hxe
      have hconf : Node.confirmedEnd env.message = x.confirmed := by
        rw [hattaches.confirmedEnd henc, Replication.Append.confirmed, hxe]
      rcases hattaches.acceptEntry_cases henc hsound hlog (by simp [hrole]) hv with
        ⟨hacc, hlt, hta⟩ | ⟨rfl, hacc⟩ | ⟨hlt, hne, hacc⟩
      · rw [hacc]
        refine (hpb.withCommit c).handles_confirm hsound hx hxt hmt (fun e' he' => ?_) hconf
        obtain rfl : e = e' := by
          rw [hxe] at he'
          exact Option.some.inj he'
        exact ⟨hlt, hta⟩
      · exact hpb.handles_extend hsound hrole hattaches hxt hconf (by rw [hacc])
      · exact hpb.handles_replace hsound hrole hattaches hlt hne hxt hconf (by rw [hacc])

/-! ## Any message -/

theorem Poised.observeTerm (ha : Sound M.quorums a) (h : Poised M a i n l d) (draw : Nat)
    (m : Message) :
    ∃ b, Steady M.quorums i a b ∧ Poised M b i (n.observeTerm draw m) l d := by
  rcases Node.observeTerm_cases n draw m with ⟨-, heq⟩ | ⟨-, leader, heq⟩
  · rw [heq]
    exact ⟨a, Steady.refl ha, h⟩
  · rw [heq]
    exact h.becomeFollower ha draw m.term leader

private theorem handles_stale (ha : Sound M.quorums a) (h : Poised M a i n l d) (m : Message)
    {entry : Option Batch} : Handles M a i (n.answerStale m) entry l d := by
  unfold Node.answerStale
  split
  · refine h.handles_say ha fun m' hm' => ?_
    obtain rfl := List.mem_singleton.1 hm'
    exact ⟨rfl, rfl, .refusal (.inl rfl) rfl⟩
  · refine h.handles_say ha fun m' hm' => ?_
    obtain rfl := List.mem_singleton.1 hm'
    exact ⟨rfl, rfl, .refusal (.inr rfl) rfl⟩
  · exact h.handles_self ha
  · exact h.handles_self ha

/-- Whatever message of the protocol a settled member is handed, the protocol
follows. -/
theorem handles_step (hi : i ∈ M.members) (ha : Sound M.quorums a) {r : Replica}
    (hs : Settled M a i r) {env : Envelope} (hc : Carried M a env)
    (hto : env.message.target = i) (draw : Nat) :
    Handles M a i (r.node.step draw env.message) env.entry r.log r.durable := by
  have h := hs.poised
  have hv := h.tracks.views
  rcases Node.step_cases r.node draw env.message with ⟨-, k, heq⟩ | ⟨-, heq⟩ | ⟨hterm, heq⟩
  · rw [heq]
    exact (h.aside r.node.electionElapsed k r.node.commitIndex).handles_self ha
  · obtain ⟨b, hb, hp⟩ := h.observeTerm ha draw env.message
    rw [heq]
    exact .of_steady hb (handles_stale hb.sound hp env.message)
  · obtain ⟨b, hb, hp⟩ := h.observeTerm ha draw env.message
    rw [heq]
    refine .of_steady hb ?_
    have hcb := hc.mono hb.grows
    unfold Node.handle
    split
    case h_1 ht => exact handles_requestVote hb.sound hp hcb ht hterm
    case h_2 ht => exact handles_requestVoteResponse hi hb.sound hp hcb ht hto hterm
    case h_3 ht => exact handles_appendEntries hb.sound hp hcb ht hterm draw
    case h_4 ht => exact handles_appendEntriesResponse hb.sound hp hcb ht hterm

private theorem exists_delivery (hi : i ∈ M.members) (ha : Sound M.quorums a) {r : Replica}
    (hs : Settled M a i r) {env : Envelope} (hc : Carried M a env)
    (hto : env.message.target = i) (draw : Nat) :
    ∃ b, Steady M.quorums i a b ∧ Settled M b i (r.deliver draw env).1 ∧
      ∀ e ∈ (r.deliver draw env).2, Carried M b e := by
  obtain ⟨b, hb, -, hact⟩ := handles_step hi ha hs hc hto draw _ (.inr rfl)
  obtain ⟨c, hbc, hset, hall⟩ := exists_drive env.entry
    (r := { r with node := r.node.step draw env.message }) hi hb.sound rfl (hact rfl)
  exact ⟨c, hb.trans hbc, hset, hall⟩

private theorem exists_crash (hi : i ∈ M.members) (ha : Sound M.quorums a) {r : Replica}
    (hs : Settled M a i r) {env : Envelope} (hc : Carried M a env)
    (hto : env.message.target = i) (draw : Nat) {l' : List Batch}
    (hl' : Interrupted (r.orders draw env) env.entry r.log l') :
    ∃ b, Acts M.quorums i a b ∧
      (r.durable.term = (r.node.step draw env.message).hard.term → Standing a → Standing b) ∧
      Settled M b i (.restart (M.config i) draw l' r.durable) := by
  obtain ⟨b, hb, hst, -⟩ := handles_step hi ha hs hc hto draw l' hl'
  obtain ⟨c, hbc, hstanding, hset⟩ := exists_reboot hb.sound hst draw
  exact ⟨c, hb.toActs.trans hbc, fun h hs => hstanding h (hb.standing hs), hset⟩

/-! ## Terms -/

/-- A message of the node's own term leaves the term. -/
theorem Node.handle_term {n : Node} {m : Message} (h : n.hard.term = m.term) (draw : Nat) :
    (n.handle draw m).hard.term = n.hard.term := by
  have hfollow : (n.becomeFollower draw m.term m.sender).hard = n.hard := by
    rw [n.becomeFollower_hard, if_neg (by omega)]
  unfold Node.handle
  split
  · rcases n.handleRequestVote_cases m with heq | ⟨-, -, heq⟩ | ⟨-, -, heq⟩ <;> rw [heq] <;> rfl
  · rcases n.handleRequestVoteResponse_cases m with heq | ⟨-, -, ⟨-, heq⟩ | heq⟩ <;> rw [heq]
    · rw [Node.becomeLeader_eq]
      rfl
    · rfl
  · rcases n.handleAppendEntries_cases draw m with ⟨-, heq⟩ | ⟨-, heq⟩ | ⟨-, -, heq⟩ <;> rw [heq]
    · exact congrArg HardState.term hfollow
    · obtain ⟨hh, -⟩ := Node.acceptEntry_ballot (n.becomeFollower_role draw m.term m.sender) m
      obtain ⟨c, hc⟩ :=
        Node.adoptCommit_eq ((n.becomeFollower draw m.term m.sender).acceptEntry m) m
      rw [hc]
      exact congrArg HardState.term (hh.trans hfollow)
  · rcases n.handleAppendEntriesResponse_cases m with
      ⟨-, heq⟩ | ⟨-, -, heq⟩ | ⟨-, -, n', ms, hn', heq, -⟩ <;> rw [heq]
    · rfl
    · obtain ⟨f, g, hfg⟩ := n.noteConfirmed_eq m.sender (min (indexValue m.logIndex) n.logEnd)
      obtain ⟨c, hc⟩ := Node.advanceCommitIndex_eq
        (n.noteConfirmed m.sender (min (indexValue m.logIndex) n.logEnd))
      rw [hn', hc, hfg]
      rfl

/-- A message of an earlier term, or of the node's own, leaves the term. -/
theorem Node.step_term_eq {n : Node} {m : Message} (h : m.term ≤ n.hard.term) (draw : Nat) :
    (n.step draw m).hard.term = n.hard.term := by
  have hsame : n.observeTerm draw m = n := by
    rcases n.observeTerm_cases draw m with ⟨-, heq⟩ | ⟨hlt, -⟩
    · exact heq
    · omega
  rcases n.step_cases draw m with ⟨-, k, heq⟩ | ⟨-, heq⟩ | ⟨hterm, heq⟩ <;> rw [heq]
  · rw [hsame]
    unfold Node.answerStale
    split <;> rfl
  · rw [hsame] at hterm ⊢
    exact Node.handle_term hterm draw

/-! ## The whole cluster -/

/-- What an action does to member `i`, the one that acts. -/
inductive Outcome (M : Membership) (s : Cluster) (i : Nat) :
    Action → Replica × List Envelope → Prop
  | tick (draw : Nat) : Outcome M s i (.tick i draw) ((s.replica i).tick draw)
  | deliver {k : Nat} {env : Envelope} (draw : Nat) (henv : s.sent[k]? = some env)
      (hto : env.message.target = i) :
      Outcome M s i (.deliver k draw) ((s.replica i).deliver draw env)
  | propose {records : List Record} (hne : records ≠ []) :
      Outcome M s i (.propose i records) ((s.replica i).propose records)
  | restart (draw : Nat) : Outcome M s i (.restart i draw)
      (.restart (M.config i) draw (s.replica i).log (s.replica i).durable, [])
  | crash {k : Nat} {env : Envelope} {log : List Batch} (draw : Nat)
      (henv : s.sent[k]? = some env) (hto : env.message.target = i)
      (hlog : Interrupted ((s.replica i).orders draw env) env.entry (s.replica i).log log) :
      Outcome M s i (.crash k draw log)
        (.restart (M.config i) draw log (s.replica i).durable, [])

/-- Every step of a cluster is one member acting. -/
theorem Refines.outcome {s t : Cluster} (h : Refines M a s) {act : Action}
    (hn : s.next M act = some t) :
    ∃ i ∈ M.members, ∃ o, Outcome M s i act o ∧ t = s.act i o := by
  cases act with
  | tick i draw =>
      simp only [Cluster.next, Option.ite_none_right_eq_some, Option.some.injEq] at hn
      exact ⟨i, hn.1, _, .tick draw, hn.2.symm⟩
  | deliver k draw =>
      simp only [Cluster.next] at hn
      split at hn
      · cases hn
      case h_2 env henv =>
        exact ⟨_, (h.sent env (List.mem_of_getElem? henv)).target_mem, _,
          .deliver draw henv rfl, (Option.some.inj hn).symm⟩
  | propose i records =>
      simp only [Cluster.next, Option.ite_none_right_eq_some, Option.some.injEq] at hn
      exact ⟨i, hn.1.1, _, .propose hn.1.2, hn.2.symm⟩
  | restart i draw =>
      simp only [Cluster.next, Option.ite_none_right_eq_some, Option.some.injEq] at hn
      exact ⟨i, hn.1, _, .restart draw, hn.2.symm⟩
  | crash k draw log =>
      simp only [Cluster.next] at hn
      split at hn
      · cases hn
      case h_2 env henv =>
        simp only [Option.ite_none_right_eq_some, Option.some.injEq] at hn
        exact ⟨_, (h.sent env (List.mem_of_getElem? henv)).target_mem, _,
          .crash draw henv rfl hn.1, hn.2.symm⟩

/-- Nobody loses power while carrying out the orders of a message of a later term. -/
def Cluster.KeepsTerm (s : Cluster) : Action → Prop
  | .crash k _ _ => ∀ env ∈ s.sent[k]?,
      env.message.term ≤ (s.replica env.message.target).node.hard.term
  | _ => True

/-- Whatever a member does, the protocol follows. -/
theorem Outcome.acts {s : Cluster} (h : Refines M a s) (hi : i ∈ M.members) {act : Action}
    {o : Replica × List Envelope} (ho : Outcome M s i act o) :
    ∃ b, Acts M.quorums i a b ∧ (s.KeepsTerm act → Standing a → Standing b) ∧
      Settled M b i o.1 ∧ ∀ env ∈ o.2, Carried M b env := by
  have hs := h.member i hi
  cases ho with
  | tick draw =>
      obtain ⟨b, hb, hset⟩ := exists_tick hi h.sound hs draw
      exact ⟨b, hb.toActs, fun _ => hb.standing, hset⟩
  | deliver draw henv hto =>
      obtain ⟨b, hb, hset⟩ :=
        exists_delivery hi h.sound hs (h.sent _ (List.mem_of_getElem? henv)) hto draw
      exact ⟨b, hb.toActs, fun _ => hb.standing, hset⟩
  | propose hne =>
      obtain ⟨b, hb, hset⟩ := exists_proposal hi h.sound hs hne
      exact ⟨b, hb.toActs, fun _ => hb.standing, hset⟩
  | restart draw =>
      obtain ⟨b, hb, hstanding, hset⟩ := exists_reboot h.sound hs.stands draw
      exact ⟨b, hb, fun _ => hstanding (congrArg HardState.term hs.durable), hset, by simp⟩
  | crash draw henv hto hlog =>
      obtain ⟨b, hb, hstanding, hset⟩ := exists_crash hi h.sound hs
        (h.sent _ (List.mem_of_getElem? henv)) hto draw hlog
      refine ⟨b, hb, fun hkeep => hstanding ?_, hset, by simp⟩
      have hle := hkeep _ henv
      rw [hto] at hle
      rw [hs.durable, Node.step_term_eq hle]

/-- Every step of the cluster is one member acting in the protocol, and what is
confirmed still stands unless a member falls back to an earlier term. -/
theorem Refines.next_standing {s t : Cluster} (h : Refines M a s) {act : Action}
    (hn : s.next M act = some t) :
    ∃ b, Grows a b ∧ (s.KeepsTerm act → Standing a → Standing b) ∧ Refines M b t := by
  obtain ⟨i, hi, o, ho, rfl⟩ := h.outcome hn
  obtain ⟨b, hb, hstanding, hset, hall⟩ := ho.acts h hi
  refine ⟨b, hb.grows, hstanding, hb.sound, fun j hj => ?_, fun env henv => ?_⟩
  · by_cases hji : j = i
    · subst hji
      simpa [Cluster.act] using hset
    · simpa [Cluster.act, hji] using (h.member j hj).frame hb hji
  · rcases List.mem_append.1 henv with henv | henv
    · exact (h.sent env henv).mono hb.grows
    · exact hall env henv

theorem Refines.next {s t : Cluster} (h : Refines M a s) {act : Action}
    (hn : s.next M act = some t) : ∃ b, Grows a b ∧ Refines M b t := by
  obtain ⟨b, hb, -, ht⟩ := h.next_standing hn
  exact ⟨b, hb, ht⟩

/-- A cluster nobody has used yet is in the protocol's initial state. -/
theorem refines_initial {s : Cluster} (h : s.Initial M) :
    Refines M Replication.init s := by
  refine ⟨sound_init _, fun i _ => ?_, by simp [h.1]⟩
  obtain ⟨draw, hr⟩ := h.2 i
  rw [hr]
  exact
    { stands := ⟨rfl, rfl, rfl, nofun, rfl⟩
      tracks := ⟨rfl, ⟨rfl, rfl, rfl⟩, nofun, nofun, nofun, nofun⟩
      durable := rfl
      clean := rfl
      out := rfl
      pendingTruncate := rfl
      pendingAppend := rfl }

/-- Any run of the cluster is a run of the protocol. -/
theorem Refines.steps {s t : Cluster} (h : Refines M a s) (hs : s.Steps M t) :
    ∃ b, Grows a b ∧ Refines M b t := by
  induction hs with
  | refl => exact ⟨a, Grows.refl a, h⟩
  | tail _ hstep ih =>
      obtain ⟨b, hb, hrb⟩ := ih
      obtain ⟨act, hn⟩ := hstep
      obtain ⟨c, hc, hrc⟩ := hrb.next hn
      exact ⟨c, hb.trans hc, hrc⟩

theorem Cluster.Reachable.refines {s : Cluster} (h : s.Reachable M) :
    ∃ a, Refines M a s := by
  obtain ⟨s₀, h₀, hs⟩ := h
  obtain ⟨a, -, ha⟩ := (refines_initial h₀).steps hs
  exact ⟨a, ha⟩

end LogEngine.Raft
