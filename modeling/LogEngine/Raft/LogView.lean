import LogEngine.Raft.Announce

/-!
# What an operation does to a node's log and commit index

A node describes its log by an end, a last term and an epoch map, and tells its driver to
cut or to append to it.  `step_outcome` says once what a message does to all that and to the
commit index: nothing, and then no append is confirmed (`Keeps`), or a leader counts
(`Advances`), or a follower takes an append (`Accepts`, `Follows`).

* `acceptEntry_log`: of the entry in such an append the node takes nothing, or appends it
  where its log ends, or cuts the log where the entry begins and appends it there;
* `step_moves`: both together, for the view of the log alone (`SameLog`).
-/

namespace LogEngine.Raft

/-- An append is confirmed. -/
def Message.Confirms (m : Message) : Prop :=
  m.type = .appendEntriesResponse ∧ m.granted = true

theorem Message.not_confirms_of_refusal {m : Message} (h : m.granted = false) : ¬ m.Confirms :=
  fun hc => Bool.noConfusion (h.symm.trans hc.2)

namespace Node

/-- The view of the log, and the orders for it, are as they were. -/
structure SameLog (n n' : Node) : Prop where
  logEnd : n'.logEnd = n.logEnd
  lastTerm : n'.lastTerm = n.lastTerm
  epochs : n'.epochs = n.epochs
  pendingTruncate : n'.pendingTruncate = n.pendingTruncate
  pendingAppend : n'.pendingAppend = n.pendingAppend

theorem SameLog.refl (n : Node) : n.SameLog n := ⟨rfl, rfl, rfl, rfl, rfl⟩

theorem SameLog.trans {n n' n'' : Node} (h : n.SameLog n') (h' : n'.SameLog n'') :
    n.SameLog n'' where
  logEnd := h'.logEnd.trans h.logEnd
  lastTerm := h'.lastTerm.trans h.lastTerm
  epochs := h'.epochs.trans h.epochs
  pendingTruncate := h'.pendingTruncate.trans h.pendingTruncate
  pendingAppend := h'.pendingAppend.trans h.pendingAppend

/-- The view of the log, the orders for it and the commit index are as they were, the term
has not gone back, and nothing is confirmed. -/
structure Keeps (n n' : Node) : Prop extends SameLog n n' where
  commitIndex : n'.commitIndex = n.commitIndex
  term : n.hard.term ≤ n'.hard.term
  quiet : ∀ x ∈ n'.out, x ∈ n.out ∨ ¬ x.Confirms

theorem Keeps.refl (n : Node) : n.Keeps n := ⟨.refl n, rfl, le_rfl, fun _ => .inl⟩

theorem Keeps.trans {n n' n'' : Node} (h : n.Keeps n') (h' : n'.Keeps n'') :
    n.Keeps n'' where
  toSameLog := h.toSameLog.trans h'.toSameLog
  commitIndex := h'.commitIndex.trans h.commitIndex
  term := h.term.trans h'.term
  quiet x hx := (h'.quiet x hx).elim (h.quiet x) .inr

theorem Keeps.say {n n' : Node} (h : n.Keeps n') {ms : List Message}
    (hms : ∀ x ∈ ms, ¬ x.Confirms) : n.Keeps (n'.say ms) where
  toSameLog := h.toSameLog.trans ⟨rfl, rfl, rfl, rfl, rfl⟩
  commitIndex := h.commitIndex
  term := h.term
  quiet x hx := (List.mem_append.1 hx).elim (h.quiet x) fun hx => .inr (hms x hx)

/-- Nothing the node has to say confirms an append. -/
def Unconfirming (n : Node) : Prop := ∀ m ∈ n.out, ¬ m.Confirms

theorem Keeps.unconfirming {n n' : Node} (h : n.Keeps n') (hout : n.out = []) :
    n'.Unconfirming := by
  intro x hx
  refine (h.quiet x hx).resolve_left fun hold => ?_
  rw [hout] at hold
  cases hold

private theorem not_confirms_appends (n : Node) (peers : List Nat) :
    ∀ x ∈ peers.map n.appendMessage, ¬ x.Confirms := by
  intro x hx
  obtain ⟨peer, -, rfl⟩ := List.mem_map.1 hx
  exact fun h => MessageType.noConfusion h.1

theorem keeps_becomeFollower (n : Node) (draw T leader : Nat) :
    n.Keeps (n.becomeFollower draw T leader) := by
  unfold becomeFollower
  split
  case isTrue h => exact ⟨⟨rfl, rfl, rfl, rfl, rfl⟩, rfl, h.le, fun _ => .inl⟩
  case isFalse => exact ⟨⟨rfl, rfl, rfl, rfl, rfl⟩, rfl, le_rfl, fun _ => .inl⟩

private theorem keeps_becomeCandidate (n : Node) (draw : Nat) :
    n.Keeps (n.becomeCandidate draw) :=
  ⟨⟨rfl, rfl, rfl, rfl, rfl⟩, rfl, Nat.le_succ _, fun _ => .inl⟩

theorem keeps_becomeLeader (n : Node) : n.Keeps n.becomeLeader := by
  have hoffice : n.Keeps n.takeOffice :=
    ⟨⟨rfl, rfl, rfl, rfl, rfl⟩, rfl, le_rfl, fun _ => .inl⟩
  rw [becomeLeader_eq]
  exact hoffice.say (not_confirms_appends _ _)

theorem keeps_observeTerm (n : Node) (draw : Nat) (m : Message) :
    n.Keeps (n.observeTerm draw m) := by
  rcases observeTerm_cases n draw m with ⟨-, heq⟩ | ⟨-, leader, heq⟩ <;> rw [heq]
  · exact .refl n
  · exact keeps_becomeFollower n draw m.term leader

theorem keeps_tick (n : Node) (draw : Nat) : n.Keeps (n.tick draw) := by
  have hrest : ∀ e h, n.Keeps { n with electionElapsed := e, heartbeatElapsed := h } :=
    fun _ _ => ⟨⟨rfl, rfl, rfl, rfl, rfl⟩, rfl, le_rfl, fun _ => .inl⟩
  rcases tick_cases n draw with ⟨e, h, heq⟩ | ⟨-, h, heq⟩ | ⟨-, e, heq⟩ <;> rw [heq]
  · exact hrest e h
  · exact (hrest n.electionElapsed h).say (not_confirms_appends n _)
  · have hc := (hrest e n.heartbeatElapsed).trans
      (keeps_becomeCandidate { n with electionElapsed := e } draw)
    rw [campaign_eq]
    split
    · exact hc.trans (keeps_becomeLeader _)
    · refine hc.say fun x hx => ?_
      obtain ⟨peer, -, rfl⟩ := List.mem_map.1 hx
      exact fun h => MessageType.noConfusion h.1

private theorem keeps_answerStale (n : Node) (m : Message) : n.Keeps (n.answerStale m) := by
  have hrefusal : ∀ type, ∀ x ∈ [n.replyMessage m type false], ¬ x.Confirms := by
    intro type x hx
    rw [List.mem_singleton.1 hx]
    exact Message.not_confirms_of_refusal rfl
  unfold answerStale
  split
  · exact (Keeps.refl n).say (hrefusal _)
  · exact (Keeps.refl n).say (hrefusal _)
  · exact .refl n
  · exact .refl n

private theorem keeps_handleRequestVote (n : Node) (m : Message) :
    n.Keeps (n.handleRequestVote m) := by
  have hanswer : ∀ granted,
      ∀ x ∈ [n.replyMessage m .requestVoteResponse granted], ¬ x.Confirms := by
    intro granted x hx
    rw [List.mem_singleton.1 hx]
    exact fun h => MessageType.noConfusion h.1
  rcases handleRequestVote_cases n m with heq | ⟨-, -, heq⟩ | ⟨-, -, heq⟩ <;> rw [heq]
  · exact (Keeps.refl n).say (hanswer false)
  · have hrest : n.Keeps n.rested := ⟨⟨rfl, rfl, rfl, rfl, rfl⟩, rfl, le_rfl, fun _ => .inl⟩
    exact hrest.say (hanswer true)
  · have hvote : n.Keeps (n.withVote m.sender).rested :=
      ⟨⟨rfl, rfl, rfl, rfl, rfl⟩, rfl, le_rfl, fun _ => .inl⟩
    exact hvote.say (hanswer true)

private theorem keeps_handleRequestVoteResponse (n : Node) (m : Message) :
    n.Keeps (n.handleRequestVoteResponse m) := by
  have hcount : n.Keeps (n.countVote m.sender) :=
    ⟨⟨rfl, rfl, rfl, rfl, rfl⟩, rfl, le_rfl, fun _ => .inl⟩
  rcases handleRequestVoteResponse_cases n m with heq | ⟨-, -, ⟨-, heq⟩ | heq⟩ <;> rw [heq]
  · exact .refl n
  · exact hcount.trans (keeps_becomeLeader (n.countVote m.sender))
  · exact hcount

private theorem keeps_rejectAppend (n : Node) (m : Message) : n.Keeps (n.rejectAppend m) := by
  refine (Keeps.refl n).say fun x hx => ?_
  rw [List.mem_singleton.1 hx]
  exact Message.not_confirms_of_refusal rfl

/-! ## Counting -/

/-- The rule by which a leader commits: the commit index is the highest end that a
quorum has reached, and the record before it is of the leader's own term. -/
structure Committing (n : Node) : Prop where
  quorum : n.commitIndex = n.sortedEnds.getD (n.config.quorum - 1) 0
  pos : 0 < n.commitIndex
  own : n.termAt (n.commitIndex - 1) = n.hard.term

/-- The commit index has been raised by counting, and nothing else has happened
that bears on it. -/
structure Advances (n n' : Node) : Prop extends SameLog n n' where
  lt : n.commitIndex < n'.commitIndex
  role : n'.role = .leader
  committing : n'.Committing
  quiet : ∀ x ∈ n'.out, x ∈ n.out ∨ ¬ x.Confirms

theorem Advances.say {n n' : Node} (h : n.Advances n') {ms : List Message}
    (hms : ∀ x ∈ ms, ¬ x.Confirms) : n.Advances (n'.say ms) where
  toSameLog := h.toSameLog.trans ⟨rfl, rfl, rfl, rfl, rfl⟩
  lt := h.lt
  role := h.role
  committing := ⟨h.committing.quorum, h.committing.pos, h.committing.own⟩
  quiet x hx := (List.mem_append.1 hx).elim (h.quiet x) fun hx => .inr (hms x hx)

theorem Keeps.advances {n k n' : Node} (h : n.Keeps k) (h' : k.Advances n') :
    n.Advances n' where
  toSameLog := h.toSameLog.trans h'.toSameLog
  lt := h.commitIndex ▸ h'.lt
  role := h'.role
  committing := h'.committing
  quiet x hx := (h'.quiet x hx).elim (h.quiet x) .inr

theorem advanceCommitIndex_cases (n : Node) :
    n.advanceCommitIndex = n ∨ n.Advances n.advanceCommitIndex := by
  unfold advanceCommitIndex
  by_cases hr : n.role = .leader
  case neg => exact .inl (if_pos hr)
  rw [if_neg (not_not.2 hr)]
  dsimp only
  split
  case isTrue => exact .inl rfl
  case isFalse hlt =>
    split
    case isTrue => exact .inl rfl
    case isFalse hown =>
      have hlt' := not_le.1 hlt
      exact .inr ⟨⟨rfl, rfl, rfl, rfl, rfl⟩, hlt', hr,
        ⟨rfl, (Nat.zero_le _).trans_lt hlt', not_not.1 hown⟩, fun _ => .inl⟩

/-- A confirmation either leaves the commit index or raises it by counting. -/
theorem handleAppendEntriesResponse_outcome (n : Node) (m : Message) :
    n.Keeps (n.handleAppendEntriesResponse m) ∨
      n.Advances (n.handleAppendEntriesResponse m) := by
  have hpeer : ∀ f g, n.Keeps { n with match_ := f, next_ := g } :=
    fun _ _ => ⟨⟨rfl, rfl, rfl, rfl, rfl⟩, rfl, le_rfl, fun _ => .inl⟩
  rcases handleAppendEntriesResponse_cases n m with ⟨-, heq⟩ | ⟨-, -, heq⟩ |
    ⟨-, -, n', ms, hn', heq, hms⟩ <;> rw [heq]
  · exact .inl (.refl n)
  · exact .inl ((hpeer n.match_ _).say (not_confirms_appends _ [m.sender]))
  · obtain ⟨f, g, hfg⟩ := noteConfirmed_eq n m.sender (min (indexValue m.logIndex) n.logEnd)
    have hquiet : ∀ x ∈ ms, ¬ x.Confirms := by
      intro x hx
      rw [hms x hx]
      exact fun h => MessageType.noConfusion h.1
    rw [hn', hfg]
    rcases advanceCommitIndex_cases { n with match_ := f, next_ := g } with hadv | hadv
    · rw [hadv]
      exact .inl ((hpeer f g).say hquiet)
    · exact .inr (((hpeer f g).advances hadv).say hquiet)

/-! ## Appends of a leader -/

theorem logAppended_log {n : Node} (hr : n.role = .leader) (index stop term : Nat) :
    (n.appended index stop term).SameLog (n.logAppended index stop term) := by
  obtain ⟨c, hc⟩ := advanceCommitIndex_eq (n.appended index stop term)
  rw [logAppended_leader hr, hc]
  exact ⟨rfl, rfl, rfl, rfl, rfl⟩

theorem unconfirming_logAppended {n : Node} (hout : n.out = []) (hr : n.role = .leader)
    (index stop term : Nat) : (n.logAppended index stop term).Unconfirming := by
  obtain ⟨c, hc⟩ := advanceCommitIndex_eq (n.appended index stop term)
  rw [logAppended_leader hr, hc]
  intro m hm
  rw [say_out, show (withCommit (n.appended index stop term) c).out = [] from hout,
    List.nil_append] at hm
  obtain ⟨p, -, hp⟩ := List.mem_flatMap.1 hm
  split at hp
  · rw [List.mem_singleton.1 hp]
    exact fun h => MessageType.noConfusion h.1
  · cases hp

/-! ## Adopting -/

/-- The node accepts the append `m`: it is of no earlier term, the node does not
lead that term itself, and it holds the record before the place of the entry. -/
structure Accepts (n : Node) (m : Message) : Prop where
  type : m.type = .appendEntries
  term : n.hard.term ≤ m.term
  office : ¬ (n.role = .leader ∧ n.hard.term = m.term)
  matches_ : n.matches_ m = true

instance (n : Node) (m : Message) : Decidable (n.Accepts m) :=
  decidable_of_iff (m.type = .appendEntries ∧ n.hard.term ≤ m.term ∧
      ¬ (n.role = .leader ∧ n.hard.term = m.term) ∧ n.matches_ m = true)
    ⟨fun ⟨h₁, h₂, h₃, h₄⟩ => ⟨h₁, h₂, h₃, h₄⟩, fun ⟨h₁, h₂, h₃, h₄⟩ => ⟨h₁, h₂, h₃, h₄⟩⟩

/-- The follower that takes an accepted append: `n` in the message's term. -/
structure Follows (n f : Node) (m : Message) : Prop where
  keeps : n.Keeps f
  role : f.role = .follower
  term : f.hard.term = m.term
  out : f.out = n.out

private theorem follows_becomeFollower (n : Node) (draw : Nat) (m : Message)
    (hterm : (n.observeTerm draw m).hard.term = m.term) :
    n.Follows ((n.observeTerm draw m).becomeFollower draw m.term m.sender) m := by
  refine ⟨(keeps_observeTerm n draw m).trans (keeps_becomeFollower _ draw _ _), rfl, ?_,
    (becomeFollower_out _ _ _ _).trans (observeTerm_out n draw m)⟩
  rw [becomeFollower_hard, if_neg (by omega), hterm]

theorem Follows.notLeader {n f : Node} {m : Message} (h : n.Follows f m) : f.role ≠ .leader := by
  rw [h.role]
  exact fun hr => Role.noConfusion hr

theorem Follows.termAt {n f : Node} {m : Message} (h : n.Follows f m) :
    f.termAt = n.termAt := by
  funext k
  simp only [Node.termAt, h.keeps.logEnd, h.keeps.epochs]

theorem Follows.matches_ {n f : Node} {m : Message} (h : n.Follows f m) :
    f.matches_ m = n.matches_ m := by
  simp only [Node.matches_, h.keeps.logEnd, h.termAt]

/-- What a step does to the log and to the commit index: nothing, a leader counts, or a
follower takes an append. -/
theorem step_outcome (n : Node) (draw : Nat) (m : Message) :
    n.Keeps (n.step draw m) ∨ n.Advances (n.step draw m) ∨
      (n.Accepts m ∧ ∃ f, n.Follows f m ∧
        n.step draw m = ((f.acceptEntry m).adoptCommit m).say
          [((f.acceptEntry m).adoptCommit m).confirmMessage m]) := by
  have hobs := keeps_observeTerm n draw m
  rcases step_cases n draw m with ⟨-, k, heq⟩ | ⟨-, heq⟩ | ⟨hterm, heq⟩ <;> rw [heq]
  · exact .inl ⟨⟨rfl, rfl, rfl, rfl, rfl⟩, rfl, le_rfl, fun _ => .inl⟩
  · exact .inl (hobs.trans (keeps_answerStale _ m))
  unfold handle
  split
  case h_1 => exact .inl (hobs.trans (keeps_handleRequestVote _ m))
  case h_2 => exact .inl (hobs.trans (keeps_handleRequestVoteResponse _ m))
  case h_3 ht =>
    rcases handleAppendEntries_cases (n.observeTerm draw m) draw m with ⟨-, heq⟩ | ⟨-, heq⟩ |
      ⟨hr, hmat, heq⟩
    · rw [heq]
      exact .inl hobs
    · rw [heq]
      exact .inl ((hobs.trans (keeps_becomeFollower _ draw m.term m.sender)).trans
        (keeps_rejectAppend _ m))
    · have hf := follows_becomeFollower n draw m hterm
      refine .inr (.inr ⟨⟨ht, hterm ▸ hobs.term, ?_, hf.matches_ ▸ hmat⟩, _, hf, heq⟩)
      rintro ⟨hl, hn⟩
      rcases observeTerm_cases n draw m with ⟨-, heq'⟩ | ⟨hlt, -⟩
      · rw [heq'] at hr
        exact hr hl
      · omega
  case h_4 =>
    rcases observeTerm_cases n draw m with ⟨-, heq'⟩ | ⟨-, leader, heq'⟩
    · rw [heq']
      exact (handleAppendEntriesResponse_outcome n m).imp id .inl
    · -- a node that has just stepped down ignores a confirmation
      have hr : (n.observeTerm draw m).role ≠ .leader := by
        rw [heq']
        exact nofun
      rw [show (n.observeTerm draw m).handleAppendEntriesResponse m = n.observeTerm draw m
        from if_pos hr]
      exact .inl hobs

/-! ## The log -/

section Log

variable {n : Node} {m : Message}

/-- An append that a node agrees with begins inside its log or where it ends. -/
theorem appendAt_le (h : n.matches_ m = true) : appendAt m ≤ n.logEnd := by
  unfold matches_ at h
  unfold appendAt
  cases hi : m.logIndex with
  | none => exact Nat.zero_le _
  | some i =>
      rw [hi] at h
      simp only [Bool.and_eq_true, decide_eq_true_eq] at h
      exact h.1

private theorem lt_of_termAt {i : Nat} (h : n.termAt i ≠ kNoTerm) : i < n.logEnd := by
  unfold termAt at h
  by_contra hle
  exact h (if_pos (.inl (Nat.not_lt.1 hle)))

/-- What a follower does with the entry of an append it agrees with. -/
theorem acceptEntry_log (hr : n.role ≠ .leader) (h : n.matches_ m = true) :
    (n.acceptEntry m = n ∧ ∀ i ∈ m.entryIndex, appendAt m < n.logEnd ∧
        (n.termAt (appendAt m) = kNoTerm ∨ n.termAt (appendAt m) = m.entryTerm)) ∨
      (∃ i ∈ m.entryIndex, n.logEnd = appendAt m ∧ n.acceptEntry m =
        n.orderAppend.appended (appendAt m) (entryEndOf m i) m.entryTerm) ∨
      ∃ i ∈ m.entryIndex, appendAt m < n.logEnd ∧ n.acceptEntry m =
        (n.truncated (appendAt m)).orderAppend.appended (appendAt m) (entryEndOf m i)
          m.entryTerm := by
  have hle := appendAt_le h
  unfold acceptEntry
  cases hi : m.entryIndex with
  | none => exact .inl ⟨rfl, fun i hi' => by cases hi'⟩
  | some i =>
      dsimp only
      by_cases hcut : n.termAt (appendAt m) ≠ kNoTerm ∧ n.termAt (appendAt m) ≠ m.entryTerm
      · have htail : n.truncateTail (appendAt m) m.entryTerm = n.truncated (appendAt m) :=
          if_pos hcut
        refine .inr (.inr ⟨i, rfl, lt_of_termAt hcut.1, ?_⟩)
        rw [htail, if_pos (show (n.truncated (appendAt m)).logEnd ≤ appendAt m from le_rfl),
          logAppended_follower (n := (n.truncated (appendAt m)).orderAppend) hr]
      · have htail : n.truncateTail (appendAt m) m.entryTerm = n := if_neg hcut
        rw [htail]
        by_cases hend : n.logEnd ≤ appendAt m
        · refine .inr (.inl ⟨i, rfl, by omega, ?_⟩)
          rw [if_pos hend, logAppended_follower (n := n.orderAppend) hr]
        · refine .inl ⟨if_neg hend, fun j _ => ⟨Nat.not_le.1 hend, ?_⟩⟩
          by_contra hne
          rw [not_or] at hne
          exact hcut hne

theorem SameLog.orderAppend {n' : Node} (h : n.SameLog n') : n.orderAppend.SameLog n'.orderAppend :=
  ⟨h.logEnd, h.lastTerm, h.epochs, h.pendingTruncate, rfl⟩

theorem SameLog.appended {n' : Node} (h : n.SameLog n') (index stop term : Nat) :
    (n.appended index stop term).SameLog (n'.appended index stop term) where
  logEnd := rfl
  lastTerm := rfl
  epochs := congrArg (fun epochs => appendEpoch epochs term index) h.epochs
  pendingTruncate := h.pendingTruncate
  pendingAppend := h.pendingAppend

theorem SameLog.truncated {n' : Node} (h : n.SameLog n') (index : Nat) :
    (n.truncated index).SameLog (n'.truncated index) where
  logEnd := rfl
  lastTerm := by
    simp only [Node.truncated, Node.termAt, h.epochs]
  epochs := congrArg (fun epochs => truncateEpochsFrom epochs index) h.epochs
  pendingTruncate := rfl
  pendingAppend := h.pendingAppend

theorem sameLog_adoptCommit (n : Node) (m : Message) : n.SameLog (n.adoptCommit m) := by
  obtain ⟨c, hc⟩ := adoptCommit_eq n m
  rw [hc]
  exact ⟨rfl, rfl, rfl, rfl, rfl⟩

/-- What a message does to a node's view of its log: nothing, or it adds an entry where the
log ends, or cuts the log inside and adds an entry there. -/
theorem step_moves (n : Node) (draw : Nat) (m : Message) :
    n.SameLog (n.step draw m) ∨ ∃ i ∈ m.entryIndex,
      (n.orderAppend.appended n.logEnd (entryEndOf m i) m.entryTerm).SameLog (n.step draw m) ∨
      ∃ k < n.logEnd, ((n.truncated k).orderAppend.appended k (entryEndOf m i)
        m.entryTerm).SameLog (n.step draw m) := by
  rcases step_outcome n draw m with hkeep | hadv | ⟨hacc, f, hf, heq⟩
  · exact .inl hkeep.toSameLog
  · exact .inl hadv.toSameLog
  have hlog := hf.keeps.toSameLog
  have hsaid : (f.acceptEntry m).SameLog (n.step draw m) := by
    rw [heq]
    exact (sameLog_adoptCommit _ m).trans ⟨rfl, rfl, rfl, rfl, rfl⟩
  rcases acceptEntry_log hf.notLeader (hf.matches_.trans hacc.matches_) with
    ⟨hnone, -⟩ | ⟨i, hi, hend, hgrown⟩ | ⟨i, hi, hlt, hcut⟩
  · rw [hnone] at hsaid
    exact .inl (hlog.trans hsaid)
  · rw [hgrown, ← hend, hlog.logEnd] at hsaid
    exact .inr ⟨i, hi, .inl ((hlog.orderAppend.appended _ _ _).trans hsaid)⟩
  · rw [hcut] at hsaid
    rw [hlog.logEnd] at hlt
    exact .inr ⟨i, hi, .inr ⟨_, hlt,
      ((hlog.truncated _).orderAppend.appended _ _ _).trans hsaid⟩⟩

end Log

end Node

end LogEngine.Raft
