import LogEngine.Raft.CommitRule
import LogEngine.Raft.LogView

/-!
# How far a commit index goes

A leader counts what its peers have confirmed, cut to its own log (`Node.Modest`), so
the commit index it works out is within its log.  A follower takes its leader's, cut to
its own log, and there counts the entry that came with the message: an entry that has
not been written yet.  So the one way past the log as it was before a call is a message
that brings an entry and says that it is committed (`Node.step_bound`).
-/

namespace LogEngine.Raft.Node

/-- A leader takes no peer to hold more than it does. -/
def Modest (n : Node) : Prop := n.role = .leader → ∀ p, n.matchEnd p ≤ n.logEnd

variable {n n' : Node} {m : Message}

theorem modest_of_follower (h : n.role ≠ .leader) : n.Modest := fun hr => absurd hr h

theorem Modest.congr (h : n.Modest) (hr : n'.role = n.role)
    (hm : n'.matchEnd = n.matchEnd)
    (he : n'.logEnd = n.logEnd) : n'.Modest := by
  intro hleader p
  rw [hm, he]
  exact h (hr ▸ hleader) p

private theorem modest_becomeLeader (n : Node) : n.becomeLeader.Modest := by
  intro _ p
  rw [becomeLeader_eq, say_matchEnd, takeOffice_matchEnd]
  exact Nat.zero_le _

/-! ## Ticks -/

theorem modest_tick (h : n.Modest) (draw : Nat) : (n.tick draw).Modest := by
  rcases tick_cases n draw with ⟨e, k, heq⟩ | ⟨-, k, heq⟩ | ⟨hr, e, heq⟩ <;> rw [heq]
  · exact h.congr rfl rfl rfl
  · exact h.congr rfl rfl rfl
  · rw [campaign_eq]
    split
    · exact modest_becomeLeader _
    · exact modest_of_follower fun hc => Role.noConfusion hc

/-! ## The leader's count -/

private theorem modest_advanceCommitIndex (h : n.Modest) :
    n.advanceCommitIndex.Modest := by
  obtain ⟨c, hc⟩ := advanceCommitIndex_eq n
  rw [hc]
  exact h.congr rfl rfl rfl

private theorem advanceCommitIndex_le (h : n.Modest) :
    n.advanceCommitIndex.commitIndex ≤ max n.commitIndex n.logEnd := by
  unfold advanceCommitIndex
  split
  · exact le_max_left _ _
  case isFalse hr =>
    have hle := quorumEnd_le fun p _ => h (not_not.1 hr) p
    dsimp only
    split
    · exact le_max_left _ _
    split
    · exact le_max_left _ _
    · exact hle.trans (le_max_right _ _)

theorem logAppended_bound (h : n.Modest) (hr : n.role = .leader) {stop : Nat}
    (hstop : n.logEnd < stop) (term : Nat) : (n.logAppended n.logEnd stop term).Modest ∧
      (n.logAppended n.logEnd stop term).commitIndex ≤ max n.commitIndex stop := by
  have hend : (n.appended n.logEnd stop term).logEnd = stop := if_pos hstop
  have happended : (n.appended n.logEnd stop term).Modest := by
    intro _ p
    rw [hend]
    exact (h hr p).trans hstop.le
  have hbound := advanceCommitIndex_le happended
  rw [hend] at hbound
  rw [logAppended_leader hr]
  exact ⟨(modest_advanceCommitIndex happended).congr rfl rfl rfl, hbound⟩

private theorem handleAppendEntriesResponse_bound (h : n.Modest) (m : Message) :
    (n.handleAppendEntriesResponse m).Modest ∧
      (n.handleAppendEntriesResponse m).commitIndex ≤ max n.commitIndex n.logEnd := by
  rcases handleAppendEntriesResponse_cases n m with ⟨-, heq⟩ | ⟨-, -, heq⟩ |
    ⟨hr, -, k, ms, hk, heq, -⟩
  · rw [heq]
    exact ⟨h, le_max_left _ _⟩
  · rw [heq]
    exact ⟨h.congr rfl rfl rfl, le_max_left _ _⟩
  · have hnoted :
        (n.noteConfirmed m.sender (min (indexValue m.logIndex) n.logEnd)).Modest := by
      intro _ p
      obtain ⟨f, g, hfg⟩ :=
        noteConfirmed_eq n m.sender (min (indexValue m.logIndex) n.logEnd)
      rw [noteConfirmed_matchEnd, hfg]
      split
      · exact max_le (h hr _) (Nat.min_le_right _ _)
      · exact h hr p
    have hbound := advanceCommitIndex_le hnoted
    obtain ⟨f, g, hfg⟩ :=
      noteConfirmed_eq n m.sender (min (indexValue m.logIndex) n.logEnd)
    rw [heq, hk]
    refine ⟨(modest_advanceCommitIndex hnoted).congr rfl rfl rfl, ?_⟩
    rw [hfg] at hbound ⊢
    exact hbound

/-! ## Messages -/

/-- How far a message lets a node commit: its log as it is, and for a message that
brings an entry what the message says. -/
def commitLimit (n : Node) (m : Message) : Nat :=
  if m.entryIndex.isSome then max n.logEnd m.commitIndex else n.logEnd

private theorem le_commitLimit (n : Node) (m : Message) :
    n.logEnd ≤ n.commitLimit m := by
  unfold commitLimit
  split
  · exact le_max_left _ _
  · exact le_rfl

private theorem commitIndex_le_commitLimit (n : Node) {i : Nat}
    (hi : i ∈ m.entryIndex) :
    m.commitIndex ≤ n.commitLimit m := by
  have hsome : m.entryIndex.isSome = true := Option.isSome_of_mem hi
  unfold commitLimit
  rw [if_pos hsome]
  exact le_max_right _ _

private theorem adoptCommit_le (n : Node) (m : Message) :
    (n.adoptCommit m).commitIndex ≤ max n.commitIndex (min m.commitIndex n.logEnd) := by
  unfold adoptCommit
  split
  · exact le_max_right _ _
  · exact le_max_left _ _

private theorem adoptCommit_role (n : Node) (m : Message) :
    (n.adoptCommit m).role = n.role := by
  obtain ⟨c, hc⟩ := adoptCommit_eq n m
  rw [hc]
  rfl

/-- What an append that is agreed with does to the commit index. -/
theorem acceptEntry_bound (hr : n.role ≠ .leader) (h : n.matches_ m = true) :
    ((n.acceptEntry m).adoptCommit m).role ≠ .leader ∧
      ((n.acceptEntry m).adoptCommit m).commitIndex ≤
        max n.commitIndex (n.commitLimit m) := by
  have hadopt := adoptCommit_le (n.acceptEntry m) m
  rw [adoptCommit_role]
  rcases acceptEntry_log hr h with ⟨heq, -⟩ | ⟨i, hi, -, heq⟩ | ⟨i, hi, -, heq⟩ <;>
    rw [heq] at hadopt ⊢
  · have hlimit := (Nat.min_le_right m.commitIndex n.logEnd).trans (le_commitLimit n m)
    exact ⟨hr, hadopt.trans (max_le_max le_rfl hlimit)⟩
  · have hlimit := n.commitIndex_le_commitLimit hi
    exact ⟨hr, hadopt.trans (max_le_max le_rfl ((Nat.min_le_left _ _).trans hlimit))⟩
  · have hlimit := n.commitIndex_le_commitLimit hi
    exact ⟨hr, hadopt.trans (max_le_max le_rfl ((Nat.min_le_left _ _).trans hlimit))⟩

private theorem modest_becomeFollower (n : Node) (draw T leader : Nat) :
    (n.becomeFollower draw T leader).Modest :=
  modest_of_follower (becomeFollower_role n draw T leader)

private theorem modest_observeTerm (h : n.Modest) (draw : Nat) (m : Message) :
    (n.observeTerm draw m).Modest := by
  rcases observeTerm_cases n draw m with ⟨-, heq⟩ | ⟨-, leader, heq⟩ <;> rw [heq]
  · exact h
  · exact modest_becomeFollower n draw m.term leader

private theorem commitLimit_congr (h : n'.logEnd = n.logEnd) (m : Message) :
    n'.commitLimit m = n.commitLimit m := by
  unfold commitLimit
  rw [h]

private theorem handle_bound (h : n.Modest) (draw : Nat) (m : Message) :
    (n.handle draw m).Modest ∧
    (n.handle draw m).commitIndex ≤ max n.commitIndex (n.commitLimit m) := by
  unfold handle
  split
  · rcases handleRequestVote_cases n m with heq | ⟨-, -, heq⟩ | ⟨-, -, heq⟩ <;>
      rw [heq] <;>
      exact ⟨h.congr rfl rfl rfl, le_max_left _ _⟩
  · rcases handleRequestVoteResponse_cases n m with heq | ⟨hr, -, ⟨-, heq⟩ | heq⟩ <;>
      rw [heq]
    · exact ⟨h, le_max_left _ _⟩
    · refine ⟨modest_becomeLeader _, ?_⟩
      rw [(keeps_becomeLeader _).commitIndex]
      exact le_max_left _ _
    · refine ⟨modest_of_follower fun hc => ?_, le_max_left _ _⟩
      have hrole : n.role = .leader := hc
      rw [hr] at hrole
      cases hrole
  · have hkeeps := keeps_becomeFollower n draw m.term m.sender
    have hcommit := hkeeps.commitIndex
    have hlimit := commitLimit_congr hkeeps.logEnd m
    have hrole := becomeFollower_role n draw m.term m.sender
    rcases handleAppendEntries_cases n draw m with ⟨-, heq⟩ | ⟨-, heq⟩ |
      ⟨-, hm, heq⟩ <;> rw [heq]
    · exact ⟨h, le_max_left _ _⟩
    · refine ⟨modest_of_follower hrole, ?_⟩
      rw [← hcommit]
      exact le_max_left _ _
    · obtain ⟨hfollower, hbound⟩ := acceptEntry_bound hrole hm
      rw [hcommit, hlimit] at hbound
      exact ⟨modest_of_follower hfollower, hbound⟩
  · obtain ⟨hmodest, hbound⟩ := handleAppendEntriesResponse_bound h m
    exact ⟨hmodest, hbound.trans (max_le_max le_rfl (le_commitLimit n m))⟩

/-- A message moves the commit index within the log as it was, unless it brings an entry
and says how far that is committed. -/
theorem step_bound (h : n.Modest) (draw : Nat) (m : Message) : (n.step draw m).Modest ∧
    (n.step draw m).commitIndex ≤ max n.commitIndex (n.commitLimit m) := by
  have hmodest := modest_observeTerm h draw m
  have hcommit := (keeps_observeTerm n draw m).commitIndex
  have hlimit := commitLimit_congr (keeps_observeTerm n draw m).logEnd m
  rcases step_cases n draw m with ⟨-, k, heq⟩ | ⟨-, heq⟩ | ⟨-, heq⟩ <;> rw [heq]
  · exact ⟨h.congr rfl rfl rfl, le_max_left _ _⟩
  · unfold answerStale
    rw [← hcommit]
    split <;> exact ⟨hmodest.congr rfl rfl rfl, le_max_left _ _⟩
  · rw [← hcommit, ← hlimit]
    exact handle_bound hmodest draw m

/-! ## Acknowledgements -/

private theorem acceptEntry_out (hr : n.role ≠ .leader) (m : Message) :
    ((n.acceptEntry m).adoptCommit m).out = n.out := by
  obtain ⟨c, hc⟩ := adoptCommit_eq (n.acceptEntry m) m
  rw [hc]
  exact (acceptEntry_ballot hr m).2.2.2.1

/-- What a node acknowledges is within its view of the log, unless it takes an entry
that goes beyond its log for one it has. -/
theorem confirmed_le {x : Message} {draw stop : Nat} (hout : n.out = [])
    (hx : x ∈ (n.step draw m).out) (hconfirms : x.Confirms)
    (hstop : x.logIndex = some stop)
    (hwithin : m.entryIndex.isSome → appendAt m < n.logEnd →
      (n.termAt (appendAt m) = kNoTerm ∨ n.termAt (appendAt m) = m.entryTerm) →
      confirmedEnd m ≤ n.logEnd) : stop ≤ (n.step draw m).logEnd := by
  have hquiet : ¬ (x ∈ n.out ∨ ¬ x.Confirms) := by simp [hout, hconfirms]
  rcases step_outcome n draw m with hkeep | hadv | ⟨hacc, f, hf, heq⟩
  · exact absurd (hkeep.quiet x hx) hquiet
  · exact absurd (hadv.quiet x hx) hquiet
  have hlog := hf.keeps.logEnd
  have hm : f.matches_ m = true := hf.matches_.trans hacc.matches_
  have hend : (n.step draw m).logEnd = (f.acceptEntry m).logEnd := by
    rw [heq]
    exact (sameLog_adoptCommit _ m).logEnd
  have hconfirmed : stop = confirmedEnd m := by
    rw [heq, say_out, acceptEntry_out hf.notLeader m, hf.out, hout, List.nil_append,
      List.mem_singleton] at hx
    rw [hx] at hstop
    exact (Option.some.inj hstop).symm
  rw [hend, hconfirmed]
  rcases acceptEntry_log hf.notLeader hm with ⟨hsame, hdup⟩ | ⟨i, hi, -, happended⟩ |
    ⟨i, hi, -, happended⟩
  · rw [hsame, hlog]
    cases hentry : m.entryIndex with
    | none =>
        have hnone : confirmedEnd m = appendAt m := by
          unfold confirmedEnd
          rw [hentry]
        rw [hnone, ← hlog]
        exact appendAt_le hm
    | some i =>
        obtain ⟨hlt, hterms⟩ := hdup i hentry
        rw [hlog] at hlt
        rw [hf.termAt] at hterms
        exact hwithin (hentry ▸ rfl) hlt hterms
  all_goals
    have hsome : confirmedEnd m = entryEndOf m i := by
      unfold confirmedEnd
      rw [Option.mem_def.1 hi]
    rw [happended, hsome]
    dsimp only [appended]
    split <;> omega

end LogEngine.Raft.Node
