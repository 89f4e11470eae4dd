import LogEngine.Raft.Safety

/-!
# What a leader knows about its peers

A leader's match index for a peer is something the peer has confirmed in the
leader's term, and as long as the peer is in that term its log agrees with the
leader's up to there (`Verified.Replication.Standing`).

A power cut after the log orders of a message of a later term and before the hard
state is written brings a member back to its old term with a log that the later leader
has changed, and what it confirmed to its old leader is then wrong (`overruled_conflicts`).
`Cluster.KeepsTerm` leaves these out.  Every other power cut in the middle of a
delivery is covered.
-/

namespace LogEngine.Raft

open Verified Verified.Tiling Verified.Replication

variable {M : Membership}

instance (s : Cluster) : DecidablePred s.KeepsTerm
  | .crash k _ _ => inferInstanceAs (Decidable (∀ env ∈ s.sent[k]?,
      env.message.term ≤ (s.replica env.message.target).node.hard.term))
  | .tick _ _ | .deliver _ _ | .propose _ _ | .restart _ _ => .isTrue trivial

/-- The states of the runs in which no member falls back to an earlier term. -/
def Cluster.SteadyReachable (M : Membership) (s : Cluster) : Prop :=
  ∃ s₀, Cluster.Initial M s₀ ∧ s₀.Runs M Cluster.KeepsTerm s

theorem Cluster.SteadyReachable.standing {s : Cluster} (h : s.SteadyReachable M) :
    ∃ a, Refines M a s ∧ Standing a := by
  obtain ⟨s₀, h₀, hr⟩ := h
  induction hr with
  | refl => exact ⟨_, refines_initial h₀, standing_init⟩
  | tail _ hstep ih =>
      obtain ⟨a, ha, hs⟩ := ih
      obtain ⟨act, hn, hok⟩ := hstep
      obtain ⟨b, -, hstanding, hb⟩ := ha.next_standing hn
      exact ⟨b, hb, hstanding hok hs⟩

end LogEngine.Raft
