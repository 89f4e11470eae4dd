import LogEngine.Raft.Commit

/-!
# What a cluster guarantees

Log matching and leader completeness hold of every run.  State-machine safety and
the stability of the commit index do not: a follower clamps the commit index it
adopts to its own log end, not to what the message confirms, and a duplicate of an
early entry can therefore commit a divergent tail.  They hold of every run in which
no delivered append does that (`Cluster.Overreaches`), by an invariant that attaches
to every commit index, in a node or in a message, a prefix that a quorum has
confirmed (`Backed`).
-/

namespace LogEngine.Raft

open Verified Verified.Tiling Verified.Replication
open Extent Stamped

variable {M : Membership}

/-- Member `0` is elected, appends one batch and has it confirmed by member `1`. -/
def oneBatch : List Action :=
  [.tick 0 0, .deliver 0 0, .deliver 2 0, .propose 0 [[1]], .deliver 5 0]

/-! ## Log matching -/

/-- **Log matching.**  Two logs that hold a record of one term at one index are the
same up to the end of the batch that holds it. -/
theorem log_matching {s : Cluster} (h : s.Reachable M) {i j : Nat} (hi : i ∈ M.members)
    (hj : j ∈ M.members) {k : Nat} (hki : k < (s.replica i).node.logEnd)
    (hkj : k < (s.replica j).node.logEnd)
    (ht : (s.replica i).node.termAt k = (s.replica j).node.termAt k) :
    ∃ p e, p ++ [e] <+: (s.replica i).log ∧ p ++ [e] <+: (s.replica j).log ∧
      e.base ≤ k ∧ k < e.stop := by
  obtain ⟨a, ha⟩ := h.refines
  have hinv := ha.sound.inv
  -- the batch that holds the record, in either log
  have hbatch : ∀ x ∈ M.members, k < (s.replica x).node.logEnd →
      ∃ p e, p ++ [e] <+: a.log x ∧ base e ≤ k ∧ k < stop e ∧
        a.log x = (s.replica x).log ∧ (s.replica x).node.termAt k = term e := by
    intro x hx hkx
    have hlog : a.log x = (s.replica x).log := (ha.member x hx).stands.log
    have hv := (ha.member x hx).tracks.views
    rw [hv.logEnd, ← hlog] at hkx
    obtain ⟨p, e, hp, hb, hs, hcov⟩ := (hinv.tiles x).exists_snoc (Nat.zero_le k) hkx
    refine ⟨p, e, hp, hb, hs, hlog, ?_⟩
    rw [hv.termAt_eq (hlog ▸ hinv.tiles x), ← hlog, termAt, hcov]
    rfl
  obtain ⟨p, e, hp, hb, hs, hli, hte⟩ := hbatch i hi hki
  obtain ⟨q, f, hq, hb', hs', hlj, htf⟩ := hbatch j hj hkj
  have heq := (hinv.owned i).eq_of_overlap (hinv.owned j) hinv.leader_tiles hp hq
    (by rw [← hte, ht, htf]) ⟨hb, hs⟩ ⟨hb', hs'⟩
  refine ⟨p, e, hli ▸ hp, ?_, hb, hs⟩
  rw [heq, ← hlj]
  exact hq

theorem log_matching_oneBatch :
    ∃ s, Cluster.Reachable threeMembers s ∧ ∃ p e, p ++ [e] <+: (s.replica 0).log ∧
      p ++ [e] <+: (s.replica 1).log ∧ e.base ≤ 0 ∧ 0 < e.stop := by
  obtain ⟨s, hs, hp⟩ := Cluster.exists_reachable (M := threeMembers) (l := oneBatch)
    (p := fun s => decide (0 < (s.replica 0).node.logEnd ∧ 0 < (s.replica 1).node.logEnd ∧
      (s.replica 0).node.termAt 0 = (s.replica 1).node.termAt 0)) (by decide +kernel)
  obtain ⟨h₀, h₁, ht⟩ := of_decide_eq_true hp
  exact ⟨s, hs, log_matching hs (by decide) (by decide) h₀ h₁ ht⟩

/-! ## Leader completeness -/

/-- What a leader adds to its commit index in one step is committed in the protocol. -/
theorem committed_of_raise {a b : Protocol} {s t : Cluster} (ha : Refines M a s)
    (hb : Refines M b t) {act : Action} (hn : s.next M act = some t) {i : Nat}
    (hi : i ∈ M.members) (hr : (t.replica i).node.role = .leader)
    (hlt : (s.replica i).node.commitIndex < (t.replica i).node.commitIndex) :
    ∃ q, q <+: (t.replica i).log ∧ endFrom 0 q = (t.replica i).node.commitIndex ∧
      Committed M.quorums b (t.replica i).node.hard.term q := by
  obtain ⟨j, hj, o, ho, rfl⟩ := ha.outcome hn
  obtain rfl : i = j := by
    by_contra hij
    simp [Cluster.act, hij] at hlt
  have hset := hb.member i hi
  simp only [Cluster.act, Function.update_self] at hset hr hlt ⊢
  rcases ho.commit (ha.member i hi) with ⟨-, h0⟩ | ⟨hsame, -⟩ | ⟨-, -, hc⟩ |
    ⟨k, draw, env, f, -, -, -, had⟩
  · omega
  · omega
  · exact committed_of_committing hi hb.sound hset.stands hset.tracks hr hc
  · rw [had.role] at hr
    cases hr

/-- **Leader completeness.**  When a leader raises its commit index to `c` in one
step, whoever leads a later term afterwards holds the same batches below `c`. -/
theorem leader_completeness {s s' t : Cluster} (h : s.Reachable M) (hstep : s.Step M s')
    {i : Nat} (hi : i ∈ M.members) (hr : (s'.replica i).node.role = .leader)
    (hlt : (s.replica i).node.commitIndex < (s'.replica i).node.commitIndex)
    (hrun : s'.Steps M t) {j : Nat} (hj : j ∈ M.members)
    (hrj : (t.replica j).node.role = .leader)
    (hterm : (s'.replica i).node.hard.term < (t.replica j).node.hard.term) {k : Nat}
    (hk : k < (s'.replica i).node.commitIndex) :
    ∃ e, cover (s'.replica i).log k = some e ∧ cover (t.replica j).log k = some e := by
  obtain ⟨a, ha⟩ := h.refines
  obtain ⟨act, hn⟩ := hstep
  obtain ⟨b, -, hb⟩ := ha.next hn
  obtain ⟨q, hq, hend, hcom⟩ := committed_of_raise ha hb hn hi hr hlt
  obtain ⟨c, hbc, hc⟩ := hb.steps hrun
  have hset := hc.member j hj
  have hrole : c.el.role j = .leader := by
    have := hset.stands.role
    rw [hrj] at this
    exact this
  have hjt : (c.el.mem j).term = (t.replica j).node.hard.term := hset.stands.term
  have hchief := hc.sound.inv.election.leader_chief hrole
  have hqj := (hcom.mono hbc).prefix_leaderLog hc.sound.complete
    (hjt ▸ hterm.le) hchief
  rw [hc.sound.inv.leader_log hrole] at hqj
  have hlogj : c.log j = (t.replica j).log := hset.stands.log
  have hlogi : b.log i = (s'.replica i).log := (hb.member i hi).stands.log
  have htiles : Tiles 0 (s'.replica i).log := hlogi ▸ hb.sound.inv.tiles i
  obtain ⟨e, he⟩ := (htiles.of_isPrefix hq).exists_cover (Nat.zero_le k) (hend.symm ▸ hk)
  exact ⟨e, cover_of_isPrefix hq he, cover_of_isPrefix (hlogj ▸ hqj) he⟩

/-- Member `1` is elected after member `0`. -/
def nextTerm : List Action := [.tick 1 0, .deliver 9 0, .deliver 10 0]

theorem leader_completeness_oneBatch :
    ∃ s s' t, Cluster.Reachable threeMembers s ∧ s.Step threeMembers s' ∧
      s'.Steps threeMembers t ∧ (t.replica 1).node.role = .leader ∧
      ∃ e, cover (s'.replica 0).log 0 = some e ∧ cover (t.replica 1).log 0 = some e := by
  obtain ⟨s, hs, hp⟩ := Cluster.exists_reachable (M := threeMembers) (l := oneBatch)
    (p := fun s : Cluster => (s.next threeMembers (.deliver 7 0)).any fun s' : Cluster =>
      decide ((s'.replica 0).node.role = .leader ∧
        (s.replica 0).node.commitIndex < (s'.replica 0).node.commitIndex ∧
        0 < (s'.replica 0).node.commitIndex) &&
      (Machine.replay (Cluster.next threeMembers) (fun _ _ _ => True) s' nextTerm).any
        fun t : Cluster => decide ((t.replica 1).node.role = .leader ∧
          (s'.replica 0).node.hard.term < (t.replica 1).node.hard.term))
    (by decide +kernel)
  obtain ⟨s', hs', hp⟩ := (Option.any_eq_true _ _).1 hp
  obtain ⟨hp, ht⟩ := Bool.and_eq_true_iff.1 hp
  obtain ⟨hr, hlt, hpos⟩ := of_decide_eq_true hp
  obtain ⟨t, ht, hq⟩ := Machine.exists_of_replay _ _ _ _ ht
  have hsteps : s'.Steps threeMembers t := Cluster.steps_of_runs ht
  obtain ⟨hrt, hterm⟩ := of_decide_eq_true hq
  exact ⟨s, s', t, hs, ⟨_, hs'⟩, hsteps, hrt,
    leader_completeness hs ⟨_, hs'⟩ (by decide) hr hlt hsteps (by decide) hrt hterm hpos⟩

/-! ## Certificates for commit indices -/

/-- A follower would adopt a commit index past both its own and what the message
confirms: the message carries an entry it already holds, and its log reaches
further, as does the leader's commit index. -/
def Node.Overreaches (n : Node) (m : Message) : Prop :=
  n.Accepts m ∧ n.Duplicate m ∧
    max n.commitIndex (Node.confirmedEnd m) < min m.commitIndex n.logEnd

instance (n : Node) (m : Message) : Decidable (n.Overreaches m) :=
  inferInstanceAs (Decidable (_ ∧ _ ∧ _))

/-- The message that the action delivers overreaches. -/
def Cluster.Overreaches (s : Cluster) (act : Action) : Prop :=
  ∃ env ∈ s.arriving act, (s.replica env.message.target).node.Overreaches env.message

instance (s : Cluster) : DecidablePred s.Overreaches :=
  fun act => inferInstanceAs (Decidable (∃ env ∈ s.arriving act, _))

/-- The steps in which no follower adopts too much. -/
def Cluster.Clamped (s : Cluster) (act : Action) : Prop := ¬ s.Overreaches act

instance (s : Cluster) : DecidablePred s.Clamped :=
  fun act => inferInstanceAs (Decidable (¬ s.Overreaches act))

/-- The commit index of a replica lies within a certified prefix of its log. -/
def Backing (M : Membership) (a : Protocol) (r : Replica) : Prop :=
  ∃ q, q <+: r.log ∧ r.node.commitIndex ≤ endFrom 0 q ∧
    Certified M.quorums a r.node.hard.term q

/-- The commit index in an append lies within a certified prefix of its sender's
log, and in a heartbeat it lies within what the heartbeat confirms. -/
structure Vouched (M : Membership) (a : Protocol) (m : Message) : Prop where
  certified : ∃ q, q <+: a.leaderLog m.term ∧ m.commitIndex ≤ endFrom 0 q ∧
    Certified M.quorums a m.term q
  heartbeat : m.carriesEntry = false → m.commitIndex ≤ Node.appendAt m

/-- Every commit index in the cluster has its certificate. -/
structure Backed (M : Membership) (a : Protocol) (s : Cluster) : Prop where
  member : ∀ i ∈ M.members, Backing M a (s.replica i)
  sent : ∀ env ∈ s.sent, env.message.type = .appendEntries → Vouched M a env.message

section Certificates

variable {a b : Protocol} {i : Nat}

theorem Vouched.mono (hg : Grows a b) {m : Message} (h : Vouched M a m) :
    Vouched M b m :=
  ⟨h.certified.imp fun _ ⟨hq, hc, hcert⟩ =>
    ⟨hq.trans (hg.leaderLog _), hc, hcert.mono hg le_rfl⟩, h.heartbeat⟩

theorem Backing.mono (hg : Grows a b) {r : Replica} (h : Backing M a r) : Backing M b r :=
  h.imp fun _ ⟨hq, hc, hcert⟩ => ⟨hq, hc, hcert.mono hg le_rfl⟩

theorem Backing.commitIndex_le (ha : Sound M.quorums a) {r : Replica}
    (hs : Settled M a i r) (h : Backing M a r) : r.node.commitIndex ≤ r.node.logEnd := by
  obtain ⟨q, hq, hc, -⟩ := h
  have hl : Tiles 0 r.log := by
    rw [← hs.stands.log]
    exact ha.inv.tiles i
  rw [hs.tracks.views.logEnd]
  exact hc.trans (hl.end_mono hq)

/-- What a settled leader says about its commit index is vouched for. -/
theorem vouched_drive {c : Protocol} {r : Replica} {entry : Option Batch} {l : List Batch}
    (hsp : Speaks c r.node l) (hb : Sound M.quorums b)
    (hs : Settled M b i (r.drive entry).1) (hbk : Backing M b (r.drive entry).1)
    {env : Envelope} (henv : env ∈ (r.drive entry).2)
    (hty : env.message.type = .appendEntries) : Vouched M b env.message := by
  have hle := hbk.commitIndex_le hb hs
  rw [drive_eq] at henv
  obtain ⟨m, hm, hsend⟩ := List.mem_filterMap.1 henv
  obtain ⟨-, -, hsay⟩ := hsp m hm
  obtain ⟨-, k, hk⟩ := sendRaft_spec hsend
  rw [hk] at hty ⊢
  cases hsay with
  | refusal ht _ => rcases ht with ht | ht <;> simp [ht] at hty
  | request p hr => simp [Node.voteRequest] at hty
  | grant ht => simp [ht] at hty
  | confirm ht => simp [ht] at hty
  | append p hr =>
      have hrole : (b.view i).role = .leader := by
        rw [hs.stands.role, drive_node, Role.abs_eq_leader]
        exact hr
      obtain ⟨q, hq, hqc, hcert⟩ := hbk
      rw [drive_node] at hqc hcert hle
      have hlog : b.leaderLog r.node.hard.term = (r.drive entry).1.log := by
        rw [← hs.stands.log]
        have hterm := hs.stands.term
        rw [drive_node] at hterm
        rw [show r.node.hard.term = (b.view i).mem.term from hterm.symm]
        exact hb.inv.leader_log hrole
      refine ⟨⟨q, ?_, hqc, hcert⟩, fun hnone => ?_⟩
      · change q <+: b.leaderLog r.node.hard.term
        rw [hlog]
        exact hq
      · -- a heartbeat goes to a peer that has everything
        have hnext : r.node.logEnd ≤ r.node.nextIndex p := by
          by_contra hlt
          simp [Message.carriesEntry, Node.appendMessage, not_le.1 hlt] at hnone
        refine le_trans (b := r.node.nextIndex p) (hle.trans hnext) ?_
        by_cases hz : r.node.nextIndex p = 0
        · simp [hz]
        · simp only [Node.appendAt, Node.appendMessage, hz, if_false]
          omega

/-- What a replica has committed survives an append it accepts. -/
theorem Adopts.kept (ha : Sound M.quorums a) {r r' : Replica} (hs : Settled M a i r)
    {env : Envelope} (hc : Carried M a env) {f : Node} (h : Adopts r r' env f)
    {q : List Batch} (hq : q <+: r.log) (hcert : Certified M.quorums a r.node.hard.term q) :
    q <+: r'.log := by
  rw [h.log]
  exact (taken_of_accepts ha hs hc h.accepts h.follows).kept q hq
    (hcert.prefix_of_ne_nil ha.inv ha.complete h.accepts.term)

/-- A follower that does not adopt too much has a certificate for what it adopts:
the shorter of what the message confirms and what its sender had certified. -/
theorem Adopts.backing (ha : Sound M.quorums a) (hg : Grows a b) {r r' : Replica}
    (hs : Settled M a i r) (hs' : Settled M b i r') {env : Envelope}
    (hc : Carried M a env) {f : Node} (h : Adopts r r' env f) (hr : Backing M a r)
    (hv : Vouched M a env.message) (hok : ¬ r.node.Overreaches env.message) :
    Backing M b r' := by
  obtain ⟨q, hq, hqc, hcert⟩ := hr
  have htaken := taken_of_accepts ha hs hc h.accepts h.follows
  rw [← h.log] at htaken
  have hq' : q <+: r'.log := h.kept ha hs hc hq hcert
  have hcertq : Certified M.quorums b r'.node.hard.term q :=
    hcert.mono hg (h.term ▸ h.accepts.term)
  by_cases hlt : r.node.commitIndex < env.message.commitIndex
  case neg =>
    refine ⟨q, hq', ?_, hcertq⟩
    rw [h.commitIndex, if_neg hlt]
    exact hqc
  have hcommit := h.commitIndex
  rw [if_pos hlt] at hcommit
  have hend' := hs'.tracks.views.logEnd
  obtain ⟨c, hcL, hcl, hcend⟩ := htaken.confirmed
  obtain ⟨p, hpL, hpc, hpcert⟩ := hv.certified
  -- what is adopted lies within the old certificate or within what is confirmed
  have hbound : r'.node.commitIndex ≤ max (endFrom 0 q) (endFrom 0 c) := by
    rcases htaken.ends with hbeat | ⟨hdup, hsame⟩ | hlast
    · have hle := hv.heartbeat hbeat
      have hconf : Node.confirmedEnd env.message = Node.appendAt env.message := by
        have hnone : env.message.entryIndex = none := by
          simpa [Message.carriesEntry] using hbeat
        rw [Node.confirmedEnd, hnone]
      omega
    · have hlen : r'.node.logEnd = r.node.logEnd := by
        rw [hend', hs.tracks.views.logEnd, hsame]
      have := not_lt.1 fun hm => hok ⟨h.accepts, hdup, hm⟩
      omega
    · omega
  rcases le_max_iff.1 hbound with hle | hle
  · exact ⟨q, hq', hle, hcertq⟩
  have hpcert' : Certified M.quorums b r'.node.hard.term p := by
    rw [h.term]
    exact hpcert.mono hg le_rfl
  rcases List.prefix_or_prefix_of_prefix hpL hcL with hpc' | hcp
  · exact ⟨p, hpc'.trans hcl, by omega, hpcert'⟩
  · exact ⟨c, hcl, hle, hpcert'.of_isPrefix hcp⟩

/-- One step in which no follower adopts too much. -/
theorem Backed.next {s t : Cluster} (ha : Refines M a s) (hb : Refines M b t)
    (hg : Grows a b) (h : Backed M a s) {act : Action} (hn : s.next M act = some t)
    (hok : s.Clamped act) : Backed M b t := by
  obtain ⟨i, hi, o, ho, rfl⟩ := ha.outcome hn
  have hs := ha.member i hi
  have hs' := hb.member i hi
  simp only [Cluster.act, Function.update_self] at hs'
  have hback : Backing M b o.1 := by
    rcases ho.commit hs with ⟨-, h0⟩ | ⟨hsame, hterm, hlog⟩ | ⟨-, hr, hcom⟩ |
      ⟨k, draw, env, f, rfl, henv, hto, had⟩
    · exact ⟨[], List.nil_prefix, by rw [h0]; exact le_rfl, .inl rfl⟩
    · obtain ⟨q, hq, hqc, hcert⟩ := h.member i hi
      exact ⟨q, hq.trans hlog, hsame ▸ hqc, hcert.mono hg hterm⟩
    · obtain ⟨q, hq, hend, hq'⟩ := committed_of_committing hi hb.sound hs'.stands hs'.tracks
        hr hcom
      exact ⟨q, hq, hend.ge, .inr ⟨_, q, le_rfl, hq', List.prefix_refl q⟩⟩
    · have hmem := List.mem_of_getElem? henv
      refine had.backing ha.sound hg hs hs' (ha.sent env hmem) (h.member i hi)
        (h.sent env hmem had.accepts.type) ?_
      simpa [Cluster.Clamped, Cluster.Overreaches, Cluster.arriving, henv, hto] using hok
  refine ⟨fun j hj => ?_, fun env henv hty => ?_⟩
  · by_cases hji : j = i
    · subst hji
      simpa [Cluster.act] using hback
    · simpa [Cluster.act, hji] using (h.member j hj).mono hg
  · rcases List.mem_append.1 henv with henv | henv
    · exact (h.sent env henv hty).mono hg
    · cases ho with
      | tick draw =>
          obtain ⟨c, -, hact, -, -⟩ := acted_tick hi ha.sound hs draw
          exact vouched_drive hact.speaks hb.sound hs' hback henv hty
      | deliver draw hk hto =>
          obtain ⟨c, -, -, hact⟩ := handles_step hi ha.sound hs
            (ha.sent _ (List.mem_of_getElem? hk)) hto draw _ (.inr rfl)
          exact vouched_drive (hact rfl).speaks hb.sound hs' hback henv hty
      | propose hne =>
          unfold Replica.propose at hs' hback henv
          by_cases hr : (s.replica i).node.role = .leader
          case neg => simp [hr] at henv
          rw [if_pos hr] at hs' hback henv
          obtain ⟨c, -, hact, -, -⟩ := acted_proposal ha.sound hs hr hne
          exact vouched_drive hact.speaks hb.sound hs' hback henv hty
      | restart draw => simp at henv
      | crash draw => simp at henv

private theorem backed_initial {s : Cluster} (h : s.Initial M) (a : Protocol) : Backed M a s := by
  refine ⟨fun i _ => ?_, by simp [h.1]⟩
  obtain ⟨draw, hr⟩ := h.2 i
  rw [hr]
  exact ⟨[], List.nil_prefix, le_rfl, .inl rfl⟩

/-- Any run in which no follower adopts too much. -/
theorem Backed.runs {s t : Cluster} (ha : Refines M a s) (h : Backed M a s)
    (hr : s.Runs M Cluster.Clamped t) :
    ∃ b, Grows a b ∧ Refines M b t ∧ Backed M b t := by
  induction hr with
  | refl => exact ⟨a, Grows.refl a, ha, h⟩
  | tail _ hstep ih =>
      obtain ⟨b, hg, hb, hbk⟩ := ih
      obtain ⟨act, hn, hok⟩ := hstep
      obtain ⟨c, hbc, hc⟩ := hb.next hn
      exact ⟨c, hg.trans hbc, hc, hbk.next hb hc hbc hn hok⟩

end Certificates

/-! ## State-machine safety -/

/-- The states of the runs in which no follower adopts too much. -/
def Cluster.ClampedReachable (M : Membership) (s : Cluster) : Prop :=
  ∃ s₀, Cluster.Initial M s₀ ∧ s₀.Runs M Cluster.Clamped s

theorem Cluster.ClampedReachable.backed {s : Cluster} (h : s.ClampedReachable M) :
    ∃ a, Refines M a s ∧ Backed M a s := by
  obtain ⟨s₀, h₀, hs⟩ := h
  obtain ⟨a, -, ha, hbk⟩ := (backed_initial h₀ _).runs (refines_initial h₀) hs
  exact ⟨a, ha, hbk⟩

/-- **State-machine safety**, in every run in which no follower adopts too much: two
members that have committed an index, at whatever moments, hold the same batch
there. -/
theorem state_machine_safety {s t : Cluster} (h : s.ClampedReachable M)
    (hr : s.Runs M Cluster.Clamped t) {x y : Nat} (hx : x ∈ M.members)
    (hy : y ∈ M.members) {i : Nat} (hxi : i < (s.replica x).node.commitIndex)
    (hyi : i < (t.replica y).node.commitIndex) :
    ∃ e, cover (s.replica x).log i = some e ∧ cover (t.replica y).log i = some e := by
  obtain ⟨a, ha, hbk⟩ := h.backed
  obtain ⟨b, hg, hb, hbk'⟩ := hbk.runs ha hr
  obtain ⟨q, hq, hqc, hcert⟩ := hbk.member x hx
  obtain ⟨q', hq', hqc', hcert'⟩ := hbk'.member y hy
  have hlx : a.log x = (s.replica x).log := (ha.member x hx).stands.log
  have hly : b.log y = (t.replica y).log := (hb.member y hy).stands.log
  have htx : Tiles 0 q := (hlx ▸ ha.sound.inv.tiles x : Tiles 0 _).of_isPrefix hq
  have hty : Tiles 0 q' := (hly ▸ hb.sound.inv.tiles y : Tiles 0 _).of_isPrefix hq'
  rcases (hcert.mono hg le_rfl).comparable hb.sound.inv hb.sound.complete hcert' with hp | hp
  · obtain ⟨e, he⟩ := htx.exists_cover (Nat.zero_le i) (by omega)
    exact ⟨e, cover_of_isPrefix hq he, cover_of_isPrefix (hp.trans hq') he⟩
  · obtain ⟨e, he⟩ := hty.exists_cover (Nat.zero_le i) (by omega)
    exact ⟨e, cover_of_isPrefix (hp.trans hq) he, cover_of_isPrefix hq' he⟩

/-- Member `1` learns that its batch is committed. -/
def oneCommit : List Action := oneBatch ++ [.deliver 7 0, .tick 0 0, .deliver 8 0]

private theorem exists_oneCommit :
    ∃ s, Cluster.ClampedReachable threeMembers s ∧ 0 < (s.replica 0).node.commitIndex ∧
      0 < (s.replica 1).node.commitIndex := by
  obtain ⟨s, hs, hp⟩ := Machine.exists_of_replay (Cluster.next threeMembers)
    (fun s a _ => s.Clamped a) (Cluster.fresh threeMembers) oneCommit
    (p := fun s => decide (0 < (s.replica 0).node.commitIndex ∧
      0 < (s.replica 1).node.commitIndex)) (by decide +kernel)
  exact ⟨s, ⟨_, Cluster.fresh_initial _, hs⟩, of_decide_eq_true hp⟩

theorem state_machine_safety_oneCommit :
    ∃ s, Cluster.ClampedReachable threeMembers s ∧
      ∃ e, cover (s.replica 0).log 0 = some e ∧ cover (s.replica 1).log 0 = some e := by
  obtain ⟨s, hs, h₀, h₁⟩ := exists_oneCommit
  exact ⟨s, hs, state_machine_safety hs .refl (by decide) (by decide) h₀ h₁⟩

/-- Two batches of member `0` in term 1, of which the others get the first; one batch
of member `1` in term 2, which member `2` confirms, so that it is committed.  Elected
again in term 4, member `1` backs off to the first batch for member `0`, which holds
it already and has a second one of its own. -/
def divergentTail : List Action :=
  [.tick 0 0, .deliver 0 0, .deliver 2 0, .propose 0 [[1]], .deliver 5 0, .deliver 6 1,
   .propose 0 [[2]], .tick 1 0, .tick 2 0, .deliver 10 0, .deliver 11 0, .propose 1 [[3]],
   .deliver 15 0, .deliver 16 0, .tick 2 0, .deliver 18 0, .tick 1 0, .deliver 20 0,
   .deliver 22 0, .deliver 23 0, .deliver 25 0, .deliver 26 0]

/-- Member `0` commits the batch of its own that nobody else holds, where member `1`
has committed another. -/
theorem divergentTail_committed :
    ∃ s, Cluster.Reachable threeMembers s ∧
      1 < (s.replica 0).node.commitIndex ∧ 1 < (s.replica 1).node.commitIndex ∧
      cover (s.replica 0).log 1 = some ⟨1, 1, [[2]]⟩ ∧
      cover (s.replica 1).log 1 = some ⟨1, 2, [[3]]⟩ := by
  obtain ⟨s, hs, hp⟩ := Cluster.exists_reachable (M := threeMembers) (l := divergentTail)
    (p := fun s => decide (1 < (s.replica 0).node.commitIndex ∧
      1 < (s.replica 1).node.commitIndex ∧
      cover (s.replica 0).log 1 = some ⟨1, 1, [[2]]⟩ ∧
      cover (s.replica 1).log 1 = some ⟨1, 2, [[3]]⟩)) (by decide +kernel)
  exact ⟨s, hs, of_decide_eq_true hp⟩

/-! ## The commit index is stable -/

/-- What member `i` may ask of its driver next. -/
inductive Offers (s : Cluster) (i : Nat) : Ready → Prop
  | tick (draw : Nat) : Offers s i ((s.replica i).node.tick draw).takeReady.1
  | deliver {env : Envelope} (draw : Nat) (henv : env ∈ s.sent)
      (hto : env.message.target = i) : Offers s i ((s.replica i).orders draw env)
  | propose (records : List Record) (hr : (s.replica i).node.role = .leader) :
      Offers s i ((s.replica i).node.proposed ((s.replica i).nextBatch records)).takeReady.1

section Stable

variable {a b : Protocol} {i : Nat}

private theorem commitIndex_le_next {s t : Cluster} (ha : Refines M a s) (hb : Refines M b t)
    (h : Backed M a s) (hi : i ∈ M.members) {act : Action} (hn : s.next M act = some t)
    (hre : ¬ s.Restarts i act) :
    (s.replica i).node.commitIndex ≤ (t.replica i).node.commitIndex := by
  obtain ⟨j, hj, o, ho, rfl⟩ := ha.outcome hn
  by_cases hij : i = j
  case neg => simp [Cluster.act, hij]
  subst hij
  have hs := ha.member i hi
  have hs' := hb.member i hi
  simp only [Cluster.act, Function.update_self] at hs' ⊢
  rcases ho.commit hs with ⟨h, -⟩ | ⟨hsame, -⟩ | ⟨hlt, -⟩ |
    ⟨k, draw, env, f, -, henv, -, had⟩
  · exact absurd h hre
  · exact hsame.ge
  · exact hlt.le
  · obtain ⟨q, hq, hqc, hcert⟩ := h.member i hi
    have hkept := had.kept ha.sound hs (ha.sent env (List.mem_of_getElem? henv)) hq hcert
    have hl : Tiles 0 o.1.log := by
      rw [← hs'.stands.log]
      exact hb.sound.inv.tiles i
    have hle := hl.end_mono hkept
    rw [← hs'.tracks.views.logEnd] at hle
    rw [had.commitIndex]
    split <;> omega

private theorem commitIndex_le_truncate {s : Cluster} (ha : Refines M a s) (h : Backed M a s)
    (hi : i ∈ M.members) {ready : Ready} (ho : Offers s i ready) {k : Nat}
    (hk : ready.truncateFrom = some k) : (s.replica i).node.commitIndex ≤ k := by
  have hs := ha.member i hi
  cases ho with
  | tick draw =>
      have hkeep := (Node.keeps_tick (s.replica i).node draw).pendingTruncate
      rw [show ((s.replica i).node.tick draw).takeReady.1.truncateFrom = _ from
        hkeep.trans hs.pendingTruncate] at hk
      cases hk
  | @deliver env draw henv hto =>
      have hk' : ((s.replica i).node.step draw env.message).pendingTruncate = some k := hk
      rcases Node.step_outcome (s.replica i).node draw env.message with hkeep | hadv |
        ⟨hacc, f, hf, heq⟩
      · rw [hkeep.pendingTruncate, hs.pendingTruncate] at hk'
        cases hk'
      · rw [hadv.pendingTruncate, hs.pendingTruncate] at hk'
        cases hk'
      · obtain ⟨c, hc⟩ := Node.adoptCommit_eq (f.acceptEntry env.message) env.message
        rw [heq, hc] at hk'
        obtain ⟨q, hq, hqc, hcert⟩ := h.member i hi
        refine hqc.trans ((taken_of_accepts ha.sound hs (ha.sent env henv) hacc hf).order k hk'
          q hq (hcert.prefix_of_ne_nil ha.sound.inv ha.sound.complete hacc.term))
  | propose records hr =>
      obtain ⟨c, hc⟩ := Node.advanceCommitIndex_eq ((s.replica i).node.appended
        ((s.replica i).nextBatch records).base ((s.replica i).nextBatch records).stop
        ((s.replica i).nextBatch records).term)
      rw [Node.proposed, Node.logAppended_leader hr, hc] at hk
      exact absurd (hs.pendingTruncate.symm.trans hk) (Option.some_ne_none k).symm

end Stable

/-- **The commit index is stable**, in every run in which no follower adopts too
much: it stays within the log, does not decrease until the member is restarted, and
nothing below it is ever ordered to be cut. -/
theorem commitIndex_stable {s : Cluster} (h : s.ClampedReachable M) {i : Nat}
    (hi : i ∈ M.members) :
    (s.replica i).node.commitIndex ≤ (s.replica i).node.logEnd ∧
      (∀ t, s.Runs M (fun s act => s.Clamped act ∧ ¬ s.Restarts i act) t →
        (s.replica i).node.commitIndex ≤ (t.replica i).node.commitIndex) ∧
      ∀ ready, Offers s i ready → ∀ k, ready.truncateFrom = some k →
        (s.replica i).node.commitIndex ≤ k := by
  obtain ⟨a, ha, hbk⟩ := h.backed
  refine ⟨(hbk.member i hi).commitIndex_le ha.sound (ha.member i hi), fun t ht => ?_,
    fun ready ho k hk => commitIndex_le_truncate ha hbk hi ho hk⟩
  suffices ∃ b, Refines M b t ∧ Backed M b t ∧
      (s.replica i).node.commitIndex ≤ (t.replica i).node.commitIndex from
    this.choose_spec.2.2
  induction ht with
  | refl => exact ⟨a, ha, hbk, le_rfl⟩
  | tail _ hstep ih =>
      obtain ⟨b, hb, hbk, hle⟩ := ih
      obtain ⟨act, hn, hok, hre⟩ := hstep
      obtain ⟨c, hg, hc⟩ := hb.next hn
      exact ⟨c, hc, hbk.next hb hc hg hn hok,
        hle.trans (commitIndex_le_next hb hc hbk hi hn hre)⟩

theorem commitIndex_stable_oneCommit :
    ∃ s, Cluster.ClampedReachable threeMembers s ∧ 0 < (s.replica 1).node.commitIndex ∧
      (s.replica 1).node.commitIndex ≤ (s.replica 1).node.logEnd := by
  obtain ⟨s, hs, -, h₁⟩ := exists_oneCommit
  exact ⟨s, hs, h₁, (commitIndex_stable hs (by decide)).1⟩

/-- The next message member `1` sends in that run orders member `0` to cut what it
has committed. -/
theorem divergentTail_cut :
    ∃ s, Cluster.Reachable threeMembers s ∧ ∃ ready, Offers s 0 ready ∧
      ready.truncateFrom = some 1 ∧ (s.replica 0).node.commitIndex = 2 := by
  obtain ⟨s, hs, hp⟩ := Cluster.exists_reachable (M := threeMembers)
    (l := divergentTail ++ [.deliver 27 0])
    (p := fun s : Cluster => s.sent[28]?.any fun env : Envelope => decide (env.message.target = 0 ∧
      ((s.replica 0).orders 0 env).truncateFrom = some 1 ∧
      (s.replica 0).node.commitIndex = 2)) (by decide +kernel)
  obtain ⟨env, henv, hp⟩ := (Option.any_eq_true _ _).1 hp
  obtain ⟨hto, hcut, hcommit⟩ := of_decide_eq_true hp
  exact ⟨s, hs, _, .deliver 0 (List.mem_of_getElem? henv) hto, hcut, hcommit⟩

end LogEngine.Raft
