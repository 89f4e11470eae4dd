import LogEngine.Raft.Candidacy
import LogEngine.Server.StateSlots

/-!
# A cluster of brokers

Each member has a host, and everything a broker ever sent stays on the wire: a
message on it may be delivered late, several times or never.  Hosts go down and come
back as `Server.Host` has it.

`Elected` represents a fleet in `Verified.Election`.  A broker that cannot write its
hard state is ahead of its disk, so the ballot on disk is what is on the platter of
`raft.state`; a broker that comes back finds that ballot, or one of those it tried
to write since.
-/

namespace LogEngine.Server

open Base Io Io.Disk Storage Raft Verified Verified.Election Verified.Fallible

/-- The configurations of the brokers of one cluster. -/
structure Deployment where
  membership : Membership
  broker : Nat → BrokerConfig
  raft_eq : ∀ i ∈ membership.members, (broker i).raft = membership.config i
  fsyncs : ∀ i ∈ membership.members, (broker i).fsyncHardState = true

/-- What has left a host in its last step. -/
def Host.sent : Host → List (Message × Bytes)
  | .down _ => []
  | .up b => b.observed.filterMap fun o =>
      match o.event with
      | .sent m entry => some (m, entry)
      | .committed _ _ => none

structure Fleet where
  host : Nat → Host
  /-- Every message ever sent, with the entry it carries. -/
  wire : List (Message × Bytes) := []

namespace Fleet

/-- A step of one member. -/
structure Action where
  member : Nat
  action : Server.Action

/-- What is delivered has been sent. -/
def Deliverable (wire : List (Message × Bytes)) : Server.Action → Prop
  | .call (.receive _ m entry) _ => (m, entry) ∈ wire
  | _ => True

instance (wire : List (Message × Bytes)) : DecidablePred (Deliverable wire)
  | .call (.receive _ m entry) _ => inferInstanceAs (Decidable ((m, entry) ∈ wire))
  | .call (.tick _) _ | .call (.propose _) _ => .isTrue trivial
  | .start _ _ | .exit | .crash _ _ => .isTrue trivial

def next (D : Deployment) (f : Fleet) (a : Action) : Option Fleet :=
  if a.member ∈ D.membership.members ∧ Deliverable f.wire a.action then
    ((f.host a.member).next (D.broker a.member) a.action).map fun h =>
      ⟨Function.update f.host a.member h, f.wire ++ h.sent⟩
  else none

/-- The writes to `raft.state` that are not flushed are whole slots. -/
def WholeWrites (h : Host) : Prop :=
  ∀ w ∈ (stateFile h.disk).pending, w.bytes.length = kStateSlotBytes

/-- A process ends with nothing unflushed, and a power cut tears no slot. -/
def EndsWhole : Host → Server.Action → Prop
  | h, .exit => (stateFile h.disk).pending = []
  | _, .crash _ torn => torn .state = 0
  | _, _ => True

instance : ∀ h a, Decidable (EndsWhole h a)
  | h, .exit => inferInstanceAs (Decidable ((stateFile h.disk).pending = []))
  | _, .crash _ torn => inferInstanceAs (Decidable (torn .state = 0))
  | _, .start _ _ | _, .call _ _ => .isTrue trivial

/-- A write that fails leaves the old state or the new one, and the counters fit their
fields. -/
def Orderly (f : Fleet) (a : Action) (f' : Fleet) : Prop :=
  EndsWhole (f.host a.member) a.action ∧ WholeWrites (f'.host a.member) ∧
    (f'.host a.member).InRange

instance (f : Fleet) (a : Action) (f' : Fleet) : Decidable (Orderly f a f') :=
  inferInstanceAs (Decidable (_ ∧ (∀ _ ∈ _, _) ∧ _))

def Runs (D : Deployment) : Fleet → Fleet → Prop := Machine.Runs (next D) Orderly

/-- Member `i` is leader of term `T`. -/
def Leads (f : Fleet) (i T : Nat) : Prop :=
  ∃ b, f.host i = .up b ∧ b.raft.role = .leader ∧ b.raft.hard.term = T

/-- A cluster that has never run: whatever the disks hold, there is no `raft.state`. -/
structure Fresh (f : Fleet) : Prop where
  hosts : ∀ i, ∃ d, f.host i = .down d ∧ stateFile d = {}
  wire : f.wire = []

end Fleet

/-! ## The relation -/

/-- The seat is that of a member whose host is as given. -/
def Represents (M : Membership) (config : BrokerConfig) (s : Seat Nat) : Host → Prop
  | .down d => Settled (stateFile d) ∧ ∃ hard S,
      recover (stateFile d).visible = .ok (hard, S) ∧ s.mem = hard.ballot ∧
        s.dur = hard.ballot ∧ s.role = .follower
  | .up b => b.raft.config = config.raft ∧ b.config = config ∧ b.raft.out = [] ∧
      ∃ x old tried, b.disk.file .state = some x ∧ Ledger b.stateSequence old tried x ∧
        (b.raft.hardStateDirty = false → old = b.raft.hard) ∧ old.Ahead b.raft.hard ∧
        (∀ a ∈ tried, old.Ahead a.state ∧ InSlot a.state b.stateSequence) ∧
        Sits M s b.raft old

/-- The message is one that the election knows of. -/
structure Posted (M : Membership) (e : State Nat) (m : Message) : Prop where
  sender : m.sender ∈ M.members
  request : m.type = .requestVote → (m.sender, m.term) ∈ e.requests
  grant : m.type = .requestVoteResponse → m.granted = true →
    (m.sender, m.target, m.term) ∈ e.grants

/-- The fleet is represented by the election `e`. -/
structure Elected (D : Deployment) (f : Fleet) (e : State Nat) : Prop where
  inv : Inv D.membership.quorums e
  members : ∀ i ∈ D.membership.members,
    Represents D.membership (D.broker i) (e.seat i) (f.host i)
  wire : ∀ p ∈ f.wire, Posted D.membership e p.1

theorem Posted.acts {M : Membership} {i : Nat} {a b : State Nat} {m : Message}
    (h : Acts M.quorums i a b) (hm : Posted M a m) : Posted M b m where
  sender := hm.sender
  request ht := h.requests (hm.request ht)
  grant ht hg := h.grants (hm.grant ht hg)

private theorem ballot_ahead {h h' : HardState} (ha : h.Ahead h') : h.ballot.Ahead h'.ballot := by
  unfold HardState.ballot
  rcases ha with hlt | ⟨hterm, hnone | hsame⟩
  · exact .inl hlt
  · exact .inr ⟨hterm, .inl (if_pos hnone)⟩
  · exact .inr ⟨hterm, .inr (by rw [hsame])⟩

/-! ## Going down and coming up -/

section Restarts

variable {M : Membership} {config : BrokerConfig} {i : Nat} {e : State Nat}

/-- Whatever goes down and comes back with a later ballot is represented. -/
theorem exists_down (he : Inv M.quorums e) {d : Disk} {old : HardState} (hard : HardState) {S : Nat}
    (hseat : (e.seat i).dur = old.ballot) (hd : Settled (stateFile d))
    (hr : recover (stateFile d).visible = .ok (hard, S)) (ha : old.Ahead hard) :
    ∃ e', Acts M.quorums i e e' ∧ Represents M config (e'.seat i) (.down d) := by
  obtain ⟨s', hmoves, hm, hdur, hrole⟩ := exists_catchUp (i := i) e.grants (e.seat i)
    (hseat ▸ ballot_ahead ha)
  obtain ⟨e', hacts, rfl, -, -⟩ := exists_acts he hmoves
  exact ⟨e', hacts, hd, hard, S, hr, hm, hdur, hrole⟩

theorem Represents.congr_down {s : Seat Nat} {d t : Disk}
    (h : Represents M config s (.down d)) (ht : stateFile t = stateFile d) :
    Represents M config s (.down t) := by
  obtain ⟨hd, hard, S, hr, hs⟩ := h
  rw [← ht] at hd hr
  exact ⟨hd, hard, S, hr, hs⟩

/-- A broker that comes up is what the disk said. -/
theorem Represents.started {s : Seat Nat} {d : Disk} {b : Broker}
    (h : Represents M config s (.down d)) (hb : Broker.Started config (stateFile d) b) :
    Represents M config s (.up b) := by
  obtain ⟨hd, hard, S, hr, hm, hdur, hrole⟩ := h
  have heq := Except.ok.inj (hb.hard.symm.trans hr)
  have hhard : b.raft.hard = hard := congrArg Prod.fst heq
  have hne : b.raft.role ≠ .candidate := by
    rw [hb.role]
    exact fun h => Role.noConfusion h
  refine ⟨hb.raftConfig, hb.config, hb.out, _, b.raft.hard, [], hb.file,
    ledger_of_recover hd hb.hard, fun _ => rfl, .refl _, fun a ha => (nomatch ha),
    .of_role ?_ ?_ ?_ hne⟩
  · rw [hm, hhard]
  · rw [hdur, hhard]
  · rw [hrole, hb.role]
    rfl

/-- Attempts that are whole, seen in the file. -/
theorem whole_of_pending {S : Nat} {old : HardState} {tried : List Attempt} {x : File}
    (hl : Ledger S old tried x) (hw : ∀ w ∈ x.pending, w.bytes.length = kStateSlotBytes) :
    ∀ a ∈ tried, a.Whole := by
  intro a ha
  have hlen := hw (a.write S) (hl.pending ▸ List.mem_map_of_mem ha)
  rw [Attempt.write, List.length_take, encodeStateSlot_length] at hlen
  unfold Attempt.Whole
  omega

/-- What a reader finds when some first ones of the attempts have survived. -/
theorem recover_take {S : Nat} {old : HardState} {tried : List Attempt} {x : File}
    (hl : Ledger S old tried x) (hw : ∀ a ∈ tried, a.Whole)
    (ht : ∀ a ∈ tried, old.Ahead a.state ∧ InSlot a.state S) (kept : Nat) :
    ∃ hard S', recover (replay x.durable (x.pending.take kept)) = .ok (hard, S') ∧
      old.Ahead hard := by
  rw [hl.pending, ← List.map_take]
  rcases List.eq_nil_or_concat' (tried.take kept) with hnil | ⟨before, a, hlast⟩
  · rw [hnil]
    exact ⟨old, S, hl.durable, .refl old⟩
  · have ha : a ∈ tried := by
      refine List.mem_of_mem_take (i := kept) ?_
      rw [hlast]
      exact List.mem_append_right _ (List.mem_singleton_self a)
    rw [hlast]
    exact ⟨a.state, S + 1, recover_replay (awaits_of_recover hl.durable) before
      (hw a ha) (ht a ha).2,
      (ht a ha).1⟩

/-- Without a torn write a power cut leaves some first writes. -/
theorem crash_visible_whole (x : File) (kept : Nat) :
    (x.crash kept 0).visible = replay x.durable (x.pending.take kept) := by
  unfold File.crash
  cases x.pending[kept]? with
  | none => rfl
  | some w => simp [applyBytes]

private theorem exists_crash (he : Inv M.quorums e) {h : Host} {kept torn : FileName → Nat}
    (hr : Represents M config (e.seat i) h) (hw : Fleet.WholeWrites h) (ht : torn .state = 0) :
    ∃ e', Acts M.quorums i e e' ∧
      Represents M config (e'.seat i) (.down (h.disk.crash kept torn)) := by
  have hset : Settled (stateFile (h.disk.crash kept torn)) := by
    rw [Keeper.stateFile_crash]
    exact settled_crash _ _ _
  have hvis : (stateFile (h.disk.crash kept torn)).visible =
      replay (stateFile h.disk).durable ((stateFile h.disk).pending.take (kept .state)) := by
    rw [Keeper.stateFile_crash, ht, crash_visible_whole]
  cases h with
  | down d =>
      obtain ⟨hd, hard, S, hrec, hm, hdur, hrole⟩ := hr
      refine exists_down he hard (S := S) hdur hset ?_ (.refl hard)
      rw [hvis]
      show recover (replay (stateFile d).durable ((stateFile d).pending.take _)) = _
      rw [hd.pending, List.take_nil, ← hd.visible]
      exact hrec
  | up b =>
      obtain ⟨-, -, -, x, old, tried, hx, hl, -, -, htried, hsits⟩ := hr
      have hfile : stateFile (Host.up b).disk = x := stateFile_eq hx
      unfold Fleet.WholeWrites at hw
      rw [hfile] at hvis hw
      obtain ⟨hard, S', hrec, hahead⟩ :=
        recover_take hl (whole_of_pending hl hw) htried (kept .state)
      refine exists_down he hard (S := S') hsits.dur hset ?_ hahead
      rw [hvis]
      exact hrec

private theorem exists_exit (he : Inv M.quorums e) {b : Broker}
    (hr : Represents M config (e.seat i) (.up b)) (hp : (stateFile b.disk).pending = []) :
    ∃ e', Acts M.quorums i e e' ∧ Represents M config (e'.seat i) (.down b.disk) := by
  obtain ⟨-, -, -, x, old, tried, hx, hl, -, -, -, hsits⟩ := hr
  rw [stateFile_eq hx] at hp
  have hset := hl.settled hp
  refine exists_down he old (S := b.stateSequence) hsits.dur ?_ ?_ (.refl old)
  · rw [stateFile_eq hx]
    exact hset
  · rw [stateFile_eq hx, hset.visible]
    exact hl.durable

end Restarts

/-! ## Calls -/

section Calls

variable {M : Membership} {i : Nat} {e : State Nat}

/-- The operations of a node with quorums of two or more are steps of the election. -/
theorem exists_operates (he : Inv M.quorums e) (hi : i ∈ M.members) {n n' : Node}
    {old : HardState} {asked : Option Message} (hc : n.config = M.config i)
    (hq : 1 < (M.config i).quorum) (hop : n.Operates asked n')
    (hasked : ∀ m ∈ asked, Posted M e m ∧ m.target = i) (hs : Sits M (e.seat i) n old) :
    ∃ e', Acts M.quorums i e e' ∧ Sits M (e'.seat i) n' old := by
  have hid : n.config.id = i := by rw [hc, M.config_id i hi]
  have hq' : n'.config.quorum = (M.config i).quorum := by rw [hop.owes.config, hc]
  have hgrant : ∀ m ∈ asked, m.type = .requestVoteResponse → m.granted = true →
      (m.sender, i, m.term) ∈ e.grants := by
    intro m hm ht hg
    have := (hasked m hm).1.grant ht hg
    rwa [(hasked m hm).2] at this
  cases exists_becomes hop hi hid (hc ▸ hq) (fun m hm => (hasked m hm).1.sender) hgrant hs with
  | moved hmoves hsits =>
      obtain ⟨e', hacts, rfl, -, -⟩ := exists_acts he hmoves
      exact ⟨e', hacts, hsits⟩
  | won hmoves hrole htally hvotes hquorum hsits =>
      obtain ⟨e₁, hacts, rfl, -, -⟩ := exists_acts he hmoves
      rw [hq'] at hquorum
      -- the deciding quorum has a second voter
      obtain ⟨v, hv, hne⟩ : ∃ v ∈ n'.votes, v ≠ i :=
        Finset.exists_mem_ne (hq.trans_le hquorum) i
      have hmajority : M.quorums.IsQuorum (e₁.seat i).tally := by
        rw [htally]
        exact ⟨hvotes, M.quorum_eq hi ▸ hquorum⟩
      obtain ⟨e₂, hwin, hseat, -, -⟩ := exists_win hacts.inv hrole (htally ▸ hv) hne hmajority
      exact ⟨e₂, hacts.trans hwin, hseat ▸ hsits⟩

/-- What a node says of a hard state that is on disk is known to the election. -/
theorem exists_posted (hi : i ∈ M.members) {n : Node} {asked : Option Message}
    (hc : n.config = M.config i) (hasked : ∀ m ∈ asked, Posted M e m)
    (hm : (e.seat i).mem = n.hard.ballot) (hd : (e.seat i).dur = n.hard.ballot)
    (hr : (e.seat i).role = n.role.abs) {m : Message} (hh : n.Honest asked m)
    (he : Inv M.quorums e) :
    ∃ e', Acts M.quorums i e e' ∧ e'.seat i = e.seat i ∧ Posted M e' m := by
  have hsender : m.sender = i := by rw [hh.sender, hc, M.config_id i hi]
  have hterm : (e.seat i).mem.term = m.term := by rw [hm, hh.term]; rfl
  have hdm : (e.seat i).dur = (e.seat i).mem := hd.trans hm.symm
  by_cases hreq : m.type = .requestVote
  · have hcand : (e.seat i).role = .candidate := by
      rw [hr, (hh.request hreq).2]
      rfl
    obtain ⟨e', hacts, hseat, hmem⟩ := exists_request he hcand hdm
    refine ⟨e', hacts, hseat, hsender ▸ hi, fun _ => ?_, fun ht => ?_⟩
    · rw [hsender, ← hterm]
      exact hmem
    · rw [hreq] at ht
      exact MessageType.noConfusion ht
  by_cases hgr : m.type = .requestVoteResponse ∧ m.granted = true
  · obtain ⟨hvote, q, hq, hqt, hqs, hqT⟩ := hh.grant hgr.1 hgr.2
    have hp := hasked q hq
    have htarget : m.target ∈ M.members := hqs ▸ hp.sender
    have hv : (e.seat i).mem.vote = some m.target := by
      rw [hm, ← hvote]
      refine if_neg ?_
      rw [hvote]
      exact M.member_ne _ htarget
    have hreq' : (m.target, (e.seat i).mem.term) ∈ e.requests := by
      rw [hterm, ← hqs, ← hqT]
      exact hp.request hqt
    obtain ⟨e', hacts, hseat, hmem⟩ := exists_grant he hv hdm hreq'
    refine ⟨e', hacts, hseat, hsender ▸ hi, fun ht => absurd ht hreq, fun _ _ => ?_⟩
    rw [hsender, ← hterm]
    exact hmem
  · exact ⟨e, .refl he, rfl, hsender ▸ hi, fun ht => absurd ht hreq,
      fun ht hg => absurd ⟨ht, hg⟩ hgr⟩

/-- The same for everything it says in one step. -/
theorem exists_posted_all (hi : i ∈ M.members) {n : Node} {asked : Option Message}
    (hc : n.config = M.config i) (ms : List Message) (hh : ∀ m ∈ ms, n.Honest asked m) :
    ∀ {e : State Nat}, Inv M.quorums e → (∀ m ∈ asked, Posted M e m) →
      (e.seat i).mem = n.hard.ballot → (e.seat i).dur = n.hard.ballot →
      (e.seat i).role = n.role.abs →
      ∃ e', Acts M.quorums i e e' ∧ e'.seat i = e.seat i ∧ ∀ m ∈ ms, Posted M e' m := by
  induction ms with
  | nil => exact fun he _ _ _ _ => ⟨_, .refl he, rfl, fun m hm => (nomatch hm)⟩
  | cons m ms ih =>
      intro e he hasked hm hd hr
      obtain ⟨e₁, hacts, hseat, hpost⟩ := exists_posted hi hc hasked hm hd hr
        (hh m List.mem_cons_self) he
      rw [← hseat] at hm hd hr
      obtain ⟨e₂, hacts', hseat', hposts⟩ := ih (fun q hq => hh q (List.mem_cons_of_mem m hq))
        hacts.inv (fun q hq => (hasked q hq).acts hacts) hm hd hr
      refine ⟨e₂, hacts.trans hacts', hseat'.trans hseat, fun q hq => ?_⟩
      rcases List.mem_cons.1 hq with rfl | hq
      · exact hpost.acts hacts'
      · exact hposts q hq

/-- The message and the entry of an observation. -/
theorem mem_sent {b : Broker} {p : Message × Bytes} (h : p ∈ (Host.up b).sent) :
    ∃ o ∈ b.observed, o.event = .sent p.1 p.2 := by
  obtain ⟨o, ho, hp⟩ := List.mem_filterMap.1 h
  refine ⟨o, ho, ?_⟩
  cases he : o.event with
  | sent m entry =>
      rw [he] at hp
      rw [← Option.some.inj hp]
  | committed start stop =>
      rw [he] at hp
      cases hp

/-- A node whose hard state reaches the platter may say what it has to. -/
theorem exists_announced (he : Inv M.quorums e) (hi : i ∈ M.members) {n : Node} {old : HardState}
    {asked : Option Message} (hc : n.config = M.config i) (hsits : Sits M (e.seat i) n old)
    (hasked : ∀ m ∈ asked, Posted M e m) (hh : ∀ m ∈ n.out, n.Honest asked m) :
    ∃ e', Acts M.quorums i e e' ∧ Sits M (e'.seat i) n n.hard ∧ ∀ m ∈ n.out, Posted M e' m := by
  obtain ⟨e₁, hacts, hseat, -, -⟩ := exists_acts (i := i) he (.single (.persist (e.seat i)))
  have hsits₁ : Sits M (e₁.seat i) n n.hard := by
    rw [hseat]
    exact ⟨hsits.mem, hsits.mem, hsits.role, hsits.tally, hsits.votes⟩
  obtain ⟨e₂, hacts₂, hseat₂, hposted⟩ := exists_posted_all hi hc n.out hh hacts.inv
    (fun m hm => (hasked m hm).acts hacts) hsits₁.mem hsits₁.dur hsits₁.role
  exact ⟨e₂, hacts.trans hacts₂, hseat₂ ▸ hsits₁, hposted⟩

/-- A broker that nothing has happened to. -/
theorem Represents.idle {config : BrokerConfig} {s : Seat Nat} {b b' : Broker}
    (h : Represents M config s (.up b)) (hc : b'.config = b.config) (hraft : b'.raft = b.raft)
    (hseq : b'.stateSequence = b.stateSequence)
    (hfile : b'.disk.file .state = b.disk.file .state) : Represents M config s (.up b') := by
  obtain ⟨hrc, hbc, hout, x, old, tried, hx, hl, hclean, hahead, htried, hsits⟩ := h
  exact ⟨hraft ▸ hrc, hc.trans hbc, hraft ▸ hout, x, old, tried, hfile.trans hx, hseq ▸ hl,
    hraft ▸ hclean, hraft ▸ hahead, hseq ▸ htried, hraft ▸ hsits⟩

/-- A broker whose node has operated and has not been driven: it is represented, but for
what the node wants written and sent. -/
structure Operated (M : Membership) (config : BrokerConfig) (s : Seat Nat) (old : HardState)
    (tried : List Attempt) (b : Broker) : Prop where
  members : b.raft.config = config.raft
  config : b.config = config
  clean : b.raft.hardStateDirty = false → old = b.raft.hard
  ahead : old.Ahead b.raft.hard
  tried : ∀ a ∈ tried, old.Ahead a.state ∧ InSlot a.state b.stateSequence
  sits : Sits M s b.raft old
  silent : ∀ o ∈ b.observed, Broker.IsReport o

section Driven

variable {config : BrokerConfig} {s : Seat Nat} {old : HardState} {tried tried' : List Attempt}
  {b b' : Broker} {x : File}

/-- The hard state is not on the platter yet: the seat stays as it was. -/
theorem Operated.owed (h : Operated M config s old tried b) (hc : b'.config = b.config)
    (hraft : b'.raft = b.raft.takeReady.2) (hseq : b'.stateSequence = b.stateSequence)
    (hfile : b'.disk.file .state = some x) (hl : Ledger b.stateSequence old tried' x)
    (hnew : Broker.Tries b.raft.hard tried tried') (hslot : InSlot b'.raft.hard b'.stateSequence) :
    Represents M config s (.up b') := by
  have hhard : b'.raft.hard = b.raft.hard := by rw [hraft]; rfl
  have htried := h.tried
  rw [← hseq] at hl htried
  have htried' := hnew.forall (P := fun hard => old.Ahead hard ∧ InSlot hard b'.stateSequence)
    htried ⟨h.ahead, hhard ▸ hslot⟩
  refine ⟨?_, hc.trans h.config, ?_, x, old, tried', hfile, hl, ?_, hhard ▸ h.ahead,
    htried', ?_⟩ <;> rw [hraft]
  · exact h.members
  · rfl
  · exact h.clean
  · exact h.sits.congr rfl rfl rfl

/-- The hard state is on the platter. -/
theorem Operated.paid (h : Operated M config s old tried b) {s' : Seat Nat}
    (hs : Sits M s' b.raft b.raft.hard) (hc : b'.config = b.config)
    (hraft : b'.raft = b.raft.takeReady.2.hardStatePersisted)
    (hfile : b'.disk.file .state = some x) (hl : Ledger b'.stateSequence b.raft.hard tried' x)
    (hnew : tried' = [] ∨
      tried' = tried ∧ b'.stateSequence = b.stateSequence ∧ old = b.raft.hard) :
    Represents M config s' (.up b') := by
  have htried : ∀ a ∈ tried', b.raft.hard.Ahead a.state ∧ InSlot a.state b'.stateSequence := by
    rcases hnew with rfl | ⟨rfl, hseq, hold⟩
    · exact fun a ha => (nomatch ha)
    · rw [hseq, ← hold]
      exact h.tried
  refine ⟨?_, hc.trans h.config, ?_, x, b.raft.hard, tried', hfile, hl, ?_, ?_, htried, ?_⟩ <;>
    rw [hraft]
  · exact h.members
  · rfl
  · exact fun _ => rfl
  · exact .refl _
  · exact hs.congr rfl rfl rfl

end Driven

/-- What becomes of member `i` is steps of the election: they lead to one that represents
its host and knows everything that the host has sent. -/
def Follows (M : Membership) (config : BrokerConfig) (i : Nat) (e : State Nat) (h : Host) :
    Prop :=
  ∃ e', Acts M.quorums i e e' ∧ Represents M config (e'.seat i) h ∧
    ∀ p ∈ h.sent, Posted M e' p.1

/-- A host that is down has sent nothing. -/
theorem Follows.of_down {config : BrokerConfig} {d : Disk}
    (h : ∃ e', Acts M.quorums i e e' ∧ Represents M config (e'.seat i) (.down d)) :
    Follows M config i e (.down d) := by
  obtain ⟨e', hacts, hdown⟩ := h
  exact ⟨e', hacts, hdown, fun p hp => absurd hp List.not_mem_nil⟩

/-- A broker that has sent nothing and is represented as it is. -/
theorem Follows.of_silent {config : BrokerConfig} (he : Inv M.quorums e) {b : Broker}
    (hr : Represents M config (e.seat i) (.up b)) (ho : b.observed = []) :
    Follows M config i e (.up b) := by
  refine ⟨e, .refl he, hr, fun p hp => ?_⟩
  obtain ⟨o, hmem, -⟩ := mem_sent hp
  rw [ho] at hmem
  cases hmem

private theorem follows_call {config : BrokerConfig} (he : Inv M.quorums e) (hi : i ∈ M.members)
    (hconfig : config.raft = M.config i) (hq : 1 < (M.config i).quorum)
    (hf : config.fsyncHardState = true) {b : Broker} {c : Broker.Call} {faults : Faults}
    (hr : Represents M config (e.seat i) (.up b))
    (harriving : ∀ m ∈ c.arriving, Posted M e m)
    (hin : (Host.up (b.after faults c)).InRange) :
    Follows M config i e (.up (b.after faults c)) := by
  have hrep := hr
  obtain ⟨hrc, hbc, hout, x, old, tried, hx, hl, hclean, hahead, htried, hsits⟩ := hr
  have hreturns := b.after_returns faults c
  generalize b.after faults c = b' at hreturns hin ⊢
  obtain ⟨hc, hraft, hseq, hfile, ho⟩ | ⟨b₀, entry, asked, hd, hop, harr, hc, hseq, hfile, ho⟩ :=
    hreturns.operates hx
  · exact .of_silent he (hrep.idle hc hraft hseq (hfile.trans hx.symm)) ho
  have howes : b.raft.Owes b₀.raft := hop.owes
  have hasked : ∀ m ∈ asked, Posted M e m ∧ m.target = i := by
    intro m hm
    obtain ⟨hmc, htarget⟩ := harr m hm
    refine ⟨harriving m hmc, ?_⟩
    rw [htarget]
    show b.config.raft.id = i
    rw [hbc, hconfig, M.config_id i hi]
  obtain ⟨e₁, hacts, hsits₁⟩ := exists_operates he hi (hrc.trans hconfig) hq hop hasked hsits
  have hb₀ : Operated M config (e₁.seat i) old tried b₀ := by
    refine ⟨howes.config.trans hrc, hc.trans hbc, fun hd₀ => ?_, hahead.trans howes.ahead,
      hseq ▸ htried, hsits₁, fun o hmem => ?_⟩
    · exact (hclean (howes.clean hd₀).1).trans (howes.clean hd₀).2.symm
    · exact (ho o hmem).resolve_left nofun
  cases hd.accounts (hb₀.config ▸ hf) hfile (hseq ▸ hl) hb₀.clean hin with
  | @owed y tried' hraft hseq' hfile' hledger hnew hquiet =>
      refine ⟨e₁, hacts, hb₀.owed hd.config hraft hseq' hfile' hledger hnew hin, fun p hp => ?_⟩
      obtain ⟨o, hmem, hev⟩ := mem_sent hp
      have hreport : Broker.IsReport o := (hquiet o hmem).elim (hb₀.silent o) id
      exact absurd hev (hreport.event_ne _ _)
  | @paid y tried' hraft hfile' hledger hnew hsaid =>
      obtain ⟨e₂, hacts₂, hsits₂, hposted⟩ := exists_announced hacts.inv hi
        (hb₀.members.trans hconfig) hsits₁ (fun m hm => (hasked m hm).1.acts hacts)
        (hop.announces hout)
      refine ⟨e₂, hacts.trans hacts₂, hb₀.paid hsits₂ hd.config hraft hfile' hledger hnew,
        fun p hp => ?_⟩
      obtain ⟨o, hmem, hev⟩ := mem_sent hp
      obtain hmem' | hreport | hsent := hsaid o hmem
      · exact absurd hev ((hb₀.silent o hmem').event_ne _ _)
      · exact absurd hev (hreport.event_ne _ _)
      · obtain ⟨q, hq, stop, entry', heq, -⟩ := hsent.message
        rw [heq] at hev
        have hpq := hposted q hq
        rw [← (Event.sent.inj hev).1]
        exact ⟨hpq.sender, hpq.request, hpq.grant⟩

end Calls

/-! ## Runs -/

namespace Fleet

variable {D : Deployment}

/-- Whatever a host does is steps of the election. -/
theorem follows_next (hq : ∀ i ∈ D.membership.members, 1 < (D.membership.config i).quorum)
    {f : Fleet} {e : State Nat} (h : Elected D f e) {i : Nat} (hi : i ∈ D.membership.members)
    {host h' : Host} (hrep : Represents D.membership (D.broker i) (e.seat i) host)
    (hw : WholeWrites host) {act : Server.Action} (hdeliver : Deliverable f.wire act)
    (hstep : host.next (D.broker i) act = some h') (hends : EndsWhole host act)
    (hin : h'.InRange) : Follows D.membership (D.broker i) i e h' := by
  cases act with
  | start draw faults =>
      cases host with
      | up b => cases hstep
      | down d =>
          have hstart := Broker.start_sat (D.broker i) draw d
          simp only [Host.next] at hstep
          split at hstep
          case h_1 b t hb =>
            cases hstep
            rw [hb] at hstart
            exact .of_silent h.inv (hrep.started hstart) hstart.observed
          case h_2 err t hb =>
            cases hstep
            rw [hb] at hstart
            exact .of_down ⟨e, .refl h.inv, hrep.congr_down hstart⟩
  | call c faults =>
      cases host with
      | down d => cases hstep
      | up b =>
          cases hstep
          refine follows_call h.inv hi (D.raft_eq i hi) (hq i hi) (D.fsyncs i hi) hrep ?_ hin
          intro m hm
          cases c with
          | receive draw m' entry =>
              cases hm
              exact h.wire _ hdeliver
          | tick draw => cases hm
          | propose builder => cases hm
  | exit =>
      cases host with
      | down d => cases hstep
      | up b =>
          cases hstep
          exact .of_down (exists_exit h.inv hrep hends)
  | crash kept torn =>
      have heq : h' = .down (host.disk.crash kept torn) := by
        cases host <;> exact (Option.some.inj hstep).symm
      subst heq
      exact .of_down (exists_crash h.inv hrep hw hends)

/-- It is enough to represent the one member that acts, and what it sent. -/
theorem Elected.update {f : Fleet} {e : State Nat} (h : Elected D f e) {i : Nat} {h' : Host}
    (hf : Follows D.membership (D.broker i) i e h') :
    ∃ e', Acts D.membership.quorums i e e' ∧
      Elected D ⟨Function.update f.host i h', f.wire ++ h'.sent⟩ e' := by
  obtain ⟨e', hacts, hrep, hsent⟩ := hf
  refine ⟨e', hacts, hacts.inv, fun j hj => ?_, fun p hp => ?_⟩
  · by_cases hji : j = i
    · subst hji
      simp only [Function.update_self]
      exact hrep
    · simp only [Function.update_of_ne hji]
      rw [hacts.others j hji]
      exact h.members j hj
  · rcases List.mem_append.1 hp with hold | hnew
    · exact (h.wire p hold).acts hacts
    · exact hsent p hnew

/-- Every step of a member is steps of the election. -/
theorem exists_next (hq : ∀ i ∈ D.membership.members, 1 < (D.membership.config i).quorum)
    {f f' : Fleet} {a : Action} {e : State Nat} (h : Elected D f e)
    (hw : ∀ i, WholeWrites (f.host i)) (hn : f.next D a = some f') (hok : f.Orderly a f') :
    ∃ e', Acts D.membership.quorums a.member e e' ∧ Elected D f' e' := by
  unfold next at hn
  split at hn
  case isFalse => cases hn
  case isTrue hc =>
    obtain ⟨hi, hdeliver⟩ := hc
    obtain ⟨h', hstep, rfl⟩ := Option.map_eq_some_iff.1 hn
    obtain ⟨hends, -, hin⟩ := hok
    simp only [Function.update_self] at hin
    exact Elected.update h
      (follows_next hq h hi (h.members _ hi) (hw _) hdeliver hstep hends hin)

/-- What a run keeps: the fleet is represented, writes are whole, and who has been
leader of a term stays known. -/
def Known (D : Deployment) (e₀ : State Nat) (f : Fleet) : Prop :=
  (∀ i, WholeWrites (f.host i)) ∧
    ∃ e, Elected D f e ∧ ∀ {T x}, e₀.chief T = some x → e.chief T = some x

theorem Known.next (hq : ∀ i ∈ D.membership.members, 1 < (D.membership.config i).quorum)
    {f f' : Fleet} {a : Action} {e₀ : State Nat} (h : Known D e₀ f)
    (hn : f.next D a = some f') (hok : f.Orderly a f') : Known D e₀ f' := by
  obtain ⟨hw, e, he, hchief⟩ := h
  obtain ⟨e', hacts, he'⟩ := exists_next hq he hw hn hok
  refine ⟨fun i => ?_, e', he', fun hc => hacts.chief (hchief hc)⟩
  by_cases hi : i = a.member
  · exact hi ▸ hok.2.1
  · unfold Fleet.next at hn
    split at hn
    case isFalse => cases hn
    case isTrue =>
      obtain ⟨h', -, rfl⟩ := Option.map_eq_some_iff.1 hn
      simp only [Function.update_of_ne hi]
      exact hw i

theorem Known.runs (hq : ∀ i ∈ D.membership.members, 1 < (D.membership.config i).quorum)
    {f f' : Fleet} {e₀ : State Nat} (h : Known D e₀ f) (hr : Runs D f f') : Known D e₀ f' :=
  hr.invariant h fun _ _ _ hs hn hok => hs.next hq hn hok

theorem Fresh.known {f : Fleet} (h : f.Fresh) : Known D init f := by
  refine ⟨fun i w hw => ?_, init, ⟨inv_init _, fun i _ => ?_, fun p hp => ?_⟩, fun hc => hc⟩
  · obtain ⟨d, hd, hs⟩ := h.hosts i
    rw [hd] at hw
    have hfile : stateFile (Host.down d).disk = {} := hs
    rw [hfile] at hw
    cases hw
  · obtain ⟨d, hd, hs⟩ := h.hosts i
    rw [hd]
    refine ⟨by rw [hs]; exact ⟨rfl, rfl⟩, {}, 0, by rw [hs]; rfl, ?_, ?_, rfl⟩ <;>
      exact (HardState.ballot_none 0).symm
  · rw [h.wire] at hp
    cases hp

end Fleet

/-- A leader is the one the election knows. -/
theorem Elected.chief_of_leads {D : Deployment} {f : Fleet} {e : State Nat}
    (h : Elected D f e) {i T : Nat}
    (hi : i ∈ D.membership.members) (hl : f.Leads i T) : e.chief T = some i := by
  obtain ⟨b, hb, hrole, rfl⟩ := hl
  have hrep := h.members i hi
  rw [hb] at hrep
  obtain ⟨-, -, -, x, old, tried, -, -, -, -, -, hsits⟩ := hrep
  have hlead : e.role i = .leader := by
    have := hsits.role
    rw [hrole] at this
    exact this
  have hterm : (e.mem i).term = b.raft.hard.term := congrArg Ballot.term hsits.mem
  rw [← hterm]
  exact h.inv.leader_chief hlead

/-- **Election safety**: in a cluster of any size and over any run of its brokers,
whoever are leaders of one term, at one moment or at two, are the same member. -/
theorem election_safety {D : Deployment} {f₀ f f' : Fleet} (h₀ : f₀.Fresh)
    (hr : Fleet.Runs D f₀ f) (hr' : Fleet.Runs D f f') {i j T : Nat}
    (hi : i ∈ D.membership.members) (hj : j ∈ D.membership.members)
    (hl : f.Leads i T) (hl' : f'.Leads j T) : i = j := by
  by_cases hone : D.membership.members.card ≤ 1
  · exact Finset.card_le_one.1 hone i hi j hj
  have hq : ∀ k ∈ D.membership.members, 1 < (D.membership.config k).quorum := by
    intro k hk
    rw [D.membership.quorum_eq hk]
    omega
  obtain ⟨hw, e, he, -⟩ := h₀.known.runs hq hr
  have hchief := he.chief_of_leads hi hl
  obtain ⟨-, e', he', hkept⟩ := Fleet.Known.runs hq ⟨hw, e, he, fun hc => hc⟩ hr'
  exact Option.some.inj ((hkept hchief).symm.trans (he'.chief_of_leads hj hl'))

/-- Three brokers with nothing on their disks. -/
def threeBrokers : Deployment where
  membership := threeMembers
  broker i := { raft := threeMembers.config i }
  raft_eq _ _ := rfl
  fsyncs _ _ := rfl

/-- Member `0` asks member `1` for its vote in term `1`. -/
def firstRequest : Message where
  type := .requestVote
  sender := 0
  target := 1
  term := 1
  logIndex := some 0

/-- Member `1` gives it. -/
def firstGrant : Message where
  type := .requestVoteResponse
  sender := 1
  target := 0
  term := 1
  logIndex := some 0
  granted := true

/-- The member's broker is up and leader of term `T`. -/
def Fleet.leads (i T : Nat) (f : Fleet) : Bool :=
  match f.host i with
  | .down _ => false
  | .up b => b.raft.role == .leader && b.raft.hard.term == T

theorem Fleet.leads_iff {f : Fleet} {i T : Nat} : f.leads i T = true ↔ f.Leads i T := by
  unfold Fleet.leads Fleet.Leads
  cases f.host i with
  | down d => simp
  | up b => simp [beq_iff_eq]

/-- Member `1` casts its vote, loses power before it could say so, and is asked again. -/
theorem election_safety_firstTerm :
    ∃ f, Fleet.Runs threeBrokers ⟨fun _ => .down {}, []⟩ f ∧ f.Leads 0 1 ∧
      ∀ j ∈ threeBrokers.membership.members, f.Leads j 1 → 0 = j := by
  obtain ⟨f, hr, hp⟩ := Machine.exists_of_replay (Fleet.next threeBrokers) Fleet.Orderly
    ⟨fun _ => .down {}, []⟩
    [⟨0, .start 0 healthy⟩, ⟨1, .start 0 healthy⟩, ⟨0, .call (.tick 0) healthy⟩,
      ⟨1, .call (.receive 0 firstRequest []) (refusing .fsync)⟩,
      ⟨1, .crash (fun _ => 1) (fun _ => 0)⟩, ⟨1, .start 0 healthy⟩,
      ⟨1, .call (.receive 0 firstRequest []) healthy⟩,
      ⟨0, .call (.receive 0 firstGrant []) healthy⟩]
    (p := Fleet.leads 0 1) (by decide +kernel)
  have hfresh : Fleet.Fresh ⟨fun _ => .down {}, []⟩ := ⟨fun _ => ⟨{}, rfl, rfl⟩, rfl⟩
  have hl := Fleet.leads_iff.1 hp
  exact ⟨f, hr, hl, fun j hj hlj =>
    election_safety hfresh hr .refl (by decide) hj hl hlj⟩

/-- Member `2` asks member `1` for its vote in the same term, and gets it. -/
def rivalRequest : Message := { firstRequest with sender := 2 }

def rivalGrant : Message := { firstGrant with target := 2 }

/-- The process of the member ends. -/
def Fleet.Action.exits (a : Fleet.Action) : Bool :=
  match a.action with
  | .exit => true
  | _ => false

/-- Where a process may end with a vote unflushed, member `1` gives its vote in one term
twice: the first one is read back by the next process, announced, and lost with the power. -/
theorem unflushedVote_splits :
    ∃ f, Machine.Runs (Fleet.next threeBrokers)
        (fun f a f' => a.exits = true ∨ f.Orderly a f') ⟨fun _ => .down {}, []⟩ f ∧
      f.Leads 0 1 ∧ f.Leads 2 1 := by
  obtain ⟨f, hr, hp⟩ := Machine.exists_of_replay (Fleet.next threeBrokers)
    (fun f a f' => a.exits = true ∨ f.Orderly a f') ⟨fun _ => .down {}, []⟩
    [⟨0, .start 0 healthy⟩, ⟨1, .start 0 healthy⟩, ⟨2, .start 0 healthy⟩,
      ⟨0, .call (.tick 0) healthy⟩,
      ⟨1, .call (.receive 0 firstRequest []) (refusing .fsync)⟩, ⟨1, .exit⟩,
      ⟨1, .start 0 healthy⟩, ⟨1, .call (.receive 0 firstRequest []) healthy⟩,
      ⟨0, .call (.receive 0 firstGrant []) healthy⟩,
      ⟨1, .crash (fun _ => 0) (fun _ => 0)⟩, ⟨1, .start 0 healthy⟩,
      ⟨2, .call (.tick 0) healthy⟩, ⟨1, .call (.receive 0 rivalRequest []) healthy⟩,
      ⟨2, .call (.receive 0 rivalGrant []) healthy⟩]
    (p := fun f => f.leads 0 1 && f.leads 2 1) (by decide +kernel)
  rw [Bool.and_eq_true, Fleet.leads_iff, Fleet.leads_iff] at hp
  exact ⟨f, hr, hp⟩

end LogEngine.Server
