import LogEngine.Server.Broker

/-!
# What a call can do

The calls of a broker, case by case: `Sends` for the messages of a `Ready`,
`Drives` for `drive`, `Returns` for a whole call.  Each case names the disk
operations that succeeded or failed on the way, and the broker that is left.
What follows about brokers is derived from these cases; nothing after this module
unfolds a call.
-/

namespace LogEngine.Server.Broker

open Base Io Io.Disk Storage Raft Verified.Fallible

/-! ## Reports and messages -/

/-- The broker after `noteCommit`. -/
def noted (b : Broker) (commitIndex : Nat) : Broker :=
  if commitIndex ≤ b.lastCommitSeen then b
  else
    { b with
      observed := b.observed ++ [⟨.committed b.lastCommitSeen commitIndex, b.disk, b.raft⟩]
      lastCommitSeen := commitIndex }

theorem noteCommit_eq (b : Broker) (c : Nat) : noteCommit c b = .ok () (b.noted c) := by
  have hget : noteCommit c b =
      (if c ≤ b.lastCommitSeen then (pure () : BrokerM Unit) else _ : BrokerM Unit) b := rfl
  rw [hget, noted]
  by_cases h : c ≤ b.lastCommitSeen
  · rw [if_pos h, if_pos h]
    rfl
  · rw [if_neg h, if_neg h]
    rfl

section Noted

variable (b : Broker) (c : Nat)

@[simp] theorem noted_config : (b.noted c).config = b.config := by
  unfold noted
  split <;> rfl

@[simp] theorem noted_store : (b.noted c).store = b.store := by
  unfold noted
  split <;> rfl

@[simp] theorem noted_raft : (b.noted c).raft = b.raft := by
  unfold noted
  split <;> rfl

@[simp] theorem noted_stateSequence : (b.noted c).stateSequence = b.stateSequence := by
  unfold noted
  split <;> rfl

@[simp] theorem noted_running : (b.noted c).running = b.running := by
  unfold noted
  split <;> rfl

end Noted

/-- The broker once it has acknowledged an append on its own, if it is configured
to. -/
def acked (b : Broker) : Broker :=
  if b.config.ackOnLocalAppend then b.noted b.log.nextOffset else b

theorem ackLocally_eq (b : Broker) : ackLocally b = .ok () b.acked := by
  unfold acked
  show (if b.config.ackOnLocalAppend = true then noteCommit b.log.nextOffset
    else pure () : BrokerM Unit) b = _
  split
  · exact noteCommit_eq _ _
  · rfl

section Acked

variable (b : Broker)

@[simp] theorem acked_config : b.acked.config = b.config := by
  unfold acked
  split <;> simp

@[simp] theorem acked_store : b.acked.store = b.store := by
  unfold acked
  split <;> simp

@[simp] theorem acked_raft : b.acked.raft = b.raft := by
  unfold acked
  split <;> simp

@[simp] theorem acked_stateSequence : b.acked.stateSequence = b.stateSequence := by
  unfold acked
  split <;> simp

@[simp] theorem acked_running : b.acked.running = b.running := by
  unfold acked
  split <;> simp

end Acked

/-- Something that was sent: one of the messages, with the extent of its entry filled
in. -/
structure Sent (ms : List Message) (b : Broker) (o : Observation) : Prop where
  raft : o.raft = b.raft
  disk : o.disk.file = b.disk.file
  message : ∃ m ∈ ms, ∃ stop entry, o.event = .sent { m with entryEnd := stop } entry ∧
    m.target ∈ b.config.raft.peers

/-- Messages have been sent, and nothing else has happened. -/
structure Sends (ms : List Message) (b b' : Broker) : Prop where
  config : b'.config = b.config
  log : b'.log = b.log
  disk : b'.disk.file = b.disk.file
  raft : b'.raft = b.raft
  stateSequence : b'.stateSequence = b.stateSequence
  lastCommitSeen : b'.lastCommitSeen = b.lastCommitSeen
  running : b'.running = b.running
  observed : ∃ new, b'.observed = b.observed ++ new ∧ ∀ o ∈ new, Sent ms b o

theorem Sends.refl (ms : List Message) (b : Broker) : Sends ms b b :=
  ⟨rfl, rfl, rfl, rfl, rfl, rfl, rfl, [], by simp⟩

theorem Sends.trans {ms : List Message} {b b' b'' : Broker} (h : Sends ms b b')
    (h' : Sends ms b' b'') : Sends ms b b'' := by
  obtain ⟨new, hnew, ho⟩ := h.observed
  obtain ⟨new', hnew', ho'⟩ := h'.observed
  refine ⟨h'.config.trans h.config, h'.log.trans h.log, h'.disk.trans h.disk,
    h'.raft.trans h.raft, h'.stateSequence.trans h.stateSequence,
    h'.lastCommitSeen.trans h.lastCommitSeen, h'.running.trans h.running, new ++ new', ?_, ?_⟩
  · rw [hnew', hnew, List.append_assoc]
  · intro o hmem
    rcases List.mem_append.1 hmem with hm | hm
    · exact ho o hm
    · have hs := ho' o hm
      exact ⟨hs.raft.trans h.raft, hs.disk.trans h.disk, by rw [← h.config]; exact hs.message⟩

theorem Sends.mono {ms ms' : List Message} {b b' : Broker} (h : Sends ms b b')
    (hsub : ∀ m ∈ ms, m ∈ ms') : Sends ms' b b' := by
  obtain ⟨new, hnew, ho⟩ := h.observed
  refine { h with observed := ⟨new, hnew, fun o hm => ?_⟩ }
  obtain ⟨m, hmem, hrest⟩ := (ho o hm).message
  exact ⟨(ho o hm).raft, (ho o hm).disk, m, hsub m hmem, hrest⟩

section Operations

variable [Faults]

omit [Faults] in
theorem onDisk_sat {α : Type} {x : DiskM α} {b : Broker} {Q : α → Disk → Prop}
    {E : Disk → Prop} (h : Sat (x b.disk) Q E) :
    Sat (onDisk x b) (fun a b' => ∃ d, b' = withDisk d b ∧ Q a d)
      (fun b' => ∃ d, b' = withDisk d b ∧ E d) :=
  Sat.zoom (h.mono (fun _ d hq => ⟨d, rfl, hq⟩) fun d he => ⟨d, rfl, he⟩)

/-- Reading an entry changes nothing that is on the disk. -/
theorem readEntry_sat (index : Nat) (b : Broker) :
    Sat (readEntry index b) (fun _ b' => ∃ d, b' = withDisk d b ∧ d.file = b.disk.file)
      (fun b' => ∃ d, b' = withDisk d b ∧ d.file = b.disk.file) := by
  have hread : Sat (b.log.read index kEntryScratchBytes b.disk)
      (fun _ d => d.file = b.disk.file) (fun d => d.file = b.disk.file) :=
    ((Keeps.forall_ fun g => Log.read_untouched g b.log index kEntryScratchBytes) b.disk).mono
      (fun _ _ h => funext h) fun _ h => funext h
  show Sat ((onDisk (b.log.read index kEntryScratchBytes) >>= _) b) _ _
  refine (onDisk_sat hread).bind fun framed b' hb' => ?_
  refine Sat.ite (fun _ => hb') fun _ => ?_
  cases decodeHeader framed with
  | error _ => exact hb'
  | ok h => exact Sat.ite (fun _ => hb') fun _ => hb'

theorem sendRaft_sat (m : Message) (b : Broker) :
    Sat (sendRaft m b) (fun _ b' => Sends [m] b b') (fun _ => False) := by
  show Sat ((if m.target ∉ b.config.raft.peers then pure () else _ : BrokerM Unit) b) _ _
  refine Sat.ite (fun _ => Sends.refl _ b) fun hpeer => ?_
  rw [not_not] at hpeer
  -- a message that goes out in a broker that differs in its disk's clock at most
  have hout : ∀ {d : Disk} (stop : Nat) (entry : Bytes), d.file = b.disk.file →
      Sends [m] b { withDisk d b with
        observed := b.observed ++ [⟨.sent { m with entryEnd := stop } entry, d, b.raft⟩] } := by
    intro d stop entry hd
    refine ⟨rfl, rfl, hd, rfl, rfl, rfl, rfl, _, rfl, ?_⟩
    intro o ho
    rw [List.mem_singleton] at ho
    subst ho
    exact ⟨rfl, hd, m, List.mem_singleton_self m, stop, entry, rfl, hpeer⟩
  cases hm : m.entryIndex with
  | none => exact hout (d := b.disk) m.entryEnd [] rfl
  | some index =>
      have hquiet : ∀ {b' : Broker}, (∃ d, b' = withDisk d b ∧ d.file = b.disk.file) →
          Sends [m] b b' := by
        rintro b' ⟨d, rfl, hd⟩
        exact ⟨rfl, rfl, hd, rfl, rfl, rfl, rfl, [], by simp [withDisk]⟩
      refine Sat.bind (Q := fun _ b' => ∃ d, b' = withDisk d b ∧ d.file = b.disk.file)
        (Sat.attempt ((readEntry_sat index b).mono (fun _ _ h => h) fun _ h _ => h)) ?_
      intro found b' hb'
      cases found with
      | error _ => exact hquiet hb'
      | ok entry =>
          dsimp only
          cases decodeHeader entry with
          | error _ => exact hquiet hb'
          | ok h =>
              obtain ⟨d, rfl, hd⟩ := hb'
              have hsent := hout h.nextOffset entry hd
              rw [hm] at hsent
              exact hsent

theorem sendAll_sat (ms : List Message) (b : Broker) :
    Sat (sendAll ms b) (fun _ b' => Sends ms b b') (fun _ => False) := by
  induction ms generalizing b with
  | nil => exact Sends.refl _ b
  | cons m rest ih =>
      refine (sendRaft_sat m b).bind fun _ b' hb' => (ih b').mono (fun _ b'' hb'' => ?_)
        fun _ h => h
      exact (hb'.mono fun x hx => List.mem_cons.2 (.inl (List.mem_singleton.1 hx))).trans
        (hb''.mono fun x hx => List.mem_cons_of_mem m hx)

/-! ## The driver -/

/-- The broker once `drive` has taken what the node wants and reported its commit
index. -/
def drained (b : Broker) : Broker :=
  { b with raft := b.raft.takeReady.2 }.noted b.raft.commitIndex

/-- The ways in which `drive` ends. -/
inductive Drives (entry : Bytes) (b : Broker) : Broker → Prop
  /-- There was nothing to do. -/
  | idle (h : b.raft.takeReady.1.empty = true) : Drives entry b b.drained
  /-- The disk refused a log order. -/
  | refused {e : ErrorCode} {s : Store}
      (h : carryOutLogOrders b.raft.takeReady.1 entry b.store = .error e s) :
      Drives entry b { b.drained with store := s, running := false }
  /-- The disk refused the hard state. -/
  | unpersisted {e : ErrorCode} {s : Store} {b' : Broker}
      (ho : carryOutLogOrders b.raft.takeReady.1 entry b.store = .ok () s)
      (hd : b.raft.hardStateDirty = true)
      (h : persist b.raft.hard { b.drained with store := s } = .error e b') :
      Drives entry b b'
  /-- The hard state was written, and then the messages were sent. -/
  | persisted {s : Store} {b' b'' : Broker}
      (ho : carryOutLogOrders b.raft.takeReady.1 entry b.store = .ok () s)
      (hd : b.raft.hardStateDirty = true)
      (h : persist b.raft.hard { b.drained with store := s } = .ok () b')
      (hs : Sends b.raft.out { b' with raft := b'.raft.hardStatePersisted } b'') :
      Drives entry b b''
  /-- No hard state was owed, and the messages were sent. -/
  | sent {s : Store} {b' : Broker}
      (ho : carryOutLogOrders b.raft.takeReady.1 entry b.store = .ok () s)
      (hd : b.raft.hardStateDirty = false)
      (hs : Sends b.raft.out { b.drained with store := s } b') : Drives entry b b'

omit [Faults] in
theorem noteCommit_drained (b : Broker) :
    Sat (noteCommit b.raft.commitIndex { b with raft := b.raft.takeReady.2 })
      (fun _ b' => b' = b.drained) (fun _ => False) := by
  rw [noteCommit_eq]
  exact rfl

private theorem drive_sat (entry : Bytes) (b : Broker) :
    Sat (drive entry b) (fun _ b' => Drives entry b b') (fun _ => False) := by
  refine (noteCommit_drained b).bind ?_
  rintro _ _ rfl
  refine Sat.ite (fun h => .idle h) fun _ => ?_
  have hstore : b.drained.store = b.store := noted_store _ _
  refine (Sat.attempt_eq _ _).bind fun r b' hb' => ?_
  cases r with
  | error e =>
      obtain ⟨s, ho, rfl⟩ := zoom_error hb'
      rw [hstore] at ho
      exact .refused ho
  | ok u =>
      obtain ⟨s, ho, rfl⟩ := zoom_ok hb'
      rw [hstore] at ho
      refine Sat.ite (fun hd => ?_) fun hd => ?_
      · refine (Sat.attempt_eq _ _).bind fun r b' hb' => ?_
        cases r with
        | error e => exact .unpersisted ho hd hb'
        | ok u =>
            exact (sendAll_sat _ _).mono (fun _ b' hs => .persisted ho hd hb' hs) fun _ h => h
      · exact (sendAll_sat _ _).mono (fun _ b' hs => .sent ho (by simpa using hd) hs)
          fun _ h => h

/-! ## Whole calls -/

/-- The ways in which a call ends. -/
inductive Returns (b : Broker) : Call → Broker → Prop
  /-- A stopped broker, a message for another node, a follower asked to append. -/
  | declined (c : Call) : Returns b c b
  | tick {draw : Nat} {b' : Broker} (hr : b.running = true)
      (h : Drives [] { b with raft := b.raft.tick draw } b') : Returns b (.tick draw) b'
  | receive {draw : Nat} {m : Message} {entry : Bytes} {b' : Broker}
      (ht : m.target = b.config.raft.id)
      (h : Drives entry { b with raft := b.raft.step draw m } b') :
      Returns b (.receive draw m entry) b'
  /-- The append failed, perhaps after a roll. -/
  | unwritten {builder : BatchBuilder} {e : ErrorCode} {s : Store} (hr : b.running = true)
      (hl : b.raft.role = .leader)
      (h : Log.append builder (metaFor b.raft.hard.term) b.store = .error e s) :
      Returns b (.propose builder) { b with store := s }
  /-- The append succeeded and its `fsync` failed. -/
  | unflushed {builder : BatchBuilder} {e : ErrorCode} {k : Nat} {s s' : Store}
      (hr : b.running = true) (hl : b.raft.role = .leader)
      (h : Log.append builder (metaFor b.raft.hard.term) b.store = .ok k s)
      (hf : Log.fsync s = .error e s') :
      Returns b (.propose builder) { b with store := s' }
  | proposed {builder : BatchBuilder} {k : Nat} {s s' : Store} {b' : Broker}
      (hr : b.running = true) (hl : b.raft.role = .leader)
      (h : Log.append builder (metaFor b.raft.hard.term) b.store = .ok k s)
      (hf : Log.fsync s = .ok () s')
      (hd : Drives [] { { b with store := s' }.acked with
        raft := b.raft.logAppended k s'.log.nextOffset b.raft.hard.term } b') :
      Returns b (.propose builder) b'

/-- A `propose` that succeeds: the batch was appended and flushed, and then the node was
told of it. -/
structure Proposes (b : Broker) (builder : BatchBuilder) (k : Nat) (s s' : Store)
    (b' : Broker) : Prop where
  running : b.running = true
  leader : b.raft.role = .leader
  append : Log.append builder (metaFor b.raft.hard.term) b.store = .ok k s
  fsync : Log.fsync s = .ok () s'
  drives : Drives [] { { b with store := s' }.acked with
    raft := b.raft.logAppended k s'.log.nextOffset b.raft.hard.term } b'

/-- A leader's `propose` fails with the append or with its `fsync`. -/
def Fails (b : Broker) (builder : BatchBuilder) : Prop :=
  b.running = true → b.raft.role = .leader →
    (∃ e s, Log.append builder (metaFor b.raft.hard.term) b.store = .error e s) ∨
      ∃ k s e s', Log.append builder (metaFor b.raft.hard.term) b.store = .ok k s ∧
        Log.fsync s = .error e s'

theorem propose_sat (builder : BatchBuilder) (b : Broker) :
    Sat (propose builder b) (fun k b' => ∃ s s', Proposes b builder k s s' b')
      (fun b' => Returns b (.propose builder) b' ∧ Fails b builder) := by
  refine Sat.ite (fun hr => ⟨.declined _, fun hr' => by simp [hr'] at hr⟩) fun hr => ?_
  replace hr : b.running = true := by simpa using hr
  refine Sat.ite (fun hl => ⟨.declined _, fun _ hl' => absurd hl' hl⟩) fun hl => ?_
  rw [not_not] at hl
  refine Sat.bind_eq (fun e b' h => ?_) fun k b₁ h₁ => ?_
  · obtain ⟨s, ha, rfl⟩ := zoom_error h
    exact ⟨.unwritten hr hl ha, fun _ _ => .inl ⟨e, s, ha⟩⟩
  obtain ⟨s, ha, rfl⟩ := zoom_ok h₁
  refine Sat.bind_eq (fun e b' h => ?_) fun _ b₂ h₂ => ?_
  · obtain ⟨s', hf, rfl⟩ := zoom_error h
    exact ⟨.unflushed hr hl ha hf, fun _ _ => .inr ⟨k, s, e, s', ha, hf⟩⟩
  obtain ⟨s', hf, rfl⟩ := zoom_ok h₂
  have hack := ackLocally_eq { b with store := s' }
  have hraft : ({ b with store := s' } : Broker).acked.raft = b.raft := acked_raft _
  have hlog : ({ b with store := s' } : Broker).acked.log = s'.log := by
    rw [log, acked_store]
  refine Sat.bind_eq (fun e b' h => ?_) fun _ b₃ h₃ => ?_
  · rw [hack] at h
    cases h
  rw [hack] at h₃
  cases h₃
  refine Sat.bind (Q := fun _ b' => b' = { { b with store := s' }.acked with
    raft := b.raft.logAppended k s'.log.nextOffset b.raft.hard.term }) ?_ ?_
  · show _ = _
    rw [hraft, hlog]
  · rintro _ _ rfl
    exact ((drive_sat [] _).mono (fun _ b' h => h) fun _ h => h.elim).bind
      fun _ b' h => ⟨s, s', hr, hl, ha, hf, h⟩

private theorem call_sat (c : Call) (b : Broker) :
    Sat (call c b) (fun _ b' => Returns b c b') (fun b' => Returns b c b') := by
  cases c with
  | tick draw =>
      refine Sat.ite (fun _ => .declined _) fun hr => ?_
      exact (drive_sat [] { b with raft := b.raft.tick draw }).mono
        (fun _ b' h => .tick (by simpa using hr) h) fun _ h => h.elim
  | receive draw m entry =>
      refine Sat.ite (fun _ => .declined _) fun ht => ?_
      exact (drive_sat entry { b with raft := b.raft.step draw m }).mono
        (fun _ b' h => .receive (not_not.1 ht) h) fun _ h => h.elim
  | propose builder =>
      refine ((propose_sat builder b).mono (fun _ _ h => h) fun _ h => h.1).bind ?_
      rintro k b' ⟨s, s', h⟩
      exact .proposed h.running h.leader h.append h.fsync h.drives

end Operations

/-- What a call of a broker leaves is one of the cases of `Returns`. -/
theorem after_returns (b : Broker) (faults : Faults) (c : Call) :
    Returns { b with observed := [] } c (b.after faults c) := by
  have h := call_sat c { b with observed := [] }
  unfold after
  unfold Sat at h
  split at h <;> simp_all

end LogEngine.Server.Broker
