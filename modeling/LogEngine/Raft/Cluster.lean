import LogEngine.Raft.EpochMap
import LogEngine.Verified.Machine

/-!
# A cluster of nodes and their drivers

The driver of `raft::Node` as `Broker::drive` is one when its disk does not fail:
take what the node wants, carry out the log orders, persist the hard state, send.
A replica is a node with its log of batches and its hard state on disk; a cluster
is its replicas and every message ever sent.

Messages are never taken off the list, so a message may be delivered late, out of
order, many times or never.  A replica may be restarted at any moment from its
hard state and its log, and a power cut may also come in the middle of a delivery:
after some or all of the log orders and before the hard state is written
(`Action.crash`).
-/

namespace LogEngine.Raft

open Verified Verified.Tiling Verified.Replication

/-- A record's bytes; nothing here looks inside. -/
abbrev Record := List UInt8

/-- One log entry: a batch of records, stamped with its first offset and the term
that produced it. -/
structure Batch where
  base : Nat
  term : Nat
  records : List Record
  deriving DecidableEq, Repr

/-- One past the batch's last offset. -/
def Batch.stop (b : Batch) : Nat := b.base + b.records.length

instance : Stamped Batch where
  base := Batch.base
  stop := Batch.stop
  term := Batch.term

/-- A message on the wire with the batch attached to it. -/
structure Envelope where
  message : Message
  entry : Option Batch := none
  deriving DecidableEq, Repr

/-- One member: its node, its log and the hard state on its disk. -/
structure Replica where
  node : Node
  log : List Batch := []
  durable : HardState := {}

/-! ## The driver -/

/-- `Broker::read_entry`: the batch that begins at `index`; an index inside a
batch is refused. -/
def readEntry (log : List Batch) (index : Nat) : Option Batch :=
  match cover log index with
  | none => none
  | some e => if e.base = index then some e else none

/-- `Broker::send_raft`: only to peers, and a message that names an entry only
with that entry. -/
def sendRaft (config : Config) (log : List Batch) (m : Message) : Option Envelope :=
  if m.target ∈ config.peers then
    match m.entryIndex with
    | none => some { message := m }
    | some index =>
        (readEntry log index).map fun e =>
          { message := { m with entryEnd := e.stop }, entry := some e }
  else none

/-- `Log::truncate_to`. -/
def truncateTo (log : List Batch) (index : Nat) : List Batch := upTo log index

/-- `Broker::carry_out_log_orders`: the truncation first, then the append. -/
def carryOutLogOrders (ready : Ready) (entry : Option Batch) (log : List Batch) :
    List Batch :=
  let log := match ready.truncateFrom with
    | none => log
    | some index => truncateTo log index
  if ready.appendEntry then log ++ entry.toList else log

/-- A log that a power cut may leave while log orders are being carried out: the
truncation partly done, or everything done. -/
def Interrupted (ready : Ready) (entry : Option Batch) (log log' : List Batch) : Prop :=
  (carryOutLogOrders { ready with appendEntry := false } none log <+: log' ∧
      log' <+: log) ∨
    log' = carryOutLogOrders ready entry log

instance (ready : Ready) (entry : Option Batch) (log log' : List Batch) :
    Decidable (Interrupted ready entry log log') :=
  inferInstanceAs (Decidable (_ ∧ _ ∨ _))

namespace Replica

/-- `Broker::drive`: log orders, hard state, messages, in this order. -/
def drive (r : Replica) (entry : Option Batch) : Replica × List Envelope :=
  let (ready, node) := r.node.takeReady
  let log := carryOutLogOrders ready entry r.log
  let r := if ready.persistHardState then
      { node := node.hardStatePersisted, log := log, durable := ready.hardState }
    else { node := node, log := log, durable := r.durable }
  (r, ready.messages.filterMap (sendRaft r.node.config log))

/-- `Broker::on_tick`. -/
def tick (r : Replica) (draw : Nat) : Replica × List Envelope :=
  drive { r with node := r.node.tick draw } none

/-- `Broker::deliver_locally`. -/
def deliver (r : Replica) (draw : Nat) (env : Envelope) : Replica × List Envelope :=
  drive { r with node := r.node.step draw env.message } env.entry

/-- The batch a leader appends: at the end of its log and in its own term. -/
def nextBatch (r : Replica) (records : List Record) : Batch :=
  ⟨endFrom 0 r.log, r.node.hard.term, records⟩

/-- `Broker::propose`: only a leader appends. -/
def propose (r : Replica) (records : List Record) : Replica × List Envelope :=
  if r.node.role = .leader then
    drive
      { r with
        node := r.node.logAppended (r.nextBatch records).base
          (r.nextBatch records).stop (r.nextBatch records).term
        log := r.log ++ [r.nextBatch records] } none
  else (r, [])

/-- `Broker::start` on what the disk holds. -/
def restart (config : Config) (draw : Nat) (log : List Batch) (durable : HardState) :
    Replica where
  node := (Node.new config draw durable).restoreLog (endFrom 0 log) (scanEpochs log)
  log := log
  durable := durable

/-- What delivering `env` makes the node want. -/
def orders (r : Replica) (draw : Nat) (env : Envelope) : Ready :=
  (r.node.step draw env.message).takeReady.1

end Replica

/-! ## The cluster -/

/-- Who is in the cluster, with a configuration for each that names all the
others. -/
structure Membership where
  members : Finset Nat
  config : Nat → Config
  config_id : ∀ i ∈ members, (config i).id = i
  member_ne : ∀ i ∈ members, i ≠ kNoNode
  peers_nodup : ∀ i ∈ members, (config i).peers.Nodup
  mem_peers : ∀ i ∈ members, ∀ j, j ∈ (config i).peers ↔ j ∈ members ∧ j ≠ i

/-- Members `0, …, size - 1` with the same timeouts. -/
def Membership.uniform (size electionTicks jitterTicks heartbeatTicks : Nat)
    (h : size ≤ kNoNode) : Membership where
  members := Finset.range size
  config i :=
    { id := i
      peers := (List.range size).filter (· ≠ i)
      electionTimeoutTicks := electionTicks
      electionTimeoutJitterTicks := jitterTicks
      heartbeatTimeoutTicks := heartbeatTicks }
  config_id _ _ := rfl
  member_ne i hi := by
    have := Finset.mem_range.1 hi
    omega
  peers_nodup _ _ := List.nodup_range.filter _
  mem_peers _ _ j := by simp

theorem three_le_kNoNode : 3 ≤ kNoNode := by decide

/-- Three members that time out after one or two ticks. -/
def threeMembers : Membership := .uniform 3 1 2 1 three_le_kNoNode

structure Cluster where
  replica : Nat → Replica
  /-- Every message ever sent, in order. -/
  sent : List Envelope := []

inductive Action
  | tick (i draw : Nat)
  /-- The `k`-th message ever sent arrives. -/
  | deliver (k draw : Nat)
  | propose (i : Nat) (records : List Record)
  | restart (i draw : Nat)
  /-- The power goes while the log orders of the `k`-th message are carried out,
  and the member comes back with `log`. -/
  | crash (k draw : Nat) (log : List Batch)

namespace Cluster

/-- Member `i` acts: its replica changes and it sends. -/
def act (s : Cluster) (i : Nat) (outcome : Replica × List Envelope) : Cluster where
  replica := Function.update s.replica i outcome.1
  sent := s.sent ++ outcome.2

/-- What an action does, `none` where it cannot happen. -/
def next (M : Membership) (s : Cluster) : Action → Option Cluster
  | .tick i draw =>
      if i ∈ M.members then some (s.act i ((s.replica i).tick draw)) else none
  | .deliver k draw =>
      match s.sent[k]? with
      | none => none
      | some env =>
          some (s.act env.message.target
            ((s.replica env.message.target).deliver draw env))
  | .propose i records =>
      if i ∈ M.members ∧ records ≠ [] then
        some (s.act i ((s.replica i).propose records))
      else none
  | .restart i draw =>
      if i ∈ M.members then
        some (s.act i
          (.restart (M.config i) draw (s.replica i).log (s.replica i).durable, []))
      else none
  | .crash k draw log =>
      match s.sent[k]? with
      | none => none
      | some env =>
          let i := env.message.target
          if Interrupted ((s.replica i).orders draw env) env.entry (s.replica i).log log then
            some (s.act i (.restart (M.config i) draw log (s.replica i).durable, []))
          else none

/-- The message that an action delivers. -/
def arriving (s : Cluster) : Action → Option Envelope
  | .deliver k _ => s.sent[k]?
  | _ => none

/-- A cluster nobody has used yet. -/
def Initial (M : Membership) (s : Cluster) : Prop :=
  s.sent = [] ∧ ∀ i, ∃ draw, s.replica i = .restart (M.config i) draw [] {}

/-- One step of the cluster. -/
def Step (M : Membership) (s t : Cluster) : Prop := ∃ a, s.next M a = some t

/-- Any number of steps. -/
def Steps (M : Membership) : Cluster → Cluster → Prop :=
  Relation.ReflTransGen (Step M)

/-- The states of the runs of a cluster. -/
def Reachable (M : Membership) (s : Cluster) : Prop :=
  ∃ s₀, Initial M s₀ ∧ Steps M s₀ s

/-- Any number of steps, each of them meeting the condition `ok`. -/
def Runs (M : Membership) (ok : Cluster → Action → Prop) : Cluster → Cluster → Prop :=
  Machine.Runs (next M) fun s a _ => ok s a

theorem steps_of_runs {M : Membership} {ok : Cluster → Action → Cluster → Prop} {s t : Cluster}
    (h : Machine.Runs (next M) ok s t) : s.Steps M t :=
  Relation.ReflTransGen.mono (r := fun s t : Cluster => ∃ a, s.next M a = some t ∧ ok s a t)
    (fun _ _ ⟨a, hn, _⟩ => ⟨a, hn⟩) _ _ h

/-- A cluster whose members all draw `0`. -/
def fresh (M : Membership) : Cluster where
  replica i := .restart (M.config i) 0 [] {}

theorem fresh_initial (M : Membership) : Initial M (fresh M) :=
  ⟨rfl, fun _ => ⟨0, rfl⟩⟩

theorem exists_reachable {M : Membership} {l : List Action} {p : Cluster → Bool}
    (h : (Machine.replay (next M) (fun _ _ _ => True) (fresh M) l).any p = true) :
    ∃ s, s.Reachable M ∧ p s = true := by
  obtain ⟨s, hs, hp⟩ := Machine.exists_of_replay _ _ _ l h
  exact ⟨s, ⟨_, fresh_initial M, steps_of_runs hs⟩, hp⟩

end Cluster

end LogEngine.Raft
