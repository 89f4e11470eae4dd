import LogEngine.Server.Calls
import LogEngine.Verified.Machine

/-!
# A broker, its disk and its restarts

A host is a disk with or without a broker running on it.  A broker starts on what
the disk holds, is called, and goes in one of two ways: the process ends, and the
disk with its page cache stays as it is, or the power goes, and of the writes that
were not flushed some first ones survive.

`Runs` are sequences of such steps that meet a condition, among hosts whose counters
fit the fields they are stored in.
-/

namespace LogEngine.Server

open Base Io Storage Raft Verified Verified.Fallible

inductive Host
  | down (disk : Disk)
  | up (broker : Broker)

inductive Action
  /-- A broker is started; it comes up, or the host stays down. -/
  | start (draw : Nat) (faults : Faults)
  | call (c : Broker.Call) (faults : Faults)
  /-- The process ends. -/
  | exit
  /-- The power goes. -/
  | crash (kept torn : FileName → Nat)

namespace Host

def disk : Host → Disk
  | .down d => d
  | .up b => b.disk

/-- What an action does, `none` where it cannot happen. -/
def next (config : BrokerConfig) : Host → Action → Option Host
  | .down d, .start draw _ =>
      match Broker.start config draw d with
      | .ok b _ => some (.up b)
      | .error _ d' => some (.down d')
  | .up b, .call c faults => some (.up (b.after faults c))
  | .up b, .exit => some (.down b.disk)
  | h, .crash kept torn => some (.down (h.disk.crash kept torn))
  | _, _ => none

/-- The counters of a broker fit their fields: 64 bits for terms and sequence
numbers, 32 bits for node ids. -/
def InRange : Host → Prop
  | .down _ => True
  | .up b =>
      b.raft.hard.term < 0x10000000000000000 ∧ b.raft.hard.votedFor < 0x100000000 ∧
        b.stateSequence < 0x10000000000000000

instance : DecidablePred InRange
  | .down _ => .isTrue trivial
  | .up b => inferInstanceAs (Decidable (b.raft.hard.term < 0x10000000000000000 ∧
      b.raft.hard.votedFor < 0x100000000 ∧ b.stateSequence < 0x10000000000000000))

/-- Any number of steps, each of them meeting the condition `ok`. -/
def Runs (config : BrokerConfig) (ok : Host → Action → Prop) : Host → Host → Prop :=
  Machine.Runs (next config) fun h a h' => ok h a ∧ h'.InRange

theorem exists_of_replay (config : BrokerConfig) (ok : Host → Action → Prop)
    [∀ h a, Decidable (ok h a)] (h : Host) (l : List Action) {p : Host → Bool}
    (hr : (Machine.replay (next config) (fun h a h' => ok h a ∧ h'.InRange) h l).any p = true) :
    ∃ h', h.Runs config ok h' ∧ p h' = true :=
  Machine.exists_of_replay _ _ h l hr

/-! ## What is seen of a host -/

/-- Something that left the host during the last call is as in `p`. -/
def shows (p : Observation → Bool) : Host → Bool
  | .down _ => false
  | .up b => b.observed.any p

theorem exists_of_shows {p : Observation → Bool} {h : Host} (hs : h.shows p = true) :
    ∃ b o, h = .up b ∧ o ∈ b.observed ∧ p o = true := by
  cases h with
  | down d => cases hs
  | up b =>
      obtain ⟨o, ho, hp⟩ := List.any_eq_true.1 hs
      exact ⟨b, o, rfl, ho, hp⟩

end Host

/-- The observation is of a message as in `p`. -/
def Observation.sends (p : Message → Disk → Bool) (o : Observation) : Bool :=
  match o.event with
  | .sent m _ => p m o.disk
  | .committed _ _ => false

theorem Observation.exists_of_sends {p : Message → Disk → Bool} {o : Observation}
    (h : o.sends p = true) : ∃ m entry, o.event = .sent m entry ∧ p m o.disk = true := by
  unfold Observation.sends at h
  cases he : o.event with
  | sent m entry =>
      rw [he] at h
      exact ⟨m, entry, rfl, h⟩
  | committed start stop =>
      rw [he] at h
      cases h

/-- Every operation of one kind fails. -/
@[reducible] def refusing (op : Operation) : Faults := ⟨fun _ op' => op' == op, fun _ => 0⟩

/-- Broker `0` of three, which times out after one or two ticks. -/
def brokerZero : BrokerConfig where
  raft :=
    { id := 0
      peers := [1, 2]
      electionTimeoutTicks := 1
      electionTimeoutJitterTicks := 2
      heartbeatTimeoutTicks := 1 }

end LogEngine.Server
