import LogEngine.Raft.Announce
import LogEngine.Server.Host

/-!
# Persist before send

Whatever a broker says about its term and its vote is on the platter by then.
`Ledger` is the invariant of `raft.state` between two writes: the slots that can
be read are older than the next write, and what is not flushed are attempts at that
write.  `Recorded` adds that a hard state which is not owed is the one a reader of
the platter would find.

A process that ends and is started again on the same page cache breaks this: what
it reads back need not be on the platter, and it reads it back as a state that is
not owed.  `persist_before_send` is about runs in which no process ends with a write
to `raft.state` unflushed.
-/

namespace LogEngine.Server

open Base Io Io.Disk Storage Raft Verified.Fallible
open Broker (Call)
open Log (StateUntouched)

/-! ## The file -/

/-- `raft.state` as a broker leaves it whose next write has the sequence number `S`:
`old` is on the platter, and the attempts `tried` have been made since. -/
structure Ledger (S : Nat) (old : HardState) (tried : List Attempt) (x : File) : Prop where
  durable : recover x.durable = .ok (old, S)
  pending : x.pending = tried.map (Attempt.write S)
  visible : x.visible = replay x.durable x.pending

/-- A file with nothing to flush. -/
structure Settled (x : File) : Prop where
  pending : x.pending = []
  visible : x.visible = x.durable

/-- The state is written and can be read back. -/
def InSlot (state : HardState) (S : Nat) : Prop :=
  state.term < 0x10000000000000000 ∧ state.votedFor < 0x100000000 ∧ S < 0x10000000000000000

instance (state : HardState) (S : Nat) : Decidable (InSlot state S) :=
  inferInstanceAs (Decidable (_ ∧ _ ∧ _))

section Ledger

variable {S : Nat} {old : HardState} {tried : List Attempt} {x : File}

private theorem slotWrite_of_mem (S : Nat) (tried : List Attempt) :
    ∀ w ∈ tried.map (Attempt.write S), SlotWrite S w := by
  intro w hw
  obtain ⟨a, -, rfl⟩ := List.mem_map.1 hw
  exact a.slotWrite S

/-- Attempts at one slot that reach the platter: if the last of them is whole, it is
what is read. -/
theorem recover_replay {image : Bytes} (h : Awaits S image) (tried : List Attempt)
    {a : Attempt} (ha : a.Whole) (hs : InSlot a.state S) :
    recover (replay image ((tried ++ [a]).map (Attempt.write S))) = .ok (a.state, S + 1) := by
  have htried := h.replay (slotWrite_of_mem S tried)
  rw [List.map_append, List.map_singleton, ha.write, replay_append]
  exact recover_of_scan (scan_written htried hs.1 hs.2.1 hs.2.2)

theorem Ledger.write (h : Ledger S old tried x) (a : Attempt) :
    Ledger S old (tried ++ [a]) (x.write (a.write S).offset (a.write S).bytes) where
  durable := h.durable
  pending := by
    rw [List.map_append, ← h.pending]
    rfl
  visible := by
    have hlast := replay_append x.durable x.pending [a.write S]
    rw [← h.visible] at hlast
    exact hlast.symm

/-- A write that is flushed is what the next reader finds. -/
theorem Ledger.flush (h : Ledger S old tried x) {a : Attempt} (ha : a.Whole)
    (hs : InSlot a.state S) :
    Ledger (S + 1) a.state [] (x.write (a.write S).offset (a.write S).bytes).flush where
  durable := by
    have hrec := recover_replay (awaits_of_recover h.durable) tried ha hs
    rw [← (h.write a).pending] at hrec
    exact hrec
  pending := rfl
  visible := (h.write a).visible

/-- A file that nothing is owed to, as a broker finds it when it starts. -/
theorem ledger_of_recover (hx : Settled x) (h : recover x.visible = .ok (old, S)) :
    Ledger S old [] x where
  durable := hx.visible ▸ h
  pending := hx.pending
  visible := by
    rw [hx.pending]
    exact hx.visible

theorem Ledger.settled (h : Ledger S old tried x) (hp : x.pending = []) : Settled x where
  pending := hp
  visible := by
    rw [h.visible, hp]
    rfl

end Ledger

/-! ## Reading it -/

/-- `raft.state`, created if it is not there. -/
def stateFile (d : Disk) : File := (d.file .state).getD {}

theorem stateFile_eq {d : Disk} {x : File} (h : d.file .state = some x) : stateFile d = x := by
  rw [stateFile, h, Option.getD_some]

/-- `raft.state`, if there is one, has nothing to flush. -/
def AtRest (d : Disk) : Prop := Settled (stateFile d)

namespace Broker

section Loading

variable [Faults]

/-- The file is created at most, and its image decides what is loaded. -/
theorem loadHardState_sat (d : Disk) :
    Sat (loadHardState d)
      (fun r t => t.file = Function.update d.file .state (some (stateFile d)) ∧
        recover (stateFile d).visible = .ok r)
      (fun t => (t.file = d.file ∨
          t.file = Function.update d.file .state (some (stateFile d))) ∧
        (Refuses .open ∨ Refuses .size ∨ Refuses .pread ∨
          ∃ e, recover (stateFile d).visible = .error e)) := by
  refine ((openCreate_sat .state d).mono (fun _ _ h => h)
    fun _ h => ⟨.inl h.1, .inl h.2⟩).bind fun _ t ht => ?_
  have hfile : t.file .state = some (stateFile d) := by
    rw [ht, Function.update_self]
    rfl
  refine ((size_sat hfile).mono (fun _ _ h => h)
    fun u h => ⟨.inr (h.1.trans ht), .inr (.inl h.2)⟩).bind ?_
  rintro size u ⟨hu, rfl⟩
  refine Sat.ite (fun hzero => ?_) fun hsize => ?_
  · exact ⟨hu.trans ht, by rw [recover, if_pos (List.eq_nil_of_length_eq_zero hzero)]⟩
  have hne : (stateFile d).visible ≠ [] := fun h => hsize (by rw [h]; rfl)
  refine ((pread_sat ((congrFun hu _).trans hfile) kStateFileBytes 0).mono (fun _ _ h => h)
    fun v h => ⟨.inr (h.1.trans (hu.trans ht)), .inr (.inr (.inl h.2))⟩).bind ?_
  rintro bytes v ⟨hv, rfl⟩
  have hvt := hv.trans (hu.trans ht)
  cases hscan : scanStateFile (subslice (stateFile d).visible 0 kStateFileBytes) with
  | error e =>
      exact ⟨.inr hvt, .inr (.inr (.inr ⟨e, by rw [recover, if_neg hne, hscan]⟩))⟩
  | ok found => exact ⟨hvt, by rw [recover, if_neg hne, hscan]⟩

end Loading

/-- On a healthy disk, what can be recovered is loaded. -/
theorem loadHardState_of_recover {d : Disk} {hard : HardState} {S : Nat}
    (h : recover (stateFile d).visible = .ok (hard, S)) :
    ∃ t, @loadHardState healthy d = .ok (hard, S) t := by
  have hload := @loadHardState_sat healthy d
  have hnever : ∀ op, ¬ @Refuses healthy op := fun op ⟨_, hop⟩ => Bool.noConfusion hop
  cases hr : @loadHardState healthy d with
  | ok r t =>
      rw [hr] at hload
      exact ⟨t, by rw [Except.ok.inj (hload.2.symm.trans h)]⟩
  | error e t =>
      rw [hr] at hload
      obtain ⟨-, hop | hop | hop | ⟨e', he'⟩⟩ := hload
      · exact absurd hop (hnever _)
      · exact absurd hop (hnever _)
      · exact absurd hop (hnever _)
      · rw [h] at he'
        cases he'

/-- The hard state that `load_hard_state` would recover from what is on the platter. -/
def durableHardState (d : Disk) : Except ErrorCode HardState :=
  match @loadHardState healthy d.platter with
  | .ok (hard, _) _ => .ok hard
  | .error e _ => .error e

private theorem durableHardState_eq {d : Disk} {x : File} {hard : HardState} {S : Nat}
    (hx : d.file .state = some x) (h : recover x.durable = .ok (hard, S)) :
    durableHardState d = .ok hard := by
  have hplatter : stateFile d.platter = x.platter := by
    refine stateFile_eq ?_
    rw [platter, file_mapFiles, hx]
    rfl
  have hrec : recover (stateFile d.platter).visible = .ok (hard, S) := by rw [hplatter]; exact h
  obtain ⟨t, ht⟩ := loadHardState_of_recover hrec
  rw [durableHardState, ht]

/-! ## Writing it -/

section Writing

variable [Faults] {d : Disk} {x : File} {old : HardState} {tried : List Attempt}

/-- The attempts after one more call: none more, or one more at `state`. -/
inductive Tries (state : HardState) (tried : List Attempt) : List Attempt → Prop
  | none : Tries state tried tried
  | some (a : Attempt) (state_eq : a.state = state) : Tries state tried (tried ++ [a])

omit [Faults] in
theorem Tries.forall {state : HardState} {tried' : List Attempt} (h : Tries state tried tried')
    {P : HardState → Prop} (htried : ∀ a ∈ tried, P a.state) (hstate : P state) :
    ∀ a ∈ tried', P a.state := by
  cases h with
  | none => exact htried
  | some a ha =>
      intro a' ha'
      rcases List.mem_append.1 ha' with hold | hlast
      · exact htried a' hold
      · rw [List.mem_singleton.1 hlast, ha]
        exact hstate

private theorem writeSlot_sat (hx : d.file .state = some x) (state : HardState) (S : Nat) :
    Sat (writeSlot state S d)
      (fun _ t => t.file = Function.update d.file .state
        (some (x.write (stateSlotOffset S) (encodeStateSlot state S))))
      (fun t => ∃ y, t.file = Function.update d.file .state (some y) ∧
        Attempted x (stateSlotOffset S) (encodeStateSlot state S) y) := by
  have hne : encodeStateSlot state S ≠ [] := by
    intro h
    have := encodeStateSlot_length state S
    simp [h, kStateSlotBytes] at this
  refine (pwrite_sat hx hne (stateSlotOffset S)).bind ?_
  rintro written t ⟨hw, -, ht⟩
  exact Sat.ite (fun hshort => absurd hw hshort) fun _ => ht

/-- Writing the hard state, as it is done to the file. -/
theorem persist_file {b : Broker} (hf : b.config.fsyncHardState = true)
    (hx : b.disk.file .state = some x) (state : HardState) :
    Sat (persist state b)
      (fun _ b' => ∃ t,
        b' = { withDisk t b with stateSequence := b.stateSequence + 1 } ∧
        t.file .state = some (x.write (stateSlotOffset b.stateSequence)
          (encodeStateSlot state b.stateSequence)).flush)
      (fun b' => ∃ t y, b' = withDisk t b ∧ t.file .state = some y ∧
        (y = x ∨ ∃ a : Attempt, a.state = state ∧
          y = x.write (a.write b.stateSequence).offset (a.write b.stateSequence).bytes)) := by
  have hwhole : Attempt.Whole ⟨state, kStateSlotBytes⟩ := le_refl kStateSlotBytes
  show Sat ((onDisk (writeSlot state b.stateSequence) >>= _) b) _ _
  refine ((onDisk_sat (writeSlot_sat hx state b.stateSequence)).mono (fun _ _ h => h) ?_).bind ?_
  · rintro _ ⟨t, rfl, y, ht, hy⟩
    have hfile : t.file .state = some y := by rw [ht, Function.update_self]
    cases hy with
    | none => exact ⟨t, x, rfl, hfile, .inl rfl⟩
    | some k _ _ => exact ⟨t, _, rfl, hfile, .inr ⟨⟨state, k⟩, rfl, rfl⟩⟩
  rintro _ _ ⟨t, rfl, ht⟩
  have hy : t.file .state =
      some (x.write (stateSlotOffset b.stateSequence) (encodeStateSlot state b.stateSequence)) := by
    rw [ht, Function.update_self]
  have hflush : flushState b.config = Disk.fsync .state := by rw [flushState, if_pos hf]
  rw [hflush]
  refine ((onDisk_sat (b := withDisk t b) (fsync_sat hy)).mono (fun _ _ h => h) ?_).bind ?_
  · rintro _ ⟨u, rfl, hu, -⟩
    refine ⟨u, _, rfl, (congrFun hu _).trans hy, .inr ⟨⟨state, kStateSlotBytes⟩, rfl, ?_⟩⟩
    rw [hwhole.write]
  · rintro _ _ ⟨u, rfl, hu⟩
    exact ⟨u, rfl, by rw [hu, Function.update_self]⟩

/-- Writing the hard state: it is on the platter, or it has been tried at most. -/
theorem persist_sat {b : Broker} (hf : b.config.fsyncHardState = true)
    (hx : b.disk.file .state = some x) (hl : Ledger b.stateSequence old tried x)
    (state : HardState) :
    Sat (persist state b)
      (fun _ b' => ∃ t y,
        b' = { withDisk t b with stateSequence := b.stateSequence + 1 } ∧
        t.file .state = some y ∧
        (InSlot state b.stateSequence → Ledger (b.stateSequence + 1) state [] y))
      (fun b' => ∃ t y tried', b' = withDisk t b ∧ t.file .state = some y ∧
        Ledger b.stateSequence old tried' y ∧ Tries state tried tried') := by
  have hwhole : Attempt.Whole ⟨state, kStateSlotBytes⟩ := le_refl kStateSlotBytes
  refine (persist_file hf hx state).mono ?_ ?_
  · rintro _ _ ⟨t, rfl, ht⟩
    have hpaid := fun hs => hl.flush hwhole hs
    rw [hwhole.write] at hpaid
    exact ⟨t, _, rfl, ht, hpaid⟩
  · rintro _ ⟨t, y, rfl, hy, rfl | ⟨a, ha, rfl⟩⟩
    · exact ⟨t, _, tried, rfl, hy, hl, .none⟩
    · exact ⟨t, _, _, rfl, hy, hl.write a, .some a ha⟩

/-- Whatever comes of it, writing the hard state changes `raft.state` and its sequence
number at most. -/
theorem persist_frame (state : HardState) (b : Broker) :
    Sat (persist state b)
      (fun _ b' => ∃ t, b' = { withDisk t b with stateSequence := b.stateSequence + 1 } ∧
        ∀ g ≠ .state, t.file g = b.disk.file g)
      (fun b' => ∃ t, b' = withDisk t b ∧ ∀ g ≠ .state, t.file g = b.disk.file g) := by
  have hwrite : Keeps (fun d t : Disk => ∀ g : {g // g ≠ FileName.state}, Untouched g.1 d t)
      (writeSlot state b.stateSequence) :=
    Keeps.forall_ fun g => Untouched.bind (Untouched.pwrite g.2 _ _) fun _ =>
      Keeps.ite (Untouched.throw _) (Untouched.pure _)
  have hflush : Keeps (fun d t : Disk => ∀ g : {g // g ≠ FileName.state}, Untouched g.1 d t)
      (flushState b.config) :=
    Keeps.forall_ fun g => Keeps.ite (Untouched.fsync g.2) (Untouched.pure _)
  show Sat ((onDisk (writeSlot state b.stateSequence) >>= _) b) _ _
  refine ((onDisk_sat (hwrite b.disk)).mono (fun _ _ h => h) ?_).bind ?_
  · rintro _ ⟨t, rfl, ht⟩
    exact ⟨t, rfl, fun g hg => ht ⟨g, hg⟩⟩
  rintro _ _ ⟨t, rfl, ht⟩
  refine ((onDisk_sat (b := withDisk t b) (hflush t)).mono (fun _ _ h => h) ?_).bind ?_
  · rintro _ ⟨u, rfl, hu⟩
    exact ⟨u, rfl, fun g hg => (ht ⟨g, hg⟩).trans (hu ⟨g, hg⟩)⟩
  · rintro _ _ ⟨u, rfl, hu⟩
    exact ⟨u, rfl, fun g hg => (ht ⟨g, hg⟩).trans (hu ⟨g, hg⟩)⟩

theorem carryOutLogOrders_keeps {R : Disk → Disk → Prop} (hR : Log.Framed R) (ready : Ready)
    (entry : Bytes) : Keeps (Log.OnStore R) (carryOutLogOrders ready entry) := by
  refine Log.OnStore.bind hR ?_ fun _ => ?_
  · cases ready.truncateFrom with
    | none => exact Log.OnStore.pure hR _
    | some index => exact Log.OnStore.truncateTo hR index
  · exact Keeps.ite (Log.OnStore.pure hR _) (Keeps.ite (Log.OnStore.throw hR _)
      (Log.OnStore.bind hR (Log.OnStore.appendReplicated hR _) fun _ => Log.OnStore.fsync hR))

end Writing

/-! ## One call -/

/-- The observation is a report of a commit. -/
def IsReport (o : Observation) : Prop := ∃ start stop, o.event = .committed start stop

theorem IsReport.event_ne {o : Observation} (h : IsReport o) (m : Message) (entry : Bytes) :
    o.event ≠ .sent m entry := by
  obtain ⟨start, stop, hcommit⟩ := h
  exact fun hsent => Event.noConfusion (hcommit.symm.trans hsent)

theorem mem_noted_observed {b : Broker} {c : Nat} {o : Observation}
    (h : o ∈ (b.noted c).observed) : o ∈ b.observed ∨
      b.lastCommitSeen < c ∧ o = ⟨.committed b.lastCommitSeen c, b.disk, b.raft⟩ := by
  unfold noted at h
  split at h
  · exact .inl h
  case isFalse hlt =>
    rcases List.mem_append.1 h with hold | hnew
    · exact .inl hold
    · exact .inr ⟨Nat.not_le.1 hlt, List.mem_singleton.1 hnew⟩

private theorem mem_noted {b : Broker} {c : Nat} {o : Observation} (h : o ∈ (b.noted c).observed) :
    o ∈ b.observed ∨ IsReport o := by
  rcases mem_noted_observed h with hold | ⟨-, rfl⟩
  · exact .inl hold
  · exact .inr ⟨_, _, rfl⟩

theorem mem_acked {b : Broker} {o : Observation} (h : o ∈ b.acked.observed) :
    o ∈ b.observed ∨ IsReport o := by
  unfold acked at h
  split at h
  · exact mem_noted h
  · exact .inl h

theorem Sends.mem {ms : List Message} {b b' : Broker} (h : Sends ms b b') {o : Observation}
    (ho : o ∈ b'.observed) : o ∈ b.observed ∨ Sent ms b' o := by
  obtain ⟨new, hnew, hsent⟩ := h.observed
  rw [hnew] at ho
  rcases List.mem_append.1 ho with hold | hmem
  · exact .inl hold
  · have hs := hsent o hmem
    exact .inr ⟨hs.raft.trans h.raft.symm, hs.disk.trans h.disk.symm, h.config ▸ hs.message⟩

/-- What `drive` leaves of the hard state, `old` having been on the platter before. -/
inductive Accounts (old : HardState) (tried : List Attempt) (b b' : Broker) : Prop
  /-- It is still owed, if it was, and no message has been sent. -/
  | owed {x : File} {tried' : List Attempt} (raft : b'.raft = b.raft.takeReady.2)
      (sequence : b'.stateSequence = b.stateSequence)
      (file : b'.disk.file .state = some x) (ledger : Ledger b.stateSequence old tried' x)
      (new : Tries b.raft.hard tried tried')
      (quiet : ∀ o ∈ b'.observed, o ∈ b.observed ∨ IsReport o)
  /-- It is on the platter, and messages have been sent. -/
  | paid {x : File} {tried' : List Attempt}
      (raft : b'.raft = b.raft.takeReady.2.hardStatePersisted)
      (file : b'.disk.file .state = some x)
      (ledger : Ledger b'.stateSequence b.raft.hard tried' x)
      (new : tried' = [] ∨
        tried' = tried ∧ b'.stateSequence = b.stateSequence ∧ old = b.raft.hard)
      (said : ∀ o ∈ b'.observed, o ∈ b.observed ∨ IsReport o ∨ Sent b.raft.out b' o)

section Driving

variable [Faults] {b b' : Broker} {x : File} {old : HardState} {tried : List Attempt}

theorem Drives.config {entry : Bytes} (h : Drives entry b b') : b'.config = b.config := by
  have hb : b.drained.config = b.config := noted_config _ _
  cases h with
  | idle => exact hb
  | refused => exact hb
  | @unpersisted _ s _ _ _ h =>
      have hp := persist_frame b.raft.hard { b.drained with store := s }
      rw [h] at hp
      obtain ⟨t, rfl, -⟩ := hp
      exact hb
  | @persisted s _ _ _ _ h hs =>
      have hp := persist_frame b.raft.hard { b.drained with store := s }
      rw [h] at hp
      obtain ⟨t, rfl, -⟩ := hp
      exact hs.config.trans hb
  | sent _ _ hs => exact hs.config.trans hb

theorem Drives.accounts {entry : Bytes} (h : Drives entry b b')
    (hf : b.config.fsyncHardState = true) (hx : b.disk.file .state = some x)
    (hl : Ledger b.stateSequence old tried x)
    (hclean : b.raft.hardStateDirty = false → old = b.raft.hard)
    (hin : InSlot b'.raft.hard b'.stateSequence) : Accounts old tried b b' := by
  have hconfig : b.drained.config = b.config := noted_config _ _
  have hstore : b.drained.store = b.store := noted_store _ _
  have hraft : b.drained.raft = b.raft.takeReady.2 := noted_raft _ _
  have hseq : b.drained.stateSequence = b.stateSequence := noted_stateSequence _ _
  have hquiet : ∀ o ∈ b.drained.observed, o ∈ b.observed ∨ IsReport o := fun o ho =>
    mem_noted (b := { b with raft := b.raft.takeReady.2 }) (c := b.raft.commitIndex) ho
  have horders := carryOutLogOrders_keeps Log.framed_state b.raft.takeReady.1 entry
  cases h with
  | idle =>
      refine .owed hraft hseq ?_ hl .none hquiet
      rw [disk, hstore]
      exact hx
  | refused h =>
      exact .owed hraft hseq (Eq.trans (horders.error h) hx) hl .none hquiet
  | @unpersisted _ s _ ho _ h =>
      have hp := persist_sat (b := { b.drained with store := s }) (hconfig ▸ hf)
        (Eq.trans (horders.ok ho) hx) (hseq ▸ hl) b.raft.hard
      rw [h] at hp
      obtain ⟨t, y, tried', rfl, hy, hl', hnew⟩ := hp
      exact .owed hraft hseq hy (hseq ▸ hl') hnew hquiet
  | @persisted s b₁ _ ho _ h hs =>
      have hp := persist_sat (b := { b.drained with store := s }) (hconfig ▸ hf)
        (Eq.trans (horders.ok ho) hx) (hseq ▸ hl) b.raft.hard
      rw [h] at hp
      obtain ⟨t, y, rfl, hy, hl'⟩ := hp
      have hbig : b'.stateSequence = b.stateSequence + 1 := hs.stateSequence.trans (by rw [← hseq])
      have hhard : b'.raft.hard = b.raft.hard := by
        rw [hs.raft]
        show b.drained.raft.hard = b.raft.hard
        rw [hraft]
        rfl
      have hslot : InSlot b.raft.hard b.stateSequence := by
        rw [hhard, hbig] at hin
        exact ⟨hin.1, hin.2.1, Nat.lt_of_succ_lt hin.2.2⟩
      refine .paid ?_ ((congrFun hs.disk _).trans hy) ?_ (.inl rfl) ?_
      · rw [hs.raft, ← hraft]
        rfl
      · rw [hbig, ← hseq]
        exact hl' (hseq ▸ hslot)
      · intro o ho
        rcases hs.mem ho with hold | hsent
        · exact (hquiet o hold).imp id .inl
        · exact .inr (.inr hsent)
  | @sent s _ ho hd hs =>
      have hseq' : b'.stateSequence = b.stateSequence := hs.stateSequence.trans hseq
      refine .paid ?_ ((congrFun hs.disk _).trans (Eq.trans (horders.ok ho) hx)) ?_
        (.inr ⟨rfl, hseq', hclean hd⟩) ?_
      · rw [hs.raft]
        show b.drained.raft = _
        rw [hraft]
        show _ = ({ b.raft.takeReady.2 with hardStateDirty := false } : Node)
        rw [← hd]
        rfl
      · rw [hseq', ← hclean hd]
        exact hl
      · intro o ho
        rcases hs.mem ho with hold | hsent
        · exact (hquiet o hold).imp id .inl
        · exact .inr (.inr hsent)

/-- The message that a call hands over. -/
def Call.arriving : Call → Option Message
  | .receive _ m _ => some m
  | .tick _ => none
  | .propose _ => none

/-- As far as the hard state goes, a call leaves everything as it was or operates the
node once and drives it. -/
theorem Returns.operates {c : Call} (h : Returns b c b') (hx : b.disk.file .state = some x) :
    (b'.config = b.config ∧ b'.raft = b.raft ∧ b'.stateSequence = b.stateSequence ∧
        b'.disk.file .state = some x ∧ b'.observed = b.observed) ∨
      ∃ b₀ entry asked, Drives entry b₀ b' ∧ b.raft.Operates asked b₀.raft ∧
        (∀ m ∈ asked, c.arriving = some m ∧ m.target = b.config.raft.id) ∧
        b₀.config = b.config ∧ b₀.stateSequence = b.stateSequence ∧
        b₀.disk.file .state = some x ∧ ∀ o ∈ b₀.observed, o ∈ b.observed ∨ IsReport o := by
  cases h with
  | declined => exact .inl ⟨rfl, rfl, rfl, hx, rfl⟩
  | @tick draw _ hr h =>
      exact .inr ⟨_, _, none, h, .tick draw, fun m hm => (nomatch hm), rfl, rfl, hx,
        fun o ho => .inl ho⟩
  | @receive draw m entry _ ht h =>
      refine .inr ⟨_, _, some m, h, .step draw m, fun q hq => ?_, rfl, rfl, hx,
        fun o ho => .inl ho⟩
      cases hq
      exact ⟨rfl, ht⟩
  | unwritten hr hl h =>
      have ha := (Log.append_untouched _ _).error h
      exact .inl ⟨rfl, rfl, rfl, Eq.trans ha hx, rfl⟩
  | unflushed hr hl h hf =>
      have ha := (Log.append_untouched _ _).ok h
      have hs := Log.fsync_untouched.error hf
      exact .inl ⟨rfl, rfl, rfl, Eq.trans hs (Eq.trans ha hx), rfl⟩
  | @proposed builder k s s' _ hr hl h hf hd =>
      have ha := (Log.append_untouched _ _).ok h
      have hs := Log.fsync_untouched.ok hf
      refine .inr ⟨_, _, none, hd, .append hl k s'.log.nextOffset, fun m hm => (nomatch hm),
        ?_, ?_, ?_, ?_⟩
      · exact acked_config _
      · exact acked_stateSequence _
      · show ({ b with store := s' } : Broker).acked.store.disk.file .state = some x
        rw [acked_store]
        exact Eq.trans hs (Eq.trans ha hx)
      · exact fun o ho => mem_acked (b := { b with store := s' }) ho

end Driving

/-! ## Between two calls -/

/-- Between two calls: nothing waits to be said, and a hard state that is not owed is
on the platter. -/
structure Recorded (config : BrokerConfig) (b : Broker) : Prop where
  raftConfig : b.raft.config = config.raft
  config : b.config = config
  out : b.raft.out = []
  file : ∃ x old tried, b.disk.file .state = some x ∧ Ledger b.stateSequence old tried x ∧
    (b.raft.hardStateDirty = false → old = b.raft.hard)

/-- The platter holds the term and the vote that a message of broker `id` implies. -/
structure Backed (id : Nat) (d : Disk) (m : Message) (hard : HardState) : Prop where
  durable : durableHardState d = .ok hard
  term : hard.term = m.term
  grant : m.type = .requestVoteResponse → m.granted = true → hard.votedFor = m.target
  request : m.type = .requestVote → hard.votedFor = id

/-- Whatever has been sent is backed by the platter. -/
def Spoken (id : Nat) (b : Broker) : Prop :=
  ∀ o ∈ b.observed, ∀ m entry, o.event = .sent m entry → ∃ hard, Backed id o.disk m hard

private theorem recorded_of_returns [Faults] {config : BrokerConfig}
    (hf : config.fsyncHardState = true)
    {b b' : Broker} {c : Call} (h : Returns b c b') (hb : b.Recorded config)
    (hs : b.Spoken config.raft.id) (hin : InSlot b'.raft.hard b'.stateSequence) :
    b'.Recorded config ∧ b'.Spoken config.raft.id := by
  obtain ⟨x, old, tried, hx, hl, hclean⟩ := hb.file
  obtain ⟨hc, hr, hq, hfile, ho⟩ | ⟨b₀, entry, asked, hd, hop, -, hc, hq, hfile, ho⟩ :=
    h.operates hx
  · refine ⟨⟨hr ▸ hb.raftConfig, hc.trans hb.config, hr ▸ hb.out, x, old, tried, hfile, hq ▸ hl,
      hr ▸ hclean⟩, ?_⟩
    unfold Spoken
    rw [ho]
    exact hs
  have howes := hop.owes
  have hcfg := hc.trans hb.config
  have hraft₀ := howes.config.trans hb.raftConfig
  have hclean₀ : b₀.raft.hardStateDirty = false → old = b₀.raft.hard := fun hd₀ =>
    (hclean (howes.clean hd₀).1).trans (howes.clean hd₀).2.symm
  -- what was there before, and reports, concern no message
  have hold : ∀ o, o ∈ b₀.observed ∨ IsReport o → ∀ m entry, o.event = .sent m entry →
      ∃ hard, Backed config.raft.id o.disk m hard := by
    intro o hor m entry he
    rcases hor with hmem | hrep
    · rcases ho o hmem with hmem' | hrep
      · exact hs o hmem' m entry he
      · exact absurd he (hrep.event_ne m entry)
    · exact absurd he (hrep.event_ne m entry)
  cases hd.accounts (hcfg ▸ hf) hfile (hq ▸ hl) hclean₀ hin with
  | owed hraft hseq hfile hledger hnew hquiet =>
      rw [← hseq] at hledger
      refine ⟨⟨?_, hd.config.trans hcfg, ?_, _, _, _, hfile, hledger, ?_⟩,
        fun o hmem => hold o (hquiet o hmem)⟩ <;> rw [hraft]
      · exact hraft₀
      · rfl
      · exact hclean₀
  | paid hraft hfile hledger hnew hsaid =>
      refine ⟨⟨?_, hd.config.trans hcfg, ?_, _, _, _, hfile, hledger, ?_⟩,
        fun o hmem m entry he => ?_⟩
      · rw [hraft]
        exact hraft₀
      · rw [hraft]
        rfl
      · rw [hraft]
        exact fun _ => rfl
      · obtain hmem' | hrep | hsent := hsaid o hmem
        · exact hold o (.inl hmem') m entry he
        · exact hold o (.inr hrep) m entry he
        · obtain ⟨q, hq, stop, entry', heq, -⟩ := hsent.message
          rw [heq] at he
          obtain ⟨rfl, -⟩ := Event.sent.inj he
          have hhonest := hop.announces hb.out q hq
          refine ⟨b₀.raft.hard, ?_, hhonest.term.symm, fun ht hg => (hhonest.grant ht hg).1,
            fun ht => ?_⟩
          · exact durableHardState_eq ((congrFun hsent.disk _).trans hfile) hledger.durable
          · rw [(hhonest.request ht).1, hraft₀]

/-! ## Starting -/

/-- The broker that comes up where `raft.state` holds `hard`. -/
structure Started (config : BrokerConfig) (x : File) (b : Broker) : Prop where
  raftConfig : b.raft.config = config.raft
  config : b.config = config
  role : b.raft.role = .follower
  clean : b.raft.hardStateDirty = false
  out : b.raft.out = []
  observed : b.observed = []
  file : b.disk.file .state = some x
  hard : recover x.visible = .ok (b.raft.hard, b.stateSequence)

theorem start_sat [Faults] (config : BrokerConfig) (draw : Nat) (d : Disk) :
    Sat (start config draw d) (fun b _ => Started config (stateFile d) b)
      (fun t => stateFile t = stateFile d) := by
  have hsame : ∀ {t : Disk}, t.file .state = d.file .state → stateFile t = stateFile d :=
    fun h => by rw [stateFile, stateFile, h]
  refine ((Log.open_untouched config.logOptions d).mono (fun _ _ h => h)
    fun t ht => hsame ht).bind fun log t ht => ?_
  have hfile := hsame ht
  have hload := loadHardState_sat t
  rw [hfile] at hload
  refine (hload.mono (fun _ _ h => h) ?_).bind ?_
  · rintro u ⟨hu | hu, -⟩
    · exact hsame ((congrFun hu _).trans ht)
    · exact stateFile_eq (by rw [hu, Function.update_self])
  rintro ⟨hard, S⟩ u ⟨hu, hrec⟩
  have hux : u.file .state = some (stateFile d) := by rw [hu, Function.update_self]
  refine ((Log.scanEpochs_untouched .state log u).mono (fun _ _ h => h)
    fun v hv => stateFile_eq (Eq.trans hv hux)).bind fun epochs v hv => ?_
  exact ⟨rfl, rfl, rfl, rfl, rfl, rfl, Eq.trans hv hux, hrec⟩

theorem Started.recorded {config : BrokerConfig} {x : File} {b : Broker}
    (h : Started config x b) (hx : Settled x) :
    b.Recorded config ∧ b.Spoken config.raft.id := by
  refine ⟨⟨h.raftConfig, h.config, h.out, x, b.raft.hard, [], h.file,
    ledger_of_recover hx h.hard, fun _ => rfl⟩, fun o ho => ?_⟩
  rw [h.observed] at ho
  cases ho

end Broker

/-! ## Runs -/

namespace Host

/-- The process does not end while a write to `raft.state` is unflushed. -/
def EndsFlushed : Host → Action → Prop
  | .up b, .exit => (stateFile b.disk).pending = []
  | _, _ => True

instance : ∀ h a, Decidable (EndsFlushed h a)
  | .up b, .exit => inferInstanceAs (Decidable ((stateFile b.disk).pending = []))
  | .up _, .start _ _ | .up _, .call _ _ | .up _, .crash _ _ => .isTrue trivial
  | .down _, _ => .isTrue trivial

/-- What holds of a host at every moment of a run. -/
def Sound (config : BrokerConfig) : Host → Prop
  | .down d => AtRest d
  | .up b => b.Recorded config ∧ b.Spoken config.raft.id

private theorem atRest_crash (d : Disk) (kept torn : FileName → Nat) :
    AtRest (d.crash kept torn) := by
  unfold AtRest stateFile Disk.crash
  rw [file_mapFiles]
  cases d.file .state with
  | none => exact ⟨rfl, rfl⟩
  | some x => exact ⟨rfl, rfl⟩

theorem Sound.next {config : BrokerConfig} (hf : config.fsyncHardState = true) {h h' : Host}
    {a : Action} (hs : h.Sound config) (hok : h.EndsFlushed a)
    (hn : h.next config a = some h') (hin : h'.InRange) : h'.Sound config := by
  cases h with
  | down d =>
      cases a with
      | start draw faults =>
          have hstart := Broker.start_sat config draw d
          simp only [Host.next] at hn
          split at hn
          case h_1 b t hb =>
            cases hn
            rw [hb] at hstart
            exact Broker.Started.recorded hstart hs
          case h_2 e t hb =>
            cases hn
            rw [hb] at hstart
            show Settled (stateFile t)
            rw [show stateFile t = stateFile d from hstart]
            exact hs
      | call c faults => cases hn
      | exit => cases hn
      | crash kept torn =>
          cases hn
          exact atRest_crash _ _ _
  | up b =>
      cases a with
      | start draw faults => cases hn
      | call c faults =>
          cases hn
          have hb := hs.1
          exact Broker.recorded_of_returns hf (Broker.after_returns b faults c)
            ⟨hb.raftConfig, hb.config, hb.out, hb.file⟩ (fun o ho => by cases ho) hin
      | exit =>
          cases hn
          obtain ⟨x, old, tried, hx, hl, -⟩ := hs.1.file
          rw [EndsFlushed, stateFile_eq hx] at hok
          show Settled (stateFile b.disk)
          rw [stateFile_eq hx]
          exact hl.settled hok
      | crash kept torn =>
          cases hn
          exact atRest_crash _ _ _

theorem Sound.runs {config : BrokerConfig} (hf : config.fsyncHardState = true) {h h' : Host}
    (hs : h.Sound config) (hr : h.Runs config EndsFlushed h') : h'.Sound config := by
  induction hr with
  | refl => exact hs
  | tail _ hstep ih =>
      obtain ⟨a, hn, hok, hin⟩ := hstep
      exact ih.next hf hok hn hin

end Host

/-- **Persist before send**: in every run in which no process ends with a write to
`raft.state` unflushed, the platter holds the term of every message that leaves the
broker, and the vote that the message implies. -/
theorem persist_before_send {config : BrokerConfig} (hf : config.fsyncHardState = true)
    {d : Disk} (hd : AtRest d) {b : Broker}
    (hr : (Host.down d).Runs config Host.EndsFlushed (.up b)) {o : Observation}
    (ho : o ∈ b.observed) {m : Message} {entry : Bytes} (he : o.event = .sent m entry) :
    ∃ hard, Broker.durableHardState o.disk = .ok hard ∧ hard.term = m.term ∧
      (m.type = .requestVoteResponse → m.granted = true → hard.votedFor = m.target) ∧
      (m.type = .requestVote → hard.votedFor = config.raft.id) := by
  have hs : (Host.up b).Sound config := Host.Sound.runs hf (h := .down d) hd hr
  obtain ⟨hard, hb⟩ := hs.2 o ho m entry he
  exact ⟨hard, hb.durable, hb.term, hb.grant, hb.request⟩

/-- Broker `1` asks for a vote in term `1`. -/
def candidacy : Message where
  type := .requestVote
  sender := 1
  target := 0
  term := 1

/-- The message grants broker `1` a vote, and the platter holds `hard`. -/
def grantsWith (hard : HardState) (m : Message) (d : Disk) : Bool :=
  m.type == .requestVoteResponse && m.granted && m.target == 1 &&
    match Broker.durableHardState d with
    | .ok found => found == hard
    | .error _ => false

theorem persist_before_send_firstVote :
    ∃ b o m entry, (Host.down {}).Runs brokerZero Host.EndsFlushed (.up b) ∧
      o ∈ b.observed ∧ o.event = .sent m entry ∧ m.granted = true ∧
      ∃ hard, Broker.durableHardState o.disk = .ok hard ∧ hard.term = m.term ∧
        hard.votedFor = m.target := by
  obtain ⟨h, hr, hp⟩ := Host.exists_of_replay brokerZero Host.EndsFlushed (.down {})
    [.start 0 healthy, .call (.receive 0 candidacy []) healthy]
    (p := Host.shows (Observation.sends (grantsWith ⟨1, 1⟩))) (by decide +kernel)
  obtain ⟨b, o, rfl, ho, hs⟩ := Host.exists_of_shows hp
  obtain ⟨m, entry, he, hm⟩ := Observation.exists_of_sends hs
  simp only [grantsWith, Bool.and_eq_true, beq_iff_eq] at hm
  obtain ⟨hard, hdur, hterm, hgrant, -⟩ := persist_before_send rfl ⟨rfl, rfl⟩ hr ho he
  exact ⟨b, o, m, entry, hr, ho, he, hm.1.1.2, hard, hdur, hterm, hgrant hm.1.1.1 hm.1.1.2⟩

/-- A vote whose `fsync` failed, read back by the next process and then announced: the
platter has never heard of it. -/
theorem unflushedVote_announced :
    ∃ b o m entry, (Host.down {}).Runs brokerZero (fun _ _ => True) (.up b) ∧
      o ∈ b.observed ∧ o.event = .sent m entry ∧ m.type = .requestVoteResponse ∧
      m.granted = true ∧ m.target = 1 ∧ Broker.durableHardState o.disk = .ok {} := by
  obtain ⟨h, hr, hp⟩ := Host.exists_of_replay brokerZero (fun _ _ => True) (.down {})
    [.start 0 healthy, .call (.receive 0 candidacy []) (refusing .fsync), .exit,
      .start 0 healthy, .call (.receive 0 candidacy []) healthy]
    (p := Host.shows (Observation.sends (grantsWith {}))) (by decide +kernel)
  obtain ⟨b, o, rfl, ho, hs⟩ := Host.exists_of_shows hp
  obtain ⟨m, entry, he, hm⟩ := Observation.exists_of_sends hs
  simp only [grantsWith, Bool.and_eq_true, beq_iff_eq] at hm
  refine ⟨b, o, m, entry, hr, ho, he, hm.1.1.1, hm.1.1.2, hm.1.2, ?_⟩
  have hdur := hm.2
  split at hdur
  case h_1 found heq => rw [heq, beq_iff_eq.1 hdur]
  case h_2 => cases hdur

end LogEngine.Server
