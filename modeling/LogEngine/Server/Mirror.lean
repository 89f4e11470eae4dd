import LogEngine.Raft.Commit
import LogEngine.Server.Agreement
import LogEngine.Server.Fleet
import LogEngine.Storage.Steady

/-!
# A broker and its replica

`Raft.Replica` is the driver of a node whose log is a list of batches.  A broker whose disk
refuses nothing does call by call what the replica does (`Mirrors`): its node is the
replica's, the batches in its files are the replica's log, and `raft.state` holds the
replica's hard state.  What it puts on the wire the replica sends as well; the replica may
send more, for `read_entry` does not find a batch that is longer than its buffer.

The batches of a cluster are opaque.  So `Frame.batch` may put all the bytes of a batch into
the place of its first record, and two logs that are the same in the cluster are the same
byte for byte.
-/

namespace LogEngine.Raft

open Verified Verified.Tiling Verified.Replication
open Extent

/-! ## Orders that can be carried out -/

/-- The log once the truncation a `Ready` asks for is done. -/
def cutBack (ready : Ready) (log : List Batch) : List Batch :=
  carryOutLogOrders { ready with appendEntry := false } none log

private theorem cutBack_none {ready : Ready} (h : ready.truncateFrom = none) (log : List Batch) :
    cutBack ready log = log := by
  simp [cutBack, carryOutLogOrders, h]

private theorem cutBack_some {ready : Ready} {k : Nat} (h : ready.truncateFrom = some k)
    (log : List Batch) : cutBack ready log = truncateTo log k := by
  simp [cutBack, carryOutLogOrders, h]

private theorem carryOutLogOrders_cutBack (ready : Ready) (entry : Option Batch)
    (log : List Batch) :
    carryOutLogOrders ready entry log =
      if ready.appendEntry then cutBack ready log ++ entry.toList else cutBack ready log := rfl

/-- What a `Ready` orders can be done to the log: it is cut where a batch begins, and the
batch that is to be appended is there and belongs at the end. -/
structure Feasible (ready : Ready) (entry : Option Batch) (log : List Batch) : Prop where
  cut : ∀ k ∈ ready.truncateFrom, k ≤ endFrom 0 log ∧ endFrom 0 (truncateTo log k) = k
  append : ready.appendEntry = true → ∃ e, entry = some e ∧ base e = endFrom 0 (cutBack ready log)

private theorem feasible_none {ready : Ready} (hcut : ready.truncateFrom = none)
    (happend : ready.appendEntry = false) (entry : Option Batch) (log : List Batch) :
    Feasible ready entry log := by
  constructor
  · intro k hk
    rw [hcut] at hk
    cases hk
  · intro h
    rw [happend] at h
    cases h

/-- What a message that the protocol has sent makes a member order can be carried out. -/
theorem Settled.feasible {M : Membership} {a : Protocol} {i : Nat} {r : Replica}
    (hs : Settled M a i r) (ha : Sound M.quorums a) {env : Envelope} (hc : Carried M a env)
    (draw : Nat) : Feasible (r.orders draw env) env.entry r.log := by
  have hpt := hs.pendingTruncate
  have hpa := hs.pendingAppend
  rcases Node.step_outcome r.node draw env.message with hkeep | hadv | ⟨hacc, f, hf, heq⟩
  · exact feasible_none (hkeep.pendingTruncate.trans hpt) (hkeep.pendingAppend.trans hpa) _ _
  · exact feasible_none (hadv.pendingTruncate.trans hpt) (hadv.pendingAppend.trans hpa) _ _
  obtain ⟨x, hx, henc⟩ := hc.append hacc.type
  have hlog : a.log i = r.log := hs.stands.log
  have hl : Tiles 0 r.log := hlog ▸ ha.inv.tiles i
  have hv := hs.tracks.views
  have hvf : f.Views r.log := hv.congr hf.keeps.logEnd hf.keeps.lastTerm hf.keeps.epochs
  have hmt := matches_iff hv hl henc hacc.matches_
  obtain ⟨hcut, happend⟩ :
      (r.orders draw env).truncateFrom = (f.acceptEntry env.message).pendingTruncate ∧
        (r.orders draw env).appendEntry = (f.acceptEntry env.message).pendingAppend := by
    obtain ⟨c, hadopt⟩ := Node.adoptCommit_eq (f.acceptEntry env.message) env.message
    rw [Replica.orders, heq, hadopt]
    exact ⟨rfl, rfl⟩
  have hfpt : f.pendingTruncate = none := hf.keeps.pendingTruncate.trans hpt
  have hfpa : f.pendingAppend = false := hf.keeps.pendingAppend.trans hpa
  cases hent : env.entry with
  | none =>
      have hself : f.acceptEntry env.message = f := by
        simp [Node.acceptEntry, henc.heartbeat hent]
      rw [hself] at hcut happend
      exact feasible_none (hcut.trans hfpt) (happend.trans hfpa) _ _
  | some e =>
      obtain ⟨p, hp, -⟩ := exists_attaches ha hlog hx hmt (henc.entry.trans hent)
      have hbase : base e = endFrom 0 p := hp.begins.trans hp.front.symm
      rcases hp.acceptEntry_cases henc ha hlog (by simp [hf.role]) hvf with
        ⟨hself, -⟩ | ⟨rfl, hnew⟩ | ⟨-, -, hnew⟩
      · rw [hself] at hcut happend
        exact feasible_none (hcut.trans hfpt) (happend.trans hfpa) _ _
      · have hnone : (r.orders draw env).truncateFrom = none := by
          rw [hcut, hnew]
          exact hfpt
        refine ⟨fun k hk => ?_, fun _ => ⟨e, rfl, ?_⟩⟩
        · rw [hnone] at hk
          cases hk
        · rw [cutBack_none hnone, hbase]
      · have hsome : (r.orders draw env).truncateFrom = some (endFrom 0 p) := by
          rw [hcut, hnew]
          rfl
        have hupTo : truncateTo r.log (endFrom 0 p) = p := hl.upTo_eq hp.isPrefix
        refine ⟨fun k hk => ?_, fun _ => ⟨e, rfl, ?_⟩⟩
        · obtain rfl : endFrom 0 p = k := Option.some.inj (hsome.symm.trans hk)
          exact ⟨hl.end_mono hp.isPrefix, congrArg (endFrom 0) hupTo⟩
        · rw [cutBack_some hsome, hupTo, hbase]

end LogEngine.Raft

namespace LogEngine.Storage

open Base Io Verified.Tiling Raft

/-! ## Frames as batches -/

namespace Frame

/-- What stands for the records of a batch: all its bytes for the first one, and nothing for
the others. -/
def payload (f : Frame) : List Record :=
  f.bytes :: List.replicate (Extent.stop f - Extent.base f - 1) []

/-- A batch as an entry of the cluster. -/
def batch (f : Frame) : Batch := ⟨Extent.base f, f.header.leaderEpoch, f.payload⟩

@[simp] theorem batch_base (f : Frame) : Extent.base f.batch = Extent.base f := rfl

@[simp] theorem batch_stop (f : Frame) : Extent.stop f.batch = Extent.stop f := by
  have hlt : Extent.base f < Extent.stop f := Verified.Framing.Proper.base_lt f
  show Extent.base f + (f.bytes :: List.replicate _ _).length = _
  rw [List.length_cons, List.length_replicate]
  omega

theorem payload_ne (f : Frame) : f.payload ≠ [] := List.cons_ne_nil _ _

theorem batch_injective : Function.Injective batch := by
  intro f g h
  have hrecords : f.payload = g.payload := congrArg Batch.records h
  exact ext (List.cons.inj hrecords).1

end Frame

/-- The batches of a log, as the log of a replica. -/
def View.batches (v : View) : List Batch := v.frames.map Frame.batch

namespace View

variable {v w : View} {options : LogOptions}

theorem Steady.batches_end (h : v.Steady options) : endFrom 0 v.batches = v.log.nextOffset :=
  (endFrom_map Frame.batch_stop 0 _).trans h.end_eq

private theorem batches_congr (hfiles : ∀ b, w.files (.log b) = v.files (.log b))
    (hlog : w.log = v.log) : w.batches = v.batches :=
  congrArg (List.map Frame.batch) (Steady.frames_congr hlog hfiles)

/-- Batches that the cluster has at the beginning of the log are there. -/
theorem isPrefix_of_batches {p : List Frame} (h : p.map Frame.batch <+: v.batches) :
    p <+: v.frames :=
  (List.prefix_map_iff_of_injective Frame.batch_injective).1 h

/-- The epochs that `scan_epochs` finds are those of the replica's log. -/
theorem scanEpochs_batches (fs : List Frame) :
    ((Log.boundaries (fs.map Frame.header)).map fun e => (⟨e.epoch, e.startOffset⟩ : Epoch)) =
      scanEpochs (fs.map Frame.batch) := by
  induction fs using List.reverseRecOn with
  | nil => rfl
  | append_singleton fs f ih =>
      rw [List.map_append, List.map_append, List.map_singleton, List.map_singleton,
        boundaries_snoc, scanEpochs_snoc, ih]
      rfl

end View

end LogEngine.Storage

namespace LogEngine.Storage.Log

open Base Io Verified.Fallible Verified.Tiling Verified.Framing

/-- What a read of a healthy disk hands back begins with the batch that has the offset in
it. -/
theorem read_covering {v : View} {d : Disk} (h : v.Serves) (hd : d.file = v.files)
    (offset capacity : Nat) :
    Sat (@read healthy v.log offset capacity d)
      (fun bytes _ => bytes = [] ∨ ∃ f ∈ v.frames, Extent.base f ≤ offset ∧
        offset < Extent.stop f ∧ f.bytes.length ≤ capacity ∧ f.bytes <+: bytes)
      (fun _ => True) := by
  by_cases hhi : v.log.nextOffset ≤ offset
  · rw [read_atEnd v.log d hhi]
    exact .inl rfl
  by_cases hlo : offset < v.log.startOffset
  · unfold read
    rw [if_neg hhi, if_pos hlo]
    exact trivial
  rw [Nat.not_le] at hhi
  rw [Nat.not_lt] at hlo
  obtain ⟨before, s, later, p, f, r, hsegments, hframes, hf, hf', hfrom⟩ := h.covering hlo hhi
  have hreads := reads_cover h (by rw [hsegments]; simp) hlo hhi hfrom hframes hf hf' capacity
  obtain ⟨t, -, hok, herror⟩ := read_healthy h hd offset capacity
  by_cases hfits : f.bytes.length ≤ capacity
  · rw [if_neg (Nat.not_lt.2 hfits), Segment.fitting, if_pos hfits, encode_cons] at hreads
    rw [hok _ hreads]
    refine .inr ⟨f, ?_, hf, hf', hfits, List.prefix_append _ _⟩
    rw [View.frames_split hsegments hframes]
    simp
  · rw [if_pos (Nat.not_le.1 hfits)] at hreads
    rw [herror _ hreads]
    exact trivial

end LogEngine.Storage.Log

namespace LogEngine.Server

open Base Io Io.Disk Storage Verified.Fallible Verified.Tiling Verified.Framing
open Raft (Node Message Ready Envelope Batch Replica HardState Feasible)

/-! ## What is on the wire -/

/-- The bytes that travel with a message, for the batch of an envelope. -/
inductive Attached : Bytes → Option Batch → Prop
  | none : Attached [] none
  | some (f : Storage.Frame) (h : f.bytes.length ≤ kEntryScratchBytes) :
      Attached f.bytes (some f.batch)

/-- Something on the wire is an envelope, and has with it the entry it names. -/
structure Conveys (p : Message × Bytes) (env : Envelope) : Prop where
  message : p.1 = env.message
  entry : Attached p.2 env.entry
  carries : p.1.carriesEntry = !p.2.isEmpty

namespace Broker

/-- What has been sent between two states of a broker is among the envelopes. -/
def Utters (envs : List Envelope) (b b' : Broker) : Prop :=
  ∃ new, b'.observed = b.observed ++ new ∧
    ∀ o ∈ new, ∀ m entry, o.event = .sent m entry → ∃ env ∈ envs, Conveys (m, entry) env

namespace Utters

variable {envs envs' : List Envelope} {b b' b'' : Broker}

private theorem of_observed (h : b'.observed = b.observed) : Utters envs b b' :=
  ⟨[], by rw [h, List.append_nil], fun _ ho => (nomatch ho)⟩

private theorem trans (h : Utters envs b b') (h' : Utters envs' b' b'') :
    Utters (envs ++ envs') b b'' := by
  obtain ⟨new, hnew, hsent⟩ := h
  obtain ⟨new', hnew', hsent'⟩ := h'
  refine ⟨new ++ new', by rw [hnew', hnew, List.append_assoc], ?_⟩
  intro o ho m entry he
  rcases List.mem_append.1 ho with ho | ho
  · obtain ⟨env, henv, hc⟩ := hsent o ho m entry he
    exact ⟨env, List.mem_append_left _ henv, hc⟩
  · obtain ⟨env, henv, hc⟩ := hsent' o ho m entry he
    exact ⟨env, List.mem_append_right _ henv, hc⟩

/-- A report of a commit sends nothing. -/
theorem noted (b : Broker) (c : Nat) : Utters [] b (b.noted c) := by
  unfold Broker.noted
  split
  · exact of_observed rfl
  · refine ⟨_, rfl, fun o ho m entry he => ?_⟩
    rw [List.mem_singleton.1 ho] at he
    cases he

private theorem acked (b : Broker) : Utters [] b b.acked := by
  unfold Broker.acked
  split
  · exact noted b _
  · exact of_observed rfl

end Utters

section Sending

variable {b : Broker} {options : LogOptions}

/-- `read_entry` finds what a replica finds, if it finds anything. -/
theorem readEntry_batch (h : b.store.view.Steady options) (index : Nat) :
    Sat (@readEntry healthy index b)
      (fun entry _ => ∃ f : Storage.Frame, f.bytes.length ≤ kEntryScratchBytes ∧
        entry = f.bytes ∧ Raft.readEntry b.store.view.batches index = some f.batch)
      (fun _ => True) := by
  have hread := Log.read_covering (d := b.disk) (View.serves h.intact h.chained) rfl index
    kEntryScratchBytes
  show Sat ((onDisk (@Log.read healthy b.log index kEntryScratchBytes) >>= _) b) _ _
  refine ((onDisk_sat hread).mono (fun _ _ hq => hq) fun _ _ => trivial).bind ?_
  rintro framed b' ⟨d, -, hframed⟩
  refine Sat.ite (fun _ => trivial) fun hne => ?_
  obtain hnil | ⟨f, hf, hlo, hhi, hfits, more, rfl⟩ := hframed
  · exact absurd hnil hne
  have hheader : decodeHeader (f.bytes ++ more) = .ok f.header := by
    rw [decodeHeader_append f.header_le, f.decode]
  rw [hheader]
  refine Sat.ite (fun _ => trivial) fun hbase => ?_
  rw [not_not] at hbase
  refine ⟨f, hfits, ?_, ?_⟩
  · rw [← f.whole, List.take_left]
  · obtain ⟨p, r, hframes⟩ := List.append_of_mem hf
    have hcover : cover b.store.view.frames index = some f := by
      apply h.tiles.cover_eq _ hlo hhi
      · exact p
      · exact ⟨r, by rw [hframes]; simp⟩
    unfold Raft.readEntry View.batches
    rw [cover_map Frame.batch_base Frame.batch_stop, hcover]
    exact if_pos hbase

/-- `send_raft` sends what a replica sends, or nothing. -/
theorem sendRaft_utters (h : b.store.view.Steady options) (m : Message) :
    Sat (@sendRaft healthy m b)
      (fun _ b' => Utters (Raft.sendRaft b.config.raft b.store.view.batches m).toList b b')
      (fun _ => False) := by
  show Sat ((if m.target ∉ b.config.raft.peers then pure () else _ : BrokerM Unit) b) _ _
  refine Sat.ite (fun _ => .of_observed rfl) fun hpeer => ?_
  rw [not_not] at hpeer
  unfold Raft.sendRaft
  rw [if_pos hpeer]
  cases hm : m.entryIndex with
  | none =>
      refine ⟨_, rfl, fun o ho m' entry he => ?_⟩
      rw [List.mem_singleton.1 ho] at he
      cases he
      exact ⟨_, List.mem_singleton_self _, rfl, .none, by simp [Message.carriesEntry, hm]⟩
  | some index =>
      refine Sat.bind (Q := fun found b' => (∃ d, b' = withDisk d b) ∧
          ∀ entry, found = .ok entry → ∃ f : Storage.Frame,
            f.bytes.length ≤ kEntryScratchBytes ∧ entry = f.bytes ∧
            Raft.readEntry b.store.view.batches index = some f.batch)
        (Sat.attempt ?_) ?_
      · refine ((@readEntry_sat healthy index b).and (readEntry_batch h index)).mono ?_ ?_
        · rintro entry _ ⟨⟨d, rfl, -⟩, hfound⟩
          refine ⟨⟨d, rfl⟩, fun entry' heq => ?_⟩
          obtain rfl := Except.ok.inj heq
          exact hfound
        · rintro _ ⟨⟨d, rfl, -⟩, -⟩ e
          exact ⟨⟨d, rfl⟩, fun _ heq => by cases heq⟩
      rintro found _ ⟨⟨d, rfl⟩, hfound⟩
      cases found with
      | error _ => exact Utters.of_observed rfl
      | ok entry =>
          obtain ⟨f, hfits, rfl, hentry⟩ := hfound entry rfl
          dsimp only
          rw [hentry, f.decode]
          refine ⟨_, rfl, fun o ho m' entry he => ?_⟩
          rw [List.mem_singleton.1 ho] at he
          cases he
          refine ⟨_, List.mem_singleton_self _, ?_, .some f hfits, ?_⟩
          · have hstop : f.batch.stop = f.header.nextOffset := f.batch_stop
            dsimp only
            rw [hstop]
          · simp [Message.carriesEntry, f.bytes_ne]

/-- And so does the loop over the messages. -/
theorem sendAll_utters (h : b.store.view.Steady options) (ms : List Message) :
    Sat (@sendAll healthy ms b)
      (fun _ b' => Utters (ms.filterMap (Raft.sendRaft b.config.raft b.store.view.batches)) b b')
      (fun _ => False) := by
  induction ms generalizing b with
  | nil => exact Utters.of_observed rfl
  | cons m rest ih =>
      refine ((sendRaft_utters h m).and (@sendRaft_sat healthy m b)).mono (fun _ _ hq => hq)
        (fun _ hf => hf.1) |>.bind ?_
      rintro _ b' ⟨hfirst, hsends⟩
      have hview : b'.store.view.log = b.store.view.log := hsends.log
      have hfiles : b'.store.view.files = b.store.view.files := hsends.disk
      have hbatches : b'.store.view.batches = b.store.view.batches :=
        View.batches_congr (fun _ => by rw [hfiles]) hview
      have hrest := ih (h.congr hview fun _ => by rw [hfiles])
      rw [hbatches, hsends.config] at hrest
      refine hrest.imp fun _ b'' hlast => ?_
      have hboth := hfirst.trans hlast
      rw [List.filterMap_cons]
      cases hm : Raft.sendRaft b.config.raft b.store.view.batches m with
      | none =>
          rw [hm] at hboth
          exact hboth
      | some env =>
          rw [hm] at hboth
          exact hboth

end Sending

/-! ## Log orders and the hard state -/

section Orders

variable {options : LogOptions} {s : Store}

private theorem truncateOrder_steady (h : s.view.Steady options) {ready : Ready}
    (hcut : ∀ k ∈ ready.truncateFrom, k ≤ endFrom 0 s.view.batches ∧
      endFrom 0 (Raft.truncateTo s.view.batches k) = k) :
    Sat (@truncateOrder healthy ready.truncateFrom s)
      (fun _ t => t.view.Steady options ∧ t.view.batches = Raft.cutBack ready s.view.batches)
      (fun _ => False) := by
  cases hk : ready.truncateFrom with
  | none => exact ⟨h, (Raft.cutBack_none hk _).symm⟩
  | some k =>
      obtain ⟨hle, hend⟩ := hcut k hk
      have hbatches : Raft.truncateTo s.view.batches k =
          (upTo s.view.frames k).map Frame.batch := upTo_map Frame.batch_base _ _
      rw [h.batches_end] at hle
      rw [hbatches, endFrom_map Frame.batch_stop] at hend
      refine (@Log.truncateTo_steady healthy options s not_refuses_healthy h k hend hle).imp
        fun _ t ht => ⟨ht.1, ?_⟩
      rw [Raft.cutBack_some hk, hbatches, View.batches, ht.2]

private theorem appendOrder_steady (h : s.view.Steady options)
    (hcap : options.segmentMaxBytes ≤ kMaxFileBytes)
    (hmin : kEntryScratchBytes ≤ options.segmentMaxBytes) {f : Storage.Frame}
    (hlen : f.bytes.length ≤ kEntryScratchBytes)
    (hbase : Extent.base f = endFrom 0 s.view.batches) :
    Sat (@appendOrder healthy true f.bytes s)
      (fun _ t => t.view.Steady options ∧ t.view.batches = s.view.batches ++ [f.batch])
      (fun _ => False) := by
  rw [h.batches_end] at hbase
  show Sat ((if f.bytes = [] then throw .invalidRequest else
    (@Log.appendReplicated healthy f.bytes >>= fun _ => @Log.fsync healthy) : LogM Unit) s) _ _
  rw [if_neg f.bytes_ne]
  refine (@Log.replicate_steady healthy options s not_refuses_healthy h hcap f hbase
    (hlen.trans hmin)).imp fun _ t ht => ⟨ht.1, ?_⟩
  rw [View.batches, ht.2.frames, List.map_append]
  rfl

/-- Orders that can be carried out are carried out, and `raft.state` is not looked at. -/
theorem carryOutLogOrders_steady (h : s.view.Steady options)
    (hcap : options.segmentMaxBytes ≤ kMaxFileBytes)
    (hmin : kEntryScratchBytes ≤ options.segmentMaxBytes) {ready : Ready} {entry : Bytes}
    {e : Option Batch} (ha : Attached entry e) (hf : Feasible ready e s.view.batches) :
    Sat (@carryOutLogOrders healthy ready entry s)
      (fun _ t => t.view.Steady options ∧
        t.view.batches = Raft.carryOutLogOrders ready e s.view.batches ∧
        t.disk.file .state = s.disk.file .state)
      (fun _ => False) := by
  have hdone : Sat (@carryOutLogOrders healthy ready entry s)
      (fun _ t => t.view.Steady options ∧
        t.view.batches = Raft.carryOutLogOrders ready e s.view.batches) (fun _ => False) := by
    refine (truncateOrder_steady h hf.cut).bind ?_
    rintro _ t ⟨ht, hbatches⟩
    rw [Raft.carryOutLogOrders_cutBack, ← hbatches]
    cases hr : ready.appendEntry with
    | false => exact ⟨ht, rfl⟩
    | true =>
        obtain ⟨e', rfl, hbase⟩ := hf.append hr
        rw [← hbatches] at hbase
        cases ha with
        | some f hlen => exact appendOrder_steady ht hcap hmin hlen hbase
  have hkept := @carryOutLogOrders_keeps healthy _ (@Log.framed_state healthy) ready entry s
  exact (hdone.and hkept).mono (fun _ _ ht => ⟨ht.1.1, ht.1.2, ht.2⟩) fun _ hf => hf.1

end Orders

/-- The hard state has been written, and nothing else has changed. -/
structure Persisted (state : HardState) (b b' : Broker) : Prop where
  same : ∃ t, b' = { withDisk t b with stateSequence := b.stateSequence + 1 }
  other : ∀ g ≠ .state, b'.disk.file g = b.disk.file g
  written : InSlot state b.stateSequence → ∃ y, b'.disk.file .state = some y ∧
    Ledger b'.stateSequence state [] y

/-- On a disk that refuses nothing the hard state is written. -/
theorem persist_healthy {b : Broker} {x : File} {old : HardState}
    (hf : b.config.fsyncHardState = true) (hx : b.disk.file .state = some x)
    (hl : Ledger b.stateSequence old [] x) (state : HardState) :
    Sat (@persist healthy state b) (fun _ b' => Persisted state b b') (fun _ => False) := by
  have hlen := Raft.encodeStateSlot_length state b.stateSequence
  have hne : Raft.encodeStateSlot state b.stateSequence ≠ [] := by
    intro hnil
    rw [hnil] at hlen
    cases hlen
  have hoffset : Raft.stateSlotOffset b.stateSequence + (Raft.encodeStateSlot state
      b.stateSequence).length ≤ kMaxFileBytes := by
    rw [hlen, Raft.stateSlotOffset, Raft.kStateSlotBytes, kMaxFileBytes]
    omega
  -- neither the write nor the flush can fail
  have hwritten : Sat (@persist healthy state b) (fun _ _ => True) (fun _ => False) := by
    have hwrite : Sat (@writeSlot healthy state b.stateSequence b.disk)
        (fun _ t => ∃ y, t.file .state = some y) (fun _ => False) := by
      refine (@pwrite_fits healthy _ _ _ (not_refuses_healthy _) hx _ hne _ hoffset).bind ?_
      rintro n t ⟨rfl, ht⟩
      rw [if_neg (not_not.2 rfl)]
      exact ⟨_, by rw [ht, Function.update_self]⟩
    refine ((onDisk_sat hwrite).mono (fun _ _ hq => hq) fun _ hf => hf.elim fun _ h => h.2).bind ?_
    rintro _ _ ⟨t, rfl, y, hy⟩
    have hflush : Sat (@flushState healthy b.config t) (fun _ _ => True) (fun _ => False) := by
      unfold flushState
      rw [if_pos hf]
      exact (@Disk.fsync_sat healthy _ _ _ hy).mono (fun _ _ _ => trivial)
        fun _ hr => not_refuses_healthy _ hr.2
    exact ((onDisk_sat (b := withDisk t b) hflush).mono (fun _ _ hq => hq)
      fun _ hf => hf.elim fun _ h => h.2).bind fun _ _ _ => trivial
  refine ((hwritten.and (@persist_frame healthy state b)).and
    (@persist_sat healthy _ _ _ _ hf hx hl state)).mono ?_ fun _ hf => hf.1.1
  rintro _ _ ⟨⟨-, t, rfl, hother⟩, t', y, heq, hy, hledger⟩
  have hdisk : t = t' := congrArg Broker.disk heq
  subst hdisk
  exact ⟨⟨t, rfl⟩, hother, fun hin => ⟨y, hy, hledger hin⟩⟩

/-! ## The broker and the replica -/

/-- The broker, on a disk that refuses nothing, is the replica. -/
structure Mirrors (config : BrokerConfig) (b : Broker) (r : Replica) : Prop where
  running : b.running = true
  configured : b.config = config
  raft : b.raft = r.node
  raftConfig : r.node.config = config.raft
  steady : b.store.view.Steady config.logOptions
  log : b.store.view.batches = r.log
  state : ∃ x, b.disk.file .state = some x ∧ Ledger b.stateSequence r.durable [] x

/-- The limits of a configuration under which a broker can store what another one sends. -/
structure Roomy (config : BrokerConfig) : Prop where
  flushes : config.fsyncHardState = true
  entry : kEntryScratchBytes ≤ config.segmentMaxBytes
  segment : config.segmentMaxBytes ≤ kMaxFileBytes

section Driving

variable {config : BrokerConfig} {b b' : Broker} {r : Replica}

/-- What is reported does not matter to the replica. -/
theorem Mirrors.noted (h : Mirrors config b r) (c : Nat) : Mirrors config (b.noted c) r := by
  unfold Broker.noted
  split
  · exact h
  · exact ⟨h.running, h.configured, h.raft, h.raftConfig, h.steady, h.log, h.state⟩

theorem Mirrors.acked (h : Mirrors config b r) : Mirrors config b.acked r := by
  unfold Broker.acked
  split
  · exact h.noted _
  · exact h

/-- The nodes take the same step. -/
theorem Mirrors.node (h : Mirrors config b r) {n n' : Node} (hn : n = n')
    (hconfig : n'.config = r.node.config) :
    Mirrors config { b with raft := n } { r with node := n' } :=
  ⟨h.running, h.configured, hn, hconfig.trans h.raftConfig, h.steady, h.log, h.state⟩

theorem Mirrors.sends (h : Mirrors config b r) {ms : List Message} (hs : Sends ms b b') :
    Mirrors config b' r := by
  have hlog : b'.store.view.log = b.store.view.log := hs.log
  have hfiles : b'.store.view.files = b.store.view.files := hs.disk
  constructor
  · exact hs.running.trans h.running
  · exact hs.config.trans h.configured
  · exact hs.raft.trans h.raft
  · exact h.raftConfig
  · exact h.steady.congr hlog fun _ => by rw [hfiles]
  · exact (View.batches_congr (fun _ => by rw [hfiles]) hlog).trans h.log
  · rw [hs.disk, hs.stateSequence]
    exact h.state

private theorem drive_eq (r : Replica) (e : Option Batch) :
    r.drive e =
      (if r.node.takeReady.1.persistHardState then
        ⟨r.node.takeReady.2.hardStatePersisted,
          Raft.carryOutLogOrders r.node.takeReady.1 e r.log, r.node.hard⟩
      else
        { r with
          node := r.node.takeReady.2
          log := Raft.carryOutLogOrders r.node.takeReady.1 e r.log },
        r.node.out.filterMap (Raft.sendRaft r.node.config
          (Raft.carryOutLogOrders r.node.takeReady.1 e r.log))) := by
  cases hpersist : r.node.takeReady.1.persistHardState <;>
    simp only [Replica.drive, hpersist] <;> rfl

/-- A `Ready` that is empty asks nothing of a replica. -/
theorem drive_idle (h : r.node.takeReady.1.empty = true) (e : Option Batch) :
    r.drive e = ({ r with node := r.node.takeReady.2 }, []) := by
  simp only [Ready.empty, Bool.and_eq_true, Bool.not_eq_true', Option.isNone_iff_eq_none,
    List.isEmpty_iff] at h
  obtain ⟨⟨⟨hpersist, hmessages⟩, happend⟩, hcut⟩ := h
  simp only [Replica.drive, Raft.carryOutLogOrders, hpersist, hmessages, happend, hcut]
  rfl

/-- What `drive` ends with: the replica's side of it, if the counters still fit their
fields. -/
def Follows (config : BrokerConfig) (b b' : Broker) (out : Replica × List Envelope) : Prop :=
  ((Host.up b').InRange → Mirrors config b' out.1) ∧ Utters out.2 b b'

/-- Once the hard state is written, or none is owed, the messages are sent. -/
theorem sendAll_follows {b₀ : Broker} {ms : List Message}
    (hsteady : b.store.view.Steady config.logOptions) (hlog : b.store.view.batches = r.log)
    (hconfig : b.config.raft = r.node.config) (hquiet : Utters [] b₀ b)
    (hm : (Host.up b).InRange → Mirrors config b r) :
    Sat (@sendAll healthy ms b)
      (fun _ b' => Follows config b₀ b' (r, ms.filterMap (Raft.sendRaft r.node.config r.log)))
      (fun _ => False) := by
  refine ((@sendAll_sat healthy ms b).and (sendAll_utters hsteady ms)).mono ?_ fun _ hf => hf.1
  rintro _ b' ⟨hsends, hutters⟩
  rw [hconfig, hlog] at hutters
  refine ⟨fun hin => (hm ?_).sends hsends, hquiet.trans hutters⟩
  rw [Host.InRange, hsends.raft, hsends.stateSequence] at hin
  exact hin

/-- The end of `drive`, behind the log orders. -/
theorem persistAndSend_follows (hroomy : Roomy config) {b₀ : Broker} {e : Option Batch}
    (hm : Mirrors config b { r with
      node := r.node.takeReady.2
      log := Raft.carryOutLogOrders r.node.takeReady.1 e r.log })
    (hquiet : Utters [] b₀ b) :
    Sat (@persistAndSend healthy r.node.takeReady.1 b)
      (fun _ b' => Follows config b₀ b' (r.drive e)) (fun _ => False) := by
  have hpeers : b.config.raft = r.node.config := by
    rw [hm.configured]
    exact hm.raftConfig.symm
  refine Sat.ite (fun hdirty => ?_) fun hdirty => ?_
  · -- the hard state is on the platter before anything is sent
    obtain ⟨x, hx, hledger⟩ := hm.state
    have hpersist := persist_healthy (hm.configured.symm ▸ hroomy.flushes) hx hledger r.node.hard
    refine Sat.bind (Q := fun res b' => res = .ok () ∧ Persisted r.node.hard b b')
      (Sat.attempt (hpersist.imp fun _ _ h => ⟨rfl, h⟩).sure) ?_
    rintro _ _ ⟨rfl, ⟨t, rfl⟩, hother, hwritten⟩
    have hlogs : ∀ g, t.file (.log g) = b.disk.file (.log g) := fun g =>
      hother (.log g) FileName.noConfusion
    have hsteady : (View.mk b.log t.file).Steady config.logOptions := hm.steady.congr rfl hlogs
    have hbatches : (View.mk b.log t.file).batches =
        Raft.carryOutLogOrders r.node.takeReady.1 e r.log :=
      Eq.trans (View.batches_congr (v := b.store.view) hlogs rfl) hm.log
    have hhard : b.raft.hard = r.node.hard := by
      rw [hm.raft]
      rfl
    rw [drive_eq, if_pos hdirty]
    refine sendAll_follows hsteady hbatches hpeers hquiet ?_
    rintro ⟨hterm, hvote, hsequence⟩
    change b.raft.hard.term < _ at hterm
    change b.raft.hard.votedFor < _ at hvote
    rw [hhard] at hterm hvote
    exact ⟨hm.running, hm.configured, congrArg Node.hardStatePersisted hm.raft, hm.raftConfig,
      hsteady, hbatches, hwritten ⟨hterm, hvote, Nat.lt_of_succ_lt hsequence⟩⟩
  · rw [drive_eq, if_neg hdirty]
    exact sendAll_follows hm.steady hm.log hpeers hquiet fun _ => hm

/-- `drive` does to the broker what it does to the replica. -/
theorem drive_follows (hroomy : Roomy config) (hm : Mirrors config b r) {entry : Bytes}
    {e : Option Batch} (ha : Attached entry e) (hf : Feasible r.node.takeReady.1 e r.log) :
    Sat (@drive healthy entry b) (fun _ b' => Follows config b b' (r.drive e))
      (fun _ => False) := by
  have hquiet : Utters [] b b.drained := Utters.noted { b with raft := _ } b.raft.commitIndex
  have hm' : Mirrors config b.drained { r with node := r.node.takeReady.2 } :=
    (hm.node (congrArg (fun n : Node => n.takeReady.2) hm.raft) rfl).noted _
  refine (noteCommit_drained b).bind ?_
  rintro _ _ rfl
  refine Sat.ite (fun hempty => ?_) fun _ => ?_
  · rw [hm.raft] at hempty
    rw [drive_idle hempty]
    exact ⟨fun _ => hm', hquiet⟩
  -- the log orders succeed
  have horders : Sat (attempt (onLog (@carryOutLogOrders healthy b.raft.takeReady.1 entry))
      b.drained)
      (fun res b' => res = .ok () ∧ ∃ s, b' = { b.drained with store := s } ∧
        s.view.Steady config.logOptions ∧
        s.view.batches = Raft.carryOutLogOrders r.node.takeReady.1 e r.log ∧
        s.disk.file .state = b.drained.disk.file .state) (fun _ => False) := by
    rw [← hm'.log] at hf ⊢
    refine Sat.attempt (Sat.zoom ?_)
    rw [hm.raft]
    exact ((carryOutLogOrders_steady hm'.steady hroomy.segment hroomy.entry ha hf).imp
      fun _ s hs => ⟨rfl, s, rfl, hs⟩).sure
  refine horders.bind ?_
  rintro _ _ ⟨rfl, s, rfl, hs, hbatches, hstate⟩
  have hdone : Mirrors config { b.drained with store := s } { r with
      node := r.node.takeReady.2
      log := Raft.carryOutLogOrders r.node.takeReady.1 e r.log } := by
    refine ⟨hm'.running, hm'.configured, hm'.raft, hm'.raftConfig, hs, hbatches, ?_⟩
    obtain ⟨x, hx, hledger⟩ := hm'.state
    exact ⟨x, hstate.trans hx, hledger⟩
  have hlast := persistAndSend_follows hroomy hdone hquiet
  rw [← hm.raft] at hlast
  exact hlast

/-! ## Calls -/

/-- The broker before a call, with nothing said yet. -/
def hushed (b : Broker) : Broker := { b with observed := [] }

theorem Mirrors.hushed (h : Mirrors config b r) : b.hushed.Mirrors config r :=
  ⟨h.running, h.configured, h.raft, h.raftConfig, h.steady, h.log, h.state⟩

/-- What holds of every outcome of a call holds of what it leaves. -/
theorem after_of_sat {faults : Faults} {c : Call} {P : Broker → Prop}
    (h : Sat (@call faults c b.hushed) (fun _ b' => P b') P) : P (b.after faults c) := by
  unfold after
  unfold hushed Sat at h
  split at h <;> simp_all

variable (hroomy : Roomy config) (hm : Mirrors config b r)
include hroomy hm

theorem tick_follows (hcut : r.node.pendingTruncate = none) (happend : r.node.pendingAppend = false)
    (draw : Nat) : Follows config b.hushed (b.after healthy (.tick draw)) (r.tick draw) := by
  have hsame := Node.keeps_tick r.node draw
  have hnode : Mirrors config { b.hushed with raft := b.raft.tick draw }
      { r with node := r.node.tick draw } :=
    hm.hushed.node (congrArg (Node.tick · draw) hm.raft) (Node.owes_tick r.node draw).config
  apply after_of_sat (P := fun b' => Follows config b.hushed b' (r.tick draw))
  refine Sat.ite (fun hr => ?_) fun _ => ?_
  · rw [show b.hushed.running = true from hm.running] at hr
    cases hr
  · refine (drive_follows hroomy hnode .none (Raft.feasible_none ?_ ?_ _ _)).sure
    · exact hsame.pendingTruncate.trans hcut
    · exact hsame.pendingAppend.trans happend

theorem receive_follows {draw : Nat} {p : Message × Bytes} {env : Envelope} (hp : Conveys p env)
    (htarget : p.1.target = config.raft.id) (hf : Feasible (r.orders draw env) env.entry r.log) :
    Follows config b.hushed (b.after healthy (.receive draw p.1 p.2)) (r.deliver draw env) := by
  have hnode : Mirrors config { b.hushed with raft := b.raft.step draw p.1 }
      { r with node := r.node.step draw env.message } := by
    refine hm.hushed.node ?_ (Node.owes_step r.node draw env.message).config
    show b.raft.step draw p.1 = _
    rw [hm.raft, hp.message]
  apply after_of_sat (P := fun b' => Follows config b.hushed b' (r.deliver draw env))
  refine Sat.ite (fun ht => ?_) fun _ => ?_
  · rw [show b.hushed.config = config from hm.configured] at ht
    exact absurd htarget ht
  · exact (drive_follows hroomy hnode hp.entry hf).sure

omit hroomy in
/-- A message for another member is dropped. -/
theorem receive_dropped {draw : Nat} {m : Message} {entry : Bytes}
    (htarget : m.target ≠ config.raft.id) :
    b.after healthy (.receive draw m entry) = b.hushed := by
  apply after_of_sat (P := fun b' => b' = b.hushed)
  refine Sat.ite (fun _ => rfl) fun ht => ?_
  rw [show b.hushed.config = config from hm.configured, not_not] at ht
  exact absurd ht htarget

/-- The end of `propose`: the node is told of the batch behind its log. -/
theorem noteAppended_follows {f : Storage.Frame} {s : Store} (hrole : r.node.role = .leader)
    (hcut : r.node.pendingTruncate = none) (happend : r.node.pendingAppend = false)
    (hs : s.view.Steady config.logOptions) (hgains : b.store.view.Gains f s.view)
    (hterm : f.header.leaderEpoch = r.node.hard.term)
    (hstate : s.disk.file .state = b.disk.file .state) :
    Sat ((do
        noteAppended b.log.nextOffset
        @drive healthy []
        return b.log.nextOffset : BrokerM Nat)
        ({ b with store := s } : Broker).acked)
      (fun _ b' => Follows config b b' (r.propose f.payload)) (fun _ => False) := by
  have hend : endFrom 0 r.log = b.log.nextOffset := by
    rw [← hm.log]
    exact hm.steady.batches_end
  have hnext : r.nextBatch f.payload = f.batch := by
    unfold Replica.nextBatch Frame.batch
    rw [hend, hterm, hgains.base]
    rfl
  have hpropose : r.propose f.payload = Replica.drive
      { r with
        node := r.node.logAppended f.batch.base f.batch.stop f.batch.term
        log := r.log ++ [f.batch] } none := by
    unfold Replica.propose
    rw [if_pos hrole, hnext]
  have hsame := Node.logAppended_log hrole f.batch.base f.batch.stop f.batch.term
  have hquiet : Utters [] b ({ b with store := s } : Broker).acked :=
    Utters.acked { b with store := s }
  have hlog : s.view.batches = r.log ++ [f.batch] := by
    rw [← hm.log, View.batches, View.batches, hgains.frames, List.map_append]
    rfl
  have hmirrors : Mirrors config ({ b with store := s } : Broker).acked
      { r with log := r.log ++ [f.batch] } := by
    obtain ⟨x, hx, hledger⟩ := hm.state
    exact Mirrors.acked ⟨hm.running, hm.configured, hm.raft, hm.raftConfig, hs, hlog, x,
      hstate.trans hx, hledger⟩
  generalize ({ b with store := s } : Broker).acked = b₁ at hquiet hmirrors ⊢
  have hstop : b₁.log.nextOffset = f.batch.stop := by
    rw [← show endFrom 0 b₁.store.view.batches = b₁.log.nextOffset from hmirrors.steady.batches_end,
      hmirrors.log, endFrom_append]
    rfl
  have hnode : Mirrors config
      { b₁ with raft := b₁.raft.logAppended b.log.nextOffset b₁.log.nextOffset b₁.raft.hard.term }
      { r with
        node := r.node.logAppended f.batch.base f.batch.stop f.batch.term
        log := r.log ++ [f.batch] } := by
    refine hmirrors.node ?_ (Node.owes_logAppended hrole _ _ _).config
    rw [hstop, hmirrors.raft, ← hterm, ← show Extent.base f = b.log.nextOffset from hgains.base]
    rfl
  rw [hpropose]
  refine (drive_follows hroomy hnode .none (Raft.feasible_none ?_ ?_ _ _)).bind
    fun _ b' h => ⟨h.1, hquiet.trans h.2⟩
  · exact hsame.pendingTruncate.trans hcut
  · exact hsame.pendingAppend.trans happend

/-- `propose` is declined, or does what it does to the replica. -/
theorem propose_follows (hcut : r.node.pendingTruncate = none)
    (happend : r.node.pendingAppend = false) (hterm : b.raft.hard.term < 0x100000000)
    (hnext : b.log.nextOffset < 0x10000000000000000) (builder : BatchBuilder) :
    b.after healthy (.propose builder) = b.hushed ∨ ∃ f : Storage.Frame,
      Follows config b.hushed (b.after healthy (.propose builder)) (r.propose f.payload) := by
  have hm' := hm.hushed
  have hdone : Sat (@propose healthy builder b.hushed)
      (fun _ b' => ∃ f : Storage.Frame, Follows config b.hushed b' (r.propose f.payload))
      (fun b' => b' = b.hushed) := by
    refine Sat.ite (fun _ => rfl) fun _ => Sat.ite (fun _ => rfl) fun hrole => ?_
    rw [not_not] at hrole
    have hrole' : r.node.role = .leader := hm.raft ▸ hrole
    refine Sat.bind_eq (fun e b' h => ?_) fun k b₁ h₁ => ?_
    · obtain ⟨s, happended, rfl⟩ := zoom_error h
      have hsame := @Log.append_refused healthy _ _ _ not_refuses_healthy hm'.steady hroomy.segment
        hnext _ _ _ happended
      rw [hsame]
    obtain ⟨s, happended, rfl⟩ := zoom_ok h₁
    obtain ⟨rfl, hne, hflushed⟩ :=
      @Log.append_steady healthy _ _ _ not_refuses_healthy hm'.steady _ _ _ happended
    have hkept := (@Log.append_untouched healthy builder _).ok happended
    have hepoch : (builder.frame hne b.log.nextOffset
        (metaFor b.raft.hard.term)).header.leaderEpoch =
        r.node.hard.term := (metaFor_leaderEpoch hne _ hterm).trans (by rw [hm.raft])
    have hfsync : Sat (onLog (@Log.fsync healthy) { b.hushed with store := s })
        (fun _ b' => ∃ s', b' = { b.hushed with store := s' } ∧
          s'.view.Steady config.logOptions ∧ b.hushed.store.view.Gains (builder.frame hne
            b.log.nextOffset (metaFor b.raft.hard.term)) s'.view ∧
          s'.disk.file .state = b.disk.file .state) (fun _ => False) := by
      refine Sat.zoom ((hflushed.and (@Log.fsync_untouched healthy s)).mono ?_ fun _ hf => hf.1)
      rintro _ s' ⟨⟨hs', hgains⟩, hsame⟩
      exact ⟨s', rfl, hs', hgains, Eq.trans hsame hkept⟩
    refine hfsync.sure.bind ?_
    rintro _ _ ⟨s', rfl, hs', hgains, hstate⟩
    refine Sat.bind (Q := fun _ b' => b' = ({ b.hushed with store := s' } : Broker).acked) ?_ ?_
    · rw [ackLocally_eq]
      exact rfl
    rintro _ _ rfl
    exact ((noteAppended_follows hroomy hm' hrole' hcut happend hs' hgains hepoch hstate).imp
      fun _ b' h => ⟨_, h⟩).sure
  apply after_of_sat (P := fun b' => b' = b.hushed ∨ ∃ f : Storage.Frame,
    Follows config b.hushed b' (r.propose f.payload))
  exact (hdone.mono (fun _ _ h => h) fun _ h => .inl h).bind fun _ _ h => .inr h

end Driving

end Broker

/-! ## Hosts that are down -/

/-- The log and the hard state of the replica are on the disk, which has nothing to flush. -/
structure Rests (config : BrokerConfig) (d : Disk) (r : Replica) : Prop where
  log : (∃ l, (View.mk l d.file).Steady config.logOptions ∧ (View.mk l d.file).batches = r.log) ∨
    (∀ b, d.file (.log b) = none) ∧ r.log = []
  settled : Settled (stateFile d)
  hard : ∃ S, Raft.recover (stateFile d).visible = .ok (r.durable, S)

section Resting

variable {config : BrokerConfig} {b : Broker} {r : Replica} {d t : Disk}

theorem Rests.congr (h : Rests config d r) (hlogs : ∀ b, t.file (.log b) = d.file (.log b))
    (hstate : stateFile t = stateFile d) : Rests config t r := by
  refine ⟨?_, hstate ▸ h.settled, hstate ▸ h.hard⟩
  rcases h.log with ⟨l, hl, hbatches⟩ | ⟨hnone, hnil⟩
  · exact .inl ⟨l, hl.congr rfl hlogs,
      Eq.trans (View.batches_congr (v := ⟨l, d.file⟩) hlogs rfl) hbatches⟩
  · exact .inr ⟨fun b => (hlogs b).trans (hnone b), hnil⟩

/-- A process that ends leaves its log and its hard state behind. -/
theorem Broker.Mirrors.rests (h : b.Mirrors config r) : Rests config b.disk r := by
  obtain ⟨x, hx, hledger⟩ := h.state
  have hset := hledger.settled hledger.pending
  refine ⟨.inl ⟨b.log, h.steady, h.log⟩, ?_, b.stateSequence, ?_⟩
  · rw [stateFile_eq hx]
    exact hset
  · rw [stateFile_eq hx, hset.visible]
    exact hledger.durable

/-- A power cut takes nothing that was flushed. -/
theorem Rests.crash (h : Rests config d r) (kept torn : FileName → Nat) :
    Rests config (d.crash kept torn) r := by
  refine h.congr (fun g => ?_) ?_
  · rcases h.log with ⟨l, hl, -⟩ | ⟨hnone, -⟩
    · exact hl.crash (fun _ => rfl) kept torn g
    · rw [Disk.crash, file_mapFiles, hnone]
      rfl
  · rw [Keeper.stateFile_crash]
    refine File.crash_settled ⟨?_, h.settled.pending⟩ _ _
    rw [File.Consistent, h.settled.pending]
    exact h.settled.visible.symm

/-- `start` on a disk at rest brings the replica back. -/
theorem Rests.start (h : Rests config d r) (hroomy : Broker.Roomy config)
    (hcredible : ∀ base, Credible config.logOptions.segment d.file base) (draw : Nat) :
    Sat (@Broker.start healthy config draw d)
      (fun b _ => b.Mirrors config (.restart config.raft draw r.log r.durable) ∧ b.observed = [])
      (fun _ => False) := by
  have hwidth : config.logOptions.segmentMaxBytes < 0x100000000 :=
    lt_of_le_of_lt hroomy.segment (by decide)
  have hlog : Sat (@Log.open healthy config.logOptions d)
      (fun l t => (View.mk l t.file).Steady config.logOptions ∧
        (View.mk l t.file).batches = r.log) (fun _ => False) := by
    rcases h.log with ⟨l, hl, hbatches⟩ | ⟨hnone, hnil⟩
    · rw [← hbatches]
      exact (@View.Steady.reopens _ _ d healthy hl not_refuses_healthy (fun _ => rfl) hcredible).imp
        fun _ _ ht => ⟨ht.1, congrArg (List.map Frame.batch) ht.2⟩
    · rw [hnil]
      exact (@Log.open_empty _ d healthy not_refuses_healthy hwidth hnone).imp
        fun _ _ ht => ⟨ht.1, congrArg (List.map Frame.batch) ht.2⟩
  refine ((hlog.and (@Log.open_untouched healthy config.logOptions d)).mono (fun _ _ ht => ht)
    fun _ hf => hf.1).bind ?_
  rintro l t ⟨⟨hsteady, hbatches⟩, hopen⟩
  obtain ⟨S, hrec⟩ := h.hard
  have hfile : stateFile t = stateFile d := by
    rw [stateFile, stateFile, show t.file .state = d.file .state from hopen]
  obtain ⟨u, hload⟩ := Broker.loadHardState_of_recover (hfile.symm ▸ hrec)
  have hstate := @Broker.loadHardState_sat healthy t
  rw [hload] at hstate
  have hlogs : ∀ g, u.file (.log g) = t.file (.log g) := fun g => by
    rw [hstate.1, Function.update_of_ne FileName.noConfusion]
  have hsteady' : (View.mk l u.file).Steady config.logOptions := hsteady.congr rfl hlogs
  have hbatches' : (View.mk l u.file).batches = r.log :=
    Eq.trans (View.batches_congr (v := ⟨l, t.file⟩) hlogs rfl) hbatches
  have hfound : u.file .state = some (stateFile d) := by
    rw [hstate.1, Function.update_self, hfile]
  have hscan := @Log.scanEpochs_sat healthy _ hsteady'.intact u rfl
  refine Sat.bind (Q := fun p v => p = (r.durable, S) ∧ v = u) (by rw [hload]; exact ⟨rfl, rfl⟩) ?_
  rintro _ v ⟨rfl, hv⟩
  rw [hv]
  refine (hscan.mono (fun _ _ ht => ht) fun _ hr => not_refuses_healthy _ hr).bind ?_
  rintro epochs w ⟨hw, rfl⟩
  have hw' : w.file = u.file := hw
  have hsteady'' : (View.mk l w.file).Steady config.logOptions := hw' ▸ hsteady'
  refine ⟨⟨rfl, rfl, ?_, rfl, hsteady'', hw' ▸ hbatches', stateFile d, ?_, ?_⟩, rfl⟩
  · show (Raft.Node.new config.raft draw r.durable).restoreLog l.nextOffset _ = _
    rw [Replica.restart, ← hbatches', hsteady'.batches_end, View.batches, ← View.scanEpochs_batches]
  · exact (congrFun hw' _).trans hfound
  · exact ledger_of_recover h.settled hrec

end Resting

end LogEngine.Server
