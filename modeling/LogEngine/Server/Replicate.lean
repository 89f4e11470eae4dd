import LogEngine.Raft.Codec
import LogEngine.Server.LogOrders
import LogEngine.Storage.Consumer
import LogEngine.Storage.Progress

/-!
# The way of an entry to a follower

A batch that `propose` has accepted is read back from the log (`read_entry`), goes onto the
wire in the frame of a message (`send_raft`), is taken out of it again on the other side,
and is appended there (`append_replicated`).  Five limits lie on that way: the size of a
batch, the size of a segment, the buffer of `read_entry`, the length field of a message and
the size of a frame.

The buffer of `read_entry` is the narrowest of them: `propose_replicates_iff` says that a
batch goes all the way if and only if it fits into that buffer.
-/

namespace LogEngine.Server

open Base Io Io.Disk Storage Raft Wire Verified.Fallible Verified.Machine Verified.Tiling
open Verified.Framing

/-- The frame that `send_raft` makes of a message and its entry. -/
def raftFrame (m : Message) (entry : Bytes) (correlationId : UInt32) : Wire.Frame where
  header := ⟨apiKeyFor m.type, kApiVersion0, correlationId⟩
  payload := encodeMessage (List.replicate (messageBytes entry.length) 0) m entry

/-- The receiver takes the message and the entry out of the frame as they were put in. -/
def Arrives (m : Message) (entry : Bytes) : Prop :=
  ∀ (correlationId : UInt32) (buf : Buffer) (tail : Bytes),
    buf.contents = (raftFrame m entry correlationId).bytes ++ tail →
      FrameDecoder.next {} buf = .ok (some (raftFrame m entry correlationId)) ∧
        decodeMessage (raftFrame m entry correlationId).payload = .ok (m, entry)

/-- Every batch that a builder can make arrives. -/
theorem arrives {m : Message} {entry : Bytes} (hm : m.InRange) (hcarries : m.carriesEntry = true)
    (hne : entry ≠ []) (hlen : entry.length ≤ kMaxBatchBytes) : Arrives m entry := by
  have hmax : kMaxBatchBytes = 0x800000 := rfl
  have hout : (List.replicate (messageBytes entry.length) (0 : UInt8)).length =
      messageBytes entry.length := List.length_replicate
  have hcarry : m.carriesEntry = !entry.isEmpty := by
    cases entry with
    | nil => exact absurd rfl hne
    | cons x entry => exact hcarries
  have hpayload : encodeMessage (List.replicate (messageBytes entry.length) 0) m entry =
      encodeFields m entry.length ++ entry := by
    unfold encodeMessage
    rw [← hcarry, hcarries, if_pos (by rfl), if_neg (not_not.2 hout)]
  intro correlationId buf tail hbuf
  constructor
  · apply FrameDecoder.next_of_frame _ hbuf
    show kHeaderBytes + (encodeMessage _ m entry).length ≤ kDefaultMaxFrameBytes.toNat
    have hframe : kDefaultMaxFrameBytes.toNat = 0x1000000 := rfl
    rw [hpayload, List.length_append, encodeFields_length, hframe, kHeaderBytes,
      kMessageHeaderBytes]
    omega
  · have hdecode := decode_encodeMessage hm (by omega) hcarry hout
    rw [if_pos hcarries] at hdecode
    exact hdecode

namespace Broker

/-! ## On the leader -/

section Leader

variable {b : Broker} {p r : List Storage.Frame} {f : Storage.Frame}

/-- `read_entry` finds a batch of the log that fits into its buffer, and no other. -/
theorem readEntry_frame (h : b.store.view.Serves)
    (hframes : b.store.view.frames = p ++ f :: r) :
    ∃ d, d.file = b.disk.file ∧
      (f.bytes.length ≤ kEntryScratchBytes →
        @readEntry healthy (Extent.base f) b = .ok f.bytes (withDisk d b)) ∧
      (kEntryScratchBytes < f.bytes.length →
        @readEntry healthy (Extent.base f) b = .error .messageTooLarge (withDisk d b)) := by
  obtain ⟨d, hd, hok, herror⟩ :=
    Log.read_frame (d := b.disk) h rfl hframes kEntryScratchBytes
  refine ⟨d, hd, fun hfits => ?_, fun hlong => ?_⟩
  · obtain ⟨more, hread⟩ := hok hfits
    have hne : f.bytes ++ more ≠ [] := by
      rw [Ne, List.append_eq_nil_iff, not_and]
      exact fun hnil => absurd hnil (Delimited.bytes_ne f)
    have hheader : decodeHeader (f.bytes ++ more) = .ok f.header := by
      rw [decodeHeader_append f.header_le, f.decode]
    have hbase : f.header.baseOffset = Extent.base f := rfl
    have honDisk : onDisk (@Log.read healthy b.log (Extent.base f) kEntryScratchBytes) b =
        .ok (f.bytes ++ more) (withDisk d b) := zoom_of_ok hread
    refine (bind_of_ok honDisk _).trans ?_
    rw [if_neg hne, hheader]
    dsimp only
    rw [if_neg (not_not.2 hbase), ← f.whole, List.take_left]
    rfl
  · have honDisk : onDisk (@Log.read healthy b.log (Extent.base f) kEntryScratchBytes) b =
        .error .messageTooLarge (withDisk d b) := zoom_of_error (herror hlong)
    exact bind_of_error honDisk _

/-- And then `send_raft` sends it. -/
theorem sendRaft_frame (h : b.store.view.Serves)
    (hframes : b.store.view.frames = p ++ f :: r) (hfits : f.bytes.length ≤ kEntryScratchBytes)
    {m : Message} (hindex : m.entryIndex = some (Extent.base f))
    (hpeer : m.target ∈ b.config.raft.peers) :
    ∃ d, d.file = b.disk.file ∧ @sendRaft healthy m b = .ok () { withDisk d b with
      observed := b.observed ++
        [⟨.sent { m with entryEnd := f.header.nextOffset } f.bytes, d, b.raft⟩] } := by
  obtain ⟨d, hd, hread, -⟩ := readEntry_frame h hframes
  refine ⟨d, hd, ?_⟩
  show (if m.target ∉ b.config.raft.peers then pure () else _ : BrokerM Unit) b = _
  rw [if_neg (not_not.2 hpeer), hindex]
  dsimp only
  refine (bind_of_ok (attempt_of_ok (hread hfits)) _).trans ?_
  dsimp only
  rw [f.decode]
  rfl

end Leader

/-! ## From a leader to a follower -/

/-- A broker that came up and was called on a disk that refuses nothing. -/
def Undisturbed (config : BrokerConfig) (b : Broker) : Prop :=
  ∃ d b₀, Begins config healthy d b₀ ∧
    ∃ calls : List Call, b = calls.foldl (fun b c => b.after healthy c) b₀

section Undisturbed

variable {config : BrokerConfig} {b leader : Broker} {builder : BatchBuilder} {k : Nat}

theorem Undisturbed.sound (h : Undisturbed config b) : b.Sound config := by
  obtain ⟨d, b₀, hbegins, calls, rfl⟩ := h
  have hsound := hbegins.sound
  clear hbegins
  induction calls generalizing b₀ with
  | nil => exact hsound
  | cons c calls ih =>
      rw [List.foldl_cons]
      apply ih
      exact sound_next (a := ⟨c, healthy⟩) hsound (not_refuses_healthy .remove) rfl

/-- The log behind a `propose` that succeeded. -/
theorem propose_gains (hleader : Undisturbed config leader)
    (hpropose : @propose healthy builder leader = .ok k b) :
    b.config = config ∧ Kept config b.store ∧ k = leader.log.nextOffset ∧
      builder.framedBytes ≤ config.segmentMaxBytes ∧
      ∃ hne : builder.records ≠ [], leader.store.view.Gains
        (builder.frame hne k (metaFor leader.raft.hard.term)) b.store.view := by
  let _ := healthy
  have hsound := hleader.sound
  have hspec := propose_sat builder leader
  rw [hpropose] at hspec
  obtain ⟨s, s', hp⟩ := hspec
  have hrun := (hp.alike hsound.drained.pendingTruncate hsound.drained.pendingAppend).2
  obtain ⟨hi, hc, hoptions⟩ := hsound.kept hp.running
  have hreturns : Returns leader (.propose builder) b :=
    .proposed hp.running hp.leader hp.append hp.fsync hp.drives
  have hsound' := hreturns.sound (not_refuses_healthy .remove) hsound
  obtain ⟨hk, hne, hgains⟩ :=
    hp.gains hsound.drained.pendingTruncate hsound.drained.pendingAppend hi hc
  refine ⟨hsound'.configured, hsound'.kept hrun, hk, ?_, hne, hgains⟩
  have hshort := hgains.short
  rw [show leader.store.view.log.options = config.logOptions from hoptions] at hshort
  exact (builder.finish_length k _).symm.trans_le hshort

/-- What it takes to replicate a batch: the leader finds it, what it sends arrives, and a
follower that has everything before it takes it. -/
structure Replicates (config : BrokerConfig) (b : Broker) (k : Nat) (framed : Bytes) : Prop where
  found : outcome (@readEntry healthy k b) = .ok framed
  sent : ∀ m : Message, m.entryIndex = some k → m.target ∈ config.raft.peers →
    ∃ d stop, @sendRaft healthy m b = .ok () { withDisk d b with
        observed := b.observed ++ [⟨.sent { m with entryEnd := stop } framed, d, b.raft⟩] } ∧
      (∀ h, decodeHeader framed = .ok h → stop = h.nextOffset) ∧
      (Message.InRange { m with entryEnd := stop } → Arrives { m with entryEnd := stop } framed)
  taken : ∀ (config' : BrokerConfig) (follower : Broker), Undisturbed config' follower →
    config'.segmentMaxBytes = config.segmentMaxBytes → follower.running = true →
    follower.log.nextOffset = k → follower.log.Spacious framed.length →
    ∃ s, @Log.appendReplicated healthy framed follower.store = .ok () s

/-- A batch that was proposed can be replicated if and only if it fits into the buffer of
`read_entry`. -/
theorem propose_replicates_iff (hleader : Undisturbed config leader)
    (hpropose : @propose healthy builder leader = .ok k b) :
    Replicates config b k (builder.finish k (metaFor leader.raft.hard.term)) ↔
      builder.framedBytes ≤ kEntryScratchBytes := by
  obtain ⟨hconfig, ⟨hi, hc, -⟩, hk, hshort, hne, hgains⟩ := propose_gains hleader hpropose
  have hserves := View.serves hi hc
  have hframes := hgains.frames
  have hbase : Extent.base (builder.frame hne k (metaFor leader.raft.hard.term)) = k :=
    hgains.base.trans hk.symm
  have hbytes : (builder.frame hne k (metaFor leader.raft.hard.term)).bytes =
      builder.finish k (metaFor leader.raft.hard.term) := rfl
  have hlength := builder.finish_length k (metaFor leader.raft.hard.term)
  rw [← hlength] at hshort
  rw [← hbytes] at hlength hshort ⊢
  generalize builder.frame hne k (metaFor leader.raft.hard.term) = f at *
  obtain ⟨d, hd, hread, hrefused⟩ := readEntry_frame hserves hframes
  rw [← hbase, ← hlength]
  constructor
  · intro h
    by_contra hlong
    have hfound := h.found
    rw [hrefused (Nat.not_le.1 hlong)] at hfound
    cases hfound
  · intro hfits
    constructor
    · rw [hread hfits]
      rfl
    · intro m hindex hpeer
      obtain ⟨d, -, hsend⟩ := sendRaft_frame hserves hframes hfits hindex (hconfig ▸ hpeer)
      refine ⟨d, f.header.nextOffset, hsend, ?_, fun hm => ?_⟩
      · intro h hdecode
        rw [f.decode] at hdecode
        cases hdecode
        rfl
      · exact arrives hm (by simp [Message.carriesEntry, hindex]) f.bytes_ne f.length_le
    · intro config' follower hfollower hsize hrun hnext hspace
      obtain ⟨hi', hc', hoptions'⟩ := hfollower.sound.kept hrun
      have hmax : f.bytes.length ≤ follower.store.log.options.segmentMaxBytes := by
        rw [hoptions', BrokerConfig.logOptions, hsize]
        exact hshort
      have htakes := @Log.appendReplicated_progress healthy follower.store not_refuses_healthy
        hi' hc' f hnext.symm hmax hspace
      obtain ⟨_, s, hs, -⟩ := htakes.exists_ok fun _ h => h
      exact ⟨s, hs⟩

/-! ## Batches that are accepted -/

/-- A leader accepts every batch that fits into a segment. -/
theorem propose_progress (hleader : Undisturbed config leader) (hrun : leader.running = true)
    (hrole : leader.raft.role = .leader) (hne : builder.records ≠ [])
    (hnext : leader.log.nextOffset < 0x10000000000000000)
    (hlen : builder.framedBytes ≤ config.segmentMaxBytes)
    (hspace : leader.log.Spacious builder.framedBytes) :
    ∃ k b, @propose healthy builder leader = .ok k b := by
  let _ := healthy
  obtain ⟨hi, hc, hoptions⟩ := hleader.sound.kept hrun
  have hmax : builder.framedBytes ≤ leader.store.log.options.segmentMaxBytes := by
    rw [hoptions]
    exact hlen
  obtain ⟨k, s, happend, -⟩ := (Log.append_progress not_refuses_healthy hi hc hne
    (metaFor leader.raft.hard.term) hnext hmax hspace).exists_ok fun _ h => h
  have hs : s.view.Intact := by
    obtain ⟨x, hx, -⟩ := hi.active_holds
    have hspec := Log.append_sat hi.width hx builder (metaFor leader.raft.hard.term)
    rw [happend] at hspec
    obtain ⟨-, _, w, hroom, hstep⟩ := hspec
    exact ((hi.quiets hroom.quiet).1.append hstep).1
  obtain ⟨_, s', hsync, -⟩ := (Log.fsync_progress not_refuses_healthy hs).exists_ok fun _ h => h
  obtain ⟨k, b, hk, -⟩ := (propose_sat builder leader).exists_ok fun b' h => by
    rcases h.2 hrun hrole with ⟨e, t, herror⟩ | ⟨k', t, e, t', hok, herror⟩
    · rw [happend] at herror
      cases herror
    · rw [happend] at hok
      cases hok
      rw [hsync] at herror
      cases herror
  exact ⟨k, b, hk⟩

end Undisturbed

/-- Broker `0` asks for votes, and gets one. -/
def elected : List Call :=
  [.tick 0,
    .receive 0
      { type := .requestVoteResponse, sender := 1, target := 0, term := 1, granted := true } []]

private theorem exists_leader : ∃ leader, Undisturbed brokerZero leader ∧ leader.running = true ∧
    leader.raft.role = .leader ∧ leader.log.nextOffset = 0 ∧ leader.log.active.sizeBytes = 0 := by
  have hstart : Sat (@start healthy brokerZero 0 {}) (fun b _ =>
      (elected.foldl (fun b c => b.after healthy c) b).running = true ∧
      (elected.foldl (fun b c => b.after healthy c) b).raft.role = .leader ∧
      (elected.foldl (fun b c => b.after healthy c) b).log.nextOffset = 0 ∧
      (elected.foldl (fun b c => b.after healthy c) b).log.active.sizeBytes = 0)
      (fun _ => False) := by decide +kernel
  obtain ⟨b, t, hb, hleader⟩ := hstart.exists_ok fun _ h => h
  have hblank : Blank (({} : Disk).file) := fun base y hy => by cases hy
  refine ⟨_, ⟨{}, b, ⟨by decide, ?_, ?_, 0, t, hb⟩, elected, rfl⟩, hleader⟩
  · exact hblank.credible _
  · exact not_refuses_healthy .remove

/-- One record of a size, alone in a batch. -/
def lone (size : Nat) (h : size ≤ 0x100000) : BatchBuilder where
  records := [List.replicate size 0]
  fits := by
    simp [frameRecord, kRecordLengthBytes, kBatchHeaderBytes, kMaxBatchBytes]
    omega

private theorem lone_framedBytes {size : Nat} (h : size ≤ 0x100000) :
    (lone size h).framedBytes = kBatchHeaderBytes + kRecordLengthBytes + size := by
  simp [lone, BatchBuilder.framedBytes, BatchBuilder.body, frameRecord]
  omega

/-- A leader takes a lone record. -/
theorem propose_lone {size : Nat} (h : size ≤ 0x100000) :
    ∃ leader k b, Undisturbed brokerZero leader ∧
      @propose healthy (lone size h) leader = .ok k b := by
  obtain ⟨leader, hleader, hrun, hrole, hnext, hsize⟩ := exists_leader
  have hbytes := lone_framedBytes h
  rw [kBatchHeaderBytes, kRecordLengthBytes] at hbytes
  have hne : (lone size h).records ≠ [] := List.cons_ne_nil _ _
  obtain ⟨k, b, hk⟩ := propose_progress hleader hrun hrole hne (by rw [hnext]; decide)
    (by rw [hbytes]; show _ ≤ 0x2000000; omega)
    (fun _ => by rw [hbytes, hsize, kMaxFileBytes]; omega)
  exact ⟨leader, k, b, hleader, hk⟩

theorem propose_replicates_short : ∃ leader builder k b, Undisturbed brokerZero leader ∧
    @propose healthy builder leader = .ok k b ∧
    Replicates brokerZero b k (builder.finish k (metaFor leader.raft.hard.term)) := by
  obtain ⟨leader, k, b, hleader, hk⟩ := propose_lone (h := (by decide : 1 ≤ 0x100000))
  refine ⟨leader, _, k, b, hleader, hk, (propose_replicates_iff hleader hk).2 ?_⟩
  decide

/-- A batch of 64 KiB is accepted, and can then not be read to be sent. -/
theorem propose_unreadable : ∃ leader builder k b, Undisturbed brokerZero leader ∧
    @propose healthy builder leader = .ok k b ∧
    outcome (@readEntry healthy k b) = .error .messageTooLarge := by
  obtain ⟨leader, k, b, hleader, hk⟩ := propose_lone (h := (by decide : 0x10000 ≤ 0x100000))
  refine ⟨leader, _, k, b, hleader, hk, ?_⟩
  obtain ⟨-, ⟨hi, hc, -⟩, rfl, -, hne, hgains⟩ := propose_gains hleader hk
  obtain ⟨d, -, -, hlong⟩ := readEntry_frame (View.serves hi hc) hgains.frames
  have hsize := (lone 0x10000 (by decide)).finish_length leader.log.nextOffset
    (metaFor leader.raft.hard.term)
  rw [lone_framedBytes] at hsize
  rw [hgains.base] at hlong
  exact congrArg outcome (hlong (Nat.lt_of_lt_of_eq (by decide) hsize.symm))

end Broker

end LogEngine.Server
