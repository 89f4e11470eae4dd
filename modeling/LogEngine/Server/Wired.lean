import LogEngine.Server.Lockstep
import LogEngine.Server.Stream

/-!
# A fleet on the wire

`Fleet` hands messages from broker to broker as they are.  Here they go as they do in
`src/server/broker.cpp`: `send_raft` encodes a message into a frame and sends it over the
broker's own connection to the peer, `on_readable` takes frames out at the other end, and
`receive_raft` decodes them.  A connection is a `Link`, and bytes go one way on it: a broker
never sends over a connection that it has accepted.

A frame is handled in an event of its own, some time after `on_readable` has taken it out.  In
the source this is at once; but what the handler does it does to other connections, so that it
makes no difference.  Connections may be opened, filled, read and lost in any way at any time.
-/

namespace LogEngine.Server

open Base Io Io.Disk Storage Wire Verified.Machine
open Raft (Cluster Message Node decodeMessage)

/-! ## What the frames carry -/

/-- A message with the entry it names, or with none, and no more than `read_entry` reads. -/
structure Parcel (p : Message × Bytes) : Prop where
  carries : p.1.carriesEntry = !p.2.isEmpty
  length : p.2.length ≤ kEntryScratchBytes

/-- What `decode_message` makes of it. -/
def unpacked (p : Message × Bytes) : Message × Bytes :=
  (if p.1.carriesEntry then p.1 else p.1.bare, p.2)

section Parcels

variable {p : Message × Bytes}

private theorem encodeMessage_length (out : Bytes) (m : Message) (entry : Bytes) :
    (Raft.encodeMessage out m entry).length = out.length := by
  unfold Raft.encodeMessage
  split
  · split
    · rfl
    case isFalse hsize =>
      rw [not_not] at hsize
      rw [List.length_append, Raft.encodeFields_length, hsize, Raft.messageBytes]
  · split
    · rfl
    case isFalse hsize =>
      rw [not_not] at hsize
      rw [Raft.encodeFields_length, hsize]
      rfl

theorem Parcel.fits (h : Parcel p) (id : UInt32) : (raftFrame p.1 p.2 id).Fits {} := by
  have hpayload : (raftFrame p.1 p.2 id).payload.length = Raft.messageBytes p.2.length :=
    (encodeMessage_length _ _ _).trans List.length_replicate
  have hmax : (FrameDecoder.maxFrameBytes {}).toNat = 0x1000000 := rfl
  have hlength := h.length
  unfold Frame.Fits
  rw [hpayload, hmax, Raft.messageBytes, kHeaderBytes, Raft.kMessageHeaderBytes]
  unfold kEntryScratchBytes at hlength
  omega

theorem Parcel.decode (h : Parcel p) (hrange : p.1.InRange) (id : UInt32) :
    decodeMessage (raftFrame p.1 p.2 id).payload =
      .ok (unpacked p) := by
  refine Raft.decode_encodeMessage hrange ?_ h.carries List.length_replicate
  exact lt_of_le_of_lt h.length (by decide)

/-- A node does not look at what a message says of an entry it does not carry. -/
theorem step_bare (n : Node) (draw : Nat) {m : Message} (h : m.carriesEntry = false) :
    n.step draw m.bare = n.step draw m := by
  obtain ⟨type, sender, target, term, logIndex, logTerm, commitIndex, entryIndex, entryEnd,
    entryTerm, granted⟩ := m
  cases entryIndex with
  | none => rfl
  | some k => cases h

/-- What a fleet has sent can be encoded. -/
theorem Paired.parcel {D : Deployment} {f : Fleet} {s : Cluster} (h : Paired D f s)
    (hp : p ∈ f.wire) : Parcel p := by
  obtain ⟨env, -, -, hentry, hcarries⟩ := h.wire p hp
  refine ⟨hcarries, ?_⟩
  generalize p.2 = entry, env.entry = batch at hentry
  cases hentry with
  | none => exact Nat.zero_le _
  | some x hx => exact hx

private theorem after_bare (b : Broker) (draw : Nat) {m : Message} (h : m.carriesEntry = false)
    (entry : Bytes) :
    b.after healthy (.receive draw m.bare entry) = b.after healthy (.receive draw m entry) := by
  simp only [Broker.after, Broker.call, Broker.receiveRaft, Broker.deliverLocally,
    step_bare _ _ h]
  rfl

/-- A host makes of a message that has been decoded what it makes of the message. -/
theorem next_received (config : BrokerConfig) (h : Host) (draw : Nat) (m : Message)
    (entry : Bytes) :
    h.next config (.call (.receive draw (if m.carriesEntry then m else m.bare) entry) healthy) =
      h.next config (.call (.receive draw m entry) healthy) := by
  cases hcarries : m.carriesEntry with
  | true => rfl
  | false =>
      cases h with
      | down d => rfl
      | up b => exact congrArg (fun b' => some (Host.up b')) (after_bare b draw hcarries entry)

end Parcels

/-! ## Connections -/

/-- A connection that broker `client` has opened to its peer `server`. -/
structure Channel where
  client : Nat
  server : Nat
  link : Link := .start {}
  /-- What `send_raft` has put on it, each with its `next_correlation_`. -/
  posted : List (UInt32 × Message × Bytes) := []
  /-- How many of the frames taken out have been handled. -/
  handled : Nat := 0

/-- What happens in one `send_raft`: the answers of the network, and `next_correlation_`. -/
structure Posting where
  connects : Bool := false
  writes : List WriteAnswer := []
  correlation : UInt32 := 1

def postedFrame (q : UInt32 × Message × Bytes) : Wire.Frame := raftFrame q.2.1 q.2.2 q.1

namespace Channel

variable (c : Channel)

/-- The end of `send_raft`. -/
def post (p : Message × Bytes) (a : Posting) : Channel :=
  let f := postedFrame (a.correlation, p)
  match c.link.next (.send f.header f.payload a.writes) with
  | none => c
  | some link => { c with link := link, posted := c.posted ++ [(a.correlation, p)] }

/-- The connection is the one that `peer_conns_` of broker `i` has for `j`. -/
def reaches (i j : Nat) : Bool := c.client = i && c.server = j && c.link.sender.isSome

/-- The process of broker `i` is gone, and its streams with it. -/
def leave (i : Nat) : Channel :=
  { c with
    link := { c.link with
      sender := if c.client = i then none else c.link.sender
      interest := if c.client = i then .nothing else c.link.interest
      receiver := if c.server = i then none else c.link.receiver }
    handled := if c.server = i then c.link.extracted.length else c.handled }

/-- `send_raft`, once the entry has been read: a peer without a connection is connected to. -/
def sendRaft (i : Nat) (p : Message × Bytes) (a : Posting) : List Channel → List Channel
  | [] => if a.connects then [({ client := i, server := p.1.target } : Channel).post p a] else []
  | c :: rest =>
      if c.reaches i p.1.target then c.post p a :: rest else c :: sendRaft i p a rest

/-- The messages of one call; where no answer is left, nothing can be connected to. -/
def sendAll (i : Nat) : List (Message × Bytes) → List Posting → List Channel → List Channel
  | [], _, cs => cs
  | p :: rest, answers, cs => sendAll i rest answers.tail (sendRaft i p (answers.headD {}) cs)

/-- The connection carries what has been sent to its reader, in order. -/
structure Sound (wire : List (Message × Bytes)) : Prop where
  aligned : c.link.Aligned {}
  frames : c.link.sent = c.posted.map postedFrame
  posted : ∀ q ∈ c.posted, q.2 ∈ wire ∧ q.2.1.target = c.server

variable {c} {wire : List (Message × Bytes)} {p : Message × Bytes} {a : Posting} {i : Nat}

theorem Sound.mono {wire' : List (Message × Bytes)} (h : c.Sound wire)
    (hsub : ∀ p ∈ wire, p ∈ wire') : c.Sound wire' :=
  { h with posted := fun q hq => ⟨hsub _ (h.posted q hq).1, (h.posted q hq).2⟩ }

theorem Sound.start {j : Nat} : Sound { client := i, server := j } wire :=
  ⟨Link.aligned_start {}, rfl, by simp⟩

theorem Sound.leave (h : c.Sound wire) : (c.leave i).Sound wire := by
  obtain ⟨rest, parked, hsent, hsender, hreceiver⟩ := h.aligned
  refine ⟨⟨rest, parked, hsent, fun s hs => hsender s ?_, fun s hs => hreceiver s ?_⟩, h.frames,
    h.posted⟩
  · simp only [Channel.leave, Option.ite_none_left_eq_some] at hs
    exact hs.2
  · simp only [Channel.leave, Option.ite_none_left_eq_some] at hs
    exact hs.2

section Steps

variable (hparcels : ∀ p ∈ wire, Parcel p)
include hparcels

theorem Sound.fits (h : c.Sound wire) : ∀ f ∈ c.link.sent, f.Fits {} := by
  intro f hf
  rw [h.frames] at hf
  obtain ⟨q, hq, rfl⟩ := List.mem_map.1 hf
  exact (hparcels _ (h.posted q hq).1).fits q.1

theorem Sound.post (h : c.Sound wire) (hp : p ∈ wire) (htarget : p.1.target = c.server) :
    (c.post p a).Sound wire := by
  unfold Channel.post
  dsimp only
  split
  · exact h
  case h_2 link hlink =>
    refine ⟨h.aligned.next (h.fits hparcels) hlink, ?_, fun q hq => ?_⟩
    · obtain ⟨s, -, rfl⟩ := Option.map_eq_some_iff.1 hlink
      show c.link.sent ++ [_] = _
      rw [h.frames, List.map_append]
      rfl
    · rcases List.mem_append.1 hq with hq | hq
      · exact h.posted q hq
      · rw [List.mem_singleton.1 hq]
        exact ⟨hp, htarget⟩

/-- Anything that happens on the connection but `send_raft`. -/
theorem Sound.next (h : c.Sound wire) {e : Link.Event} (he : ∀ x y z, e ≠ .send x y z)
    {link : Link} (hlink : c.link.next e = some link) : Sound { c with link := link } wire := by
  refine ⟨h.aligned.next (h.fits hparcels) hlink, Eq.trans ?_ h.frames, h.posted⟩
  cases e with
  | send x y z => exact absurd rfl (he x y z)
  | writable answers | readable stays answers =>
      obtain ⟨s, -, rfl⟩ := Option.map_eq_some_iff.1 hlink
      rfl
  | senderGone | receiverGone =>
      obtain rfl := Option.some.inj hlink
      rfl

private theorem sound_sendRaft {cs : List Channel} (hcs : ∀ c ∈ cs, c.Sound wire) (hp : p ∈ wire) :
    ∀ c ∈ sendRaft i p a cs, c.Sound wire := by
  induction cs with
  | nil =>
      unfold sendRaft
      split
      · simpa using Sound.start.post hparcels hp rfl
      · exact hcs
  | cons c rest ih =>
      obtain ⟨hc, hrest⟩ := List.forall_mem_cons.1 hcs
      unfold sendRaft
      split
      case isTrue hreaches =>
        simp only [reaches, Bool.and_eq_true, decide_eq_true_eq] at hreaches
        exact List.forall_mem_cons.2 ⟨hc.post hparcels hp hreaches.1.2.symm, hrest⟩
      case isFalse => exact List.forall_mem_cons.2 ⟨hc, ih hrest⟩

private theorem sound_sendAll {ps : List (Message × Bytes)} {cs : List Channel}
    {answers : List Posting}
    (hcs : ∀ c ∈ cs, c.Sound wire) (hps : ∀ p ∈ ps, p ∈ wire) :
    ∀ c ∈ sendAll i ps answers cs, c.Sound wire := by
  induction ps generalizing cs answers with
  | nil => exact hcs
  | cons p rest ih =>
      obtain ⟨hp, hrest⟩ := List.forall_mem_cons.1 hps
      exact ih (sound_sendRaft hparcels hcs hp) hrest

end Steps

theorem Sound.decode (h : c.Sound wire) (hparcels : ∀ p ∈ wire, Parcel p)
    (hrange : ∀ p ∈ wire, p.1.InRange) {q : UInt32 × Message × Bytes} (hq : q ∈ c.posted) :
    decodeMessage (postedFrame q).payload = .ok (unpacked q.2) :=
  (hparcels _ (h.posted q hq).1).decode (hrange _ (h.posted q hq).1) q.1

/-- The frames taken out are those of what was posted first. -/
theorem Sound.heard (h : c.Sound wire) :
    ∃ heard, heard <+: c.posted ∧ c.link.extracted = heard.map postedFrame := by
  obtain ⟨rest, -, hsent, -⟩ := h.aligned
  refine ⟨c.posted.take c.link.extracted.length, List.take_prefix _ _, ?_⟩
  rw [List.map_take, ← h.frames, hsent, List.take_left]

end Channel

/-! ## The fleet -/

/-- The hosts with everything they have ever sent, and their connections. -/
structure Wired where
  fleet : Fleet
  channels : List Channel := []

namespace Wired

def put (w : Wired) (n : Nat) (c : Channel) : Wired := { w with channels := w.channels.set n c }

/-- Something happens to the host of member `i`, and what it sends goes onto its connections;
it has none if no broker is running then. -/
def act (D : Deployment) (w : Wired) (i : Nat) (a : Action) (answers : List Posting) :
    Option Wired :=
  ((w.fleet.host i).next (D.broker i) a).map fun h =>
    { fleet := w.fleet.put i h
      channels :=
        match h with
        | .up _ => Channel.sendAll i h.sent answers w.channels
        | .down _ => w.channels.map fun c => c.leave i }

/-- `receive_raft`, for a frame that has been taken out; what is no message for broker `i` is
dropped. -/
def receiveRaft (D : Deployment) (w : Wired) (i : Nat) (f : Wire.Frame) (draw : Nat)
    (answers : List Posting) : Option Wired :=
  if isBrokerApi f.header.apiKey = false then some w else
  match decodeMessage f.payload with
  | .error _ => some w
  | .ok (m, entry) =>
      if m.target ≠ (D.broker i).raft.id then some w
      else w.act D i (.call (.receive draw m entry) healthy) answers

inductive Event
  /-- A member does something on its own, and the network answers to what it sends. -/
  | act (deed : Deed) (answers : List Posting)
  /-- Member `i` handles the next frame of connection `n`. -/
  | frame (i n draw : Nat) (answers : List Posting)
  /-- Something else happens on connection `n`: it is written, read or lost. -/
  | link (n : Nat) (e : Link.Event)

/-- What an event does, `none` where it cannot happen. -/
def next (D : Deployment) (w : Wired) : Event → Option Wired
  | .act (.deliver _ _ _) _ => none -- a message comes as a frame
  | .act deed answers =>
      if deed.member ∈ D.membership.members then
        (deed.action w.fleet).bind fun a => w.act D deed.member a answers
      else none
  | .frame i n draw answers =>
      (w.channels[n]?).bind fun c => (c.link.extracted[c.handled]?).bind fun f =>
        if i ∈ D.membership.members ∧ c.server = i then
          (w.put n { c with handled := c.handled + 1 }).receiveRaft D i f draw answers
        else none
  | .link _ (.send _ _ _) => none -- only `send_raft` sends
  | .link n e =>
      (w.channels[n]?).bind fun c => (c.link.next e).map fun l => w.put n { c with link := l }

/-- What has been sent fits the fields of a frame, and members act within `limits`. -/
def Within (limits : Fleet → Deed → Fleet → Prop) (w : Wired) (e : Event) (w' : Wired) : Prop :=
  (∀ p ∈ w.fleet.wire, p.1.InRange) ∧
    match e with
    | .act deed _ => limits w.fleet deed w'.fleet
    | .frame i _ _ _ => (w'.fleet.host i).InRange
    | .link _ _ => True

def Calm (D : Deployment) : Wired → Event → Wired → Prop := Within (Fleet.Calm D)

def CalmRuns (D : Deployment) : Wired → Wired → Prop := Runs (next D) (Calm D)

/-- The fleet has come to where a fleet may come, and its connections carry nothing but what has
been sent. -/
structure Tracks (D : Deployment) (f₀ : Fleet) (w : Wired) : Prop where
  runs : Fleet.CalmRuns D f₀ w.fleet
  sound : ∀ c ∈ w.channels, c.Sound w.fleet.wire

variable {D : Deployment} {w w' : Wired} {i n : Nat} {a : Action} {answers : List Posting}
  {f₀ : Fleet}

private theorem wire_act (h : w.act D i a answers = some w') : w.fleet.wire <+: w'.fleet.wire := by
  obtain ⟨host, -, rfl⟩ := Option.map_eq_some_iff.1 h
  exact List.prefix_append _ _

theorem Tracks.put {c : Channel} (h : Tracks D f₀ w) (hc : c.Sound w.fleet.wire) (n : Nat) :
    Tracks D f₀ (w.put n c) := by
  refine ⟨h.runs, fun x hx => ?_⟩
  rcases List.mem_or_eq_of_mem_set hx with hx | rfl
  · exact h.sound x hx
  · exact hc

section Steps

variable (hroomy : ∀ i ∈ D.membership.members, Broker.Roomy (D.broker i)) (h₀ : f₀.Unused)
include hroomy h₀

theorem Tracks.parcels (h : Tracks D f₀ w) : ∀ p ∈ w.fleet.wire, Parcel p := by
  obtain ⟨c, -, hpaired⟩ := h₀.exists_paired hroomy h.runs
  exact fun p hp => hpaired.parcel hp

/-- A deed of one member, as an action that has the same outcome. -/
theorem Tracks.act (h : Tracks D f₀ w) (hact : w.act D i a answers = some w') (deed : Deed)
    (hmember : deed.member = i) (hi : i ∈ D.membership.members) {a' : Action}
    (haction : deed.action w.fleet = some a') (hsent : Fleet.Deliverable w.fleet.wire a')
    (hsame : (w.fleet.host i).next (D.broker i) a' = (w.fleet.host i).next (D.broker i) a)
    (hcalm : Fleet.Calm D w.fleet deed w'.fleet) : Tracks D f₀ w' := by
  subst hmember
  have hsound : ∀ c ∈ w.channels, c.Sound w'.fleet.wire := fun c hc =>
    (h.sound c hc).mono fun p hp => (wire_act hact).subset hp
  obtain ⟨host, hhost, rfl⟩ := Option.map_eq_some_iff.1 hact
  have hproceed : w.fleet.proceed D deed = some (w.fleet.put deed.member host) := by
    unfold Fleet.proceed
    rw [haction, Option.bind_some]
    show (if _ then _ else none) = _
    rw [if_pos ⟨hi, hsent⟩]
    exact congrArg (Option.map _) (hsame.trans hhost)
  have hruns := h.runs.tail ⟨deed, hproceed, hcalm⟩
  refine ⟨hruns, ?_⟩
  cases host with
  | up b =>
      obtain ⟨c, -, hpaired⟩ := h₀.exists_paired hroomy hruns
      exact Channel.sound_sendAll (fun p hp => hpaired.parcel hp) hsound
        fun p hp => List.mem_append_right _ hp
  | down d =>
      intro c hc
      obtain ⟨x, hx, rfl⟩ := List.mem_map.1 hc
      exact (hsound x hx).leave

/-- A frame that is handled is a message that is delivered. -/
theorem Tracks.frame (h : Tracks D f₀ w) (hrange : ∀ p ∈ w.fleet.wire, p.1.InRange) {draw : Nat}
    (hn : w.next D (.frame i n draw answers) = some w') (hcalm : (w'.fleet.host i).InRange) :
    Tracks D f₀ w' := by
  obtain ⟨c, hc, hn⟩ := Option.bind_eq_some_iff.1 hn
  obtain ⟨f, hf, hn⟩ := Option.bind_eq_some_iff.1 hn
  simp only [Option.ite_none_right_eq_some] at hn
  obtain ⟨⟨hi, hserver⟩, hn⟩ := hn
  have hsound := h.sound c (List.mem_of_getElem? hc)
  obtain ⟨heard, hheard, hextracted⟩ := hsound.heard
  rw [hextracted, List.getElem?_map, Option.map_eq_some_iff] at hf
  obtain ⟨q, hq, rfl⟩ := hf
  have hposted : q ∈ c.posted := hheard.subset (List.mem_of_getElem? hq)
  obtain ⟨hwire, htarget⟩ := hsound.posted q hposted
  have hid : (unpacked q.2).1.target = (D.broker i).raft.id := by
    rw [D.raft_eq i hi, D.membership.config_id i hi, ← hserver, ← htarget]
    unfold unpacked
    split <;> rfl
  simp only [receiveRaft, show isBrokerApi (postedFrame q).header.apiKey = true from
    Raft.isBrokerApi_apiKeyFor _, hsound.decode (h.parcels hroomy h₀) hrange hposted, hid, ne_eq,
    not_true_eq_false, Bool.true_eq_false, if_false] at hn
  obtain ⟨k, hk⟩ := List.getElem?_of_mem hwire
  have haction : (Deed.deliver i k draw).action w.fleet =
      some (.call (.receive draw q.2.1 q.2.2) healthy) := by
    show (w.fleet.wire[k]?).map _ = _
    rw [hk]
    rfl
  have hhandled : Tracks D f₀ (w.put n { c with handled := c.handled + 1 }) :=
    h.put (c := { c with handled := c.handled + 1 })
      ⟨hsound.aligned, hsound.frames, hsound.posted⟩ n
  exact hhandled.act hroomy h₀ hn (.deliver i k draw) rfl hi haction hwire
    (next_received _ _ _ _ _).symm ⟨hcalm, trivial⟩

/-- Every event on the wire is a deed of the fleet, or leaves the fleet as it is. -/
theorem Tracks.next (h : Tracks D f₀ w) {e : Event} (hn : w.next D e = some w')
    (hcalm : Calm D w e w') : Tracks D f₀ w' := by
  cases e with
  | act deed answers =>
      cases deed with
      | deliver i k draw => cases hn
      | _ =>
          simp only [Wired.next, Option.ite_none_right_eq_some] at hn
          exact h.act hroomy h₀ hn.2 _ rfl hn.1 rfl trivial rfl hcalm.2
  | frame i n draw answers => exact h.frame hroomy h₀ hcalm.1 hn hcalm.2
  | link n e =>
      cases e with
      | send header payload answers => cases hn
      | _ =>
          obtain ⟨c, hc, hn⟩ := Option.bind_eq_some_iff.1 hn
          obtain ⟨l, hl, rfl⟩ := Option.map_eq_some_iff.1 hn
          have hsound := h.sound c (List.mem_of_getElem? hc)
          exact h.put (hsound.next (h.parcels hroomy h₀) (by simp) hl) n

/-- A run on the wire is a run of the fleet. -/
theorem CalmRuns.tracks (hr : CalmRuns D ⟨f₀, []⟩ w) : Tracks D f₀ w :=
  hr.invariant (I := Tracks D f₀) ⟨.refl, by simp⟩
    fun _ _ _ h hn hcalm => h.next hroomy h₀ hn hcalm

end Steps

/-! ## A run of three brokers -/

attribute [mk_iff] Raft.Message.InRange

instance (m : Message) : Decidable m.InRange :=
  decidable_of_iff _ (Raft.Message.inRange_iff m).symm

instance (w : Wired) (e : Event) (w' : Wired) : Decidable (Within Fleet.Plain w e w') :=
  match e with
  | .act deed _ =>
      inferInstanceAs (Decidable ((∀ _ ∈ _, _) ∧ Fleet.Plain w.fleet deed w'.fleet))
  | .frame i _ _ _ => inferInstanceAs (Decidable ((∀ _ ∈ _, _) ∧ (w'.fleet.host i).InRange))
  | .link _ _ => inferInstanceAs (Decidable ((∀ _ ∈ w.fleet.wire, _) ∧ True))

theorem Within.calm {e : Event} (h : Within Fleet.Plain w e w') : Calm D w e w' := by
  cases e with
  | act deed answers => exact ⟨h.1, Fleet.Plain.calm h.2⟩
  | frame i n draw answers => exact h
  | link n e => exact h

/-- Broker `0` asks broker `1` for its vote, which is read in two pieces, and gets it in two;
broker `2` cannot be reached. -/
def firstVote : List Event :=
  [.act (.start 0 0) [], .act (.start 1 0) [], .act (.tick 0 0) [⟨true, [.takes 999], 1⟩, {}],
    .link 0 (.readable (fun _ => true) [.gives 49]),
    .link 0 (.readable (fun _ => true) [.gives 99]),
    .frame 1 0 0 [⟨true, [.takes 30, .wouldBlock], 1⟩],
    .link 1 (.readable (fun _ => true) [.gives 99]), .link 1 (.writable [.takes 999]),
    .link 1 (.readable (fun _ => true) [.gives 99]), .frame 0 1 0 []]

private theorem exists_of_events (w : Wired) (events : List Event) {p : Wired → Bool}
    (h : (replay (next threeBrokers) (Within Fleet.Plain) w events).any p = true) :
    ∃ w', CalmRuns threeBrokers w w' ∧ p w' = true := by
  obtain ⟨w', hw', hp⟩ := exists_of_replay _ _ w events h
  exact ⟨w', hw'.mono fun _ _ _ hplain => hplain.calm, hp⟩

end Wired

section Runs

variable {D : Deployment} (hroomy : ∀ i ∈ D.membership.members, Broker.Roomy (D.broker i))
  {f₀ : Fleet} {w : Wired}
include hroomy

/-- **Refinement.**  Over any network that keeps the bytes of a connection in order, a fleet
whose messages are encoded, cut into pieces and decoded does what a fleet does whose messages
are handed over, and so does what a cluster does. -/
theorem wired_refines_fleet (h₀ : f₀.Unused) (hr : Wired.CalmRuns D ⟨f₀, []⟩ w) :
    Fleet.CalmRuns D f₀ w.fleet ∧
      ∃ s : Cluster, s.Reachable D.membership ∧ Paired D w.fleet s := by
  have htracks := hr.tracks hroomy h₀
  exact ⟨htracks.runs, h₀.exists_paired hroomy htracks.runs⟩

omit hroomy in
theorem wired_refines_fleet_firstVote :
    ∃ w : Wired, w.fleet.Leads 0 1 ∧ Fleet.CalmRuns threeBrokers threeHosts w.fleet ∧
      ∃ s : Cluster, s.Reachable threeBrokers.membership ∧ Paired threeBrokers w.fleet s := by
  obtain ⟨w, hw, hleads⟩ := Wired.exists_of_events ⟨threeHosts, []⟩ Wired.firstVote
    (p := fun w => w.fleet.leads 0 1) (by decide +kernel)
  exact ⟨w, Fleet.leads_iff.1 hleads, wired_refines_fleet threeBrokers_roomy threeHosts_unused hw⟩

/-- **In order, at most once, and no protocol errors.**  What a broker takes out of a connection
are frames for brokers that decode to the first messages sent over it, all of them for this
broker. -/
theorem wired_channels_in_order (h₀ : f₀.Unused) (hr : Wired.CalmRuns D ⟨f₀, []⟩ w)
    (hrange : ∀ p ∈ w.fleet.wire, p.1.InRange) {c : Channel} (hc : c ∈ w.channels) :
    ∃ heard, heard <+: c.posted ∧
      c.link.extracted.map (fun f => decodeMessage f.payload) =
        heard.map (fun q => .ok (unpacked q.2)) ∧
      (∀ f ∈ c.link.extracted, isBrokerApi f.header.apiKey = true) ∧
      ∀ q ∈ heard, q.2 ∈ w.fleet.wire ∧ q.2.1.target = c.server := by
  have htracks := hr.tracks hroomy h₀
  have hsound := htracks.sound c hc
  obtain ⟨heard, hheard, hextracted⟩ := hsound.heard
  refine ⟨heard, hheard, ?_, ?_, fun q hq => hsound.posted q (hheard.subset hq)⟩
  · rw [hextracted, List.map_map]
    exact List.map_congr_left fun q hq =>
      hsound.decode (htracks.parcels hroomy h₀) hrange (hheard.subset hq)
  · rw [hextracted, List.forall_mem_map]
    exact fun q _ => Raft.isBrokerApi_apiKeyFor _

omit hroomy in
/-- Broker `0` has taken the vote of broker `1` out of its connection. -/
theorem wired_channels_in_order_firstVote :
    ∃ (w : Wired) (c : Channel) (heard : _), c ∈ w.channels ∧ heard <+: c.posted ∧ heard ≠ [] ∧
      c.link.extracted.map (fun f => decodeMessage f.payload) =
        heard.map (fun q => .ok (unpacked q.2)) := by
  obtain ⟨w, hw, hp⟩ := Wired.exists_of_events ⟨threeHosts, []⟩ Wired.firstVote
    (p := fun w => decide (∀ p ∈ w.fleet.wire, p.1.InRange) &&
      w.channels.any fun c => decide (c.server = 0) && !c.link.extracted.isEmpty)
    (by decide +kernel)
  obtain ⟨hrange, hany⟩ := Bool.and_eq_true_iff.1 hp
  obtain ⟨c, hc, hsome⟩ := List.any_eq_true.1 hany
  obtain ⟨heard, hheard, hdecode, -⟩ := wired_channels_in_order threeBrokers_roomy
    threeHosts_unused hw (of_decide_eq_true hrange) hc
  refine ⟨w, c, heard, hc, hheard, ?_, hdecode⟩
  rintro rfl
  simp_all

end Runs

end LogEngine.Server
