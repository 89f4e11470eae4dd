import LogEngine.Wire.Frame
import LogEngine.Verified.Machine

/-!
# A connection between two brokers

`Broker::send`, `flush`, `on_writable` and `on_readable` of `src/server/broker.cpp`, for
one connection and one direction of it.  What the network answers is part of the event: a
`write` takes some of the bytes, blocks or fails, and a `read` hands out some of the bytes
that are on the way, blocks, fails or finds the end of the stream.  A `Stream` that was
given to `forget` is gone.

A `Link` also remembers what `send` was given and what the receiver's loop has taken out,
and `Link.lossless` compares the two after every run:

* the frames taken out are the first ones sent, in their order and as they were sent;
* they are all of them once the connection holds no more bytes and both ends still have
  it;
* the ends lose it only when the network fails or ends it, a handler takes it down, or a
  frame that is not for brokers is sent.

The third is where `is_broker_api` comes in; `send_raft`, the one caller of `send`, passes
only keys that it accepts.
-/

namespace LogEngine.Server

open Base Wire Verified.Machine

/-- `Broker::Stream`. -/
structure Stream where
  input : Buffer := Buffer.empty
  output : Buffer := Buffer.empty
  decoder : FrameDecoder := {}
  deriving DecidableEq

/-- What `flush` and `forget` tell the network to watch the connection for. -/
inductive Interest
  | nothing
  | read
  | readWrite
  deriving DecidableEq, Repr

/-! ## The sending end -/

/-- What `Network::write` answers: it takes at most this many bytes, would block or fails. -/
inductive WriteAnswer
  | takes (count : Nat)
  | wouldBlock
  | fails
  deriving DecidableEq, Repr

/-- What a call of `flush` leaves behind, and the bytes that the network took. -/
structure Flushed where
  stream : Option Stream
  interest : Interest
  accepted : Bytes

/-- `Broker::flush`, the network's answers being given; where there is none left it would
block. -/
def Stream.flush (interest : Interest) : List WriteAnswer → Stream → Flushed
  | [], s =>
      if s.output.size = 0 then ⟨some s, .read, []⟩ else ⟨some s, .readWrite, []⟩
  | answer :: answers, s =>
      if s.output.size = 0 then ⟨some s, .read, []⟩
      else
        match answer with
        | .wouldBlock => ⟨some s, .readWrite, []⟩
        | .fails => ⟨none, .nothing, []⟩
        | .takes count =>
            let written := min count s.output.size
            if written = 0 then ⟨some s, interest, []⟩
            else
              let rest := flush interest answers
                { s with output := s.output.consume written (Nat.min_le_right _ _) }
              { rest with accepted := s.output.contents.take written ++ rest.accepted }

/-- What the network took and what is parked are together what there was. -/
theorem Stream.flush_spec (interest : Interest) (answers : List WriteAnswer) (s : Stream) :
    ∃ parked, (s.flush interest answers).accepted ++ parked = s.output.contents ∧
      ∀ s', (s.flush interest answers).stream = some s' → s'.output.contents = parked := by
  induction answers generalizing s with
  | nil =>
      refine ⟨s.output.contents, ?_, ?_⟩
      · unfold flush
        split <;> rfl
      · intro s' h
        unfold flush at h
        split at h <;> (cases h; rfl)
  | cons answer answers ih =>
      unfold flush
      split
      case isTrue =>
        refine ⟨s.output.contents, rfl, ?_⟩
        intro s' h
        cases h
        rfl
      case isFalse =>
        cases answer with
        | wouldBlock =>
            refine ⟨s.output.contents, rfl, ?_⟩
            intro s' h
            cases h
            rfl
        | fails =>
            refine ⟨s.output.contents, rfl, ?_⟩
            intro s' h
            cases h
        | takes count =>
            dsimp only
            split
            case isTrue =>
              refine ⟨s.output.contents, rfl, ?_⟩
              intro s' h
              cases h
              rfl
            case isFalse =>
              -- the rest of the loop works on what the consumed bytes leave
              obtain ⟨parked, haccepted, hstream⟩ := ih
                { s with output := s.output.consume _ (Nat.min_le_right count s.output.size) }
              refine ⟨parked, ?_, hstream⟩
              rw [List.append_assoc, haccepted, Buffer.contents_consume, List.take_append_drop]

/-- Only a failing write makes `flush` forget the connection. -/
theorem Stream.flush_isSome (interest : Interest) {answers : List WriteAnswer}
    (h : WriteAnswer.fails ∉ answers) (s : Stream) :
    (s.flush interest answers).stream.isSome := by
  induction answers generalizing s with
  | nil =>
      unfold flush
      split <;> rfl
  | cons answer answers ih =>
      rw [List.mem_cons, not_or] at h
      unfold flush
      split
      · rfl
      · cases answer with
        | wouldBlock => rfl
        | fails => exact absurd rfl h.1
        | takes count =>
            dsimp only
            split
            · rfl
            · exact ih h.2 _

/-! ## The receiving end -/

/-- What `Network::read` answers: it hands out at most this many bytes and one more, would
block, is at the end of the stream or fails. -/
inductive ReadAnswer
  | gives (count : Nat)
  | wouldBlock
  | ends
  | fails
  deriving DecidableEq, Repr

/-- The bytes that `on_readable` reads at a time. -/
def kReadBytes : Nat := 4096

/-- One read of `on_readable` that got `data`. -/
def Stream.receive (s : Stream) (data : Bytes) (h : data.length ≤ kReadBytes) : Stream :=
  { s with input := s.input.receive kReadBytes data h }

/-- The inner loop of `on_readable`, which takes out the frames that are complete.
`stays n` is whether the connection is still there when `receive_raft` is done with the
frame that comes behind `n` others.  The buffer's size is fuel enough. -/
def Stream.takeFrames (stays : Nat → Bool) :
    Nat → Stream → List Frame → Option Stream × List Frame
  | 0, s, taken => (some s, taken)
  | fuel + 1, s, taken =>
      match s.decoder.next s.input with
      | .error _ => (none, taken)
      | .ok none => (some s, taken)
      | .ok (some frame) =>
          if isBrokerApi frame.header.apiKey = false then (none, taken ++ [frame])
          else if stays taken.length = false then (none, taken ++ [frame])
          else
            takeFrames stays fuel
              { s with input := FrameDecoder.consumeFrame s.input } (taken ++ [frame])

/-- What a call of `on_readable` leaves behind: the stream, the bytes that are still on
the way, and the frames taken out so far. -/
structure Received where
  stream : Option Stream
  pipe : Bytes
  taken : List Frame

/-- `Broker::on_readable` on a connection. -/
def Stream.onReadable (stays : Nat → Bool) :
    List ReadAnswer → Stream → Bytes → List Frame → Received
  | [], s, pipe, taken => ⟨some s, pipe, taken⟩
  | .wouldBlock :: _, s, pipe, taken => ⟨some s, pipe, taken⟩
  | .ends :: _, _, pipe, taken => ⟨none, pipe, taken⟩
  | .fails :: _, _, pipe, taken => ⟨none, pipe, taken⟩
  | .gives count :: answers, s, pipe, taken =>
      let data := pipe.take (min (count + 1) kReadBytes)
      -- with nothing on the way the read would block
      if data = [] then ⟨some s, pipe, taken⟩
      else
        let s := s.receive data (by
          rw [List.length_take]
          omega)
        match s.takeFrames stays (s.input.size + 1) taken with
        | (none, taken) => ⟨none, pipe.drop data.length, taken⟩
        | (some s, taken) => onReadable stays answers s (pipe.drop data.length) taken

/-- Where the receiver is: what is in its buffer and on the way are the frames that are
yet to be taken out, and none of them is complete in the buffer. -/
structure Stream.Awaits (s : Stream) (d : FrameDecoder) (more : Bytes) (rest : List Frame) :
    Prop where
  decoder : s.decoder = d
  bytes : s.input.contents ++ more = stream rest
  none : d.next s.input = .ok none

section Receiving

variable (stays : Nat → Bool) {d : FrameDecoder}

/-- The inner loop takes out the next frames and goes on waiting for the others. -/
theorem Stream.takeFrames_spec {fuel : Nat} (s : Stream) (taken : List Frame)
    {rest : List Frame} {more : Bytes}
    (hd : s.decoder = d) (hfits : ∀ f ∈ rest, f.Fits d)
    (hbytes : s.input.contents ++ more = stream rest) (hfuel : s.input.size < fuel) :
    ∃ fs rest', rest = fs ++ rest' ∧ (s.takeFrames stays fuel taken).2 = taken ++ fs ∧
      ∀ s', (s.takeFrames stays fuel taken).1 = some s' → s'.Awaits d more rest' := by
  induction fuel generalizing s taken rest with
  | zero => exact absurd hfuel (Nat.not_lt_zero _)
  | succ fuel ih =>
      unfold takeFrames
      rcases FrameDecoder.next_of_stream hfits hbytes with
        ⟨hnone, -⟩ | ⟨f, tail, behind, rfl, hbuf, htail, hsome⟩
      · have hnext : s.decoder.next s.input = .ok none := by rw [hd, hnone]
        rw [hnext]
        refine ⟨[], rest, rfl, (List.append_nil _).symm, ?_⟩
        intro s' h
        cases h
        exact ⟨hd, hbytes, hnone⟩
      · have hnext : s.decoder.next s.input = .ok (some f) := by rw [hd, hsome]
        rw [hnext]
        dsimp only
        split
        case isTrue =>
          refine ⟨[f], tail, rfl, rfl, ?_⟩
          intro s' h
          cases h
        case isFalse =>
          split
          case isTrue =>
            refine ⟨[f], tail, rfl, rfl, ?_⟩
            intro s' h
            cases h
          case isFalse =>
            have hfit : f.Fits d := hfits f List.mem_cons_self
            have hconsumed : (FrameDecoder.consumeFrame s.input).contents = behind :=
              FrameDecoder.contents_consumeFrame hfit hbuf
            -- a frame is not empty, so the buffer got smaller than the fuel
            have hsmaller : (FrameDecoder.consumeFrame s.input).size < fuel := by
              have hlen := congrArg List.length hbuf
              rw [Buffer.contents_length, List.length_append, f.bytes_length,
                kFramePrefixBytes, kLengthFieldBytes] at hlen
              rw [← Buffer.contents_length, hconsumed]
              omega
            obtain ⟨fs, rest', rfl, htaken, hstream⟩ :=
              ih { s with input := FrameDecoder.consumeFrame s.input } (taken ++ [f]) hd
                (fun g hg => hfits g (List.mem_cons_of_mem _ hg))
                (by rw [hconsumed]; exact htail) hsmaller
            refine ⟨f :: fs, rest', rfl, ?_, hstream⟩
            rw [htaken, List.append_assoc, List.singleton_append]

/-- The inner loop keeps the connection when every frame is for brokers and no handler
takes it down. -/
theorem Stream.takeFrames_isSome (s : Stream) (taken : List Frame)
    {rest : List Frame} {more : Bytes} (hd : s.decoder = d) (hfits : ∀ f ∈ rest, f.Fits d)
    (hbytes : s.input.contents ++ more = stream rest) (hstays : ∀ n, stays n = true)
    (hkeys : ∀ f ∈ rest, isBrokerApi f.header.apiKey = true) (fuel : Nat) :
    (s.takeFrames stays fuel taken).1.isSome := by
  induction fuel generalizing s taken rest with
  | zero => rfl
  | succ fuel ih =>
      unfold takeFrames
      rcases FrameDecoder.next_of_stream hfits hbytes with
        ⟨hnone, -⟩ | ⟨f, tail, behind, rfl, hbuf, htail, hsome⟩
      · have hnext : s.decoder.next s.input = .ok none := by rw [hd, hnone]
        rw [hnext]
        rfl
      · have hnext : s.decoder.next s.input = .ok (some f) := by rw [hd, hsome]
        rw [hnext]
        have hconsumed : (FrameDecoder.consumeFrame s.input).contents = behind :=
          FrameDecoder.contents_consumeFrame (hfits f List.mem_cons_self) hbuf
        simp only [hkeys f List.mem_cons_self, hstays, Bool.true_eq_false, if_false]
        have hrest : (FrameDecoder.consumeFrame s.input).contents ++ more = stream tail := by
          rw [hconsumed]
          exact htail
        apply ih { s with input := FrameDecoder.consumeFrame s.input } _ hd _ hrest
        · exact fun g hg => hkeys g (List.mem_cons_of_mem _ hg)
        · exact fun g hg => hfits g (List.mem_cons_of_mem _ hg)

/-- A read moves bytes from the way into the buffer. -/
theorem Stream.Awaits.receive {s : Stream} {pipe parked : Bytes} {rest : List Frame}
    (h : s.Awaits d (pipe ++ parked) rest) {n : Nat} {hle : (pipe.take n).length ≤ kReadBytes} :
    (s.receive (pipe.take n) hle).input.contents
      ++ (pipe.drop (pipe.take n).length ++ parked) = stream rest := by
  have hdrop : pipe.drop (pipe.take n).length = pipe.drop n := by
    rw [List.length_take]
    rcases Nat.le_total n pipe.length with hn | hn
    · rw [Nat.min_eq_left hn]
    · rw [Nat.min_eq_right hn, List.drop_length, List.drop_of_length_le hn]
  rw [Stream.receive, Buffer.receive_eq_append, Buffer.contents_append, hdrop, List.append_assoc,
    ← List.append_assoc (pipe.take n), List.take_append_drop]
  exact h.bytes

/-- An answer without bytes leaves everything where it is, or ends the connection. -/
theorem Stream.Awaits.idle {s : Stream} {more : Bytes} {rest : List Frame}
    (h : s.Awaits d more rest) (taken : List Frame) {o : Option Stream}
    (ho : ∀ s', o = some s' → s' = s) :
    ∃ fs rest', rest = fs ++ rest' ∧ taken = taken ++ fs ∧
      ∀ s', o = some s' → s'.Awaits d more rest' := by
  refine ⟨[], rest, rfl, (List.append_nil _).symm, ?_⟩
  intro s' hs'
  rw [ho s' hs']
  exact h

/-- `on_readable` takes out the next frames and goes on waiting for the others. -/
theorem Stream.onReadable_spec (answers : List ReadAnswer) {s : Stream} {pipe parked : Bytes}
    (taken : List Frame) {rest : List Frame} (hfits : ∀ f ∈ rest, f.Fits d)
    (h : s.Awaits d (pipe ++ parked) rest) :
    ∃ fs rest', rest = fs ++ rest' ∧ (s.onReadable stays answers pipe taken).taken = taken ++ fs ∧
      ∀ s', (s.onReadable stays answers pipe taken).stream = some s' →
        s'.Awaits d ((s.onReadable stays answers pipe taken).pipe ++ parked) rest' := by
  induction answers generalizing s pipe taken rest with
  | nil => exact h.idle taken (o := some s) (by simp)
  | cons answer answers ih =>
      cases answer with
      | wouldBlock => exact h.idle taken (o := some s) (by simp)
      | ends => exact h.idle taken (o := none) (by simp)
      | fails => exact h.idle taken (o := none) (by simp)
      | gives count =>
          unfold onReadable
          dsimp only
          split
          case isTrue => exact h.idle taken (o := some s) (by simp)
          case isFalse =>
            have hle : (pipe.take (min (count + 1) kReadBytes)).length ≤ kReadBytes := by
              rw [List.length_take]
              omega
            obtain ⟨fs, rest₁, rfl, htaken, hstream⟩ :=
              (s.receive _ hle).takeFrames_spec stays taken h.decoder hfits h.receive
                (Nat.lt_succ_self _)
            split
            case h_1 took heq =>
              rw [heq] at htaken
              refine ⟨fs, rest₁, rfl, htaken, ?_⟩
              intro s' hs'
              cases hs'
            case h_2 s₁ took heq =>
              rw [heq] at htaken hstream
              obtain rfl : took = taken ++ fs := htaken
              obtain ⟨gs, rest₂, rfl, htaken₂, hstream₂⟩ := ih (taken ++ fs)
                (fun f hf => hfits f (List.mem_append_right _ hf)) (hstream s₁ rfl)
              refine ⟨fs ++ gs, rest₂, (List.append_assoc _ _ _).symm, ?_, hstream₂⟩
              rw [htaken₂, List.append_assoc]

/-- `on_readable` keeps the connection when the reads neither fail nor end it, every frame
is for brokers and no handler takes it down. -/
theorem Stream.onReadable_isSome {answers : List ReadAnswer} {s : Stream} {pipe parked : Bytes}
    (taken : List Frame) {rest : List Frame} (hfits : ∀ f ∈ rest, f.Fits d)
    (h : s.Awaits d (pipe ++ parked) rest) (hstays : ∀ n, stays n = true)
    (hkeys : ∀ f ∈ rest, isBrokerApi f.header.apiKey = true)
    (hends : ReadAnswer.ends ∉ answers) (hfails : ReadAnswer.fails ∉ answers) :
    (s.onReadable stays answers pipe taken).stream.isSome := by
  induction answers generalizing s pipe taken rest with
  | nil => rfl
  | cons answer answers ih =>
      rw [List.mem_cons, not_or] at hends hfails
      cases answer with
      | wouldBlock => rfl
      | ends => exact absurd rfl hends.1
      | fails => exact absurd rfl hfails.1
      | gives count =>
          unfold onReadable
          dsimp only
          split
          case isTrue => rfl
          case isFalse =>
            have hle : (pipe.take (min (count + 1) kReadBytes)).length ≤ kReadBytes := by
              rw [List.length_take]
              omega
            have hsome := (s.receive _ hle).takeFrames_isSome stays taken h.decoder hfits h.receive
              hstays hkeys ((s.receive _ hle).input.size + 1)
            obtain ⟨fs, rest₁, rfl, -, hstream⟩ :=
              (s.receive _ hle).takeFrames_spec stays taken h.decoder hfits h.receive
                (Nat.lt_succ_self _)
            split
            case h_1 took heq =>
              rw [heq] at hsome
              cases hsome
            case h_2 s₁ took heq =>
              rw [heq] at hstream
              apply ih took _ (hstream s₁ rfl) _ hends.2 hfails.2
              · exact fun f hf => hfits f (List.mem_append_right _ hf)
              · exact fun f hf => hkeys f (List.mem_append_right _ hf)

end Receiving

/-! ## The connection -/

/-- One direction of a connection, with what was sent and what was taken out. -/
structure Link where
  sender : Option Stream
  interest : Interest
  pipe : Bytes
  receiver : Option Stream
  sent : List Frame
  extracted : List Frame

/-- A connection whose receiver decodes with `d`. -/
def Link.start (d : FrameDecoder) : Link :=
  { sender := some {}
    interest := .read
    pipe := []
    receiver := some { decoder := d }
    sent := []
    extracted := [] }

namespace Link

inductive Event
  /-- `Broker::send`. -/
  | send (header : FrameHeader) (payload : Bytes) (answers : List WriteAnswer)
  /-- `Broker::on_writable`. -/
  | writable (answers : List WriteAnswer)
  /-- `Broker::on_readable`. -/
  | readable (stays : Nat → Bool) (answers : List ReadAnswer)
  /-- The sender's end is forgotten: `on_hangup`, or its other direction failed. -/
  | senderGone
  /-- The receiver's end is forgotten. -/
  | receiverGone

/-- The sender's stream after a call of `flush`. -/
def flushed (link : Link) (s : Stream) (answers : List WriteAnswer) : Link :=
  let done := s.flush link.interest answers
  { link with
    sender := done.stream
    interest := done.interest
    pipe := link.pipe ++ done.accepted }

/-- One event; those of an end that is gone do not happen. -/
def next (link : Link) : Event → Option Link
  | .send header payload answers =>
      link.sender.map fun s =>
        let link : Link := { link with sent := link.sent ++ [⟨header, payload⟩] }
        link.flushed { s with output := encodeFrame s.output header payload } answers
  | .writable answers => link.sender.map fun s => link.flushed s answers
  | .readable stays answers =>
      link.receiver.map fun s =>
        let done := s.onReadable stays answers link.pipe link.extracted
        { link with receiver := done.stream, pipe := done.pipe, extracted := done.taken }
  | .senderGone => some { link with sender := none, interest := .nothing }
  | .receiverGone => some { link with receiver := none }

/-- The network neither fails nor ends the connection, and no handler takes it down. -/
def Event.Calm : Event → Prop
  | .send _ _ answers => WriteAnswer.fails ∉ answers
  | .writable answers => WriteAnswer.fails ∉ answers
  | .readable stays answers =>
      (∀ n, stays n = true) ∧ ReadAnswer.ends ∉ answers ∧ ReadAnswer.fails ∉ answers
  | .senderGone => False
  | .receiverGone => False

/-- What every run keeps: the frames that were sent are those taken out and `rest`, and
what `rest` is on the connection is in the receiver's buffer, on the way and parked at the
sender, in this order. -/
def Aligned (d : FrameDecoder) (link : Link) : Prop :=
  ∃ rest parked, link.sent = link.extracted ++ rest ∧
    (∀ s, link.sender = some s → s.output.contents = parked) ∧
    ∀ s, link.receiver = some s → s.Awaits d (link.pipe ++ parked) rest

variable {d : FrameDecoder} {link link' : Link} {e : Event}

theorem aligned_start (d : FrameDecoder) : (start d).Aligned d := by
  refine ⟨[], [], rfl, ?_, ?_⟩
  · intro s h
    cases h
    rfl
  · intro s h
    cases h
    exact ⟨rfl, rfl, FrameDecoder.next_of_empty rfl⟩

/-- Bytes that the network takes go from the sender onto the way. -/
theorem aligned_flushed {s : Stream} {answers : List WriteAnswer} (rest : List Frame)
    (hsent : link.sent = link.extracted ++ rest)
    (hreceiver : ∀ r, link.receiver = some r →
      r.Awaits d (link.pipe ++ s.output.contents) rest) :
    (link.flushed s answers).Aligned d := by
  obtain ⟨parked, haccepted, hstream⟩ := s.flush_spec link.interest answers
  refine ⟨rest, parked, hsent, hstream, ?_⟩
  intro r hr
  have h := hreceiver r hr
  rw [← haccepted, ← List.append_assoc] at h
  exact h

private theorem sent_isPrefix (h : link.next e = some link') : link.sent <+: link'.sent := by
  cases e with
  | send header payload answers =>
      obtain ⟨s, -, rfl⟩ := Option.map_eq_some_iff.1 h
      exact List.prefix_append _ _
  | writable answers =>
      obtain ⟨s, -, rfl⟩ := Option.map_eq_some_iff.1 h
      exact List.prefix_rfl
  | readable stays answers =>
      obtain ⟨s, -, rfl⟩ := Option.map_eq_some_iff.1 h
      exact List.prefix_rfl
  | senderGone =>
      cases h
      exact List.prefix_rfl
  | receiverGone =>
      cases h
      exact List.prefix_rfl

/-- Every event keeps the two ends aligned. -/
theorem Aligned.next (h : link.Aligned d) (hfits : ∀ f ∈ link.sent, f.Fits d)
    (hnext : link.next e = some link') : link'.Aligned d := by
  obtain ⟨rest, parked, hsent, hsender, hreceiver⟩ := h
  cases e with
  | send header payload answers =>
      obtain ⟨s, hs, rfl⟩ := Option.map_eq_some_iff.1 hnext
      apply aligned_flushed (rest ++ [⟨header, payload⟩])
      · show link.sent ++ _ = link.extracted ++ _
        rw [hsent, List.append_assoc]
      · intro r hr
        have hr' := hreceiver r hr
        refine ⟨hr'.decoder, ?_, hr'.none⟩
        rw [contents_encodeFrame, hsender s hs, ← List.append_assoc, ← List.append_assoc,
          List.append_assoc r.input.contents, hr'.bytes, stream_append]
        simp
  | writable answers =>
      obtain ⟨s, hs, rfl⟩ := Option.map_eq_some_iff.1 hnext
      apply aligned_flushed rest hsent
      rw [hsender s hs]
      exact hreceiver
  | readable stays answers =>
      obtain ⟨s, hs, rfl⟩ := Option.map_eq_some_iff.1 hnext
      have hrest : ∀ f ∈ rest, f.Fits d := by
        intro f hf
        apply hfits
        rw [hsent]
        exact List.mem_append_right _ hf
      obtain ⟨fs, rest', rfl, htaken, hstream⟩ :=
        Stream.onReadable_spec stays answers link.extracted hrest (hreceiver s hs)
      refine ⟨rest', parked, ?_, hsender, hstream⟩
      show link.sent = (s.onReadable stays answers link.pipe link.extracted).taken ++ rest'
      rw [htaken, hsent, List.append_assoc]
  | senderGone =>
      cases hnext
      exact ⟨rest, parked, hsent, by simp, hreceiver⟩
  | receiverGone =>
      cases hnext
      exact ⟨rest, parked, hsent, hsender, by simp⟩

private theorem aligned_of_runs {ok : Link → Event → Link → Prop}
    (hrun : Runs Link.next ok (start d) link) (hfits : ∀ f ∈ link.sent, f.Fits d) :
    link.Aligned d := by
  have hinv : (∀ f ∈ link.sent, f.Fits d) → link.Aligned d := by
    refine hrun.invariant (I := fun l => (∀ f ∈ l.sent, f.Fits d) → l.Aligned d) ?_ ?_
    · intro _
      exact aligned_start d
    · intro s a t ih hn _ hfits'
      have hfs : ∀ f ∈ s.sent, f.Fits d := fun f hf => hfits' f ((sent_isPrefix hn).subset hf)
      exact (ih hfs).next hfs hn
  exact hinv hfits

/-- The two ends keep the connection through a calm event. -/
theorem Aligned.next_isSome (h : link.Aligned d) (hfits : ∀ f ∈ link.sent, f.Fits d)
    (hkeys : ∀ f ∈ link.sent, isBrokerApi f.header.apiKey = true)
    (hnext : link.next e = some link') (hcalm : e.Calm)
    (hup : link.sender.isSome ∧ link.receiver.isSome) :
    link'.sender.isSome ∧ link'.receiver.isSome := by
  obtain ⟨rest, parked, hsent, hsender, hreceiver⟩ := h
  cases e with
  | send header payload answers =>
      obtain ⟨s, hs, rfl⟩ := Option.map_eq_some_iff.1 hnext
      exact ⟨Stream.flush_isSome _ hcalm _, hup.2⟩
  | writable answers =>
      obtain ⟨s, hs, rfl⟩ := Option.map_eq_some_iff.1 hnext
      exact ⟨Stream.flush_isSome _ hcalm _, hup.2⟩
  | readable stays answers =>
      obtain ⟨s, hs, rfl⟩ := Option.map_eq_some_iff.1 hnext
      obtain ⟨hstays, hends, hfails⟩ := hcalm
      have hrest : ∀ f ∈ rest, f ∈ link.sent := by
        intro f hf
        rw [hsent]
        exact List.mem_append_right _ hf
      constructor
      · exact hup.1
      · exact Stream.onReadable_isSome stays link.extracted (fun f hf => hfits f (hrest f hf))
          (hreceiver s hs) hstays (fun f hf => hkeys f (hrest f hf)) hends hfails
  | senderGone => exact hcalm.elim
  | receiverGone => exact hcalm.elim

private theorem isSome_of_runs (hrun : Runs Link.next (fun _ e _ => e.Calm) (start d) link)
    (hfits : ∀ f ∈ link.sent, f.Fits d)
    (hkeys : ∀ f ∈ link.sent, isBrokerApi f.header.apiKey = true) :
    link.sender.isSome ∧ link.receiver.isSome := by
  have hinv : (∀ f ∈ link.sent, f.Fits d ∧ isBrokerApi f.header.apiKey = true) →
      link.Aligned d ∧ link.sender.isSome ∧ link.receiver.isSome := by
    refine hrun.invariant (I := fun l =>
      (∀ f ∈ l.sent, f.Fits d ∧ isBrokerApi f.header.apiKey = true) →
        l.Aligned d ∧ l.sender.isSome ∧ l.receiver.isSome) ?_ ?_
    · intro _
      exact ⟨aligned_start d, rfl, rfl⟩
    · intro s a t ih hn hcalm hgood
      have hs : ∀ f ∈ s.sent, f.Fits d ∧ isBrokerApi f.header.apiKey = true :=
        fun f hf => hgood f ((sent_isPrefix hn).subset hf)
      obtain ⟨haligned, hup⟩ := ih hs
      constructor
      · exact haligned.next (fun f hf => (hs f hf).1) hn
      · exact haligned.next_isSome (fun f hf => (hs f hf).1) (fun f hf => (hs f hf).2) hn hcalm hup
  exact (hinv fun f hf => ⟨hfits f hf, hkeys f hf⟩).2

/-- No byte is parked at the sender or on the way. -/
def Empty (link : Link) : Prop :=
  link.pipe = [] ∧ ∀ s, link.sender = some s → s.output.contents = []

/-- The frames that the receiver takes out are the first frames sent, and all of them once
the connection is empty and up; and it stays up as long as the network and the handlers
keep it and only frames for brokers are sent. -/
theorem lossless {d : FrameDecoder} {link : Link}
    (hrun : Runs Link.next (fun _ _ _ => True) (start d) link)
    (hfits : ∀ f ∈ link.sent, f.Fits d) :
    link.extracted <+: link.sent ∧
      (link.sender.isSome → link.receiver.isSome → link.Empty → link.extracted = link.sent) ∧
      (Runs Link.next (fun _ e _ => e.Calm) (start d) link →
        (∀ f ∈ link.sent, isBrokerApi f.header.apiKey = true) →
        link.sender.isSome ∧ link.receiver.isSome) := by
  refine ⟨?_, ?_, ?_⟩
  · obtain ⟨rest, parked, hsent, -⟩ := aligned_of_runs hrun hfits
    rw [hsent]
    exact List.prefix_append _ _
  · intro hs hr hempty
    obtain ⟨rest, parked, hsent, hsender, hreceiver⟩ := aligned_of_runs hrun hfits
    obtain ⟨s, hs⟩ := Option.isSome_iff_exists.1 hs
    obtain ⟨r, hr⟩ := Option.isSome_iff_exists.1 hr
    have hawaits := hreceiver r hr
    have hparked : parked = [] := (hsender s hs).symm.trans (hempty.2 s hs)
    rw [hempty.1, hparked, List.append_nil] at hawaits
    have hrest : ∀ f ∈ rest, f.Fits d := by
      intro f hf
      apply hfits
      rw [hsent]
      exact List.mem_append_right _ hf
    -- nothing is complete in the buffer, and there is nothing elsewhere
    rcases FrameDecoder.next_of_stream hrest hawaits.bytes with
      ⟨-, hnil⟩ | ⟨f, tail, behind, -, -, -, hsome⟩
    · rw [hsent, hnil rfl, List.append_nil]
    · rw [hawaits.none] at hsome
      cases hsome
  · intro hcalm hkeys
    exact isSome_of_runs hcalm hfits hkeys

/-- Two frames, sent through a network that takes a few bytes at a time and blocks, and
read in pieces that end inside the frames. -/
def ballot : Frame := ⟨⟨ApiKey.kRequestVote, kApiVersion0, 1⟩, [7]⟩
def beat : Frame := ⟨⟨ApiKey.kAppendEntries, kApiVersion0, 2⟩, []⟩

def piecemeal : List Event :=
  [.send ballot.header ballot.payload [.takes 5, .wouldBlock],
    .readable (fun _ => true) [.gives 3, .wouldBlock],
    .send beat.header beat.payload [.takes 3],
    .writable [.takes 4, .takes 100],
    .readable (fun _ => true) [.gives 9, .gives 99, .wouldBlock]]

theorem lossless_piecemeal : ∃ link, Runs Link.next (fun _ _ _ => True) (start {}) link ∧
    link.sent = [ballot, beat] ∧ link.extracted = link.sent := by
  obtain ⟨link, hrun, hp⟩ := exists_of_replay Link.next (fun _ _ _ => True) (start {}) piecemeal
    (p := fun link => link.sent = [ballot, beat] && link.sender == some {} &&
      link.receiver.isSome && link.pipe == []) (by decide +kernel)
  simp only [Bool.and_eq_true, decide_eq_true_eq, beq_iff_eq] at hp
  obtain ⟨⟨⟨hsent, hsender⟩, hreceiver⟩, hpipe⟩ := hp
  have hfits : ∀ f ∈ link.sent, f.Fits {} := by
    rw [hsent]
    decide
  refine ⟨link, hrun, hsent, (lossless hrun hfits).2.1 (by rw [hsender]; rfl) hreceiver ?_⟩
  constructor
  · exact hpipe
  · intro s hs
    rw [hsender] at hs
    cases hs
    rfl

end Link

end LogEngine.Server
