import LogEngine.Raft.EpochMap
import LogEngine.Raft.Effects

/-!
# Backing off to a common point

A leader that does not know where a follower's log agrees with its own sends an
`AppendEntries`, is refused with a hint, and sends again from the place the hint names.
`Exchange` is this conversation between the two nodes with nothing else going on.

The hint is the end of the follower's log, where the leader ran off it, or the first index
of the epoch they disagree in.  So after a first refusal every other one leaves behind
one of the follower's epochs, and a leader that is back at what the follower has confirmed
is not refused (`Exchange.backs_off`).
-/

namespace LogEngine.Raft

open Verified Verified.Tiling Verified.Replication

/-- What one round of the exchange leaves open: how far the leader's driver finds the
attached entry to reach, and the numbers the two nodes draw. -/
structure Round where
  entryEnd : Nat
  draw : Nat
  leaderDraw : Nat

/-- A leader and one of its followers. -/
structure Exchange where
  leader : Node
  follower : Node

namespace Exchange

variable {x : Exchange} {r : Round}

def peer (x : Exchange) : Nat := x.follower.config.id

/-- The leader's next append as it arrives. -/
def request (x : Exchange) (r : Round) : Message :=
  { x.leader.appendMessage x.peer with entryEnd := r.entryEnd }

/-- The follower once it has handled the append. -/
def answered (x : Exchange) (r : Round) : Node := x.follower.step r.draw (x.request r)

/-- What the follower says to the append. -/
def response (x : Exchange) (r : Round) : Option Message :=
  ((x.answered r).out.drop x.follower.out.length).head?

def accepted (x : Exchange) (r : Round) : Bool := (x.response r).any Message.granted

/-- The two nodes once the leader has handled the answer. -/
def next (x : Exchange) (r : Round) : Exchange where
  leader := (x.response r).elim x.leader (x.leader.step r.leaderDraw)
  follower := x.answered r

/-- The two nodes after some rounds. -/
def after (x : Exchange) (rounds : Nat → Round) : Nat → Exchange
  | 0 => x
  | k + 1 => (x.after rounds k).next (rounds k)

/-- A leader and a follower of its term.  The follower's epochs cover its log, and what it
has confirmed it has in common with the leader. -/
structure Meets (x : Exchange) : Prop where
  leads : x.leader.role = .leader
  follows : x.follower.role ≠ .leader
  term : x.follower.hard.term = x.leader.hard.term
  floor : x.leader.matchEnd x.peer ≤ x.leader.nextIndex x.peer
  ceiling : x.leader.nextIndex x.peer ≤ x.leader.logEnd
  held : x.leader.matchEnd x.peer ≤ x.follower.logEnd
  agree : ∀ i < x.leader.matchEnd x.peer, x.follower.termAt i = x.leader.termAt i
  covered : ∀ i < x.follower.logEnd, epochsUpTo x.follower.epochs i ≠ []

/-! ## One round -/

/-- The follower has the entry before the one that is sent. -/
def Matches (x : Exchange) : Prop :=
  x.leader.nextIndex x.peer = 0 ∨
    x.leader.nextIndex x.peer - 1 < x.follower.logEnd ∧
      x.follower.termAt (x.leader.nextIndex x.peer - 1) =
        x.leader.termAt (x.leader.nextIndex x.peer - 1)

/-- Where the follower's refusal points. -/
def hint (x : Exchange) : Nat :=
  if x.follower.logEnd ≤ x.leader.nextIndex x.peer - 1 then x.follower.logEnd
  else x.follower.epochStartAt (x.leader.nextIndex x.peer - 1)

/-- The follower's refusal. -/
def refusal (x : Exchange) : Message where
  type := .appendEntriesResponse
  sender := x.peer
  target := x.leader.config.id
  term := x.follower.hard.term
  granted := false
  logTerm := x.follower.lastTerm
  logIndex := some x.hint

/-- A node that hears from the leader of its own term keeps its term and its log. -/
theorem becomeFollower_same (n : Node) (draw : Nat) {term : Nat} (h : term = n.hard.term)
    (leader : Nat) :
    ∃ e t, n.becomeFollower draw term leader =
      { n with role := .follower, leader := leader, votes := ∅,
               electionElapsed := e, electionTimeout := t } := by
  unfold Node.becomeFollower
  rw [if_neg (by omega)]
  exact ⟨_, _, rfl⟩

/-- A message of the node's own term that asks for no vote goes to its handler. -/
theorem step_same (n : Node) (draw : Nat) {m : Message} (h : m.term = n.hard.term)
    (ht : m.type ≠ .requestVote) : n.step draw m = n.handle draw m := by
  have hobserve : n.observeTerm draw m = n := by
    unfold Node.observeTerm
    rw [if_neg (by omega)]
  unfold Node.step
  rw [if_neg (by simp [Node.leaseRefuses, ht]), hobserve]
  dsimp only
  rw [if_neg (by omega)]

private theorem answered_eq (h : x.Meets) (r : Round) :
    x.answered r = x.follower.handleAppendEntries r.draw (x.request r) :=
  step_same x.follower r.draw h.term.symm (fun ht => MessageType.noConfusion ht)

private theorem matches_iff (x : Exchange) (r : Round) {n : Node}
    (hend : n.logEnd = x.follower.logEnd)
    (hepochs : n.epochs = x.follower.epochs) :
    n.matches_ (x.request r) = true ↔ x.Matches := by
  have hterm : ∀ i, n.termAt i = x.follower.termAt i := by
    intro i
    unfold Node.termAt
    rw [hend, hepochs]
  unfold Node.matches_ Matches
  by_cases hzero : x.leader.nextIndex x.peer = 0
  · simp [request, Node.appendMessage, hzero]
  · simp [request, Node.appendMessage, hzero, hterm, hend]

/-- The follower that has heard from the leader, before it looks at its log. -/
def heard (x : Exchange) (r : Round) : Node :=
  x.follower.becomeFollower r.draw (x.request r).term (x.request r).sender

/-- The follower answers with one message. -/
theorem response_of_say {n : Node} {m : Message} (h : x.answered r = n.say [m])
    (hout : n.out = x.follower.out) : x.response r = some m := by
  unfold response
  rw [h, Node.say_out, hout, List.drop_left]
  rfl

private theorem accepted_of_matches (h : x.Meets) (hm : x.Matches) (r : Round) :
    x.accepted r = true := by
  obtain ⟨e, t, hheard⟩ := becomeFollower_same x.follower r.draw
    (show (x.request r).term = _ from h.term.symm) (x.request r).sender
  have hmatch : (x.heard r).matches_ (x.request r) = true :=
    (x.matches_iff r (by rw [heard, hheard]) (by rw [heard, hheard])).2 hm
  have hanswer : x.answered r = (((x.heard r).acceptEntry (x.request r)).adoptCommit
      (x.request r)).say [(((x.heard r).acceptEntry (x.request r)).adoptCommit
        (x.request r)).confirmMessage (x.request r)] := by
    rw [answered_eq h, Node.handleAppendEntries, if_neg h.follows]
    dsimp only
    rw [← heard, if_neg (by rw [hmatch]; decide)]
    rfl
  have hout : (((x.heard r).acceptEntry (x.request r)).adoptCommit (x.request r)).out =
      x.follower.out := by
    obtain ⟨c, hc⟩ := ((x.heard r).acceptEntry (x.request r)).adoptCommit_eq (x.request r)
    have hrole : (x.heard r).role ≠ .leader := x.follower.becomeFollower_role _ _ _
    have hsame := (Node.acceptEntry_ballot hrole (x.request r)).2.2.2.1
    rw [hc]
    show ((x.heard r).acceptEntry (x.request r)).out = _
    rw [hsame, heard, hheard]
  unfold accepted
  rw [response_of_say hanswer hout]
  rfl

/-- A follower that does not have the entry before the one that is sent says so, and
keeps its log. -/
theorem answered_of_not (h : x.Meets) (hm : ¬ x.Matches) (r : Round) :
    ∃ e t, x.answered r =
      Node.say { x.follower with
        role := .follower, leader := (x.request r).sender, votes := ∅
        electionElapsed := e, electionTimeout := t } [x.refusal] := by
  obtain ⟨e, t, hheard⟩ := becomeFollower_same x.follower r.draw
    (show (x.request r).term = _ from h.term.symm) (x.request r).sender
  have hmatch : ¬ (x.heard r).matches_ (x.request r) = true := fun hm' =>
    hm ((x.matches_iff r (by rw [heard, hheard]) (by rw [heard, hheard])).1 hm')
  have hnext : x.leader.nextIndex x.peer ≠ 0 := fun hzero => hm (.inl hzero)
  refine ⟨e, t, ?_⟩
  rw [answered_eq h, Node.handleAppendEntries, if_neg h.follows]
  dsimp only
  rw [← heard, if_pos (by simpa using hmatch), heard, hheard]
  simp only [Node.rejectAppend, Node.send, Node.say, refusal, hint, request, Node.appendMessage,
    indexValue, if_neg hnext, Option.getD_some]
  rfl

/-- What a refusal does to the two nodes. -/
structure BackedOff (x y : Exchange) : Prop where
  peer : y.peer = x.peer
  logEnd : y.follower.logEnd = x.follower.logEnd
  epochs : y.follower.epochs = x.follower.epochs
  matchEnd : y.leader.matchEnd x.peer = x.leader.matchEnd x.peer
  nextIndex : y.leader.nextIndex x.peer =
    max (min x.hint x.leader.logEnd) (x.leader.matchEnd x.peer)
  /-- The leader sends again. -/
  out : y.leader.out = x.leader.out ++ [y.leader.appendMessage y.peer]

/-- The leader moves back to where the refusal hints and sends again. -/
theorem step_refusal (h : x.Meets) (draw : Nat) : x.leader.step draw x.refusal =
    (x.leader.setNext x.peer (x.leader.retryFrom x.refusal)).sendAppendEntries x.peer := by
  rw [step_same x.leader draw h.term (fun ht => MessageType.noConfusion ht)]
  show x.leader.handleAppendEntriesResponse x.refusal = _
  unfold Node.handleAppendEntriesResponse
  rw [if_neg (not_not.2 h.leads)]
  rfl

private theorem next_of_not (h : x.Meets) (hm : ¬ x.Matches) (r : Round) :
    x.accepted r = false ∧ (x.next r).Meets ∧ BackedOff x (x.next r) := by
  obtain ⟨e, t, hanswer⟩ := answered_of_not h hm r
  have hresponse := response_of_say hanswer rfl
  have hleader : (x.next r).leader =
      (x.leader.setNext x.peer (x.leader.retryFrom x.refusal)).sendAppendEntries x.peer := by
    unfold next
    rw [hresponse]
    exact step_refusal h r.leaderDraw
  have hpeer : (x.next r).peer = x.peer := by
    show (x.answered r).config.id = _
    rw [hanswer]
    rfl
  have hterms : (x.next r).follower.termAt = x.follower.termAt := by
    show (x.answered r).termAt = _
    rw [hanswer]
    rfl
  have hnext : (x.next r).leader.nextIndex x.peer =
      max (min x.hint x.leader.logEnd) (x.leader.matchEnd x.peer) := by
    rw [hleader, Node.sendAppendEntries_eq, Node.say_nextIndex, Node.setNext_nextIndex, if_pos rfl]
    rfl
  have hmatchEnd : (x.next r).leader.matchEnd x.peer = x.leader.matchEnd x.peer := by
    rw [hleader]
    rfl
  have hends : (x.next r).follower.logEnd = x.follower.logEnd := by
    show (x.answered r).logEnd = _
    rw [hanswer]
    rfl
  have hepochs : (x.next r).follower.epochs = x.follower.epochs := by
    show (x.answered r).epochs = _
    rw [hanswer]
    rfl
  refine ⟨?_, ?_, ⟨hpeer, hends, hepochs, hmatchEnd, hnext, ?_⟩⟩
  · unfold accepted
    rw [hresponse]
    rfl
  · have hlogEnd : (x.next r).leader.logEnd = x.leader.logEnd := by
      rw [hleader]
      rfl
    have hleads : (x.next r).leader.termAt = x.leader.termAt := by
      rw [hleader]
      rfl
    have hfloor := h.floor
    have hceiling := h.ceiling
    exact
      { leads := by rw [hleader]; exact h.leads
        follows := by
          show (x.answered r).role ≠ _
          rw [hanswer]
          exact fun hr => Role.noConfusion hr
        term := by
          rw [hleader]
          show (x.answered r).hard.term = _
          rw [hanswer]
          exact h.term
        floor := by rw [hpeer, hmatchEnd, hnext]; omega
        ceiling := by rw [hpeer, hnext, hlogEnd]; omega
        held := by rw [hpeer, hmatchEnd, hends]; exact h.held
        agree := by rw [hpeer, hmatchEnd, hterms, hleads]; exact h.agree
        covered := by rw [hends, hepochs]; exact h.covered }
  · rw [hpeer, hleader]
    rfl

/-- A leader that is back at what the follower has confirmed is not refused. -/
theorem matches_of_floor (h : x.Meets)
    (hfloor : x.leader.nextIndex x.peer = x.leader.matchEnd x.peer) : x.Matches := by
  by_cases hzero : x.leader.nextIndex x.peer = 0
  · exact .inl hzero
  · have hheld := h.held
    exact .inr ⟨by omega, h.agree _ (by omega)⟩

private theorem accepted_iff (h : x.Meets) (r : Round) : x.accepted r = true ↔ x.Matches := by
  constructor
  · intro ha
    by_contra hm
    rw [(next_of_not h hm r).1] at ha
    cases ha
  · intro hm
    exact accepted_of_matches h hm r

/-! ## The hint -/

/-- The first index of an epoch is the start of one of the epochs, at or before the index
that is asked for. -/
theorem epochStartAt_mem {n : Node} {i : Nat} (h : epochsUpTo n.epochs i ≠ []) :
    ∃ e ∈ n.epochs, e.start ≤ i ∧ n.epochStartAt i = e.start := by
  cases hlast : (epochsUpTo n.epochs i).getLast? with
  | none => exact absurd (List.getLast?_eq_none_iff.1 hlast) h
  | some e =>
      have hmem : e ∈ epochsUpTo n.epochs i := List.mem_of_getLast? hlast
      refine ⟨e, (List.takeWhile_sublist _).subset hmem, ?_, ?_⟩
      · simpa using List.mem_takeWhile_imp hmem
      · unfold Node.epochStartAt
        cases hepochs : n.epochs with
        | nil =>
            rw [hepochs] at h
            exact absurd rfl h
        | cons first rest =>
            rw [hepochs] at hlast
            dsimp only
            rw [hlast]

/-- A refusal moves the leader down, and not below what is confirmed. -/
theorem BackedOff.lt {y : Exchange} (hb : BackedOff x y) (h : x.Meets) (hm : ¬ x.Matches) :
    y.leader.nextIndex x.peer < x.leader.nextIndex x.peer ∧
      x.leader.matchEnd x.peer ≤ y.leader.nextIndex x.peer := by
  have hnext : x.leader.nextIndex x.peer ≠ 0 := fun hzero => hm (.inl hzero)
  have hfloor : x.leader.matchEnd x.peer < x.leader.nextIndex x.peer := by
    rcases Nat.lt_or_ge (x.leader.matchEnd x.peer) (x.leader.nextIndex x.peer) with hlt | hge
    · exact hlt
    · exact absurd (matches_of_floor h (le_antisymm hge h.floor)) hm
  have hhint : x.hint < x.leader.nextIndex x.peer := by
    unfold hint
    split
    · omega
    · obtain ⟨e, -, hle, heq⟩ := epochStartAt_mem
        (h.covered (x.leader.nextIndex x.peer - 1) (by omega))
      omega
  rw [hb.nextIndex]
  omega

/-- How many of the follower's epochs begin before an index. -/
def epochsBelow (x : Exchange) (i : Nat) : Nat :=
  x.follower.epochs.countP fun e => decide (e.start < i)

/-- Once the leader is inside the follower's log, a refusal leaves one of the follower's
epochs behind, or takes the leader back to what is confirmed. -/
theorem BackedOff.epochsBelow_lt {y : Exchange} (hb : BackedOff x y) (h : x.Meets)
    (hm : ¬ x.Matches) (hin : x.leader.nextIndex x.peer ≤ x.follower.logEnd) :
    0 < x.epochsBelow (x.leader.nextIndex x.peer) ∧
      (y.leader.nextIndex x.peer = x.leader.matchEnd x.peer ∨
        y.epochsBelow (y.leader.nextIndex x.peer) <
          x.epochsBelow (x.leader.nextIndex x.peer)) := by
  have hnext : x.leader.nextIndex x.peer ≠ 0 := fun hzero => hm (.inl hzero)
  obtain ⟨e, he, hle, hstart⟩ := epochStartAt_mem
    (h.covered (x.leader.nextIndex x.peer - 1) (by omega))
  have hhint : x.hint = e.start := by
    unfold hint
    rw [if_neg (by omega), hstart]
  have hbelow : e.start < x.leader.nextIndex x.peer := by omega
  constructor
  · exact List.countP_pos_iff.2 ⟨e, he, decide_eq_true hbelow⟩
  rcases Nat.lt_or_ge (x.leader.matchEnd x.peer) e.start with hlt | hge
  · right
    have hceiling := h.ceiling
    have hy : y.leader.nextIndex x.peer = e.start := by
      rw [hb.nextIndex, hhint]
      omega
    -- the epoch itself is counted before the refusal, and not after it
    obtain ⟨p, q, hsplit⟩ := List.append_of_mem he
    have hmono : ∀ l : List Epoch, l.countP (fun a => decide (a.start < e.start)) ≤
        l.countP fun a => decide (a.start < x.leader.nextIndex x.peer) := by
      intro l
      apply List.countP_mono_left
      intro a _ ha
      rw [decide_eq_true_eq] at ha ⊢
      omega
    have hp := hmono p
    have hq := hmono q
    rw [hy, epochsBelow, epochsBelow, hb.epochs, hsplit, List.countP_append, List.countP_append,
      List.countP_cons_of_neg (by simp), List.countP_cons_of_pos (by simpa using hbelow)]
    omega
  · left
    rw [hb.nextIndex, hhint]
    omega

/-! ## The whole exchange -/

/-- The rounds before the `k`-th were all refused. -/
def Refused (x : Exchange) (rounds : Nat → Round) (k : Nat) : Prop :=
  ∀ j < k, (x.after rounds j).accepted (rounds j) = false

/-- The first round and the ones after it. -/
theorem after_succ (x : Exchange) (rounds : Nat → Round) (k : Nat) :
    x.after rounds (k + 1) = (x.next (rounds 0)).after (fun j => rounds (j + 1)) k := by
  induction k with
  | zero => rfl
  | succ k ih =>
      show (x.after rounds (k + 1)).next _ = _
      rw [ih]
      rfl

private theorem refused_succ {rounds : Nat → Round} {k : Nat}
    (hfirst : x.accepted (rounds 0) = false)
    (hrest : (x.next (rounds 0)).Refused (fun j => rounds (j + 1)) k) :
    x.Refused rounds (k + 1) := by
  intro j hj
  cases j with
  | zero => exact hfirst
  | succ j =>
      rw [after_succ]
      exact hrest j (by omega)

/-- Inside the follower's log there are no more refusals than epochs below the leader. -/
theorem accepted_within (h : x.Meets) (hin : x.leader.nextIndex x.peer ≤ x.follower.logEnd)
    (rounds : Nat → Round) :
    ∃ k ≤ x.epochsBelow (x.leader.nextIndex x.peer), x.Refused rounds k ∧
      (x.after rounds k).accepted (rounds k) = true := by
  -- induction on the number of epochs below the leader
  induction hμ : x.epochsBelow (x.leader.nextIndex x.peer) using Nat.strong_induction_on
    generalizing x rounds with
  | _ μ ih =>
      by_cases hm : x.Matches
      · exact ⟨0, Nat.zero_le _, fun j hj => absurd hj (Nat.not_lt_zero j),
          accepted_of_matches h hm _⟩
      obtain ⟨hrefused, hmeets, hb⟩ := next_of_not h hm (rounds 0)
      obtain ⟨hpos, hnext⟩ := hb.epochsBelow_lt h hm hin
      have hlt := (hb.lt h hm).1
      rcases hnext with hfloor | hfewer
      · -- back at what is confirmed
        have hmatch : (x.next (rounds 0)).Matches := by
          apply matches_of_floor hmeets
          rw [hb.peer, hfloor, hb.matchEnd]
        refine ⟨1, by omega, refused_succ hrefused fun j hj => absurd hj (Nat.not_lt_zero j), ?_⟩
        exact accepted_of_matches hmeets hmatch _
      · have hin' : (x.next (rounds 0)).leader.nextIndex (x.next (rounds 0)).peer ≤
            (x.next (rounds 0)).follower.logEnd := by
          rw [hb.peer, hb.logEnd]
          omega
        obtain ⟨k, hk, hrest, haccepted⟩ := ih _ (by rw [← hμ, hb.peer]; exact hfewer) hmeets hin'
          (fun j => rounds (j + 1)) rfl
        rw [hb.peer] at hk
        refine ⟨k + 1, by omega, refused_succ hrefused hrest, ?_⟩
        rw [after_succ]
        exact haccepted

/-- As long as the leader is refused, the nodes are as they have to be. -/
theorem meets_after (h : x.Meets) {rounds : Nat → Round} {k : Nat} (hr : x.Refused rounds k) :
    (x.after rounds k).Meets ∧ (x.after rounds k).peer = x.peer ∧
      (x.after rounds k).leader.matchEnd x.peer = x.leader.matchEnd x.peer := by
  induction k with
  | zero => exact ⟨h, rfl, rfl⟩
  | succ k ih =>
      obtain ⟨hmeets, hpeer, hmatch⟩ := ih fun j hj => hr j (by omega)
      have hm : ¬ (x.after rounds k).Matches := by
        rw [← accepted_iff hmeets (rounds k), hr k (Nat.lt_succ_self k)]
        decide
      obtain ⟨-, hnext, hb⟩ := next_of_not hmeets hm (rounds k)
      refine ⟨hnext, hb.peer.trans hpeer, ?_⟩
      have heq := hb.matchEnd
      rw [hpeer] at heq
      exact heq.trans hmatch

/-- Each refusal takes the leader's `next_index` down, never below what the follower has
confirmed, and there are at most as many as the follower has epochs, and one more, before an
append is accepted. -/
theorem backs_off (h : x.Meets) (rounds : Nat → Round) :
    (∀ k, x.Refused rounds (k + 1) →
      (x.after rounds (k + 1)).leader.nextIndex x.peer <
          (x.after rounds k).leader.nextIndex x.peer ∧
        x.leader.matchEnd x.peer ≤ (x.after rounds (k + 1)).leader.nextIndex x.peer ∧
        (x.after rounds (k + 1)).leader.out = (x.after rounds k).leader.out ++
          [(x.after rounds (k + 1)).leader.appendMessage x.peer]) ∧
    ∃ k ≤ 1 + x.follower.epochs.length, x.Refused rounds k ∧
      (x.after rounds k).accepted (rounds k) = true := by
  constructor
  · intro k hr
    obtain ⟨hmeets, hpeer, hmatch⟩ := meets_after h (k := k) fun j hj => hr j (by omega)
    have hm : ¬ (x.after rounds k).Matches := by
      rw [← accepted_iff hmeets (rounds k), hr k (Nat.lt_succ_self k)]
      decide
    obtain ⟨-, -, hb⟩ := next_of_not hmeets hm (rounds k)
    have hlt := hb.lt hmeets hm
    have hout := hb.out
    rw [hpeer, hmatch] at hlt
    rw [hb.peer, hpeer] at hout
    exact ⟨hlt.1, hlt.2, hout⟩
  · have hcount : ∀ (y : Exchange) (i : Nat), y.epochsBelow i ≤ y.follower.epochs.length :=
      fun y i => List.countP_le_length
    rcases Nat.lt_or_ge x.follower.logEnd (x.leader.nextIndex x.peer) with hout | hin
    · -- the first append may run off the end of the follower's log
      by_cases hm : x.Matches
      · exact ⟨0, Nat.zero_le _, fun j hj => absurd hj (Nat.not_lt_zero j),
          accepted_of_matches h hm _⟩
      obtain ⟨hrefused, hmeets, hb⟩ := next_of_not h hm (rounds 0)
      have hheld := h.held
      have hin' : (x.next (rounds 0)).leader.nextIndex (x.next (rounds 0)).peer ≤
          (x.next (rounds 0)).follower.logEnd := by
        have hhint : x.hint = x.follower.logEnd := if_pos (by omega)
        rw [hb.peer, hb.logEnd, hb.nextIndex, hhint]
        omega
      obtain ⟨k, hk, hrest, haccepted⟩ := accepted_within hmeets hin' fun j => rounds (j + 1)
      have hle := hcount (x.next (rounds 0)) ((x.next (rounds 0)).leader.nextIndex
        (x.next (rounds 0)).peer)
      rw [hb.epochs] at hle
      refine ⟨k + 1, by omega, refused_succ hrefused hrest, ?_⟩
      rw [after_succ]
      exact haccepted
    · obtain ⟨k, hk, hr, haccepted⟩ := accepted_within h hin rounds
      have hle := hcount x (x.leader.nextIndex x.peer)
      exact ⟨k, by omega, hr, haccepted⟩

/-- A leader in term 3 and a follower with a tail of term 2 that lost. -/
def diverged : Exchange where
  leader :=
    { config := { id := 1, peers := [2] }
      hard := ⟨3, 1⟩
      role := .leader
      logEnd := 6
      lastTerm := 3
      epochs := [⟨1, 0⟩, ⟨3, 2⟩]
      match_ := fun p => if p = 2 then some 0 else none
      next_ := fun p => if p = 2 then some 6 else none }
  follower :=
    { config := { id := 2, peers := [1] }
      hard := ⟨3, kNoNode⟩
      logEnd := 5
      lastTerm := 2
      epochs := [⟨1, 0⟩, ⟨2, 2⟩] }

private theorem diverged_meets : diverged.Meets where
  leads := rfl
  follows := by decide
  term := rfl
  floor := by decide
  ceiling := by decide
  held := by decide
  agree := by decide
  covered := by decide

theorem backs_off_diverged :
    ∃ k ≤ 3, diverged.Refused (fun _ => ⟨6, 0, 0⟩) k ∧
      (diverged.after (fun _ => ⟨6, 0, 0⟩) k).accepted ⟨6, 0, 0⟩ = true :=
  (backs_off diverged_meets fun _ => ⟨6, 0, 0⟩).2

-- the leader runs off the follower's log, disagrees about term 2, and is accepted
example : (diverged.after (fun _ => ⟨6, 0, 0⟩) 1).leader.nextIndex 2 = 5 ∧
    (diverged.after (fun _ => ⟨6, 0, 0⟩) 2).leader.nextIndex 2 = 2 ∧
    (diverged.after (fun _ => ⟨6, 0, 0⟩) 2).accepted ⟨6, 0, 0⟩ = true := by decide

/-! ## Nodes that describe logs -/

variable {α : Type*} [Stamped α]

/-- The epochs of a log that begins at offset zero cover it. -/
theorem epochsUpTo_ne_nil {n : Node} {l : List α} (hv : n.Views l) (h : Tiles 0 l) {i : Nat}
    (hi : i < n.logEnd) : epochsUpTo n.epochs i ≠ [] := by
  rw [hv.logEnd] at hi
  obtain ⟨y, hy⟩ := h.exists_cover (Nat.zero_le i) hi
  obtain ⟨e, he, -⟩ := epochsUpTo_last h hy
  rw [hv.epochs]
  intro hnil
  rw [hnil] at he
  cases he

/-- Nodes that describe logs with a common beginning, as long as what the follower has
confirmed at least, meet. -/
theorem meets_of_views {l f p : List α} (hl : x.leader.Views l) (hf : x.follower.Views f)
    (htl : Tiles 0 l) (htf : Tiles 0 f) (hpl : p <+: l) (hpf : p <+: f)
    (hp : x.leader.matchEnd x.peer ≤ endFrom 0 p) (hleads : x.leader.role = .leader)
    (hfollows : x.follower.role ≠ .leader) (hterm : x.follower.hard.term = x.leader.hard.term)
    (hfloor : x.leader.matchEnd x.peer ≤ x.leader.nextIndex x.peer)
    (hceiling : x.leader.nextIndex x.peer ≤ x.leader.logEnd) : x.Meets where
  leads := hleads
  follows := hfollows
  term := hterm
  floor := hfloor
  ceiling := hceiling
  held := by
    have hend := htf.end_mono hpf
    rw [hf.logEnd]
    omega
  agree := by
    intro i hi
    obtain ⟨y, hy⟩ := (htl.of_isPrefix hpl).exists_cover (Nat.zero_le i) (by omega)
    obtain ⟨a, rfl⟩ := hpl
    obtain ⟨b, rfl⟩ := hpf
    rw [hl.termAt_eq htl, hf.termAt_eq htf]
    unfold Verified.Replication.termAt
    rw [cover_append_of_some hy, cover_append_of_some hy]
  covered := fun i hi => epochsUpTo_ne_nil hf htf hi

end Exchange

end LogEngine.Raft
