import LogEngine.Raft.CommitBound
import LogEngine.Server.Agreement
import LogEngine.Storage.Platter

/-!
# What a broker says, and what is on its platter

A broker says two things that others build on: that it holds the log up to an offset (an
`AppendEntriesResponse`), and that the log is committed up to an offset (`on_committed`).
Both have to be true of the platter at the moment they are said: of the log that a restart
after a power cut would find there.

`drive` carries out the orders for the log before it sends, so an acknowledgement is true as
long as the node's view of the log is the log.  It no longer is once an order was refused;
the broker stops then, but goes on to take messages, and acknowledges the lost entry when it
comes a second time (`acknowledges_refused`).

`drive` reports the commit index before it carries out the orders.  A follower that catches
up gets entries that are committed already, and reports such an entry before it is written
(`reports_unwritten`).
-/

namespace LogEngine.Storage

open Io Io.Disk

namespace View.Alike

variable {v w : View}

private theorem logSize_eq (h : v.Alike w) : logSize w.files = logSize v.files := by
  funext b
  unfold logSize
  rw [h.logFile b]

private theorem firm (h : v.Alike w) (hf : v.Firm) : w.Firm where
  orderly := hf.orderly.congr h.log h.logSize_eq
  sturdy := by
    constructor
    · intro b x hx
      exact hf.sturdy.consistent b x ((h.logFile b).symm.trans hx)
    · intro s hs x hx
      rw [h.log] at hs
      exact hf.sturdy.sealed s hs x ((h.logFile s.baseOffset).symm.trans hx)
  durable := by
    obtain ⟨x, fs, hx, hholds, hdurable⟩ := hf.durable
    refine ⟨x, fs, ?_, h.log ▸ hholds, hdurable⟩
    rw [h.log]
    exact (h.logFile _).trans hx

private theorem faint (h : v.Alike w) (hf : Faint v.files) : Faint w.files := by
  intro b y hy
  rw [h.files _ FileName.noConfusion] at hy
  exact hf b y hy

end View.Alike

end LogEngine.Storage

namespace LogEngine.Server

open Base Io Io.Disk Storage Raft Verified.Fallible Verified.Tiling Verified.Machine

namespace Broker

/-! ## What is said during a call -/

/-- The report of `drive`: the commit index has moved, and the disk is as it was before the
orders. -/
structure Reports (b : Broker) (o : Observation) : Prop where
  moved : b.lastCommitSeen < b.raft.commitIndex
  event : o.event = .committed b.lastCommitSeen b.raft.commitIndex
  disk : o.disk = b.disk

/-- A message of `drive`: the orders have been carried out. -/
structure Says (b : Broker) (s : Store) (o : Observation) : Prop where
  disk : ∀ g ≠ .state, o.disk.file g = s.disk.file g
  logEnd : o.raft.logEnd = b.raft.logEnd
  epochs : o.raft.epochs = b.raft.epochs
  message : ∃ m ∈ b.raft.out, ∃ stop entry, o.event = .sent { m with entryEnd := stop } entry

theorem Sent.says_of {b b₁ : Broker} {s : Store} {o : Observation} (h : Sent b.raft.out b₁ o)
    (hdisk : ∀ g ≠ .state, b₁.disk.file g = s.disk.file g)
    (hend : b₁.raft.logEnd = b.raft.logEnd) (hepochs : b₁.raft.epochs = b.raft.epochs) :
    Says b s o := by
  obtain ⟨hraft, hfiles, m, hm, stop, entry, hevent, -⟩ := h
  refine ⟨fun g hg => (congrFun hfiles g).trans (hdisk g hg), ?_, ?_, m, hm, stop, entry, hevent⟩
  · rw [hraft, hend]
  · rw [hraft, hepochs]

section Driving

variable [Faults] {b b' : Broker} {entry : Bytes} {o : Observation}

omit [Faults] in
private theorem mem_drained (h : o ∈ b.drained.observed) : o ∈ b.observed ∨ Reports b o := by
  rcases mem_noted_observed h with hold | ⟨hlt, rfl⟩
  · exact .inl hold
  · exact .inr ⟨hlt, rfl, rfl⟩

/-- What is observed of `drive`. -/
theorem Drives.observes (h : Drives entry b b') (ho : o ∈ b'.observed) :
    (o ∈ b.observed ∨ Reports b o) ∨
      ∃ s, carryOutLogOrders b.raft.takeReady.1 entry b.store = .ok () s ∧ Says b s o := by
  have hend : b.drained.raft.logEnd = b.raft.logEnd := by
    rw [drained_raft]
    rfl
  have hepochs : b.drained.raft.epochs = b.raft.epochs := by
    rw [drained_raft]
    rfl
  cases h with
  | idle => exact .inl (mem_drained ho)
  | refused => exact .inl (mem_drained ho)
  | @unpersisted _ s _ hs _ h =>
      have hp := persist_frame b.raft.hard { b.drained with store := s }
      rw [h] at hp
      obtain ⟨t, rfl, -⟩ := hp
      exact .inl (mem_drained ho)
  | @persisted s _ _ hs _ h hsends =>
      have hp := persist_frame b.raft.hard { b.drained with store := s }
      rw [h] at hp
      obtain ⟨t, rfl, ht⟩ := hp
      obtain ⟨new, hnew, hsent⟩ := hsends.observed
      rw [hnew] at ho
      rcases List.mem_append.1 ho with hold | hmem
      · exact .inl (mem_drained hold)
      · exact .inr ⟨s, hs, (hsent o hmem).says_of ht hend hepochs⟩
  | @sent s _ hs _ hsends =>
      obtain ⟨new, hnew, hsent⟩ := hsends.observed
      rw [hnew] at ho
      rcases List.mem_append.1 ho with hold | hmem
      · exact .inl (mem_drained hold)
      · exact .inr ⟨s, hs, (hsent o hmem).says_of (fun _ _ => rfl) hend hepochs⟩

omit [Faults] in
private theorem le_noted (b : Broker) (c : Nat) : c ≤ (b.noted c).lastCommitSeen := by
  unfold noted
  split
  · assumption
  · exact le_rfl

/-- `drive` has reported as far as the node has committed. -/
theorem Drives.seen (h : Drives entry b b') : b'.raft.commitIndex ≤ b'.lastCommitSeen := by
  have hcommit : b'.raft.commitIndex = b.raft.commitIndex := by
    rcases h.raft with heq | heq <;> rw [heq] <;> rfl
  have hseen : b'.lastCommitSeen = b.drained.lastCommitSeen := by
    cases h with
    | idle => rfl
    | refused => rfl
    | @unpersisted _ s _ hs _ h =>
        have hp := persist_frame b.raft.hard { b.drained with store := s }
        rw [h] at hp
        obtain ⟨t, rfl, -⟩ := hp
        rfl
    | @persisted s _ _ hs _ h hsends =>
        have hp := persist_frame b.raft.hard { b.drained with store := s }
        rw [h] at hp
        obtain ⟨t, rfl, -⟩ := hp
        exact hsends.lastCommitSeen
    | sent _ _ hsends => exact hsends.lastCommitSeen
  rw [hcommit, hseen]
  exact le_noted _ _

end Driving

/-! ## Calls -/

/-- The log of a broker is on its platter, and nothing of its sidecars is. -/
structure Stored (s : Store) : Prop where
  firm : s.view.Firm
  faint : Faint s.disk.file

/-- A running broker's log is on its platter and is what the node tells, and what the node
has committed has been reported. -/
structure Secured (config : BrokerConfig) (b : Broker) : Prop extends Agreed config b where
  stored : b.running = true → Stored b.store
  modest : b.raft.Modest
  seen : b.raft.commitIndex ≤ b.lastCommitSeen

/-- What has to hold of a call: it is faithful, no message comes to a broker that has
stopped, and no failed append has left bytes or a file behind. -/
structure Careful (b : Broker) (a : Act) : Prop extends Faithful b a where
  running : ∀ draw m entry, a.call = .receive draw m entry → b.running = true
  ready : b.running = true → (∀ draw, a.call ≠ .tick draw) → b.store.view.Ready

section Calls

variable [Faults] {config : BrokerConfig} {b b' : Broker} {s t : Store} {entry : Bytes}

omit [Faults] in
theorem Stored.alike (h : Stored s) (ha : s.view.Alike t.view) : Stored t :=
  ⟨ha.firm h.firm, ha.faint h.faint⟩

/-- The orders of a message leave the log on the platter, with nothing behind it. -/
theorem Stored.orders (h : Stored s) (hk : Kept config s) (hready : s.view.Ready)
    (hremove : ¬ Refuses .remove) {ready : Ready}
    (hs : carryOutLogOrders ready entry s = .ok () t) : Stored t ∧ t.view.Whole := by
  have hfaint : Faint t.disk.file :=
    (carryOutLogOrders_keeps framed_fades ready entry).ok hs h.faint
  have hcarried := carryOutLogOrders_carried hs
  unfold Broker.orders at hcarried
  have hgrow : ∀ {u : Store}, u.view.Firm → Kept config u → u.view.Ready →
      Carried u (if ready.appendEntry then [.appendReplicated entry, .fsync] else []) t →
      t.view.Firm ∧ t.view.Whole := by
    intro u hfirm hkept hready hcalls
    split at hcalls
    · exact Carried.firm_replicated hfirm hkept.intact hready hcalls
    · cases hcalls
      exact ⟨hfirm, hready.whole⟩
  have hfirm : t.view.Firm ∧ t.view.Whole := by
    cases htruncate : ready.truncateFrom with
    | none =>
        rw [htruncate] at hcarried
        exact hgrow h.firm hk hready hcarried
    | some k =>
        rw [htruncate] at hcarried
        cases hcarried with
        | cons hfirst hrest =>
            have hdone := Carried.done hk.intact (fun _ _ => hremove) hfirst
            obtain ⟨hfirm, hready'⟩ := h.firm.truncated hk.intact hready hremove hdone
            have hkept := hk.carried hremove (.cons hfirst (.nil _))
            exact hgrow hfirm hkept hready' hrest
  exact ⟨⟨hfirm.1, hfaint⟩, hfirm.2⟩

/-- An append and its `fsync`. -/
theorem Stored.proposed (h : Stored s) (hk : Kept config s) (hready : s.view.Ready)
    {builder : BatchBuilder} {info : BatchMeta} {k : Nat} {u : Store}
    (ha : Log.append builder info s = .ok k t) (hf : Log.fsync t = .ok () u) :
    Stored u ∧ u.view.Whole := by
  have hfaint : Faint t.disk.file := (Log.OnStore.append framed_fades builder info).ok ha h.faint
  have hflushed : Faint u.disk.file := (Log.OnStore.fsync framed_fades).ok hf hfaint
  obtain ⟨hfirm, hwhole⟩ :=
    Carried.firm_proposed h.firm hk.intact hready (proposed_carried ha hf)
  exact ⟨⟨hfirm, hflushed⟩, hwhole⟩

theorem Drives.modest (h : Drives entry b b') (hm : b.raft.Modest) : b'.raft.Modest := by
  rcases h.raft with heq | heq <;> rw [heq] <;> exact hm.congr rfl rfl rfl

/-- The batch that was proposed begins where the node's view of the log ends. -/
theorem Proposes.grows {builder : BatchBuilder} {k : Nat} {s s' : Store}
    (h : Proposes b builder k s s' b') (hb : b.Agreed config) :
    k = b.raft.logEnd ∧ b.raft.logEnd < s'.log.nextOffset := by
  have hkept := hb.kept h.running
  have hcut := hb.drained.pendingTruncate
  have happend := hb.drained.pendingAppend
  obtain ⟨hk, hne, hg⟩ := h.gains hcut happend hkept.intact hkept.chained
  have hend := (hb.told h.running).logEnd hkept
  have hnext : s'.log.nextOffset = b'.log.nextOffset :=
    (congrArg Log.nextOffset (h.alike hcut happend).1.log).symm
  have hstop : b'.log.nextOffset = Extent.stop (builder.frame hne k (metaFor b.raft.hard.term)) :=
    hg.next
  have hbase : Extent.base (builder.frame hne k (metaFor b.raft.hard.term)) = b.log.nextOffset :=
    hg.base
  have hlt := Verified.Framing.Proper.base_lt (builder.frame hne k (metaFor b.raft.hard.term))
  have hlog : b.store.log.nextOffset = b.log.nextOffset := rfl
  constructor <;> omega

/-- A careful call leaves the log on the platter. -/
theorem Returns.secured {c : Call} (h : Returns b c b') (hb : b.Secured config)
    (hremove : ¬ Refuses .remove) (hflush : ∀ builder, c = .propose builder → ¬ Refuses .fsync)
    (hterm : ∀ builder, c = .propose builder → b.raft.hard.term < 0x100000000)
    (hentry : ∀ draw m entry, c = .receive draw m entry → Describes m entry)
    (hready : b.running = true → (∀ draw, c ≠ .tick draw) → b.store.view.Ready) :
    b'.Secured config := by
  have hagreed := h.agreed hb.toAgreed hremove hflush hterm hentry
  refine ⟨hagreed, fun hr => ?_, ?_, ?_⟩
  · cases h with
    | declined => exact hb.stored hr
    | @tick draw _ hrun h =>
        have hsame := Node.keeps_tick b.raft draw
        have halike := (h.alike (hsame.pendingTruncate.trans hb.drained.pendingTruncate)
          (hsame.pendingAppend.trans hb.drained.pendingAppend)).1
        exact (hb.stored hrun).alike halike
    | @receive draw m entry _ _ h =>
        rcases h.store with ⟨s, hs, halike, hrun⟩ | ⟨-, hstopped⟩
        · have hold : b.running = true := hrun.symm.trans hr
          have horders := (hb.stored hold).orders (hb.kept hold)
            (hready hold fun _ hc => Call.noConfusion hc) hremove hs
          exact horders.1.alike halike
        · rw [hstopped] at hr
          cases hr
    | @unwritten builder e s hrun _ h =>
        have hkept := hb.kept hrun
        obtain ⟨x, hx, -⟩ := hkept.intact.active_holds
        have hspec := Log.append_sat hkept.intact.width hx builder (metaFor b.raft.hard.term)
        rw [h] at hspec
        have hstored := hb.stored hrun
        have hready' := hready hrun fun _ hc => Call.noConfusion hc
        exact ⟨hstored.firm.spoilt hkept.intact hready' hspec,
          (Log.OnStore.append framed_fades _ _).error h hstored.faint⟩
    | @unflushed builder e k s s' hrun _ h hf =>
        exact absurd ((hb.kept hrun).refuses_fsync hremove h hf) (hflush builder rfl)
    | @proposed builder k s s' _ hrun hl h hf hd =>
        have hp : Proposes b builder k s s' b' := ⟨hrun, hl, h, hf, hd⟩
        have hstored := (hb.stored hrun).proposed (hb.kept hrun)
          (hready hrun fun _ hc => Call.noConfusion hc) h hf
        exact hstored.1.alike (hp.alike hb.drained.pendingTruncate hb.drained.pendingAppend).1
  · cases h with
    | declined => exact hb.modest
    | tick _ h => exact h.modest (Node.modest_tick hb.modest _)
    | receive _ h => exact h.modest (Node.step_bound hb.modest _ _).1
    | unwritten => exact hb.modest
    | unflushed => exact hb.modest
    | @proposed builder k s s' _ hrun hl h hf hd =>
        obtain ⟨hk, hlt⟩ := Proposes.grows ⟨hrun, hl, h, hf, hd⟩ hb.toAgreed
        refine hd.modest ?_
        dsimp only
        rw [hk]
        exact (Node.logAppended_bound hb.modest hl hlt _).1
  · cases h with
    | declined => exact hb.seen
    | tick _ h => exact h.seen
    | receive _ h => exact h.seen
    | unwritten => exact hb.seen
    | unflushed => exact hb.seen
    | proposed _ _ _ _ h => exact h.seen

end Calls

/-! ## Acknowledgements -/

/-- The log that would be opened on the platter of a disk reaches an offset. -/
def Reaches (config : BrokerConfig) (d : Disk) (stop : Nat) : Prop :=
  ∃ l t, @Log.open healthy config.logOptions d.platter = .ok l t ∧ stop ≤ l.nextOffset

/-- The log that would be opened on the platter reaches an offset, and its batches below it
are of the terms that the node tells. -/
def Holds (config : BrokerConfig) (d : Disk) (n : Node) (stop : Nat) : Prop :=
  ∃ l t, @Log.open healthy config.logOptions d.platter = .ok l t ∧ stop ≤ l.nextOffset ∧
    ∀ i < stop, ∃ f ∈ (View.mk l t.file).frames, Extent.base f ≤ i ∧ i < Extent.stop f ∧
      f.header.leaderEpoch = n.termAt i

instance {config : BrokerConfig} {d : Disk} {stop : Nat} : Decidable (Reaches config d stop) :=
  decidable_of_iff (Sat (@Log.open healthy config.logOptions d.platter)
      (fun l _ => stop ≤ l.nextOffset) fun _ => False) <| by
    constructor
    · intro h
      exact h.exists_ok fun _ hf => hf
    · rintro ⟨l, t, hopen, hstop⟩
      rw [hopen]
      exact hstop

theorem Holds.reaches {config : BrokerConfig} {d : Disk} {n : Node} {stop : Nat}
    (h : Holds config d n stop) : Reaches config d stop := by
  obtain ⟨l, t, hopen, hstop, -⟩ := h
  exact ⟨l, t, hopen, hstop⟩

/-- The log of a store is found again on its platter. -/
theorem Stored.opened {config : BrokerConfig} {s : Store} (h : Stored s) (hk : Kept config s)
    (hw : s.view.Whole) {d : Disk} (hd : ∀ g ≠ .state, d.file g = s.disk.file g) :
    ∃ l t, @Log.open healthy config.logOptions d.platter = .ok l t ∧
      (View.mk l t.file).frames = s.view.frames ∧ l.nextOffset = s.log.nextOffset := by
  have hopened := h.firm.recovers hk.intact hk.chained hw h.faint hd
  rw [show s.view.log.options = config.logOptions from hk.options] at hopened
  exact hopened

section Said

variable [Faults] {config : BrokerConfig} {b b' : Broker} {entry : Bytes} {o : Observation}
  {m : Message} {stop : Nat}

/-- No message has been sent. -/
def Silent (b : Broker) : Prop := ∀ o ∈ b.observed, ∀ m e, o.event ≠ .sent m e

omit [Faults] in
private theorem silent_acked (h : b.observed = []) : b.acked.Silent := by
  intro o ho m e hevent
  rcases mem_acked ho with hold | ⟨start, stop, hreport⟩
  · rw [h] at hold
    cases hold
  · rw [hevent] at hreport
    cases hreport

/-- A message that `drive` has sent was in the node's outbox. -/
theorem Drives.sends (h : Drives entry b b') (hsilent : b.Silent) (ho : o ∈ b'.observed)
    {e : Bytes} (hsent : o.event = .sent m e) :
    ∃ s, carryOutLogOrders b.raft.takeReady.1 entry b.store = .ok () s ∧ Says b s o ∧
      ∃ x ∈ b.raft.out, ∃ stop, m = { x with entryEnd := stop } := by
  rcases h.observes ho with (hold | hreport) | ⟨s, hs, hsays⟩
  · exact absurd hsent (hsilent o hold m e)
  · rw [hreport.event] at hsent
    cases hsent
  · obtain ⟨x, hx, stop, e', hevent⟩ := hsays.message
    rw [hsent] at hevent
    cases hevent
    exact ⟨s, hs, hsays, x, hx, stop, rfl⟩

/-- Only a message makes a broker acknowledge something. -/
theorem Drives.not_confirms (h : Drives entry b b') (hsilent : b.Silent)
    (hquiet : b.raft.Unconfirming) (ho : o ∈ b'.observed) {e : Bytes}
    (hsent : o.event = .sent m e) : ¬ m.Confirms := by
  obtain ⟨s, -, -, x, hx, k, rfl⟩ := h.sends hsilent ho hsent
  exact hquiet x hx

/-- What a call acknowledges is on the platter. -/
theorem Returns.acknowledges {c : Call} (h : Returns b c b') (hb : b.Secured config)
    (hempty : b.observed = []) (hremove : ¬ Refuses .remove)
    (hready : b.running = true → (∀ draw, c ≠ .tick draw) → b.store.view.Ready)
    (hreceive : ∀ draw m entry, c = .receive draw m entry → b.running = true ∧
      Describes m entry ∧ (m.entryIndex.isSome → Node.appendAt m < b.raft.logEnd →
        (b.raft.termAt (Node.appendAt m) = kNoTerm ∨
          b.raft.termAt (Node.appendAt m) = m.entryTerm) → Node.confirmedEnd m ≤ b.raft.logEnd))
    (ho : o ∈ b'.observed) {e : Bytes} (hsent : o.event = .sent m e) (hm : m.Confirms)
    (hstop : m.logIndex = some stop) : Holds config o.disk o.raft stop := by
  have hout := hb.drained.out
  have hsilent : ∀ o ∈ b.observed, ∀ m e, o.event ≠ .sent m e := by
    intro o ho
    rw [hempty] at ho
    cases ho
  cases h with
  | declined => exact absurd hsent (hsilent o ho m e)
  | unwritten => exact absurd hsent (hsilent o ho m e)
  | unflushed => exact absurd hsent (hsilent o ho m e)
  | @tick draw _ _ h =>
      have hquiet := (Node.keeps_tick b.raft draw).unconfirming hout
      exact absurd hm (h.not_confirms hsilent hquiet ho hsent)
  | @proposed builder k s s' _ hrun hl ha hf h =>
      have hquiet := Node.unconfirming_logAppended hout hl k s'.log.nextOffset b.raft.hard.term
      have hacked : ({ b with store := s' } : Broker).acked.Silent := silent_acked hempty
      exact absurd hm (h.not_confirms hacked hquiet ho hsent)
  | @receive draw m₀ entry _ _ h =>
      obtain ⟨hrun, hdescribes, hwithin⟩ := hreceive draw m₀ entry rfl
      obtain ⟨s, hs, hsays, x, hx, k, rfl⟩ := h.sends hsilent ho hsent
      have hkept := hb.kept hrun
      obtain ⟨hstored, hwhole⟩ := (hb.stored hrun).orders hkept
        (hready hrun fun _ hc => Call.noConfusion hc) hremove hs
      have hkept' := hkept.carried hremove (carryOutLogOrders_carried hs)
      have htold := (hb.told hrun).step hkept hb.drained hremove hdescribes hs
      have hle := Node.confirmed_le hout hx hm hstop hwithin
      obtain ⟨l, t, hopen, hframes, hnext⟩ := hstored.opened hkept' hwhole hsays.disk
      have hterm : ∀ i, o.raft.termAt i = (b.raft.step draw m₀).termAt i := by
        intro i
        simp only [Node.termAt, hsays.logEnd, hsays.epochs]
      refine ⟨l, t, hopen, ?_, fun i hi => ?_⟩
      · rw [hnext, ← htold.logEnd hkept']
        exact hle
      · obtain ⟨f, hf, hlo, hhi⟩ := htold.covered hkept' (hi.trans_le hle)
        refine ⟨f, hframes ▸ hf, hlo, hhi, ?_⟩
        rw [hterm, htold.termAt hkept' hf hlo hhi]

/-! ## Reports -/

/-- What `drive` reports is what the node has committed. -/
theorem Drives.reports (h : Drives entry b b') (hempty : b.observed = []) (ho : o ∈ b'.observed)
    {start : Nat} (hevent : o.event = .committed start stop) :
    b.lastCommitSeen < stop ∧ stop = b.raft.commitIndex ∧ o.disk = b.disk := by
  rcases h.observes ho with (hold | hreport) | ⟨s, hs, hsays⟩
  · rw [hempty] at hold
    cases hold
  · have heq := hreport.event
    rw [hevent] at heq
    cases heq
    exact ⟨hreport.moved, rfl, hreport.disk⟩
  · obtain ⟨x, hx, k, e, hsent⟩ := hsays.message
    rw [hevent] at hsent
    cases hsent

/-- What a call reports as committed is on the platter. -/
theorem Returns.reports {c : Call} (h : Returns b c b') (hb : b.Secured config)
    (hempty : b.observed = []) (hremove : ¬ Refuses .remove)
    (hready : b.running = true → (∀ draw, c ≠ .tick draw) → b.store.view.Ready)
    (hack : config.ackOnLocalAppend = false)
    (hreceive : ∀ draw m entry, c = .receive draw m entry → b.running = true ∧
      (m.entryIndex.isSome → m.commitIndex ≤ b.raft.logEnd))
    (ho : o ∈ b'.observed) {start : Nat} (hevent : o.event = .committed start stop) :
    Reaches config o.disk stop := by
  have hseen := hb.seen
  have hnone : o ∉ b.observed := hempty ▸ List.not_mem_nil
  cases h with
  | declined => exact absurd ho hnone
  | unwritten => exact absurd ho hnone
  | unflushed => exact absurd ho hnone
  | @tick draw _ _ h =>
      obtain ⟨hmoved, hstop, -⟩ := h.reports hempty ho hevent
      have hsame := (Node.keeps_tick b.raft draw).commitIndex
      dsimp only at hmoved hstop
      omega
  | @receive draw m entry _ _ h =>
      obtain ⟨hrun, hcommit⟩ := hreceive draw m entry rfl
      obtain ⟨hmoved, hstop, hdisk⟩ := h.reports hempty ho hevent
      have hkept := hb.kept hrun
      have hbound := (Node.step_bound hb.modest draw m).2
      have hlimit : b.raft.commitLimit m = b.raft.logEnd := by
        unfold Node.commitLimit
        split
        case isTrue hsome => exact max_eq_left (hcommit hsome)
        case isFalse => rfl
      rw [hlimit] at hbound
      have hwhole : b.store.view.Whole := (hready hrun fun _ hc => Call.noConfusion hc).whole
      obtain ⟨l, t, hopen, -, hnext⟩ := (hb.stored hrun).opened hkept hwhole (d := o.disk)
        fun g _ => by rw [hdisk]; rfl
      refine ⟨l, t, hopen, ?_⟩
      have hend := (hb.told hrun).logEnd hkept
      dsimp only at hmoved hstop
      omega
  | @proposed builder k s s' _ hrun hl ha hf h =>
      have hconfig : b.config.ackOnLocalAppend = false := by rw [hb.configured, hack]
      have hacked : ({ b with store := s' } : Broker).acked = { b with store := s' } :=
        if_neg (by rw [hconfig]; decide)
      have hgrows := Proposes.grows ⟨hrun, hl, ha, hf, h⟩ hb.toAgreed
      rw [hacked] at h
      obtain ⟨hmoved, hstop, hdisk⟩ := h.reports hempty ho hevent
      have hkept := hb.kept hrun
      obtain ⟨hstored, hwhole⟩ := (hb.stored hrun).proposed hkept
        (hready hrun fun _ hc => Call.noConfusion hc) ha hf
      have hkept' := hkept.carried hremove (proposed_carried ha hf)
      have hbound := (Node.logAppended_bound hb.modest hl hgrows.2 b.raft.hard.term).2
      rw [← hgrows.1] at hbound
      obtain ⟨l, t, hopen, -, hnext⟩ := hstored.opened hkept' hwhole (d := o.disk)
        fun g _ => by rw [hdisk]; rfl
      refine ⟨l, t, hopen, ?_⟩
      dsimp only at hmoved hstop
      omega

end Said

/-! ## Runs -/

/-- A disk to come up on: no write of a log file is pending, nothing of a sidecar is on the
platter, and the log begins at offset zero. -/
structure Rested (d : Disk) : Prop where
  zero : FromZero d
  settled : ∀ b x, d.file (.log b) = some x → x.Consistent ∧ x.pending = []
  capped : ∀ b, ∀ n ∈ logSize d.file b, n ≤ kMaxFileBytes
  faint : Faint d.file

private theorem rested_empty : Rested {} where
  zero b hb := by cases hb
  settled b x hx := by cases hx
  capped b n hn := by cases hn
  faint b y hy := by cases hy

section Runs

variable {config : BrokerConfig} {faults : Faults} {d : Disk} {b₀ b b' : Broker} {a : Act}
  {o : Observation}

theorem Begins.secured (h : Begins config faults d b) (hd : Rested d) : b.Secured config := by
  obtain ⟨v, hv, halike⟩ := h.reopened
  obtain ⟨draw, t, hstart⟩ := h.start
  obtain ⟨l, u, hard, epochs, w, -, -, -, -, hseen, -, hraft⟩ := start_view hstart
  refine ⟨h.agreed hd.zero, fun _ => ?_, ?_, ?_⟩
  · have hi := hv.intact h.width h.remove
    refine ⟨halike.firm (hv.firm hi h.remove hd.capped hd.settled),
      halike.faint fun base y hy => ?_⟩
    rcases hv.sidecars base with hnone | hsame
    · rw [hnone] at hy
      cases hy
    · rw [hsame] at hy
      exact hd.faint base y hy
  · rw [hraft]
    exact Node.modest_of_follower fun hc => Role.noConfusion hc
  · rw [hraft, hseen]
    exact le_rfl

theorem Secured.fresh (h : b.Secured config) : Secured config { b with observed := [] } :=
  ⟨⟨⟨h.configured, h.drained, h.kept⟩, h.told⟩, h.stored, h.modest, h.seen⟩

private theorem secured_next (hb : b.Secured config) (ha : Careful b a) (hn : b.next a = some b') :
    b'.Secured config := by
  obtain rfl := Option.some.inj hn
  exact @Returns.secured a.faults config _ _ _ (after_returns b a.faults a.call) hb.fresh
    ha.remove ha.flush ha.term ha.entry ha.ready

private theorem secured_runs {ok : Broker → Act → Broker → Prop}
    (hok : ∀ b a b', ok b a b' → Careful b a)
    (hbegins : Begins config faults d b₀) (hd : Rested d) (hruns : Runs next ok b₀ b) :
    b.Secured config :=
  hruns.invariant (hbegins.secured hd) fun b a b' hb hn ha => secured_next hb (hok b a b' ha) hn

theorem Begins.observed (h : Begins config faults d b) : b.observed = [] := by
  obtain ⟨draw, t, hstart⟩ := h.start
  have hspec := @start_sat faults config draw d
  rw [hstart] at hspec
  exact hspec.observed

/-- What is observed after such a run is of its last call. -/
private theorem exists_last {ok : Broker → Act → Broker → Prop}
    (hok : ∀ b a b', ok b a b' → Careful b a) (hbegins : Begins config faults d b₀)
    (hd : Rested d) (hruns : Runs next ok b₀ b) (ho : o ∈ b.observed) :
    ∃ b' a, ok b' a b ∧ b = b'.after a.faults a.call ∧
      Secured config { b' with observed := [] } := by
  cases hruns with
  | refl =>
      rw [hbegins.observed] at ho
      cases ho
  | @tail b' _ hfirst hlast =>
      obtain ⟨a, hn, ha⟩ := hlast
      exact ⟨b', a, ha, (Option.some.inj hn).symm, (secured_runs hok hbegins hd hfirst).fresh⟩

/-- An entry that the node takes for one it has lies within its log.  Between peers whose
logs match this is so: an entry of the same place and the same term is the same entry. -/
def Corresponds (b : Broker) (a : Act) : Prop :=
  ∀ draw m entry, a.call = .receive draw m entry → m.entryIndex.isSome →
    Node.appendAt m < b.raft.logEnd →
    (b.raft.termAt (Node.appendAt m) = kNoTerm ∨
      b.raft.termAt (Node.appendAt m) = m.entryTerm) → Node.confirmedEnd m ≤ b.raft.logEnd

/-- In every run of careful calls in which entries correspond, what a broker acknowledges is
on its platter. -/
theorem acknowledged_held (hbegins : Begins config faults d b₀) (hd : Rested d)
    (hruns : Runs next (fun b a _ => Careful b a ∧ Corresponds b a) b₀ b) (ho : o ∈ b.observed)
    {m : Message} {entry : Bytes} {stop : Nat} (hsent : o.event = .sent m entry)
    (hm : m.Confirms) (hstop : m.logIndex = some stop) : Holds config o.disk o.raft stop := by
  obtain ⟨b', a, ⟨ha, hc⟩, rfl, hb⟩ := exists_last (fun _ _ _ h => h.1) hbegins hd hruns ho
  exact @Returns.acknowledges a.faults _ _ _ _ _ _ _ (after_returns b' a.faults a.call) hb
    rfl ha.remove ha.ready (fun draw m entry h =>
      ⟨ha.running draw m entry h, ha.entry draw m entry h, hc draw m entry h⟩)
    ho _ hsent hm hstop

/-- A message that brings an entry says of nothing beyond the broker's log that it is
committed. -/
def Trails (b : Broker) (a : Act) : Prop :=
  ∀ draw m entry, a.call = .receive draw m entry → m.entryIndex.isSome →
    m.commitIndex ≤ b.raft.logEnd

/-- In every run of careful calls without such messages, what a broker reports as committed
is on its platter. -/
theorem reported_held (hbegins : Begins config faults d b₀) (hd : Rested d)
    (hack : config.ackOnLocalAppend = false)
    (hruns : Runs next (fun b a _ => Careful b a ∧ Trails b a) b₀ b) (ho : o ∈ b.observed)
    {start stop : Nat} (hevent : o.event = .committed start stop) : Reaches config o.disk stop := by
  obtain ⟨b', a, ⟨ha, hc⟩, rfl, hb⟩ := exists_last (fun _ _ _ h => h.1) hbegins hd hruns ho
  exact @Returns.reports a.faults _ _ _ _ _ _ (after_returns b' a.faults a.call) hb rfl
    ha.remove ha.ready hack
    (fun draw m entry h => ⟨ha.running draw m entry h, hc draw m entry h⟩) ho _ hevent

end Runs

/-! ## Messages on a healthy disk -/

/-- The files of a disk are those of the segments of a log and the hard state's. -/
def Tidy (s : Store) : Prop :=
  logSize s.disk.file s.log.active.baseOffset = some s.log.active.sizeBytes ∧
    ∀ f ∈ s.disk.files.keys, f = .state ∨ ∃ x ∈ s.log.segments, f = x.logFile ∨ f = x.indexFile

instance {s : Store} : Decidable (Tidy s) := inferInstanceAs (Decidable (_ ∧ _))

theorem Tidy.ready {s : Store} (h : Tidy s) : s.view.Ready where
  whole := h.1
  clear b hb := by
    obtain ⟨hfree, hsome⟩ := hb
    have hkey : FileName.log b ∈ s.disk.files.keys := by
      apply AList.mem_keys.1
      apply AList.lookup_isSome.1
      apply Option.isSome_iff_ne_none.2
      intro hnone
      exact hsome (congrArg (Option.map fun x : File => x.visible.length) hnone)
    rcases h.2 _ hkey with hstate | ⟨x, hx, hlog | hindex⟩
    · cases hstate
    · exact absurd (FileName.log.inj hlog).symm (hfree x hx)
    · cases hindex

/-- A message to a running broker on a healthy disk is a careful call. -/
theorem careful_receive {b : Broker} {draw : Nat} {m : Message} {entry : Bytes}
    (hrun : b.running = true) (htidy : Tidy b.store) (hm : Describes m entry) :
    Careful b ⟨.receive draw m entry, healthy⟩ := by
  refine ⟨⟨not_refuses_healthy _, fun _ hc => Call.noConfusion hc,
    fun _ hc => Call.noConfusion hc, ?_⟩, fun _ _ _ _ => hrun, fun _ _ => htidy.ready⟩
  rintro _ _ _ ⟨rfl, rfl, rfl⟩
  exact hm

/-- The record that the leader of term 1 sends first. -/
def firstEntry : Bytes := (lone 3 (by decide)).finish 0 (metaFor 1)

/-- The message it comes in. -/
def firstAppend (commitIndex : Nat) : Message where
  type := .appendEntries
  sender := 1
  target := 0
  term := 1
  logIndex := none
  commitIndex := commitIndex
  entryIndex := some 0
  entryEnd := 1
  entryTerm := 1

private theorem firstAppend_describes (commitIndex : Nat) :
    Describes (firstAppend commitIndex) firstEntry := by
  intro i hi h hdecode
  obtain rfl := Option.some.inj hi
  have hheader := (lone 3 (by decide)).decodeHeader_finish 0 (metaFor 1)
  rw [show decodeHeader firstEntry = _ from hheader] at hdecode
  cases hdecode
  exact ⟨rfl, rfl, rfl⟩

/-- What was seen is an acknowledgement up to an offset. -/
def acknowledges (stop : Nat) (o : Observation) : Bool :=
  match o.event with
  | .sent m _ => m.type == .appendEntriesResponse && m.granted && m.logIndex == some stop
  | .committed _ _ => false

private theorem exists_of_acknowledges {stop : Nat} {o : Observation}
    (h : acknowledges stop o = true) :
    ∃ m entry, o.event = .sent m entry ∧ m.Confirms ∧ m.logIndex = some stop := by
  unfold acknowledges at h
  split at h
  · rename_i m entry hevent
    simp only [Bool.and_eq_true, beq_iff_eq] at h
    exact ⟨m, entry, hevent, h.1, h.2⟩
  · cases h

/-- What was seen is a report up to an offset. -/
def announces (stop : Nat) (o : Observation) : Bool :=
  match o.event with
  | .sent _ _ => false
  | .committed _ stop' => stop' == stop

private theorem exists_of_announces {stop : Nat} {o : Observation} (h : announces stop o = true) :
    ∃ start, o.event = .committed start stop := by
  unfold announces at h
  split at h
  · cases h
  · rename_i start stop' hevent
    rw [beq_iff_eq.1 h] at hevent
    exact ⟨start, hevent⟩

private theorem begins_brokerZero {b₀ : Broker} {t : Disk}
    (h : @start healthy brokerZero 0 {} = .ok b₀ t) : Begins brokerZero healthy {} b₀ := by
  have hblank : Blank (({} : Disk).file) := fun base y hy => by cases hy
  exact ⟨by decide, hblank.credible _, not_refuses_healthy _, 0, t, h⟩

/-- A follower takes the first record, and what it answers is on its platter. -/
theorem acknowledged_held_first : ∃ b₀ b o m entry, Begins brokerZero healthy {} b₀ ∧
    Runs next (fun b a _ => Careful b a ∧ Corresponds b a) b₀ b ∧ o ∈ b.observed ∧
    o.event = .sent m entry ∧ m.Confirms ∧ m.logIndex = some 1 ∧
    Holds brokerZero o.disk o.raft 1 := by
  have hstart : Sat (@start healthy brokerZero 0 {}) (fun b₀ _ =>
      b₀.running = true ∧ Tidy b₀.store ∧ b₀.raft.logEnd = 0 ∧
      (b₀.after healthy (.receive 0 (firstAppend 0) firstEntry)).observed.any
        (acknowledges 1) = true)
      (fun _ => False) := by decide +kernel
  obtain ⟨b₀, t, hb₀, hrun, htidy, hend, hany⟩ := hstart.exists_ok fun _ h => h
  obtain ⟨o, ho, hack⟩ := List.any_eq_true.1 hany
  obtain ⟨m, entry, hsent, hm, hstop⟩ := exists_of_acknowledges hack
  have hbegins := begins_brokerZero hb₀
  have hruns : Runs next (fun b a _ => Careful b a ∧ Corresponds b a) b₀
      (b₀.after healthy (.receive 0 (firstAppend 0) firstEntry)) := by
    refine .tail .refl ⟨⟨_, healthy⟩, rfl,
      careful_receive hrun htidy (firstAppend_describes 0), ?_⟩
    intro draw m' entry' hcall hsome hless
    rw [hend] at hless
    cases hless
  exact ⟨b₀, _, o, m, entry, hbegins, hruns, ho, hsent, hm, hstop,
    acknowledged_held hbegins rested_empty hruns ho hsent hm hstop⟩

/-- The disk refuses to write the first record and the broker stops.  When the record comes a
second time, the node takes it for one it has and confirms it: nothing of it is on the
platter. -/
theorem acknowledges_refused : ∃ b₀ b o m entry, Begins brokerZero healthy {} b₀ ∧
    b = (b₀.after (refusing .pwrite) (.receive 0 (firstAppend 0) firstEntry)).after healthy
      (.receive 0 (firstAppend 0) firstEntry) ∧ o ∈ b.observed ∧
    o.event = .sent m entry ∧ m.Confirms ∧ m.logIndex = some 1 ∧
    ¬ Holds brokerZero o.disk o.raft 1 := by
  have hstart : Sat (@start healthy brokerZero 0 {}) (fun b₀ _ =>
      ((b₀.after (refusing .pwrite) (.receive 0 (firstAppend 0) firstEntry)).after healthy
        (.receive 0 (firstAppend 0) firstEntry)).observed.any
        (fun o => acknowledges 1 o && !decide (Reaches brokerZero o.disk 1)) = true)
      (fun _ => False) := by decide +kernel
  obtain ⟨b₀, t, hb₀, hany⟩ := hstart.exists_ok fun _ h => h
  obtain ⟨o, ho, hboth⟩ := List.any_eq_true.1 hany
  simp only [Bool.and_eq_true, Bool.not_eq_true', decide_eq_false_iff_not] at hboth
  obtain ⟨m, entry, hsent, hm, hstop⟩ := exists_of_acknowledges hboth.1
  exact ⟨b₀, _, o, m, entry, begins_brokerZero hb₀, rfl, ho, hsent, hm, hstop,
    fun h => hboth.2 h.reaches⟩

/-- The leader's next message says that the first record is committed. -/
def firstCommit : Message :=
  { type := .appendEntries, sender := 1, target := 0, term := 1, logIndex := some 0, logTerm := 1,
    commitIndex := 1 }

/-- A follower takes the first record, then hears that it is committed, and reports it. -/
theorem reported_held_first : ∃ b₀ b o start, Begins brokerZero healthy {} b₀ ∧
    Runs next (fun b a _ => Careful b a ∧ Trails b a) b₀ b ∧ o ∈ b.observed ∧
    o.event = .committed start 1 ∧ Reaches brokerZero o.disk 1 := by
  have hstart : Sat (@start healthy brokerZero 0 {}) (fun b₀ _ =>
      (b₀.running = true ∧ Tidy b₀.store) ∧
      ((b₀.after healthy (.receive 0 (firstAppend 0) firstEntry)).running = true ∧
        Tidy (b₀.after healthy (.receive 0 (firstAppend 0) firstEntry)).store) ∧
      ((b₀.after healthy (.receive 0 (firstAppend 0) firstEntry)).after healthy
        (.receive 0 firstCommit [])).observed.any (announces 1) = true)
      (fun _ => False) := by decide +kernel
  obtain ⟨b₀, t, hb₀, h₀, h₁, hany⟩ := hstart.exists_ok fun _ h => h
  obtain ⟨o, ho, hreport⟩ := List.any_eq_true.1 hany
  obtain ⟨start, hevent⟩ := exists_of_announces hreport
  have hbegins := begins_brokerZero hb₀
  have hruns : Runs next (fun b a _ => Careful b a ∧ Trails b a) b₀
      ((b₀.after healthy (.receive 0 (firstAppend 0) firstEntry)).after healthy
        (.receive 0 firstCommit [])) := by
    refine .tail (.tail .refl ⟨⟨_, healthy⟩, rfl,
      careful_receive h₀.1 h₀.2 (firstAppend_describes 0), ?_⟩) ⟨⟨_, healthy⟩, rfl,
        careful_receive h₁.1 h₁.2 ?_, ?_⟩
    · rintro _ _ _ ⟨rfl, rfl, rfl⟩ -
      exact Nat.zero_le _
    · intro i hi
      cases hi
    · rintro _ _ _ ⟨rfl, rfl, rfl⟩ hsome
      cases hsome
  exact ⟨b₀, _, o, start, hbegins, hruns, ho, hevent,
    reported_held hbegins rested_empty rfl hruns ho hevent⟩

/-- A follower that catches up gets the first record when the others have committed it.  It
reports it before it writes it. -/
theorem reports_unwritten : ∃ b₀ b o start, Begins brokerZero healthy {} b₀ ∧
    b = b₀.after healthy (.receive 0 (firstAppend 1) firstEntry) ∧ o ∈ b.observed ∧
    o.event = .committed start 1 ∧ ¬ Reaches brokerZero o.disk 1 := by
  have hstart : Sat (@start healthy brokerZero 0 {}) (fun b₀ _ =>
      (b₀.after healthy (.receive 0 (firstAppend 1) firstEntry)).observed.any
        (fun o => announces 1 o && !decide (Reaches brokerZero o.disk 1)) = true)
      (fun _ => False) := by decide +kernel
  obtain ⟨b₀, t, hb₀, hany⟩ := hstart.exists_ok fun _ h => h
  obtain ⟨o, ho, hboth⟩ := List.any_eq_true.1 hany
  simp only [Bool.and_eq_true, Bool.not_eq_true', decide_eq_false_iff_not] at hboth
  obtain ⟨start, hevent⟩ := exists_of_announces hboth.1
  exact ⟨b₀, _, o, start, begins_brokerZero hb₀, rfl, ho, hevent, hboth.2⟩

end Broker

end LogEngine.Server
