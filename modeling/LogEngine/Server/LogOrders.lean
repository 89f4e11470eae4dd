import LogEngine.Raft.LogView
import LogEngine.Server.Persistence
import LogEngine.Storage.Session
import LogEngine.Verified.Machine

/-!
# What a broker does to its log

A call of a broker touches the log in two places: `propose` appends to it, and `drive`
carries out what the node ordered, first a cut and then an append (`orders`).  Everything
else a call does to the disk is done to `raft.state`, which the log does not look at
(`View.Alike`).

`Drives.store` says it once for `drive`: the orders were all carried out, or the broker has
stopped.  So a broker that is running has a log whose operations have all succeeded, apart
from the appends that `propose` reported as failed (`sound_runs`).
-/

namespace LogEngine.Storage

open Base Io Io.Disk Verified.Tiling

/-- The same log, over files that differ in `raft.state` at most. -/
structure View.Alike (v w : View) : Prop where
  log : w.log = v.log
  files : ∀ g ≠ .state, w.files g = v.files g

namespace View.Alike

variable {u v w : View}

private theorem refl (v : View) : v.Alike v := ⟨rfl, fun _ _ => rfl⟩

theorem trans (h : u.Alike v) (h' : v.Alike w) : u.Alike w where
  log := h'.log.trans h.log
  files g hg := (h'.files g hg).trans (h.files g hg)

theorem symm (h : v.Alike w) : w.Alike v := ⟨h.log.symm, fun g hg => (h.files g hg).symm⟩

theorem logFile (h : v.Alike w) (b : Nat) : w.files (.log b) = v.files (.log b) :=
  h.files _ fun heq => FileName.noConfusion heq

theorem frames_eq (h : v.Alike w) : w.frames = v.frames :=
  View.frames_congr (by rw [h.log]) fun s _ => h.logFile s.baseOffset

theorem intact (h : v.Alike w) (hi : v.Intact) : w.Intact := by
  obtain ⟨log, files⟩ := w
  obtain rfl : log = v.log := h.log
  refine hi.congr (fun s _ => h.logFile s.baseOffset) fun b hb x hx => ?_
  exact hi.strays b hb x ((h.logFile b).symm.trans hx)

private theorem chained (h : v.Alike w) (hc : v.log.Chained) : w.log.Chained := h.log ▸ hc

private theorem gains {f : Frame} (h : v.Alike w) (hg : u.Gains f v) : u.Gains f w where
  base := hg.base
  frames := h.frames_eq.trans hg.frames
  next := (congrArg Log.nextOffset h.log).trans hg.next
  start := (congrArg Log.startOffset h.log).trans hg.start
  short := hg.short

end View.Alike

end LogEngine.Storage

namespace LogEngine.Server.Broker

open Base Io Io.Disk Storage Raft Verified.Fallible Verified.Machine

/-! ## Orders -/

/-- What a `Ready` asks of the log. -/
def orders (ready : Ready) (entry : Bytes) : List Storage.Call :=
  ready.truncateFrom.toList.map .truncateTo ++
    if ready.appendEntry then [.appendReplicated entry, .fsync] else []

section Orders

variable [Faults] {b b' : Broker} {entry : Bytes} {ready : Ready} {s t : Store}

private theorem appendOrder_carried {append : Bool} (h : appendOrder append entry s = .ok () t) :
    Carried s (if append then [.appendReplicated entry, .fsync] else []) t := by
  cases append with
  | false =>
      cases h
      exact .nil s
  | true =>
      change (if entry = [] then throw .invalidRequest else
        (Log.appendReplicated entry >>= fun _ => Log.fsync) : LogM Unit) s = _ at h
      by_cases hnil : entry = []
      · rw [if_pos hnil] at h
        cases h
      · rw [if_neg hnil] at h
        obtain ⟨_, u, happend, hsync⟩ := bind_ok h
        exact .cons happend (.cons hsync (.nil t))

/-- Orders that are carried out are calls that succeed. -/
theorem carryOutLogOrders_carried (h : carryOutLogOrders ready entry s = .ok () t) :
    Carried s (orders ready entry) t := by
  obtain ⟨_, u, hcut, happend⟩ := bind_ok h
  have hrest := appendOrder_carried happend
  unfold orders
  cases hk : ready.truncateFrom with
  | none =>
      rw [hk] at hcut
      cases hcut
      exact hrest
  | some k =>
      rw [hk] at hcut
      have hcall : (Call.truncateTo k).run s = .ok () u := hcut
      exact .cons hcall hrest

/-- Without orders there is nothing to do. -/
theorem carryOutLogOrders_none (hcut : ready.truncateFrom = none)
    (happend : ready.appendEntry = false) : carryOutLogOrders ready entry s = .ok () s := by
  unfold carryOutLogOrders appendOrder
  rw [hcut, happend]
  rfl

/-- The append of `propose`, as a call on the log. -/
theorem appended_carried {builder : BatchBuilder} {info : BatchMeta} {k : Nat}
    (h : Log.append builder info s = .ok k t) : Carried s [.append builder info] t := by
  refine .cons ?_ (.nil t)
  show (Log.append builder info >>= fun _ => pure ()) s = .ok () t
  simp only [bind, EStateM.bind, h]
  rfl

/-- And the `fsync` behind it. -/
theorem proposed_carried {builder : BatchBuilder} {info : BatchMeta} {k : Nat} {u : Store}
    (h : Log.append builder info s = .ok k t) (hf : Log.fsync t = .ok () u) :
    Carried s [.append builder info, .fsync] u := by
  cases appended_carried h with
  | cons happend rest =>
      cases rest
      exact .cons happend (.cons hf (.nil u))

/-! ## Driving -/

omit [Faults] in
private theorem drained_store (b : Broker) : b.drained.store = b.store := noted_store _ _

omit [Faults] in
theorem drained_raft (b : Broker) : b.drained.raft = b.raft.takeReady.2 := noted_raft _ _

omit [Faults] in
private theorem drained_running (b : Broker) : b.drained.running = b.running := noted_running _ _

/-- After `drive` the orders have been carried out, and what was done to the disk besides
was done to `raft.state`; or the broker has stopped. -/
theorem Drives.store (h : Drives entry b b') :
    (∃ s, carryOutLogOrders b.raft.takeReady.1 entry b.store = .ok () s ∧
        s.view.Alike b'.store.view ∧ b'.running = b.running) ∨
      (∃ e s, carryOutLogOrders b.raft.takeReady.1 entry b.store = .error e s) ∧
        b'.running = false := by
  cases h with
  | idle hempty =>
      have hready : b.raft.takeReady.1.truncateFrom = none ∧
          b.raft.takeReady.1.appendEntry = false := by
        unfold Ready.empty at hempty
        simp only [Bool.and_eq_true, Bool.not_eq_true', Option.isNone_iff_eq_none] at hempty
        exact ⟨hempty.2, hempty.1.2⟩
      refine .inl ⟨b.store, carryOutLogOrders_none hready.1 hready.2, ?_, drained_running b⟩
      rw [drained_store]
      exact .refl _
  | refused h => exact .inr ⟨⟨_, _, h⟩, rfl⟩
  | @unpersisted _ s _ ho _ h =>
      have hp := persist_frame b.raft.hard { b.drained with store := s }
      rw [h] at hp
      obtain ⟨t, rfl, ht⟩ := hp
      exact .inl ⟨s, ho, ⟨rfl, ht⟩, drained_running b⟩
  | @persisted s _ _ ho _ h hs =>
      have hp := persist_frame b.raft.hard { b.drained with store := s }
      rw [h] at hp
      obtain ⟨t, rfl, ht⟩ := hp
      refine .inl ⟨s, ho, ⟨hs.log, fun g hg => ?_⟩, hs.running.trans (drained_running b)⟩
      exact (congrFun hs.disk g).trans (ht g hg)
  | @sent s _ ho _ hs =>
      exact .inl ⟨s, ho, ⟨hs.log, fun g _ => congrFun hs.disk g⟩,
        hs.running.trans (drained_running b)⟩

/-- The node after `drive`: drained, and perhaps without its debt. -/
theorem Drives.raft (h : Drives entry b b') :
    b'.raft = b.raft.takeReady.2 ∨ b'.raft = b.raft.takeReady.2.hardStatePersisted := by
  cases h with
  | idle => exact .inl (drained_raft b)
  | refused => exact .inl (drained_raft b)
  | @unpersisted _ s _ ho _ h =>
      have hp := persist_frame b.raft.hard { b.drained with store := s }
      rw [h] at hp
      obtain ⟨t, rfl, -⟩ := hp
      exact .inl (drained_raft b)
  | @persisted s _ _ ho _ h hs =>
      have hp := persist_frame b.raft.hard { b.drained with store := s }
      rw [h] at hp
      obtain ⟨t, rfl, -⟩ := hp
      refine .inr (hs.raft.trans ?_)
      rw [← drained_raft b]
      rfl
  | sent _ _ hs => exact .inl (hs.raft.trans (drained_raft b))

end Orders

/-! ## Between calls -/

/-- The node has nothing to say and no orders for its log. -/
structure Drained (n : Node) : Prop where
  out : n.out = []
  pendingTruncate : n.pendingTruncate = none
  pendingAppend : n.pendingAppend = false

theorem Drives.drained [Faults] {b b' : Broker} {entry : Bytes} (h : Drives entry b b') :
    Drained b'.raft := by
  rcases h.raft with heq | heq <;> rw [heq] <;> exact ⟨rfl, rfl, rfl⟩

theorem Returns.drained [Faults] {b b' : Broker} {c : Call} (h : Returns b c b')
    (hb : Drained b.raft) : Drained b'.raft := by
  cases h with
  | declined => exact hb
  | tick _ h => exact h.drained
  | receive _ h => exact h.drained
  | unwritten => exact hb
  | unflushed => exact hb
  | proposed _ _ _ _ h => exact h.drained

/-- `drive` without orders leaves the log, and the broker running if it was. -/
theorem Drives.alike [Faults] {b b' : Broker} {entry : Bytes} (h : Drives entry b b')
    (hcut : b.raft.pendingTruncate = none) (happend : b.raft.pendingAppend = false) :
    b.store.view.Alike b'.store.view ∧ b'.running = b.running := by
  have hnone : carryOutLogOrders b.raft.takeReady.1 entry b.store = .ok () b.store :=
    carryOutLogOrders_none hcut happend
  rcases h.store with ⟨s, hs, halike, hrun⟩ | ⟨⟨e, s, hs⟩, -⟩
  · rw [hnone] at hs
    cases hs
    exact ⟨halike, hrun⟩
  · rw [hnone] at hs
    cases hs

/-- After a `propose` that succeeded the log is as the append and the `fsync` left it. -/
theorem Proposes.alike [Faults] {b b' : Broker} {builder : BatchBuilder} {k : Nat}
    {s s' : Store} (h : Proposes b builder k s s' b') (hcut : b.raft.pendingTruncate = none)
    (happend : b.raft.pendingAppend = false) :
    s'.view.Alike b'.store.view ∧ b'.running = true := by
  have hsame := Node.logAppended_log h.leader k s'.log.nextOffset b.raft.hard.term
  obtain ⟨halike, hrun⟩ := h.drives.alike (hsame.pendingTruncate.trans hcut)
    (hsame.pendingAppend.trans happend)
  have hstore : ({ b with store := s' } : Broker).acked.store = s' := acked_store _
  refine ⟨?_, hrun.trans ((acked_running _).trans h.running)⟩
  rw [← hstore]
  exact halike

/-- The batch that was proposed is the next one of the log. -/
theorem Proposes.gains [Faults] {b b' : Broker} {builder : BatchBuilder} {k : Nat}
    {s s' : Store} (h : Proposes b builder k s s' b') (hdrained : b.raft.pendingTruncate = none)
    (happend : b.raft.pendingAppend = false) (hi : b.store.view.Intact) (hc : b.log.Chained) :
    k = b.log.nextOffset ∧ ∃ hne : builder.records ≠ [],
      b.store.view.Gains (builder.frame hne k (metaFor b.raft.hard.term)) b'.store.view := by
  obtain ⟨x, hx, -⟩ := hi.active_holds
  have hspec := Log.append_sat hi.width hx builder (metaFor b.raft.hard.term)
  rw [h.append] at hspec
  obtain ⟨rfl, -⟩ := hspec
  obtain ⟨hne, hgains⟩ := Carried.gains_proposed hi hc (proposed_carried h.append h.fsync)
  exact ⟨rfl, hne, (h.alike hdrained happend).1.gains hgains⟩

theorem Returns.config [Faults] {b b' : Broker} {c : Call} (h : Returns b c b') :
    b'.config = b.config := by
  cases h with
  | declined => rfl
  | tick _ h => exact h.config
  | receive _ h => exact h.config
  | unwritten => rfl
  | unflushed => rfl
  | proposed _ _ _ _ h => exact h.config.trans (acked_config _)

/-! ## Runs of a broker -/

/-- A call, and what the disk refuses meanwhile. -/
structure Act where
  call : Call
  faults : Faults

/-- A broker is called. -/
def next (b : Broker) (a : Act) : Option Broker := some (b.after a.faults a.call)

/-- A broker has come up, on a disk whose sidecars can be trusted. -/
structure Begins (config : BrokerConfig) (faults : Faults) (d : Disk) (b : Broker) : Prop where
  width : config.segmentMaxBytes < 0x100000000
  credible : ∀ base, Credible config.logOptions.segment d.file base
  remove : ¬ @Refuses faults .remove
  start : ∃ draw t, @Broker.start faults config draw d = .ok b t

/-- What `start` leaves: the log that was opened, and a node that was told of it. -/
theorem start_view [Faults] {config : BrokerConfig} {draw : Nat} {d t : Disk} {b : Broker}
    (h : start config draw d = .ok b t) :
    ∃ l u hard epochs v, Log.open config.logOptions d = .ok l u ∧
      (View.mk l u.file).Alike b.store.view ∧ b.config = config ∧ b.running = true ∧
      b.lastCommitSeen = 0 ∧
      (∃ u', (∀ g ≠ .state, u'.file g = u.file g) ∧ l.scanEpochs u' = .ok epochs v) ∧
      b.raft = (Node.new config.raft draw hard).restoreLog l.nextOffset
        (epochs.map fun e => ⟨e.epoch, e.startOffset⟩) := by
  obtain ⟨l, u, hopen, h⟩ := bind_ok h
  obtain ⟨⟨hard, S⟩, u', hload, h⟩ := bind_ok h
  obtain ⟨epochs, v, hscan, h⟩ := bind_ok h
  have hstate := loadHardState_sat u
  rw [hload] at hstate
  have hu' : ∀ g ≠ .state, u'.file g = u.file g := by
    intro g hg
    rw [hstate.1, Function.update_of_ne hg]
  cases h
  refine ⟨l, u, hard, epochs, t, hopen, ⟨rfl, fun g hg => ?_⟩, rfl, rfl, rfl,
    ⟨u', hu', hscan⟩, rfl⟩
  exact Eq.trans ((Log.scanEpochs_untouched g l).ok hscan) (hu' g hg)

/-- The log is intact, without a gap, and kept as the configuration has it. -/
structure Kept (config : BrokerConfig) (s : Store) : Prop where
  intact : s.view.Intact
  chained : s.log.Chained
  options : s.log.options = config.logOptions

/-- A broker of this configuration between two calls; its log is as it should be as long as
it is running. -/
structure Sound (config : BrokerConfig) (b : Broker) : Prop where
  configured : b.config = config
  drained : Drained b.raft
  kept : b.running = true → Kept config b.store

theorem Kept.alike {config : BrokerConfig} {s t : Store} (h : Kept config s)
    (halike : s.view.Alike t.view) : Kept config t where
  intact := halike.intact h.intact
  chained := halike.chained h.chained
  options := (congrArg Log.options halike.log).trans h.options

theorem Kept.carried [Faults] {config : BrokerConfig} {s t : Store} {calls : List Storage.Call}
    (h : Kept config s) (hremove : ¬ Refuses .remove) (hcalls : Carried s calls t) :
    Kept config t := by
  refine hcalls.invariant h ?_
  intro call _ s t hs hrun
  have hdone := Carried.done hs.intact (fun _ _ => hremove) hrun
  constructor
  · exact (hs.intact.done (fun _ _ => hremove) hdone).1
  · exact Log.Chained.done (v := s.view) hs.chained hs.intact hdone
  · exact hdone.options.trans hs.options

theorem Begins.reopened {config : BrokerConfig} {faults : Faults} {d : Disk} {b : Broker}
    (h : Begins config faults d b) :
    ∃ v, @Reopened faults config.logOptions d.file v ∧ v.Alike b.store.view := by
  obtain ⟨draw, t, hstart⟩ := h.start
  obtain ⟨l, u, hard, epochs, v, hopen, halike, -⟩ := start_view hstart
  have hspec := @Log.open_credible faults d config.logOptions h.width h.credible
  rw [hopen] at hspec
  exact ⟨_, hspec, halike⟩

theorem Begins.sound {config : BrokerConfig} {faults : Faults} {d : Disk} {b : Broker}
    (h : Begins config faults d b) : b.Sound config := by
  obtain ⟨w, hw, halike⟩ := h.reopened
  obtain ⟨draw, t, hstart⟩ := h.start
  obtain ⟨l, u, hard, epochs, v, -, -, hconfig, -, -, -, hraft⟩ := start_view hstart
  refine ⟨hconfig, ?_, fun _ => ?_⟩
  · rw [hraft]
    exact ⟨rfl, rfl, rfl⟩
  · refine ⟨halike.intact (hw.intact h.width h.remove), halike.chained hw.chained, ?_⟩
    exact (congrArg Log.options halike.log).trans hw.config

/-- A call keeps a running broker's log, as long as no `remove` is refused. -/
theorem Returns.sound [Faults] {config : BrokerConfig} {b b' : Broker} {c : Call}
    (h : Returns b c b') (hremove : ¬ Refuses .remove) (hb : b.Sound config) :
    b'.Sound config := by
  refine ⟨h.config.trans hb.configured, h.drained hb.drained, fun hr => ?_⟩
  obtain ⟨hconfig, ⟨hout, hcut, happend⟩, hkept⟩ := hb
  cases h with
  | declined => exact hkept hr
  | @tick draw _ hrun h =>
      have hsame := Node.keeps_tick b.raft draw
      exact (hkept hrun).alike (h.alike (hsame.pendingTruncate.trans hcut)
        (hsame.pendingAppend.trans happend)).1
  | receive _ h =>
      rcases h.store with ⟨s, hs, halike, hrun⟩ | ⟨-, hstopped⟩
      · have hold := hkept (hrun.symm.trans hr)
        exact (hold.carried hremove (carryOutLogOrders_carried hs)).alike halike
      · rw [hstopped] at hr
        cases hr
  | @unwritten builder e s hrun _ h =>
      obtain ⟨hi, hc, hoptions⟩ := hkept hrun
      obtain ⟨x, hx, -⟩ := hi.active_holds
      have hspec := Log.append_sat hi.width hx builder (metaFor b.raft.hard.term)
      rw [h] at hspec
      exact ⟨(hi.spoilt hspec).1, Log.Chained.spoilt (v := b.store.view) hc hi hspec,
        hspec.options.trans hoptions⟩
  | @unflushed builder e k s s' hrun _ h hf =>
      have hs := (hkept hrun).carried hremove (appended_carried h)
      obtain ⟨x, hx, -⟩ := hs.intact.active_holds
      have hspec := Log.fsync_sat hx
      rw [hf] at hspec
      have hview : s'.view = s.view := hspec
      exact hs.alike (hview ▸ .refl _)
  | @proposed builder k s s' _ hrun hl h hf hd =>
      have hs := (hkept hrun).carried hremove (proposed_carried h hf)
      exact hs.alike (Proposes.alike ⟨hrun, hl, h, hf, hd⟩ hcut happend).1

theorem sound_next {config : BrokerConfig} {b b' : Broker} {a : Act} (hb : b.Sound config)
    (hremove : ¬ @Refuses a.faults .remove) (hn : b.next a = some b') : b'.Sound config := by
  obtain rfl := Option.some.inj hn
  have hfresh : Sound config { b with observed := [] } := ⟨hb.configured, hb.drained, hb.kept⟩
  exact @Returns.sound a.faults config _ _ _ (after_returns b a.faults a.call) hremove hfresh

end LogEngine.Server.Broker
