import LogEngine.Raft.TermList
import LogEngine.Server.Replicate

/-!
# The node's view of the log, and the log

A broker keeps two descriptions of its log: the segments, and the end and the epochs that its
node holds.  They are changed by different calls, and have to describe the same records.

The invariant is that the node tells the terms of the stored records (`Node.Tells`,
`recordTerms`).  A message whose entry is as the message says changes both in the same way, or
the broker stops.  A `propose` does so too, unless the append succeeds and its `fsync` does
not: then the log is longer than the node knows, and the broker serves on
(`propose_unflushed`).
-/

namespace LogEngine.Storage

open Verified.Tiling Raft

/-! ## The terms of the records -/

/-- The terms of the records of a row of batches. -/
def recordTerms (fs : List Frame) : List Nat :=
  fs.flatMap fun f => List.replicate (Extent.stop f - Extent.base f) f.header.leaderEpoch

section Terms

variable {fs p r : List Frame} {f : Frame} {a : Nat}

private theorem recordTerms_append (p r : List Frame) :
    recordTerms (p ++ r) = recordTerms p ++ recordTerms r :=
  List.flatMap_append

private theorem recordTerms_snoc (p : List Frame) (f : Frame) :
    recordTerms (p ++ [f]) =
      recordTerms p ++ List.replicate (Extent.stop f - Extent.base f) f.header.leaderEpoch := by
  rw [recordTerms_append]
  simp [recordTerms]

private theorem recordTerms_length (h : Tiles a fs) :
    a + (recordTerms fs).length = endFrom a fs := by
  induction fs generalizing a with
  | nil => rfl
  | cons f fs ih =>
      obtain ⟨rfl, hlt, hfs⟩ := h
      rw [endFrom_cons, ← ih hfs]
      change _ + (List.replicate _ _ ++ recordTerms fs).length = _
      rw [List.length_append, List.length_replicate]
      omega

/-- The term of a record is the one of the batch it is in. -/
theorem recordTerms_getElem (h : Tiles 0 fs) (hf : f ∈ fs) {i : Nat} (hlo : Extent.base f ≤ i)
    (hhi : i < Extent.stop f) : (recordTerms fs)[i]? = some f.header.leaderEpoch := by
  obtain ⟨p, r, rfl⟩ := List.append_of_mem hf
  obtain ⟨hp, hbase, -⟩ := tiles_append.1 h
  have hlen := recordTerms_length hp
  rw [Nat.zero_add] at hlen
  rw [recordTerms_append, List.getElem?_append_right (by omega)]
  change (List.replicate _ _ ++ recordTerms r)[_]? = _
  rw [List.getElem?_append_left (by rw [List.length_replicate]; omega),
    List.getElem?_replicate_of_lt (by omega)]

private theorem recordTerms_take (h : Tiles 0 fs) (hp : p <+: fs) :
    (recordTerms fs).take (endFrom 0 p) = recordTerms p := by
  obtain ⟨r, rfl⟩ := hp
  have hlen := recordTerms_length (tiles_append.1 h).1
  rw [Nat.zero_add] at hlen
  rw [recordTerms_append, ← hlen, List.take_left]

/-- One more batch opens an epoch in the same way for the log and for a node. -/
theorem boundaries_snoc (headers : List BatchHeader) (h : BatchHeader) :
    ((Log.boundaries (headers ++ [h])).map fun e => (⟨e.epoch, e.startOffset⟩ : Epoch)) =
      appendEpoch ((Log.boundaries headers).map fun e => ⟨e.epoch, e.startOffset⟩)
        h.leaderEpoch h.baseOffset := by
  unfold Log.boundaries appendEpoch
  rw [List.foldl_append, List.foldl_cons, List.foldl_nil, List.getLast?_map, Option.any_map]
  generalize List.foldl _ [] headers = epochs
  by_cases hlast : (epochs.getLast?.any fun e => e.epoch == h.leaderEpoch) = true
  · rw [if_pos hlast]
    exact (if_pos hlast).symm
  · rw [if_neg hlast, List.map_append]
    exact (if_neg hlast).symm

/-- The boundaries that `scan_epochs` finds are the epochs of the records. -/
theorem boundaries_epochsOf (h : Tiles 0 fs) :
    ((Log.boundaries (fs.map Frame.header)).map fun e => (⟨e.epoch, e.startOffset⟩ : Epoch)) =
      epochsOf (recordTerms fs) := by
  induction fs using List.reverseRecOn with
  | nil => rfl
  | append_singleton fs f ih =>
      obtain ⟨hfs, hbase, hlt⟩ := tiles_snoc.1 h
      have hlen := recordTerms_length hfs
      rw [Nat.zero_add] at hlen
      obtain ⟨n, hn⟩ : ∃ n, Extent.stop f - Extent.base f = n + 1 :=
        ⟨Extent.stop f - Extent.base f - 1, by omega⟩
      rw [recordTerms_snoc, hn, epochsOf_replicate, ← appendEpoch_epochsOf, ← ih hfs, hlen,
        ← hbase, List.map_append, List.map_singleton, boundaries_snoc]
      rfl

end Terms

end LogEngine.Storage

namespace LogEngine.Server

open Base Io Io.Disk Storage Raft Verified.Fallible Verified.Tiling Verified.Machine

/-- The entry of a message is what the message says it is. -/
def Describes (m : Message) (entry : Bytes) : Prop :=
  ∀ i ∈ m.entryIndex, ∀ h, decodeHeader entry = .ok h →
    i = h.baseOffset ∧ m.entryEnd = h.nextOffset ∧ m.entryTerm = h.leaderEpoch

namespace Broker

/-! ## A node that tells the log -/

/-- The node tells the terms of the records of a log that begins at offset zero. -/
structure Told (n : Node) (s : Store) : Prop where
  start : s.log.startOffset = 0
  tells : n.Tells (recordTerms s.view.frames)

section Told

variable {n n' : Node} {s t : Store} {config : BrokerConfig}

theorem Told.sameLog (h : Told n s) (hs : n.SameLog n') : Told n' s :=
  ⟨h.start, h.tells.sameLog hs⟩

theorem Told.alike (h : Told n s) (ha : s.view.Alike t.view) : Told n t where
  start := (congrArg Log.startOffset ha.log).trans h.start
  tells := ha.frames_eq ▸ h.tells

theorem Kept.tiles (hk : Kept config s) (hstart : s.log.startOffset = 0) :
    Tiles 0 s.view.frames ∧ endFrom 0 s.view.frames = s.log.nextOffset := by
  obtain ⟨htiles, hend⟩ := Log.Linked.tiles_frames (v := s.view) hk.chained.toLinked hk.intact
  rw [show s.view.log.startOffset = 0 from hstart] at htiles hend
  exact ⟨htiles, hend.trans hk.chained.ends.symm⟩

theorem Told.logEnd (h : Told n s) (hk : Kept config s) : n.logEnd = s.log.nextOffset := by
  obtain ⟨htiles, hend⟩ := hk.tiles h.start
  have hlen := recordTerms_length htiles
  rw [h.tells.logEnd, ← hend, ← hlen, Nat.zero_add]

/-- Below the node's end of the log, the log has batches. -/
theorem Told.covered (h : Told n s) (hk : Kept config s) {i : Nat} (hi : i < n.logEnd) :
    ∃ f ∈ s.view.frames, Extent.base f ≤ i ∧ i < Extent.stop f := by
  obtain ⟨htiles, hend⟩ := hk.tiles h.start
  rw [h.logEnd hk, ← hend] at hi
  obtain ⟨p, f, hp, hlo, hhi, -⟩ := htiles.exists_snoc (Nat.zero_le i) hi
  exact ⟨f, hp.subset (by simp), hlo, hhi⟩

theorem Told.termAt (h : Told n s) (hk : Kept config s) {f : Storage.Frame}
    (hf : f ∈ s.view.frames) {i : Nat} (hlo : Extent.base f ≤ i) (hhi : i < Extent.stop f) :
    n.termAt i = f.header.leaderEpoch := by
  rw [h.tells.termAt, recordTerms_getElem (hk.tiles h.start).1 hf hlo hhi]
  rfl

/-- A batch comes to the log, and the node is told of it. -/
theorem Told.gains (h : Told n s) (hk : Kept config s) {f : Storage.Frame}
    (hg : s.view.Gains f t.view) :
    Told (n.appended n.logEnd (Extent.stop f) f.header.leaderEpoch) t := by
  have hbase : Extent.base f = n.logEnd := hg.base.trans (h.logEnd hk).symm
  have hlt : n.logEnd < Extent.stop f := hbase ▸ Verified.Framing.Proper.base_lt f
  refine ⟨hg.start.trans h.start, ?_⟩
  rw [hg.frames, recordTerms_snoc, hbase, h.tells.logEnd]
  rw [h.tells.logEnd] at hlt
  have happended := h.tells.appended (h.tells.logEnd.symm ▸ hlt) f.header.leaderEpoch
  rw [h.tells.logEnd] at happended
  exact happended

/-- The log is cut, and so is what the node tells. -/
theorem Told.truncated [Faults] (h : Told n s) (hk : Kept config s) (hremove : ¬ Refuses .remove)
    {k : Nat} (hlt : k < n.logEnd) (hcut : (Call.truncateTo k).run s = .ok () t) :
    Told (n.truncated k) t := by
  have hdone := Carried.done hk.intact (fun _ _ => hremove) hcut
  obtain ⟨-, hframes, hstart⟩ := hk.intact.truncated hremove hdone
  have hnext := hk.intact.truncated_next hk.chained hremove hdone
  have hkept := hk.carried hremove (.cons hcut (.nil t))
  have hstart' : t.log.startOffset = 0 := hstart.trans h.start
  have hpre : t.view.frames <+: s.view.frames := hframes ▸ upTo_isPrefix _ _
  have htake := recordTerms_take (hk.tiles h.start).1 hpre
  rw [(hkept.tiles hstart').2, show t.log.nextOffset = k from hnext] at htake
  refine ⟨hstart', ?_⟩
  rw [← htake]
  exact h.tells.truncated hlt

/-- What the orders of a message do to the log, the message has done to what the node
tells. -/
theorem Told.step [Faults] (h : Told n s) (hk : Kept config s) (hn : Drained n)
    (hremove : ¬ Refuses .remove) {draw : Nat} {m : Message} {entry : Bytes}
    (hentry : Describes m entry)
    (hs : carryOutLogOrders (n.step draw m).takeReady.1 entry s = .ok () t) :
    Told (n.step draw m) t := by
  have hcarried := carryOutLogOrders_carried hs
  have horders : orders (n.step draw m).takeReady.1 entry =
      (n.step draw m).pendingTruncate.toList.map Call.truncateTo ++
        if (n.step draw m).pendingAppend then [.appendReplicated entry, .fsync] else [] := rfl
  -- the entry that was appended is the one the node was told of
  have hgrow : ∀ {u : Store} {n' : Node} {i : Nat}, Told n' u → Kept config u →
      i ∈ m.entryIndex → Carried u [.appendReplicated entry, .fsync] t →
      Told (n'.orderAppend.appended n'.logEnd (Node.entryEndOf m i) m.entryTerm) t := by
    intro u n' i htold hkept hi hcalls
    obtain ⟨f, rfl, hg⟩ := Carried.gains_replicated hkept.intact hkept.chained hcalls
    obtain ⟨rfl, hstop, hterm⟩ := hentry i hi f.header f.decode
    have hlt : f.header.baseOffset < m.entryEnd := hstop ▸ Verified.Framing.Proper.base_lt f
    have hend : Node.entryEndOf m f.header.baseOffset = Extent.stop f :=
      (if_pos hlt).trans hstop
    have hordered : Told n'.orderAppend u := ⟨htold.start, htold.tells.orderAppend⟩
    rw [hend, hterm]
    exact hordered.gains hkept hg
  rcases Node.step_moves n draw m with hsame | ⟨i, hi, hsame | ⟨k, hlt, hsame⟩⟩
  · rw [horders, hsame.pendingTruncate, hsame.pendingAppend, hn.pendingTruncate,
      hn.pendingAppend] at hcarried
    cases hcarried
    exact h.sameLog hsame
  · have hnone : (n.step draw m).pendingTruncate = none :=
      hsame.pendingTruncate.trans hn.pendingTruncate
    have hsome : (n.step draw m).pendingAppend = true := hsame.pendingAppend
    rw [horders, hnone, hsome] at hcarried
    exact (hgrow h hk hi hcarried).sameLog hsame
  · have hcut : (n.step draw m).pendingTruncate = some k := hsame.pendingTruncate
    have hsome : (n.step draw m).pendingAppend = true := hsame.pendingAppend
    rw [horders, hcut, hsome] at hcarried
    cases hcarried with
    | cons hfirst hrest =>
        have htold := h.truncated hk hremove hlt hfirst
        have hkept := hk.carried hremove (.cons hfirst (.nil _))
        exact (hgrow htold hkept hi hrest).sameLog hsame

end Told

/-! ## Calls -/

/-- The node of a running broker tells its log. -/
structure Agreed (config : BrokerConfig) (b : Broker) : Prop extends Sound config b where
  told : b.running = true → Told b.raft b.store

/-- What has to hold of a call: no `remove` is refused, and no `fsync` of a `propose`; a
message describes its entry, and the terms fit into the header of a batch. -/
structure Faithful (b : Broker) (a : Act) : Prop where
  remove : ¬ @Refuses a.faults .remove
  flush : ∀ builder, a.call = .propose builder → ¬ @Refuses a.faults .fsync
  term : ∀ builder, a.call = .propose builder → b.raft.hard.term < 0x100000000
  entry : ∀ draw m entry, a.call = .receive draw m entry → Describes m entry

section Calls

variable [Faults] {config : BrokerConfig} {b b' : Broker}

/-- `drive` takes the orders of a node, and nothing of what it tells. -/
theorem Drives.told {entry : Bytes} (h : Drives entry b b') (ht : Told b.raft b'.store) :
    Told b'.raft b'.store := by
  rcases h.raft with heq | heq <;> rw [heq] <;>
    exact ⟨ht.start, ht.tells.logEnd, ht.tells.lastTerm, ht.tells.epochs⟩

/-- An append that fails leaves the records. -/
theorem Told.spoilt {n : Node} {s t : Store} {size : Nat} (h : Told n s) (hk : Kept config s)
    (hs : Spoilt s.view size t.view) : Told n t := by
  have hframes := (hk.intact.spoilt hs).2
  exact ⟨hs.start.trans h.start, hframes ▸ h.tells⟩

omit [Faults] in
theorem metaFor_leaderEpoch {builder : BatchBuilder} (hne : builder.records ≠ []) (k : Nat)
    {term : Nat} (h : term < 0x100000000) :
    (builder.frame hne k (metaFor term)).header.leaderEpoch = term := by
  have hcut : (builder.frame hne k (metaFor term)).header.leaderEpoch =
      term % 0x100000000 % 256 ^ 4 := rfl
  rw [hcut]
  omega

/-- An `fsync` after an append fails only if it is refused. -/
theorem Kept.refuses_fsync {s t u : Store} (hk : Kept config s) (hremove : ¬ Refuses .remove)
    {builder : BatchBuilder} {info : BatchMeta} {k : Nat} {e : ErrorCode}
    (ha : Log.append builder info s = .ok k t) (hf : Log.fsync t = .error e u) :
    Refuses .fsync := by
  have ht := hk.carried hremove (appended_carried ha)
  obtain ⟨x, hx, -⟩ := ht.intact.active_holds
  have hspec := Log.onDisk_sat (s := t) (Q := fun _ _ => True) (E := fun _ => Refuses .fsync)
    ((Disk.fsync_sat hx).mono (fun _ _ _ => trivial) fun _ h => h.2)
  change Sat (Log.fsync t) _ _ at hspec
  rw [hf] at hspec
  exact hspec

/-- A faithful call keeps the two descriptions together. -/
theorem Returns.agreed {c : Call} (h : Returns b c b') (hb : b.Agreed config)
    (hremove : ¬ Refuses .remove) (hflush : ∀ builder, c = .propose builder → ¬ Refuses .fsync)
    (hterm : ∀ builder, c = .propose builder → b.raft.hard.term < 0x100000000)
    (hentry : ∀ draw m entry, c = .receive draw m entry → Describes m entry) :
    b'.Agreed config := by
  refine ⟨h.sound hremove hb.toSound, fun hr => ?_⟩
  obtain ⟨⟨hconfig, hdrained, hkept⟩, htold⟩ := hb
  cases h with
  | declined => exact htold hr
  | @tick draw _ hrun h =>
      have hsame := (Node.keeps_tick b.raft draw).toSameLog
      have halike := (h.alike (hsame.pendingTruncate.trans hdrained.pendingTruncate)
        (hsame.pendingAppend.trans hdrained.pendingAppend)).1
      exact h.told (((htold hrun).sameLog hsame).alike halike)
  | @receive draw m entry _ _ h =>
      rcases h.store with ⟨s, hs, halike, hrun⟩ | ⟨-, hstopped⟩
      · have hold : b.running = true := hrun.symm.trans hr
        have hstep := (htold hold).step (hkept hold) hdrained hremove
          (hentry draw m entry rfl) hs
        exact h.told (hstep.alike halike)
      · rw [hstopped] at hr
        cases hr
  | @unwritten builder e s hrun _ h =>
      obtain ⟨x, hx, -⟩ := (hkept hrun).intact.active_holds
      have hspec := Log.append_sat (hkept hrun).intact.width hx builder
        (metaFor b.raft.hard.term)
      rw [h] at hspec
      exact (htold hrun).spoilt (hkept hrun) hspec
  | @unflushed builder e k s s' hrun _ h hf =>
      exact absurd ((hkept hrun).refuses_fsync hremove h hf) (hflush builder rfl)
  | @proposed builder k s s' _ hrun hl h hf hd =>
      have hp : Proposes b builder k s s' b' := ⟨hrun, hl, h, hf, hd⟩
      obtain ⟨hi, hc, -⟩ := hkept hrun
      obtain ⟨rfl, hne, hg⟩ := hp.gains hdrained.pendingTruncate hdrained.pendingAppend hi hc
      have hgrown := (htold hrun).gains (hkept hrun) hg
      have halike := (hp.alike hdrained.pendingTruncate hdrained.pendingAppend).1
      have hstop : Extent.stop (builder.frame hne b.log.nextOffset
          (metaFor b.raft.hard.term)) = s'.log.nextOffset :=
        hg.next.symm.trans (congrArg Log.nextOffset halike.log)
      rw [hstop, metaFor_leaderEpoch hne _ (hterm builder rfl), (htold hrun).logEnd (hkept hrun)]
        at hgrown
      exact hd.told (hgrown.sameLog (Node.sameLog_logAppended _ _ _ _))

end Calls

/-! ## Runs -/

/-- The directory of a broker has a segment at offset zero, or none at all. -/
def FromZero (d : Disk) : Prop := ∀ b, (d.file (.log b)).isSome → (d.file (.log 0)).isSome

section Runs

variable {config : BrokerConfig} {faults : Faults} {d : Disk} {b b' : Broker}

/-- `start` tells the node what it finds. -/
theorem Begins.agreed (h : Begins config faults d b) (hzero : FromZero d) : b.Agreed config := by
  refine ⟨h.sound, fun hr => ?_⟩
  have hkept := h.sound.kept hr
  obtain ⟨draw, t, hstart⟩ := h.start
  obtain ⟨l, u, hard, epochs, v, hopen, halike, -, -, -, ⟨u', hu', hscan⟩, hraft⟩ :=
    start_view hstart
  have hspec := @Log.open_credible faults d config.logOptions h.width h.credible
  rw [hopen] at hspec
  have hstart' : b.log.startOffset = 0 :=
    (congrArg Log.startOffset halike.log).trans (hspec.start_zero hzero)
  obtain ⟨htiles, hend⟩ := hkept.tiles hstart'
  -- what `scan_epochs` read are the batches of the log
  have hview : b.store.view.Alike (View.mk l u'.file) :=
    halike.symm.trans ⟨rfl, hu'⟩
  have hscanned := @Log.scanEpochs_sat faults ⟨l, u'.file⟩ (hview.intact hkept.intact) u' rfl
  rw [show (View.mk l u'.file).log.scanEpochs u' = .ok epochs v from hscan] at hscanned
  obtain ⟨-, rfl⟩ := hscanned
  have hlength : (recordTerms b.store.view.frames).length = l.nextOffset := by
    have hlen := recordTerms_length htiles
    rw [Nat.zero_add, hend] at hlen
    exact hlen.trans (congrArg Log.nextOffset halike.log)
  refine ⟨hstart', ?_⟩
  rw [hraft, hview.frames_eq, boundaries_epochsOf htiles, ← hlength]
  exact Node.tells_restoreLog _ _

private theorem agreed_next {a : Act} (hb : b.Agreed config) (ha : Faithful b a)
    (hn : b.next a = some b') : b'.Agreed config := by
  obtain rfl := Option.some.inj hn
  have hfresh : Agreed config { b with observed := [] } :=
    ⟨⟨hb.configured, hb.drained, hb.kept⟩, hb.told⟩
  exact @Returns.agreed a.faults config _ _ _ (after_returns b a.faults a.call) hfresh
    ha.remove ha.flush ha.term ha.entry

/-- What a node holds of its log. -/
def logView (n : Node) : Nat × Nat × List Epoch := (n.logEnd, n.lastTerm, n.epochs)

/-- What the node holds of the log is what the log holds: the end, the term of every record,
and what a node is told at a start. -/
structure Agrees (b : Broker) : Prop where
  logEnd : b.raft.logEnd = b.log.nextOffset
  covered : ∀ i < b.raft.logEnd, ∃ f ∈ b.store.view.frames, Extent.base f ≤ i ∧ i < Extent.stop f
  termAt : ∀ f ∈ b.store.view.frames, ∀ i, Extent.base f ≤ i → i < Extent.stop f →
    b.raft.termAt i = f.header.leaderEpoch
  restored : ∃ epochs, outcome (@Log.scanEpochs healthy b.log b.disk) = .ok epochs ∧
    ∀ n : Node, logView (n.restoreLog b.log.nextOffset
      (epochs.map fun e => ⟨e.epoch, e.startOffset⟩)) = logView b.raft

private theorem logView_eq {n n' : Node} {ts : List Nat} (h : n.Tells ts) (h' : n'.Tells ts) :
    logView n = logView n' := by
  unfold logView
  rw [h.logEnd, h.lastTerm, h.epochs, h'.logEnd, h'.lastTerm, h'.epochs]

theorem Agreed.agrees (h : b.Agreed config) (hr : b.running = true) : b.Agrees := by
  have hkept := h.kept hr
  have htold := h.told hr
  have hlogEnd := htold.logEnd hkept
  constructor
  · exact hlogEnd
  · exact fun i hi => htold.covered hkept hi
  · exact fun f hf i hlo hhi => htold.termAt hkept hf hlo hhi
  · obtain ⟨_, _, hscan, -, rfl⟩ :=
      (@Log.scanEpochs_sat healthy b.store.view hkept.intact b.disk rfl).exists_ok
        fun _ hr => not_refuses_healthy _ hr
    refine ⟨_, congrArg outcome hscan, fun n => ?_⟩
    have htiles := (hkept.tiles htold.start).1
    have hrestored := Node.tells_restoreLog n (recordTerms b.store.view.frames)
    rw [← htold.tells.logEnd, hlogEnd, ← boundaries_epochsOf htiles] at hrestored
    exact logView_eq hrestored htold.tells

/-- In every run of faithful calls, the node of a running broker and its log agree. -/
theorem agrees_of_runs {b₀ : Broker} (hbegins : Begins config faults d b₀) (hzero : FromZero d)
    (hruns : Runs next (fun b a _ => Faithful b a) b₀ b) (hrunning : b.running = true) :
    b.Agrees := by
  have hagreed : b.Agreed config :=
    hruns.invariant (hbegins.agreed hzero) fun b a b' hb hn ha => agreed_next hb ha hn
  exact hagreed.agrees hrunning

end Runs

/-- A call that brings no entry. -/
def Call.entryless : Call → Bool
  | .receive _ m _ => m.entryIndex.isNone
  | .tick _ | .propose _ => true

/-- On a healthy disk, such calls are faithful. -/
theorem runs_of_entryless {b b' : Broker} (h : Runs (fun b c => some (b.after healthy c))
      (fun b c _ => b.raft.hard.term < 0x100000000 ∧ c.entryless = true) b b') :
    Runs next (fun b a _ => Faithful b a) b b' := by
  induction h with
  | refl => exact .refl
  | tail _ hlast ih =>
      obtain ⟨c, hc, hterm, hless⟩ := hlast
      refine ih.tail ⟨⟨c, healthy⟩, hc, not_refuses_healthy _, fun _ _ => not_refuses_healthy _,
        fun _ _ => hterm, ?_⟩
      rintro draw m entry rfl i hi
      rw [Option.isNone_iff_eq_none.1 hless] at hi
      cases hi

theorem agrees_of_runs_proposed : ∃ b₀ b, Begins brokerZero healthy {} b₀ ∧
    Runs next (fun b a _ => Faithful b a) b₀ b ∧ b.running = true ∧ b.log.nextOffset = 1 ∧
    b.Agrees := by
  have hstart : Sat (@start healthy brokerZero 0 {}) (fun b₀ _ =>
      (replay (fun b c => some (b.after healthy c))
        (fun b c _ => b.raft.hard.term < 0x100000000 ∧ c.entryless = true) b₀
        (elected ++ [.propose (lone 1 (by decide))])).any
          (fun b => b.running && b.log.nextOffset == 1) = true)
      (fun _ => False) := by decide +kernel
  obtain ⟨b₀, t, hb₀, hreplay⟩ := hstart.exists_ok fun _ h => h
  obtain ⟨b, hcalls, hb⟩ := exists_of_replay _ _ _ _ hreplay
  simp only [Bool.and_eq_true, beq_iff_eq] at hb
  have hblank : Blank (({} : Disk).file) := fun base y hy => by cases hy
  have hbegins : Begins brokerZero healthy {} b₀ :=
    ⟨by decide, hblank.credible _, not_refuses_healthy _, 0, t, hb₀⟩
  have hruns := runs_of_entryless hcalls
  refine ⟨b₀, b, hbegins, hruns, hb.1, hb.2, agrees_of_runs hbegins ?_ hruns hb.1⟩
  intro base hbase
  cases hbase

/-- The leader appends, its disk refuses the `fsync`, and `propose` returns before the node is
told: the broker is running with a log that is longer than its node knows. -/
theorem propose_unflushed : ∃ b₀ b, Begins brokerZero healthy {} b₀ ∧
    b = (elected.foldl (fun b c => b.after healthy c) b₀).after (refusing .fsync)
      (.propose (lone 1 (by decide))) ∧
    b.running = true ∧ b.raft.logEnd = 0 ∧ b.log.nextOffset = 1 := by
  have hstart : Sat (@start healthy brokerZero 0 {}) (fun b₀ _ =>
      ((elected.foldl (fun b c => b.after healthy c) b₀).after (refusing .fsync)
        (.propose (lone 1 (by decide)))).running = true ∧
      ((elected.foldl (fun b c => b.after healthy c) b₀).after (refusing .fsync)
        (.propose (lone 1 (by decide)))).raft.logEnd = 0 ∧
      ((elected.foldl (fun b c => b.after healthy c) b₀).after (refusing .fsync)
        (.propose (lone 1 (by decide)))).log.nextOffset = 1)
      (fun _ => False) := by decide +kernel
  obtain ⟨b₀, t, hb₀, hb⟩ := hstart.exists_ok fun _ h => h
  have hblank : Blank (({} : Disk).file) := fun base y hy => by cases hy
  exact ⟨b₀, _, ⟨by decide, hblank.credible _, not_refuses_healthy _, 0, t, hb₀⟩, rfl, hb⟩

end Broker

end LogEngine.Server
