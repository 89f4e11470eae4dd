import LogEngine.Server.Persistence
import LogEngine.Verified.Machine

/-!
# `raft.state` over torn writes

The hard state is written into two slots in turn.  An attempt may be refused halfway,
may stay unflushed, and may be torn by a power cut; then the slot holds the first
bytes of the new image over what it held before.  Such a mixture must not pass the
checksum (`Unmixed`): that is assumed of each attempt of a run, for what the slot
holds at that moment.

`Holds` is what every image of the file keeps that a restart may find.  An attempt
goes into the slot of the sequence number after the one that was read, so the state
that was read stays where it is.  This is so for what a process sees, and for
everything a power cut may leave of it (`Lasting`), since a power cut keeps the writes
of a file in their order.
-/

namespace LogEngine.Server

open Base Io Io.Disk Storage Raft Verified.Fallible

/-! ## One image -/

/-- One of the states `good` is in the slot of the sequence number `S`; the other slot,
if it can be read, is older, or is the write after it and holds one of `good` too. -/
structure Holds (good : List HardState) (S : Nat) (image : Bytes) : Prop where
  kept : ∃ hard ∈ good, decodeStateSlot (slot image (S % 2)) = .ok ⟨hard, S⟩
  other : ∀ s, decodeStateSlot (slot image (1 - S % 2)) = .ok s →
    s.sequence < S ∨ s.sequence = S + 1 ∧ s.hard ∈ good

/-- The slot of the sequence number `S` with the first `n` bytes of a new image in it. -/
def mixture (image : Bytes) (S : Nat) (state : HardState) (n : Nat) : Bytes :=
  slot (applyBytes image (stateSlotOffset S) ((encodeStateSlot state S).take n)) (S % 2)

/-- A mixture of a new slot image with what the slot held passes the check only if it
is one of the two. -/
def Unmixed (image : Bytes) (S : Nat) (state : HardState) : Prop :=
  ∀ n < kStateSlotBytes, (decodeStateSlot (mixture image S state n)).isOk = true →
    mixture image S state n = slot image (S % 2) ∨
      mixture image S state n = encodeStateSlot state S

instance (image : Bytes) (S : Nat) (state : HardState) : Decidable (Unmixed image S state) :=
  inferInstanceAs (Decidable (∀ n < kStateSlotBytes, _))

section Holds

variable {good : List HardState} {S : Nat} {image : Bytes} {state : HardState}

theorem Holds.mono {good' : List HardState} (hsub : good ⊆ good') (h : Holds good S image) :
    Holds good' S image where
  kept := by
    obtain ⟨hard, hmem, hdec⟩ := h.kept
    exact ⟨hard, hsub hmem, hdec⟩
  other s hs := (h.other s hs).imp id fun hnew => ⟨hnew.1, hsub hnew.2⟩

/-- A slot that can be read after an attempt holds what it held before, or the whole
of what was tried. -/
theorem decode_mixture (hu : Unmixed image S state) (hs : InSlot state S) (n : Nat)
    {s : PersistedState} (hd : decodeStateSlot (mixture image S state n) = .ok s) :
    decodeStateSlot (slot image (S % 2)) = .ok s ∨ s = ⟨state, S⟩ := by
  have hnew := decode_encodeStateSlot hs.1 hs.2.1 hs.2.2
  by_cases hn : n < kStateSlotBytes
  · rcases hu n hn (by rw [hd]; rfl) with hold | hwhole
    · exact .inl (hold ▸ hd)
    · rw [hwhole, hnew] at hd
      exact .inr (Except.ok.inj hd).symm
  · have hall : (encodeStateSlot state S).take n = encodeStateSlot state S :=
      List.take_of_length_le (by rw [encodeStateSlot_length]; omega)
    rw [mixture, hall, decode_slot_written image hs.1 hs.2.1 hs.2.2] at hd
    exact .inr (Except.ok.inj hd).symm

/-- However much of it is written, an attempt at the next sequence number leaves what
is held. -/
theorem Holds.write (h : Holds good S image) (hu : Unmixed image (S + 1) state)
    (hs : InSlot state (S + 1)) (n : Nat) :
    Holds (good ++ [state]) S (applyBytes image (stateSlotOffset (S + 1))
      ((encodeStateSlot state (S + 1)).take n)) := by
  have hsub : good ⊆ good ++ [state] := List.subset_append_left _ _
  have hturn : (S + 1) % 2 = 1 - S % 2 := by omega
  have hback : S % 2 = 1 - (S + 1) % 2 := by omega
  have hw : SlotWrite (S + 1)
      ⟨stateSlotOffset (S + 1), (encodeStateSlot state (S + 1)).take n⟩ :=
    Attempt.slotWrite (S + 1) ⟨state, n⟩
  obtain ⟨hard, hmem, hdec⟩ := h.kept
  have hlong : 0 < S + 1 → kStateSlotBytes ≤ image.length := by
    intro _
    have := slot_whole hdec
    rw [kStateSlotBytes]
    omega
  constructor
  · refine ⟨hard, hsub hmem, ?_⟩
    rw [hback] at hdec ⊢
    rw [slot_applyBytes_other hlong hw]
    exact hdec
  · intro s hd
    rw [← hturn] at hd
    rcases decode_mixture hu hs n hd with hold | rfl
    · rw [hturn] at hold
      exact (h.mono hsub).other s hold
    · exact .inr ⟨rfl, List.mem_append_right _ (List.mem_singleton_self state)⟩

/-- What is read is held in the slot that the next write does not go to. -/
theorem Holds.recover (h : Holds good S image) :
    ∃ hard S', Raft.recover image = .ok (hard, S' + 1) ∧ hard ∈ good ∧
      decodeStateSlot (slot image (S' % 2)) = .ok ⟨hard, S'⟩ ∧ Holds good S' image := by
  obtain ⟨hard, hmem, hdec⟩ := h.kept
  have hback : 1 - (1 - S % 2) = S % 2 := by omega
  -- the other slot is newer, or it is not read
  by_cases hnewer : ∃ s, decodeStateSlot (slot image (1 - S % 2)) = .ok s ∧ S < s.sequence
  · obtain ⟨⟨hard', S'⟩, hs, hlt⟩ := hnewer
    obtain ⟨hseq, hgood⟩ : S' = S + 1 ∧ hard' ∈ good := (h.other _ hs).resolve_left hlt.not_gt
    subst hseq
    have hturn : (S + 1) % 2 = 1 - S % 2 := by omega
    have hothers : ∀ s', decodeStateSlot (slot image (1 - (1 - S % 2))) = .ok s' →
        s'.sequence < S + 1 := by
      intro s' hs'
      rw [hback, hdec] at hs'
      rw [← Except.ok.inj hs']
      exact Nat.lt_succ_self S
    have hscan := scan_newest (by omega) hs hothers
    refine ⟨hard', S + 1, recover_of_scan hscan, hgood, hturn ▸ hs,
      ⟨hard', hgood, hturn ▸ hs⟩, ?_⟩
    rw [hturn]
    exact fun s' hs' => .inl (hothers s' hs')
  · have hscan := scan_newest (Nat.mod_lt S (by omega)) hdec fun s hs =>
      ((h.other s hs).resolve_right fun hnew =>
        hnewer ⟨s, hs, hnew.1 ▸ Nat.lt_succ_self S⟩)
    exact ⟨hard, S, recover_of_scan hscan, hmem, hdec, h⟩

/-- A slot that was written is held, whatever came before. -/
theorem holds_written (h : Awaits S image) (hs : InSlot state S) :
    Holds [state] S (applyBytes image (stateSlotOffset S) (encodeStateSlot state S)) where
  kept := ⟨state, List.mem_singleton_self state, decode_slot_written image hs.1 hs.2.1 hs.2.2⟩
  other s hd := by
    have hw : SlotWrite S ⟨stateSlotOffset S, encodeStateSlot state S⟩ :=
      ⟨rfl, (encodeStateSlot_length state S).le⟩
    exact .inl ((h.write hw).below s hd)

end Holds

/-! ## The file -/

/-- Whatever a power cut leaves of the file, one of the states `good` is read from it, if
there are any. -/
structure Lasting (good : List HardState) (x : File) : Prop where
  visible : x.visible = replay x.durable x.pending
  crash : good ≠ [] → ∀ kept torn, ∃ S, Holds good S (x.crash kept torn).visible

section Lasting

variable {good : List HardState} {S : Nat} {x : File} {state : HardState}

/-- What a process sees is one of the things a power cut may leave. -/
theorem Lasting.holds (h : Lasting good x) (hg : good ≠ []) : ∃ S, Holds good S x.visible := by
  have hall := h.crash hg x.pending.length 0
  rw [File.crash_all, ← h.visible] at hall
  exact hall

theorem Lasting.of_settled {y : File} (hy : Settled y)
    (h : good ≠ [] → ∃ S, Holds good S y.visible) : Lasting good y where
  visible := by
    rw [hy.pending]
    exact hy.visible
  crash hg kept torn := by
    rw [File.crash_of_pending hy.pending, ← hy.visible]
    exact h hg

theorem settled_crash (x : File) (kept torn : Nat) : Settled (x.crash kept torn) := ⟨rfl, rfl⟩

/-- After a power cut nothing is left to lose. -/
theorem Lasting.after_crash (h : Lasting good x) (kept torn : Nat) :
    Lasting good (x.crash kept torn) :=
  .of_settled (settled_crash x kept torn) fun hg => h.crash hg kept torn

/-- An attempt that came to nothing, or to some first bytes. -/
theorem Lasting.write (h : Lasting good x) (hh : Holds good S x.visible)
    (hu : Unmixed x.visible (S + 1) state) (hs : InSlot state (S + 1)) {a : Attempt}
    (ha : a.state = state) :
    Lasting (good ++ [state])
      (x.write (a.write (S + 1)).offset (a.write (S + 1)).bytes) where
  visible := by
    have hlast := replay_append x.durable x.pending [a.write (S + 1)]
    rw [← h.visible] at hlast
    exact hlast.symm
  crash _ kept torn := by
    have hg : good ≠ [] := by
      obtain ⟨hard, hmem, -⟩ := hh.kept
      exact List.ne_nil_of_mem hmem
    rcases File.crash_write x (a.write (S + 1)) kept torn with hold | ⟨n, hnew⟩
    · obtain ⟨S', hS'⟩ := h.crash hg kept torn
      rw [hold]
      exact ⟨S', hS'.mono (List.subset_append_left _ _)⟩
    · rw [hnew, ← h.visible, Attempt.write, ha, List.take_take]
      exact ⟨S, hh.write hu hs _⟩

/-- An attempt that was written and flushed. -/
theorem Lasting.flush (h : Lasting good x) (hw : Awaits S x.visible) (hs : InSlot state S) :
    Lasting [state] (x.write (stateSlotOffset S) (encodeStateSlot state S)).flush := by
  have hdurable : (x.write (stateSlotOffset S) (encodeStateSlot state S)).flush.durable =
      applyBytes x.visible (stateSlotOffset S) (encodeStateSlot state S) := by
    have hlast := replay_append x.durable x.pending
      [⟨stateSlotOffset S, encodeStateSlot state S⟩]
    rw [← h.visible] at hlast
    exact hlast
  refine .of_settled ⟨rfl, hdurable.symm⟩ fun _ => ⟨S, ?_⟩
  exact holds_written hw hs

end Lasting

/-! ## The broker and its restarts -/

/-- A host, with the state of its last successful `persist` and of the attempts since.
Before the first success there is nothing that must be kept. -/
structure Keeper where
  host : Host
  good : List HardState := []

inductive Keeper.Action
  | persist (state : HardState) (faults : Faults)
  | start (draw : Nat) (faults : Faults)
  /-- The process ends. -/
  | exit
  /-- The power goes. -/
  | crash (kept torn : FileName → Nat)

namespace Keeper

/-- What must be kept after one more attempt that did not succeed. -/
def failed (good : List HardState) (state : HardState) : List HardState :=
  if good = [] then [] else good ++ [state]

/-- What an action does, `none` where it cannot happen. -/
def next (config : BrokerConfig) (k : Keeper) : Action → Option Keeper
  | .persist state faults =>
      match k.host with
      | .down _ => none
      | .up b =>
          match @Broker.persist faults state b with
          | .ok _ b' => some ⟨.up b', [state]⟩
          | .error _ b' => some ⟨.up b', failed k.good state⟩
  | .start draw faults => (k.host.next config (.start draw faults)).map (⟨·, k.good⟩)
  | .exit => (k.host.next config .exit).map (⟨·, k.good⟩)
  | .crash kept torn => (k.host.next config (.crash kept torn)).map (⟨·, k.good⟩)

/-- An attempt fits its fields and, as long as there is something to be kept, does not
mix with what its slot holds. -/
def Fits (good : List HardState) (state : HardState) : Host → Prop
  | .down _ => True
  | .up b => InSlot state b.stateSequence ∧
      (good ≠ [] → Unmixed (stateFile b.disk).visible b.stateSequence state)

instance (good : List HardState) (state : HardState) : DecidablePred (Fits good state)
  | .down _ => .isTrue trivial
  | .up b => inferInstanceAs (Decidable (InSlot state b.stateSequence ∧
      (good ≠ [] → Unmixed (stateFile b.disk).visible b.stateSequence state)))

/-- The attempts of a run are as they should be. -/
def Clean (k : Keeper) : Action → Keeper → Prop
  | .persist state _, _ => Fits k.good state k.host
  | _, _ => True

instance : ∀ (k : Keeper) (a : Action) (k' : Keeper), Decidable (k.Clean a k')
  | k, .persist state _, _ => inferInstanceAs (Decidable (Fits k.good state k.host))
  | _, .start _ _, _ | _, .exit, _ | _, .crash _ _, _ => .isTrue trivial

/-- Any number of attempts and restarts. -/
def Runs (config : BrokerConfig) : Keeper → Keeper → Prop :=
  Verified.Machine.Runs (next config) Clean

/-- What holds at every moment of a run. -/
def Sound (config : BrokerConfig) (good : List HardState) : Host → Prop
  | .down d => Lasting good (stateFile d)
  | .up b => b.config = config ∧ ∃ x, b.disk.file .state = some x ∧ Lasting good x ∧
      Awaits b.stateSequence x.visible ∧
      (good ≠ [] → ∃ S, b.stateSequence = S + 1 ∧ Holds good S x.visible)

section Steps

variable {config : BrokerConfig} {good : List HardState}

theorem Sound.start {d : Disk} {h : Host} (hs : Lasting good (stateFile d)) {draw : Nat}
    {faults : Faults} (hn : (Host.down d).next config (.start draw faults) = some h) :
    Sound config good h := by
  have hstart := Broker.start_sat config draw d
  simp only [Host.next] at hn
  split at hn
  case h_1 b t hb =>
    cases hn
    rw [hb] at hstart
    refine ⟨hstart.config, _, hstart.file, hs, awaits_of_recover hstart.hard, fun hg => ?_⟩
    obtain ⟨S, hS⟩ := hs.holds hg
    obtain ⟨hard, S', hrec, -, -, hS'⟩ := hS.recover
    have heq := Except.ok.inj (hstart.hard.symm.trans hrec)
    exact ⟨S', congrArg Prod.snd heq, hS'⟩
  case h_2 e t hb =>
    cases hn
    rw [hb] at hstart
    have hsame : stateFile t = stateFile d := hstart
    show Lasting good (stateFile t)
    rw [hsame]
    exact hs

theorem stateFile_crash (d : Disk) (kept torn : FileName → Nat) :
    stateFile (d.crash kept torn) = (stateFile d).crash (kept .state) (torn .state) := by
  unfold stateFile Disk.crash
  rw [file_mapFiles]
  cases d.file .state with
  | none => simp [File.crash, replay]
  | some x => rfl

theorem Sound.lasting {h : Host} (hs : Sound config good h) : Lasting good (stateFile h.disk) := by
  cases h with
  | down d => exact hs
  | up b =>
      obtain ⟨-, x, hx, hl, -⟩ := hs
      show Lasting good (stateFile b.disk)
      rw [stateFile_eq hx]
      exact hl

theorem Sound.crash {h h' : Host} (hs : Sound config good h) {kept torn : FileName → Nat}
    (hn : h.next config (.crash kept torn) = some h') : Sound config good h' := by
  have heq : h' = .down (h.disk.crash kept torn) := by cases h <;> exact (Option.some.inj hn).symm
  subst heq
  show Lasting good (stateFile (h.disk.crash kept torn))
  rw [stateFile_crash]
  exact hs.lasting.after_crash _ _

theorem Sound.exit {h h' : Host} (hs : Sound config good h)
    (hn : h.next config .exit = some h') : Sound config good h' := by
  cases h with
  | down d => cases hn
  | up b =>
      cases hn
      exact hs.lasting

/-- An attempt: what was kept is kept, and on success it is what was written. -/
theorem Sound.persist (hf : config.fsyncHardState = true) {b : Broker} {state : HardState}
    (faults : Faults) (hs : Sound config good (.up b)) (hfit : Fits good state (.up b)) :
    Sat (@Broker.persist faults state b) (fun _ b' => Sound config [state] (.up b'))
      (fun b' => Sound config (failed good state) (.up b')) := by
  obtain ⟨hc, x, hx, hl, hw, hh⟩ := hs
  obtain ⟨hslot, hmix⟩ := hfit
  rw [stateFile_eq hx] at hmix
  refine (Broker.persist_file (hc ▸ hf) hx state).mono ?_ ?_
  · rintro _ _ ⟨t, rfl, ht⟩
    have hscan := scan_written hw hslot.1 hslot.2.1 hslot.2.2
    exact ⟨hc, _, ht, hl.flush hw hslot, awaits_of_recover (recover_of_scan hscan),
      fun _ => ⟨_, rfl, holds_written hw hslot⟩⟩
  · rintro _ ⟨t, y, rfl, hy, hyx⟩
    by_cases hg : good = []
    · -- nothing has to be kept yet
      have hnone : failed good state = [] := if_pos hg
      rw [hnone]
      refine ⟨hc, y, hy, ⟨?_, fun h => absurd rfl h⟩, ?_, fun h => absurd rfl h⟩
      · rcases hyx with rfl | ⟨a, -, rfl⟩
        · exact hl.visible
        · have hlast := replay_append x.durable x.pending [a.write b.stateSequence]
          rw [← hl.visible] at hlast
          exact hlast.symm
      · rcases hyx with rfl | ⟨a, -, rfl⟩
        · exact hw
        · exact hw.write (a.slotWrite _)
    · have hsome : failed good state = good ++ [state] := if_neg hg
      have hsub : good ⊆ good ++ [state] := List.subset_append_left _ _
      obtain ⟨S, hS, hold⟩ := hh hg
      rw [hsome]
      rcases hyx with rfl | ⟨a, ha, rfl⟩
      · refine ⟨hc, y, hy, ⟨hl.visible, fun _ kept torn => ?_⟩, hw,
          fun _ => ⟨S, hS, hold.mono hsub⟩⟩
        obtain ⟨S', hS'⟩ := hl.crash hg kept torn
        exact ⟨S', hS'.mono hsub⟩
      · have hmix' := hmix hg
        rw [hS] at hy hmix' hslot
        refine ⟨hc, _, hy, hl.write hold hmix' hslot ha, ?_, fun _ => ⟨S, hS, ?_⟩⟩
        · rw [← hS]
          exact hw.write (a.slotWrite _)
        · rw [← ha] at hmix' hslot ⊢
          exact hold.write hmix' hslot a.count

theorem Sound.next (hf : config.fsyncHardState = true) {k k' : Keeper} {a : Action}
    (hs : Sound config k.good k.host) (hn : k.next config a = some k') (hok : k.Clean a k') :
    Sound config k'.good k'.host := by
  cases a with
  | persist state faults =>
      obtain ⟨h, good⟩ := k
      cases h with
      | down d => cases hn
      | up b =>
          have hp := Sound.persist hf faults hs hok
          simp only [Keeper.next] at hn
          split at hn
          case h_1 u b' hb =>
            cases hn
            rw [hb] at hp
            exact hp
          case h_2 e b' hb =>
            cases hn
            rw [hb] at hp
            exact hp
  | start draw faults =>
      obtain ⟨h', hh', rfl⟩ := Option.map_eq_some_iff.1 hn
      cases hd : k.host with
      | down d =>
          rw [hd] at hs hh'
          exact Sound.start hs hh'
      | up b =>
          rw [hd] at hh'
          cases hh'
  | exit =>
      obtain ⟨h', hh', rfl⟩ := Option.map_eq_some_iff.1 hn
      exact hs.exit hh'
  | crash kept torn =>
      obtain ⟨h', hh', rfl⟩ := Option.map_eq_some_iff.1 hn
      exact hs.crash hh'

end Steps

end Keeper

/-- **`raft.state` survives torn writes**: after a `persist` that succeeded and any
number of attempts and restarts since, the next `load_hard_state` returns the state of
the last success or of an attempt after it, and the next write goes to the slot that
this state was not read from. -/
theorem hardState_survives {config : BrokerConfig} (hf : config.fsyncHardState = true)
    {d : Disk} (hd : (stateFile d).visible = replay (stateFile d).durable (stateFile d).pending)
    {k : Keeper} (hr : Keeper.Runs config ⟨.down d, []⟩ k) (hgood : k.good ≠ [])
    {d' : Disk} (hdown : k.host = .down d') :
    ∃ hard S t, @Broker.loadHardState healthy d' = .ok (hard, S + 1) t ∧ hard ∈ k.good ∧
      ∃ p < 2, decodeStateSlot (slot (stateFile d').visible p) = .ok ⟨hard, S⟩ ∧
        stateSlotOffset (S + 1) = (1 - p) * kStateSlotBytes := by
  have hinit : Keeper.Sound config [] (.down d) := ⟨hd, fun h => absurd rfl h⟩
  have hs : Keeper.Sound config k.good k.host :=
    hr.invariant (I := fun k => Keeper.Sound config k.good k.host) hinit
      fun _ _ _ h hn hok => h.next hf hn hok
  rw [hdown] at hs
  obtain ⟨S, hS⟩ := Lasting.holds hs hgood
  obtain ⟨hard, S', hrec, hmem, hdec, -⟩ := hS.recover
  obtain ⟨t, ht⟩ := Broker.loadHardState_of_recover hrec
  refine ⟨hard, S', t, ht, hmem, S' % 2, Nat.mod_lt S' (by omega), hdec, ?_⟩
  unfold stateSlotOffset
  congr 1
  omega

/-- The host is down and something must be kept. -/
def Keeper.downWith (good : List HardState) (k : Keeper) : Bool :=
  match k.host with
  | .down _ => k.good == good
  | .up _ => false

/-- A vote is persisted, the next one is torn after seven bytes of its slot. -/
theorem hardState_survives_tornVote :
    ∃ k d hard S t, Keeper.Runs brokerZero ⟨.down {}, []⟩ k ∧ k.host = .down d ∧
      k.good = [⟨1, 1⟩, ⟨2, 0⟩] ∧ @Broker.loadHardState healthy d = .ok (hard, S + 1) t ∧
      hard ∈ k.good := by
  obtain ⟨k, hr, hp⟩ := Verified.Machine.exists_of_replay (Keeper.next brokerZero)
    Keeper.Clean ⟨.down {}, []⟩
    [.start 0 healthy, .persist ⟨1, 1⟩ healthy, .persist ⟨2, 0⟩ (refusing .fsync),
      .crash (fun _ => 0) (fun _ => 7)]
    (p := Keeper.downWith [⟨1, 1⟩, ⟨2, 0⟩]) (by decide +kernel)
  unfold Keeper.downWith at hp
  cases hk : k.host with
  | up b =>
      rw [hk] at hp
      cases hp
  | down d =>
      rw [hk] at hp
      have hgood : k.good = [⟨1, 1⟩, ⟨2, 0⟩] := beq_iff_eq.1 hp
      obtain ⟨hard, S, t, hload, hmem, -⟩ := hardState_survives rfl rfl hr
        (by rw [hgood]; exact List.cons_ne_nil _ _) hk
      exact ⟨k, d, hard, S, t, hr, hk, hgood, hload, hmem⟩

end LogEngine.Server
