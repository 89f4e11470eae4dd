import LogEngine.Raft.Safety
import LogEngine.Server.Durable
import LogEngine.Server.Mirror
import LogEngine.Storage.Shutdown

/-!
# A fleet of brokers and a cluster of replicas

`Raft.Cluster` is what the consensus layer is proved about: replicas with logs of batches.
`Fleet` is what runs: brokers with segments, page caches and `raft.state`, which crash and
are started again.  On disks that refuse nothing, a fleet moves as a cluster does: each deed
of a fleet is a step of the cluster or leaves it where it is (`Paired.next`).

What the cluster guarantees then holds of bytes on disks: of the batches that two brokers
store for one offset in one term, and of what brokers have reported as committed.  And what a
replica keeps through a restart, a broker finds on its disk.
-/

namespace LogEngine.Server

open Base Io Io.Disk Storage Verified.Fallible Verified.Tiling Verified.Machine
open Verified.Replication (Committed Grows)
open Raft (Cluster Envelope Message Replica Membership)

/-! ## Deeds -/

/-- What can happen to a fleet whose disks refuse nothing. -/
inductive Deed
  | start (i draw : Nat)
  | tick (i draw : Nat)
  /-- Member `i` gets the `k`-th message ever sent. -/
  | deliver (i k draw : Nat)
  | propose (i : Nat) (builder : BatchBuilder)
  /-- The process of member `i` ends. -/
  | exit (i : Nat)
  /-- Member `i` loses power. -/
  | crash (i : Nat) (kept torn : FileName → Nat)

namespace Deed

/-- The member that does it. -/
def member : Deed → Nat
  | .start i _ | .tick i _ | .deliver i _ _ | .propose i _ | .exit i | .crash i _ _ => i

/-- The action of the fleet, `none` if there is no such message. -/
def action (f : Fleet) : Deed → Option Server.Action
  | .start _ draw => some (.start draw healthy)
  | .tick _ draw => some (.call (.tick draw) healthy)
  | .deliver _ k draw => (f.wire[k]?).map fun p => .call (.receive draw p.1 p.2) healthy
  | .propose _ builder => some (.call (.propose builder) healthy)
  | .exit _ => some .exit
  | .crash _ kept torn => some (.crash kept torn)

end Deed

namespace Fleet

/-- Member `i` has come to `host`, and what it has sent is on the wire. -/
def put (f : Fleet) (i : Nat) (host : Host) : Fleet :=
  ⟨Function.update f.host i host, f.wire ++ host.sent⟩

def proceed (D : Deployment) (f : Fleet) (deed : Deed) : Option Fleet :=
  (deed.action f).bind fun a => f.next D ⟨deed.member, a⟩

/-- The host is one whose next batch has an epoch and an offset that fit their fields. -/
def Fits : Host → Prop
  | .down _ => True
  | .up b => b.raft.hard.term < 0x100000000 ∧ b.log.nextOffset < 0x10000000000000000

instance : DecidablePred Fits
  | .down _ => .isTrue trivial
  | .up b => inferInstanceAs (Decidable (b.raft.hard.term < 0x100000000 ∧
      b.log.nextOffset < 0x10000000000000000))

/-- A broker is started beside sidecars that can be trusted, a batch is proposed where it can
be stamped, and the counters fit their fields. -/
def Calm (D : Deployment) (f : Fleet) (deed : Deed) (f' : Fleet) : Prop :=
  (f'.host deed.member).InRange ∧
    match deed with
    | .start i _ => ∀ base, Credible (D.broker i).logOptions.segment (f.host i).disk.file base
    | .propose i _ => Fits (f.host i)
    | _ => True

/-- The broker of a host that is up. -/
def upBroker : Host → Option Broker
  | .down _ => none
  | .up b => some b

/-- No follower adopts a commit index past what the message confirms. -/
def Moderate (f : Fleet) : Deed → Prop
  | .deliver i k _ => ∀ b ∈ upBroker (f.host i), ∀ p ∈ f.wire[k]?,
      p.1.target = i → ¬ b.raft.Overreaches p.1
  | _ => True

/-- Runs of a fleet on disks that refuse nothing. -/
def CalmRuns (D : Deployment) : Fleet → Fleet → Prop :=
  Verified.Machine.Runs (proceed D) (Calm D)

/-- The runs among them in which no follower adopts too much. -/
def ModerateRuns (D : Deployment) : Fleet → Fleet → Prop :=
  Verified.Machine.Runs (proceed D) fun f deed f' => Calm D f deed f' ∧ f.Moderate deed

/-- Nobody has run, and the disks are empty. -/
structure Unused (f : Fleet) : Prop where
  hosts : ∀ i, ∃ d, f.host i = .down d ∧ ∀ g, d.file g = none
  wire : f.wire = []

instance (f : Fleet) : DecidablePred f.Moderate
  | .deliver i k _ => inferInstanceAs (Decidable (∀ b ∈ upBroker (f.host i), ∀ p ∈ f.wire[k]?,
      p.1.target = i → ¬ b.raft.Overreaches p.1))
  | .start _ _ | .tick _ _ | .propose _ _ | .exit _ | .crash _ _ _ => .isTrue trivial

/-- A deed as in a run on fixed inputs, where no segment is full and nothing has a sidecar. -/
def Plain (f : Fleet) (deed : Deed) (f' : Fleet) : Prop :=
  (f'.host deed.member).InRange ∧ Fits (f.host deed.member) ∧ f.Moderate deed ∧
    ∀ p ∈ (f.host deed.member).disk.files.entries, p.1 = .log 0 ∨ p.1 = .state

instance (f : Fleet) (deed : Deed) (f' : Fleet) : Decidable (Plain f deed f') :=
  inferInstanceAs (Decidable (_ ∧ _ ∧ _ ∧ ∀ _ ∈ _, _))

private theorem blank_of_names {d : Disk}
    (h : ∀ p ∈ d.files.entries, p.1 = .log 0 ∨ p.1 = .state) : Blank d.file := by
  intro base y hy
  rcases h _ (AList.mem_lookup_iff.1 hy) with hname | hname <;> cases hname

theorem Plain.calm {D : Deployment} {f f' : Fleet} {deed : Deed} (h : Plain f deed f') :
    Calm D f deed f' := by
  obtain ⟨hin, hfits, -, hnames⟩ := h
  refine ⟨hin, ?_⟩
  cases deed with
  | start i draw => exact (blank_of_names hnames).credible _
  | propose i builder => exact hfits
  | _ => exact trivial

private theorem moderateRuns_of_plain {D : Deployment} {f f' : Fleet}
    (h : Verified.Machine.Runs (proceed D) Plain f f') : ModerateRuns D f f' :=
  h.mono fun _ _ _ hplain => ⟨hplain.calm, hplain.2.2.1⟩

theorem ModerateRuns.calm {D : Deployment} {f f' : Fleet} (h : ModerateRuns D f f') :
    CalmRuns D f f' :=
  Verified.Machine.Runs.mono (fun _ _ _ hok => hok.1) h

end Fleet

/-! ## Fleets and clusters -/

/-- The host is the replica. -/
def Host.Stands (config : BrokerConfig) (r : Replica) : Host → Prop
  | .up b => b.Mirrors config r
  | .down d => Rests config d r

/-- The fleet is the cluster. -/
structure Paired (D : Deployment) (f : Fleet) (s : Cluster) : Prop where
  hosts : ∀ i ∈ D.membership.members, (f.host i).Stands (D.broker i) (s.replica i)
  wire : ∀ p ∈ f.wire, ∃ env ∈ s.sent, Conveys p env

section Pairs

variable {D : Deployment} {f f' : Fleet} {s s' : Cluster}

theorem Fleet.Unused.paired (h : f.Unused) : Paired D f (Cluster.fresh D.membership) := by
  constructor
  · intro i _
    obtain ⟨d, hd, hnone⟩ := h.hosts i
    have hstate : stateFile d = {} := by rw [stateFile, hnone]; rfl
    rw [hd]
    refine ⟨.inr ⟨fun b => hnone _, rfl⟩, ?_, 0, ?_⟩
    · rw [hstate]
      exact ⟨rfl, rfl⟩
    · rw [hstate]
      rfl
  · intro p hp
    rw [h.wire] at hp
    cases hp

/-- What a broker says in a call is on the wire of the cluster. -/
theorem Broker.Utters.sent {envs : List Envelope} {b b' : Broker} (h : b.hushed.Utters envs b')
    {p : Message × Bytes} (hp : p ∈ (Host.up b').sent) : ∃ env ∈ envs, Conveys p env := by
  obtain ⟨new, hnew, hsent⟩ := h
  obtain ⟨o, ho, hevent⟩ := mem_sent hp
  rw [hnew] at ho
  exact hsent o (by simpa [hushed] using ho) p.1 p.2 hevent

theorem Paired.mirrors (h : Paired D f s) {i : Nat} (hi : i ∈ D.membership.members) {b : Broker}
    (hb : f.host i = .up b) : b.Mirrors (D.broker i) (s.replica i) := by
  have hstands := h.hosts i hi
  rwa [hb] at hstands

/-- One member of a pair acts, and the others stay where they are. -/
theorem Paired.update (h : Paired D f s) {i : Nat} {host : Host} {out : Replica × List Envelope}
    (hhost : host.Stands (D.broker i) out.1)
    (hsent : ∀ p ∈ host.sent, ∃ env ∈ out.2, Conveys p env) :
    Paired D (f.put i host) (s.act i out) := by
  constructor
  · intro j hj
    by_cases hji : j = i
    · subst hji
      simp only [Fleet.put, Cluster.act, Function.update_self]
      exact hhost
    · simp only [Fleet.put, Cluster.act, Function.update_of_ne hji]
      exact h.hosts j hj
  · intro p hp
    rcases List.mem_append.1 hp with hp | hp
    · obtain ⟨env, henv, hc⟩ := h.wire p hp
      exact ⟨env, List.mem_append_left _ henv, hc⟩
    · obtain ⟨env, henv, hc⟩ := hsent p hp
      exact ⟨env, List.mem_append_right _ henv, hc⟩

/-- A member that changes nothing the cluster knows of. -/
theorem Paired.still (h : Paired D f s) {i : Nat} {host : Host}
    (hhost : host.Stands (D.broker i) (s.replica i)) (hsent : host.sent = []) :
    Paired D (f.put i host) s := by
  have hself : s.act i (s.replica i, []) = s := by simp [Cluster.act]
  rw [← hself]
  exact h.update hhost (by simp [hsent])

/-- What a deed does to the fleet. -/
theorem Fleet.proceed_eq_some {deed : Deed} (h : f.proceed D deed = some f') :
    deed.member ∈ D.membership.members ∧ ∃ a host, deed.action f = some a ∧
      (f.host deed.member).next (D.broker deed.member) a = some host ∧
      f' = f.put deed.member host := by
  obtain ⟨a, ha, hn⟩ := Option.bind_eq_some_iff.1 h
  unfold Fleet.next at hn
  split at hn
  case isFalse => cases hn
  case isTrue hmem =>
    obtain ⟨host, hhost, rfl⟩ := Option.map_eq_some_iff.1 hn
    exact ⟨hmem.1, a, host, ha, hhost, rfl⟩

/-- A call of a broker that follows a step of its replica. -/
theorem Paired.followed (h : Paired D f s) {i : Nat} {b b' : Broker}
    {out : Replica × List Envelope} (hf : Broker.Follows (D.broker i) b.hushed b' out)
    (hin : (Host.up b').InRange) :
    Paired D (f.put i (.up b')) (s.act i out) :=
  h.update (hf.1 hin) fun _ hp => hf.2.sent hp

/-! ## One deed -/

theorem Host.next_call {config : BrokerConfig} {h h' : Host} {c : Broker.Call} {faults : Faults}
    (hn : h.next config (.call c faults) = some h') :
    ∃ b, h = .up b ∧ h' = .up (b.after faults c) := by
  cases h with
  | down d => cases hn
  | up b => exact ⟨b, rfl, (Option.some.inj hn).symm⟩

theorem Host.next_start {config : BrokerConfig} {h h' : Host} {draw : Nat} {faults : Faults}
    (hn : h.next config (.start draw faults) = some h') :
    ∃ d, h = .down d ∧ ((∃ t, h' = .down t) ∨
      ∃ b t, @Broker.start faults config draw d = .ok b t ∧ h' = .up b) := by
  cases h with
  | up b => cases hn
  | down d =>
      refine ⟨d, rfl, ?_⟩
      cases hstart : @Broker.start faults config draw d with
      | error e t =>
          simp only [Host.next, hstart, Option.some.injEq] at hn
          exact .inl ⟨t, hn.symm⟩
      | ok b t =>
          simp only [Host.next, hstart, Option.some.injEq] at hn
          exact .inr ⟨b, t, rfl, hn.symm⟩

theorem Host.next_exit {config : BrokerConfig} {h h' : Host} (hn : h.next config .exit = some h') :
    h' = .down h.disk := by
  cases h with
  | down d => cases hn
  | up b => exact (Option.some.inj hn).symm

theorem Host.next_crash {config : BrokerConfig} {h h' : Host} {kept torn : FileName → Nat}
    (hn : h.next config (.crash kept torn) = some h') : h' = .down (h.disk.crash kept torn) := by
  cases h <;> exact (Option.some.inj hn).symm

/-- What a deed of a fleet is in the cluster: nothing, or one of its steps, and one that keeps
to what the message confirms if the deed does. -/
def Matches (D : Deployment) (f : Fleet) (s : Cluster) (deed : Deed) (s' : Cluster) : Prop :=
  s' = s ∨ ∃ act, s.next D.membership act = some s' ∧ (f.Moderate deed → s.Clamped act)

private theorem clamped_of_arriving {act : Raft.Action} (h : s.arriving act = none) :
    s.Clamped act := by
  rintro ⟨env, henv, -⟩
  rw [h] at henv
  cases henv

section Step

variable (hroomy : ∀ i ∈ D.membership.members, Broker.Roomy (D.broker i)) (h : Paired D f s)
  {i : Nat} (hi : i ∈ D.membership.members) {host : Host}
include hroomy h hi

theorem Paired.start {draw : Nat}
    (hn : (f.host i).next (D.broker i) (.start draw healthy) = some host)
    (hcredible : ∀ base, Credible (D.broker i).logOptions.segment (f.host i).disk.file base) :
    ∃ s', Paired D (f.put i host) s' ∧
      Matches D f s (.start i draw) s' := by
  have hstands := h.hosts i hi
  cases hhost : f.host i with
  | up b =>
      rw [hhost] at hn
      cases hn
  | down d =>
      rw [hhost] at hn hstands hcredible
      obtain ⟨b, t, hstart, hmirrors, hquiet⟩ :=
        (hstands.start (hroomy i hi) hcredible draw).exists_ok fun _ hf => hf
      simp only [Host.next, hstart, Option.some.injEq] at hn
      subst hn
      rw [D.raft_eq i hi] at hmirrors
      refine ⟨_, @Paired.update D f s h i (.up b) (_, []) hmirrors (by simp [Host.sent, hquiet]),
        .inr ⟨.restart i draw, if_pos hi, fun _ => clamped_of_arriving rfl⟩⟩

theorem Paired.tick (hs : s.Reachable D.membership) {draw : Nat}
    (hn : (f.host i).next (D.broker i) (.call (.tick draw) healthy) = some host)
    (hin : host.InRange) :
    ∃ s', Paired D (f.put i host) s' ∧
      Matches D f s (.tick i draw) s' := by
  obtain ⟨b, hb, rfl⟩ := Host.next_call hn
  obtain ⟨a, ha⟩ := hs.refines
  have hsettled := ha.member i hi
  have hstands := h.mirrors hi hb
  have hfollows := Broker.tick_follows (hroomy i hi) hstands hsettled.pendingTruncate
    hsettled.pendingAppend draw
  refine ⟨_, h.followed hfollows hin, .inr ⟨.tick i draw, ?_, ?_⟩⟩
  · exact if_pos hi
  · exact fun _ => clamped_of_arriving rfl

theorem Paired.deliver (hs : s.Reachable D.membership) {k draw : Nat} {p : Message × Bytes}
    (hp : f.wire[k]? = some p)
    (hn : (f.host i).next (D.broker i) (.call (.receive draw p.1 p.2) healthy) = some host)
    (hin : host.InRange) :
    ∃ s', Paired D (f.put i host) s' ∧
      Matches D f s (.deliver i k draw) s' := by
  obtain ⟨b, hb, rfl⟩ := Host.next_call hn
  obtain ⟨a, ha⟩ := hs.refines
  have hstands := h.mirrors hi hb
  have hid : (D.broker i).raft.id = i := by rw [D.raft_eq i hi, D.membership.config_id i hi]
  by_cases htarget : p.1.target = i
  case neg =>
    rw [Broker.receive_dropped hstands (hid.symm ▸ htarget)]
    exact ⟨s, h.still hstands.hushed rfl, .inl rfl⟩
  obtain ⟨env, henv, hconveys⟩ := h.wire p (List.mem_of_getElem? hp)
  obtain ⟨n, hsent⟩ := List.mem_iff_getElem?.1 henv
  have hto : env.message.target = i := hconveys.message ▸ htarget
  have hfeasible := (ha.member i hi).feasible ha.sound (ha.sent env henv) draw
  have hfollows := Broker.receive_follows (hroomy i hi) hstands hconveys (htarget.trans hid.symm)
    hfeasible
  refine ⟨_, h.followed hfollows hin, .inr ⟨.deliver n draw, ?_, fun hmoderate => ?_⟩⟩
  · simp only [Cluster.next, hsent, hto]
  · rintro ⟨env', henv', hover⟩
    obtain rfl := Option.some.inj (hsent.symm.trans henv')
    rw [hto, ← hstands.raft, ← hconveys.message] at hover
    exact hmoderate b (by rw [hb]; rfl) p hp htarget hover

theorem Paired.propose (hs : s.Reachable D.membership) {builder : BatchBuilder}
    (hn : (f.host i).next (D.broker i) (.call (.propose builder) healthy) = some host)
    (hfits : Fleet.Fits (f.host i)) (hin : host.InRange) :
    ∃ s', Paired D (f.put i host) s' ∧
      Matches D f s (.propose i builder) s' := by
  obtain ⟨b, hb, rfl⟩ := Host.next_call hn
  obtain ⟨a, ha⟩ := hs.refines
  have hsettled := ha.member i hi
  have hstands := h.mirrors hi hb
  rw [hb] at hfits
  rcases Broker.propose_follows (hroomy i hi) hstands hsettled.pendingTruncate
    hsettled.pendingAppend hfits.1 hfits.2 builder with hdeclined | ⟨g, hfollows⟩
  · rw [hdeclined]
    exact ⟨s, h.still hstands.hushed rfl, .inl rfl⟩
  · refine ⟨_, h.followed hfollows hin, .inr ⟨.propose i g.payload, ?_, ?_⟩⟩
    · exact if_pos ⟨hi, g.payload_ne⟩
    · exact fun _ => clamped_of_arriving rfl

omit hroomy in
theorem Paired.rests : Rests (D.broker i) (f.host i).disk (s.replica i) := by
  have hstands := h.hosts i hi
  cases hhost : f.host i with
  | up b =>
      rw [hhost] at hstands
      exact hstands.rests
  | down d =>
      rw [hhost] at hstands
      exact hstands

omit hi in
/-- Each deed of the fleet is a step of the cluster, or none. -/
theorem Paired.next (hs : s.Reachable D.membership) {deed : Deed}
    (hn : f.proceed D deed = some f') (hcalm : Fleet.Calm D f deed f') :
    ∃ s', Paired D f' s' ∧ Matches D f s deed s' := by
  obtain ⟨hi, action, host, haction, hhost, rfl⟩ := Fleet.proceed_eq_some hn
  obtain ⟨hin, hcalm⟩ := hcalm
  simp only [Fleet.put, Function.update_self] at hin
  cases deed with
  | start i draw =>
      cases haction
      exact h.start hroomy hi hhost hcalm
  | tick i draw =>
      cases haction
      exact h.tick hroomy hi hs hhost hin
  | deliver i k draw =>
      obtain ⟨p, hp, rfl⟩ := Option.map_eq_some_iff.1 haction
      exact h.deliver hroomy hi hs hp hhost hin
  | propose i builder =>
      cases haction
      exact h.propose hroomy hi hs hhost hcalm hin
  | exit i =>
      cases haction
      rw [Host.next_exit hhost]
      exact ⟨s, h.still (h.rests hi) rfl, .inl rfl⟩
  | crash i kept torn =>
      cases haction
      rw [Host.next_crash hhost]
      exact ⟨s, h.still ((h.rests hi).crash kept torn) rfl, .inl rfl⟩

end Step

/-! ## Whole runs -/

theorem Matches.steps {deed : Deed} (h : Matches D f s deed s') : s.Steps D.membership s' := by
  rcases h with rfl | ⟨act, hn, -⟩
  · exact .refl
  · exact .single ⟨act, hn⟩

private theorem fresh_reachable (M : Membership) : (Cluster.fresh M).Reachable M :=
  ⟨_, Cluster.fresh_initial _, .refl⟩

private theorem reachable_of_steps (h : s.Reachable D.membership) (hr : s.Steps D.membership s') :
    s'.Reachable D.membership := by
  obtain ⟨s₀, h₀, hs⟩ := h
  exact ⟨s₀, h₀, hs.trans hr⟩

end Pairs

section Runs

variable {D : Deployment} (hroomy : ∀ i ∈ D.membership.members, Broker.Roomy (D.broker i))
  {f₀ f f' g : Fleet} {s : Cluster}
include hroomy

theorem Paired.runs (h : Paired D f s) (hs : s.Reachable D.membership)
    (hr : Fleet.CalmRuns D f f') :
    ∃ s', s.Steps D.membership s' ∧ Paired D f' s' := by
  refine hr.invariant (I := fun f' => ∃ s', s.Steps D.membership s' ∧ Paired D f' s')
    ⟨s, .refl, h⟩ ?_
  rintro f deed f' ⟨t, ht, hpaired⟩ hn hcalm
  obtain ⟨t', hpaired', hmatches⟩ := hpaired.next hroomy (reachable_of_steps hs ht) hn hcalm
  exact ⟨t', ht.trans hmatches.steps, hpaired'⟩

/-- Every run of a fleet from empty disks is a run of a cluster. -/
theorem Fleet.Unused.exists_paired (h₀ : f₀.Unused) (hr : Fleet.CalmRuns D f₀ f) :
    ∃ s, s.Reachable D.membership ∧ Paired D f s := by
  obtain ⟨s, hs, hpaired⟩ := h₀.paired.runs hroomy (fresh_reachable _) hr
  exact ⟨s, reachable_of_steps (fresh_reachable _) hs, hpaired⟩

end Runs

/-! ## A run of three brokers -/

/-- Three hosts that nobody has used. -/
def threeHosts : Fleet := ⟨fun _ => .down {}, []⟩

theorem threeHosts_unused : threeHosts.Unused := ⟨fun _ => ⟨{}, rfl, fun _ => rfl⟩, rfl⟩

theorem threeBrokers_roomy (i : Nat) (_ : i ∈ threeBrokers.membership.members) :
    Broker.Roomy (threeBrokers.broker i) :=
  ⟨rfl, by show 0x10000 ≤ 0x2000000; decide, by show 0x2000000 ≤ kMaxFileBytes; decide⟩

/-- One batch of one record. -/
def oneRecord : BatchBuilder where
  records := [[41]]
  fits := by decide

/-- Broker `0` is elected and has its first batch stored by broker `1`. -/
def firstBatch : List Deed :=
  [.start 0 0, .start 1 0, .start 2 0, .tick 0 0, .deliver 1 0 0, .deliver 0 2 0,
    .propose 0 oneRecord, .deliver 1 5 0]

/-- The brokers `i` and `j` are up and as in `p`. -/
def Fleet.both (i j : Nat) (p : Broker → Broker → Bool) (f : Fleet) : Bool :=
  match f.host i, f.host j with
  | .up b, .up c => p b c
  | _, _ => false

theorem Fleet.exists_of_both {i j : Nat} {p : Broker → Broker → Bool} {f : Fleet}
    (h : f.both i j p = true) : ∃ b c, f.host i = .up b ∧ f.host j = .up c ∧ p b c = true := by
  unfold Fleet.both at h
  split at h
  case h_1 b c hb hc => exact ⟨b, c, hb, hc, h⟩
  case h_2 => cases h

/-- A list of deeds, carried out. -/
theorem Fleet.exists_of_deeds (f : Fleet) (deeds : List Deed) {p : Fleet → Bool}
    (h : (replay (proceed threeBrokers) Plain f deeds).any p = true) :
    ∃ g, ModerateRuns threeBrokers f g ∧ p g = true := by
  obtain ⟨g, hg, hp⟩ := exists_of_replay _ _ f deeds h
  exact ⟨g, moderateRuns_of_plain hg, hp⟩

section Runs

variable {D : Deployment} (hroomy : ∀ i ∈ D.membership.members, Broker.Roomy (D.broker i))
  {f₀ f f' g : Fleet}
include hroomy

/-- **Refinement.**  On disks that refuse nothing, whatever a fleet of brokers does from one
state to another, with any deliveries, restarts and power cuts, a cluster of replicas does as
well: the nodes are the same, the batches in the files are the logs, `raft.state` holds the
hard states, what is on the wire was sent, and no broker has stopped. -/
theorem fleet_refines_cluster (h₀ : f₀.Unused) (hr : Fleet.CalmRuns D f₀ f)
    (hr' : Fleet.CalmRuns D f f') :
    ∃ s s' : Cluster, s.Reachable D.membership ∧ s.Steps D.membership s' ∧ Paired D f s ∧
      Paired D f' s' := by
  obtain ⟨s, hs, hpaired⟩ := h₀.exists_paired hroomy hr
  obtain ⟨s', hsteps, hpaired'⟩ := hpaired.runs hroomy hs hr'
  exact ⟨s, s', hs, hsteps, hpaired, hpaired'⟩

omit hroomy in
theorem fleet_refines_cluster_firstBatch :
    ∃ f f' : Fleet, f.Leads 0 1 ∧ f'.Leads 0 1 ∧ ∃ s s' : Cluster,
      s.Reachable threeBrokers.membership ∧ s.Steps threeBrokers.membership s' ∧
      Paired threeBrokers f s ∧ Paired threeBrokers f' s' := by
  obtain ⟨f, hf, hp⟩ := Fleet.exists_of_deeds threeHosts firstBatch
    (p := fun f => f.leads 0 1 && (replay (Fleet.proceed threeBrokers) Fleet.Plain f
      [.deliver 0 7 0, .crash 2 (fun _ => 0) (fun _ => 0), .start 2 0]).any (Fleet.leads 0 1))
    (by decide +kernel)
  obtain ⟨hleads, hp⟩ := Bool.and_eq_true_iff.1 hp
  obtain ⟨f', hf', hleads'⟩ := Fleet.exists_of_deeds f _ hp
  exact ⟨f, f', Fleet.leads_iff.1 hleads, Fleet.leads_iff.1 hleads',
    fleet_refines_cluster threeBrokers_roomy threeHosts_unused hf.calm hf'.calm⟩

/-! ## Bytes on disks -/

/-- **Log matching of what is stored.**  Two brokers that store a record of one epoch at one
offset store the same bytes up to the end of the batch that holds it. -/
theorem fleet_stored_matching (h₀ : f₀.Unused) (hr : Fleet.CalmRuns D f₀ f) {i j : Nat}
    (hi : i ∈ D.membership.members) (hj : j ∈ D.membership.members) {b c : Broker}
    (hb : f.host i = .up b) (hc : f.host j = .up c) {x y : Storage.Frame}
    (hx : x ∈ b.store.view.frames) (hy : y ∈ c.store.view.frames)
    (hepoch : x.header.leaderEpoch = y.header.leaderEpoch) {k : Nat}
    (hkx : Extent.base x ≤ k ∧ k < Extent.stop x) (hky : Extent.base y ≤ k ∧ k < Extent.stop y) :
    ∃ p, p ++ [x] <+: b.store.view.frames ∧ p ++ [x] <+: c.store.view.frames := by
  obtain ⟨s, hs, hpaired⟩ := h₀.exists_paired hroomy hr
  obtain ⟨a, ha⟩ := hs.refines
  have hli : a.log i = b.store.view.batches :=
    (ha.member i hi).stands.log.trans (hpaired.mirrors hi hb).log.symm
  have hlj : a.log j = c.store.view.batches :=
    (ha.member j hj).stands.log.trans (hpaired.mirrors hj hc).log.symm
  obtain ⟨p, r, hp⟩ := List.append_of_mem hx
  obtain ⟨q, r', hq⟩ := List.append_of_mem hy
  have hpx : p ++ [x] <+: b.store.view.frames := ⟨r, by rw [hp]; simp⟩
  have hqy : q ++ [y] <+: c.store.view.frames := ⟨r', by rw [hq]; simp⟩
  have hpx' : p.map Frame.batch ++ [x.batch] <+: a.log i := by
    simpa [hli, View.batches] using hpx.map Frame.batch
  have hqy' : q.map Frame.batch ++ [y.batch] <+: a.log j := by
    simpa [hlj, View.batches] using hqy.map Frame.batch
  rw [← x.batch_base, ← x.batch_stop] at hkx
  rw [← y.batch_base, ← y.batch_stop] at hky
  have heq := (ha.sound.inv.owned i).eq_of_overlap (ha.sound.inv.owned j) ha.sound.inv.leader_tiles
    hpx' hqy' hepoch hkx hky
  refine ⟨p, hpx, View.isPrefix_of_batches ?_⟩
  rw [List.map_append, List.map_singleton, heq, ← hlj]
  exact hqy'

omit hroomy in
theorem fleet_stored_matching_firstBatch :
    ∃ (f : Fleet) (b c : Broker), f.host 0 = .up b ∧ f.host 1 = .up c ∧
      ∃ x p, p ++ [x] <+: b.store.view.frames ∧ p ++ [x] <+: c.store.view.frames := by
  obtain ⟨f, hf, hp⟩ := Fleet.exists_of_deeds threeHosts firstBatch
    (p := Fleet.both 0 1 fun b c => b.store.view.frames.any fun x =>
      c.store.view.frames.any fun y =>
      decide (x.header.leaderEpoch = y.header.leaderEpoch ∧
        (Extent.base x ≤ 0 ∧ 0 < Extent.stop x) ∧ Extent.base y ≤ 0 ∧ 0 < Extent.stop y))
    (by decide +kernel)
  obtain ⟨b, c, hb, hc, hp⟩ := Fleet.exists_of_both hp
  obtain ⟨x, hx, hp⟩ := List.any_eq_true.1 hp
  obtain ⟨y, hy, hp⟩ := List.any_eq_true.1 hp
  obtain ⟨hepoch, hkx, hky⟩ := of_decide_eq_true hp
  exact ⟨f, b, c, hb, hc, x, fleet_stored_matching threeBrokers_roomy threeHosts_unused hf.calm
    (by decide) (by decide) hb hc hx hy hepoch hkx hky⟩

end Runs

/-! ## Reports -/

section Reports

variable [Faults] {b b' : Broker} {c : Broker.Call}

theorem Broker.Returns.seen (h : Broker.Returns b c b')
    (hb : b.raft.commitIndex ≤ b.lastCommitSeen) : b'.raft.commitIndex ≤ b'.lastCommitSeen := by
  cases h with
  | declined => exact hb
  | tick _ h => exact h.seen
  | receive _ h => exact h.seen
  | unwritten => exact hb
  | unflushed => exact hb
  | proposed _ _ _ _ h => exact h.seen

theorem Broker.Drives.commitIndex {entry : Bytes} (h : Broker.Drives entry b b') :
    b'.raft.commitIndex = b.raft.commitIndex := by
  rcases h.raft with heq | heq <;> rw [heq] <;> rfl

/-- What a call reports as committed is what the node has committed in it. -/
theorem Broker.Returns.raises (h : Broker.Returns b c b') (hempty : b.observed = [])
    (hack : b.config.ackOnLocalAppend = false) {o : Observation} (ho : o ∈ b'.observed)
    {start stop : Nat} (hevent : o.event = .committed start stop) :
    b.lastCommitSeen < stop ∧ stop = b'.raft.commitIndex := by
  have hnone : o ∉ b.observed := hempty ▸ List.not_mem_nil
  cases h with
  | declined => exact absurd ho hnone
  | tick _ h =>
      obtain ⟨hlt, heq, -⟩ := h.reports hempty ho hevent
      exact ⟨hlt, heq.trans h.commitIndex.symm⟩
  | receive _ h =>
      obtain ⟨hlt, heq, -⟩ := h.reports hempty ho hevent
      exact ⟨hlt, heq.trans h.commitIndex.symm⟩
  | unwritten => exact absurd ho hnone
  | unflushed => exact absurd ho hnone
  | @proposed _ k s s' _ _ _ _ _ h =>
      have hacked : ({ b with store := s' } : Broker).acked = { b with store := s' } := by
        rw [Broker.acked, if_neg (by simp [hack])]
      rw [hacked] at h
      obtain ⟨hlt, heq, -⟩ := h.reports hempty ho hevent
      exact ⟨hlt, heq.trans h.commitIndex.symm⟩

end Reports

/-- The broker has reported as far as its node has committed. -/
def Host.Seen : Host → Prop
  | .down _ => True
  | .up b => b.raft.commitIndex ≤ b.lastCommitSeen

theorem Host.Seen.next {config : BrokerConfig} {h h' : Host} {a : Action} (hseen : h.Seen)
    (hn : h.next config a = some h') : h'.Seen := by
  cases a with
  | start draw faults =>
      obtain ⟨d, rfl, ⟨t, rfl⟩ | ⟨b, t, hstart, rfl⟩⟩ := Host.next_start hn
      · exact trivial
      · obtain ⟨l, u, hard, epochs, v, -, -, -, -, -, -, hraft⟩ := Broker.start_view hstart
        show b.raft.commitIndex ≤ _
        rw [hraft]
        exact Nat.zero_le _
  | call c faults =>
      obtain ⟨b, rfl, rfl⟩ := Host.next_call hn
      exact (Broker.after_returns b faults c).seen hseen
  | exit =>
      rw [Host.next_exit hn]
      exact trivial
  | crash kept torn =>
      rw [Host.next_crash hn]
      exact trivial

/-- A report comes from a call in which the node has committed more. -/
theorem Host.Seen.raised {config : BrokerConfig} {h : Host} {a : Action} {b : Broker}
    (hseen : h.Seen) (hn : h.next config a = some (.up b))
    (hack : ∀ b₀, h = .up b₀ → b₀.config.ackOnLocalAppend = false) {o : Observation}
    (ho : o ∈ b.observed) {start stop : Nat} (hevent : o.event = .committed start stop) :
    ∃ b₀, h = .up b₀ ∧ b₀.raft.commitIndex < b.raft.commitIndex ∧ stop = b.raft.commitIndex := by
  cases a with
  | start draw faults =>
      obtain ⟨d, rfl, ⟨t, hdown⟩ | ⟨b', t, hstart, hup⟩⟩ := Host.next_start hn
      · cases hdown
      · obtain rfl := Host.up.inj hup
        have hstarted := @Broker.start_sat faults config draw d
        rw [hstart] at hstarted
        rw [hstarted.observed] at ho
        cases ho
  | call c faults =>
      obtain ⟨b₀, rfl, hb⟩ := Host.next_call hn
      obtain rfl := Host.up.inj hb
      obtain ⟨hlt, heq⟩ :=
        (Broker.after_returns b₀ faults c).raises rfl (hack b₀ rfl) ho hevent
      exact ⟨b₀, rfl, lt_of_le_of_lt hseen (heq ▸ hlt), heq⟩
  | exit => cases Host.next_exit hn
  | crash kept torn => cases Host.next_crash hn

theorem Fleet.seen_runs {D : Deployment} {f f' : Fleet} (hr : Fleet.CalmRuns D f f')
    (hseen : ∀ i, (f.host i).Seen) : ∀ i, (f'.host i).Seen := by
  refine hr.invariant (I := fun f => ∀ i, (f.host i).Seen) hseen ?_
  intro f deed f' hf hn _ i
  obtain ⟨-, action, host, -, hhost, rfl⟩ := Fleet.proceed_eq_some hn
  by_cases hi : i = deed.member
  · subst hi
    simp only [Fleet.put, Function.update_self]
    exact (hf _).next hhost
  · simp only [Fleet.put, Function.update_of_ne hi]
    exact hf i

/-- What is committed in a term is in the log of whoever leads that term or a later one. -/
theorem isPrefix_of_committed {M : Membership} {a b : Raft.Protocol} {t : Cluster} {T : Nat}
    {q : List Raft.Batch} (h : Committed M.quorums a T q) (hg : Grows a b)
    (hb : Raft.Refines M b t) {j : Nat} (hj : j ∈ M.members)
    (hlead : (t.replica j).node.role = .leader) (hle : T ≤ (t.replica j).node.hard.term) :
    q <+: (t.replica j).log := by
  have hstands := (hb.member j hj).stands
  have hrole : b.el.role j = .leader := by
    have hview := hstands.role
    rw [hlead] at hview
    exact hview
  have hterm : (b.el.mem j).term = (t.replica j).node.hard.term := hstands.term
  have hq := (h.mono hg).prefix_leaderLog hb.sound.complete (hterm ▸ hle)
    (hb.sound.inv.election.leader_chief hrole)
  rw [hb.sound.inv.leader_log hrole] at hq
  exact hstands.log ▸ hq

section Committed

variable {D : Deployment} (hroomy : ∀ i ∈ D.membership.members, Broker.Roomy (D.broker i))
  {f₀ f f' g : Fleet}
include hroomy

/-- **Leader completeness of what is reported.**  Whatever a leader reports as committed
(`on_committed`), every leader of a later term stores byte for byte. -/
theorem fleet_reported_complete (h₀ : f₀.Unused) (hr : Fleet.CalmRuns D f₀ f) {deed : Deed}
    (hn : f.proceed D deed = some f') (hcalm : Fleet.Calm D f deed f') {b : Broker}
    (hb : f'.host deed.member = .up b) (hlead : b.raft.role = .leader)
    (hack : (D.broker deed.member).ackOnLocalAppend = false) {o : Observation}
    (ho : o ∈ b.observed) {start stop : Nat} (hevent : o.event = .committed start stop)
    (hr' : Fleet.CalmRuns D f' g) {j : Nat} (hj : j ∈ D.membership.members) {c : Broker}
    (hc : g.host j = .up c) (hlead' : c.raft.role = .leader)
    (hterm : b.raft.hard.term < c.raft.hard.term) :
    ∃ q, endFrom 0 q = stop ∧ q <+: b.store.view.frames ∧ q <+: c.store.view.frames := by
  obtain ⟨s, hs, hpaired⟩ := h₀.exists_paired hroomy hr
  obtain ⟨s', hpaired', hmatches⟩ := hpaired.next hroomy hs hn hcalm
  obtain ⟨hi, action, host, -, hhost, rfl⟩ := Fleet.proceed_eq_some hn
  have hseen : (f.host deed.member).Seen := by
    refine Fleet.seen_runs hr (fun i => ?_) _
    obtain ⟨d, hd, -⟩ := h₀.hosts i
    rw [hd]
    exact trivial
  simp only [Fleet.put, Function.update_self] at hb
  subst hb
  have hstands' := hpaired'.mirrors hi (Function.update_self ..)
  obtain ⟨b₀, hb₀, hlt, rfl⟩ := hseen.raised hhost (fun b₀ hb₀ => by
    rw [(hpaired.mirrors hi hb₀).configured]
    exact hack) ho hevent
  rw [(hpaired.mirrors hi hb₀).raft, hstands'.raft] at hlt
  rcases hmatches with rfl | ⟨act, hstep, -⟩
  · exact absurd hlt (lt_irrefl _)
  obtain ⟨s'', hsteps, hpaired''⟩ := hpaired'.runs hroomy
    (reachable_of_steps hs (.single ⟨act, hstep⟩)) hr'
  obtain ⟨a, ha⟩ := hs.refines
  obtain ⟨a', -, ha'⟩ := ha.next hstep
  obtain ⟨a'', hgrows, ha''⟩ := ha'.steps hsteps
  have hstands'' := hpaired''.mirrors hj hc
  rw [hstands'.raft] at hlead hterm ⊢
  rw [hstands''.raft] at hlead' hterm
  obtain ⟨q, hq, hend, hcommitted⟩ := Raft.committed_of_raise ha ha' hstep hi hlead hlt
  have hq' := isPrefix_of_committed hcommitted hgrows ha'' hj hlead' hterm.le
  rw [← hstands'.log] at hq
  rw [← hstands''.log] at hq'
  obtain ⟨p, hp, rfl⟩ := List.prefix_map_iff.1 hq
  exact ⟨p, (endFrom_map Frame.batch_stop 0 p).symm.trans hend, hp, View.isPrefix_of_batches hq'⟩

omit hroomy in
/-- Broker `1` confirms the batch, and is elected after broker `0`. -/
theorem fleet_reported_complete_firstBatch :
    ∃ (f' g : Fleet) (b c : Broker), f'.host 0 = .up b ∧ g.host 1 = .up c ∧
      ∃ q, endFrom 0 q = 1 ∧ q <+: b.store.view.frames ∧ q <+: c.store.view.frames := by
  obtain ⟨f, hf, hp⟩ := Fleet.exists_of_deeds threeHosts firstBatch
    (p := fun f => (f.proceed threeBrokers (.deliver 0 7 0)).any fun f' =>
      decide (Fleet.Plain f (.deliver 0 7 0) f') && (Fleet.both 0 0 (fun b _ =>
        decide (b.raft.role = .leader ∧ b.raft.hard.term = 1) && b.observed.any fun o =>
          match o.event with
          | .committed _ stop => stop == 1
          | .sent _ _ => false) f' &&
      (replay (Fleet.proceed threeBrokers) Fleet.Plain f'
        [.tick 1 0, .deliver 2 9 0, .deliver 1 10 0]).any
        (Fleet.leads 1 2))) (by decide +kernel)
  obtain ⟨f', hn, hp⟩ := (Option.any_eq_true _ _).1 hp
  obtain ⟨hplain, hp⟩ := Bool.and_eq_true_iff.1 hp
  obtain ⟨hbefore, hafter⟩ := Bool.and_eq_true_iff.1 hp
  obtain ⟨b, -, hb, -, hp⟩ := Fleet.exists_of_both hbefore
  obtain ⟨hlead, hreport⟩ := Bool.and_eq_true_iff.1 hp
  obtain ⟨hrole, hterm⟩ := of_decide_eq_true hlead
  obtain ⟨o, ho, hevent⟩ := List.any_eq_true.1 hreport
  obtain ⟨start, hevent⟩ : ∃ start, o.event = .committed start 1 := by
    cases he : o.event with
    | sent m entry =>
        rw [he] at hevent
        cases hevent
    | committed start stop =>
        rw [he] at hevent
        exact ⟨start, by rw [beq_iff_eq.1 hevent]⟩
  obtain ⟨g, hg, hleads⟩ := Fleet.exists_of_deeds f' _ hafter
  obtain ⟨c, hc, hrole', hterm'⟩ := Fleet.leads_iff.1 hleads
  exact ⟨f', g, b, c, hb, hc,
    fleet_reported_complete threeBrokers_roomy threeHosts_unused hf.calm hn
    (of_decide_eq_true hplain).calm hb hrole rfl ho hevent hg.calm (by decide) hc hrole'
    (by rw [hterm, hterm']; decide)⟩

/-- A run in which no follower adopts too much is one of the cluster. -/
theorem Paired.moderateRuns {s : Cluster} (h : Paired D f s) (hs : s.Reachable D.membership)
    (hr : Fleet.ModerateRuns D f f') : ∃ s', s.Runs D.membership Cluster.Clamped s' ∧
      Paired D f' s' := by
  refine hr.invariant (I := fun f' => ∃ s', s.Runs D.membership Cluster.Clamped s' ∧
    Paired D f' s') ⟨s, .refl, h⟩ ?_
  rintro f deed f' ⟨t, ht, hpaired⟩ hn ⟨hcalm, hmoderate⟩
  obtain ⟨t', hpaired', rfl | ⟨act, hstep, hclamped⟩⟩ :=
    hpaired.next hroomy (reachable_of_steps hs (Cluster.steps_of_runs ht)) hn hcalm
  · exact ⟨t', ht, hpaired'⟩
  · exact ⟨t', ht.tail ⟨act, hstep, hclamped hmoderate⟩, hpaired'⟩

/-- **State-machine safety of what is stored**, in every run in which no follower adopts too
much: below what two brokers have committed, at whatever moments, they store the same
bytes. -/
theorem fleet_committed_same (h₀ : f₀.Unused) (hr : Fleet.ModerateRuns D f₀ f)
    (hr' : Fleet.ModerateRuns D f f') {i j : Nat} (hi : i ∈ D.membership.members)
    (hj : j ∈ D.membership.members) {b c : Broker} (hb : f.host i = .up b)
    (hc : f'.host j = .up c) {k : Nat} (hk : k < b.raft.commitIndex)
    (hk' : k < c.raft.commitIndex) :
    ∃ x, cover b.store.view.frames k = some x ∧ cover c.store.view.frames k = some x := by
  obtain ⟨s, hs, hpaired⟩ := h₀.paired.moderateRuns hroomy (fresh_reachable _) hr
  have hclamped : s.ClampedReachable D.membership := ⟨_, Cluster.fresh_initial _, hs⟩
  obtain ⟨s', hs', hpaired'⟩ :=
    hpaired.moderateRuns hroomy
      (reachable_of_steps (fresh_reachable _) (Cluster.steps_of_runs hs)) hr'
  obtain ⟨a, ha, hbacked⟩ := hclamped.backed
  obtain ⟨a', hgrows, ha', hbacked'⟩ := hbacked.runs ha hs'
  have hstands := hpaired.mirrors hi hb
  have hstands' := hpaired'.mirrors hj hc
  obtain ⟨q, hq, hend, hcert⟩ := hbacked.member i hi
  obtain ⟨q', hq', hend', hcert'⟩ := hbacked'.member j hj
  rw [← hstands.log] at hq
  rw [← hstands'.log] at hq'
  rw [← hstands.raft] at hend
  rw [← hstands'.raft] at hend'
  obtain ⟨p, hp, rfl⟩ := List.prefix_map_iff.1 hq
  obtain ⟨p', hp', rfl⟩ := List.prefix_map_iff.1 hq'
  rw [endFrom_map Frame.batch_stop] at hend hend'
  have htiles := hstands.steady.tiles.of_isPrefix hp
  have htiles' := hstands'.steady.tiles.of_isPrefix hp'
  rcases (hcert.mono hgrows le_rfl).comparable ha'.sound.inv ha'.sound.complete hcert' with
    hle | hle
  · have hle := (List.prefix_map_iff_of_injective Frame.batch_injective).1 hle
    obtain ⟨x, hx⟩ := htiles.exists_cover (Nat.zero_le k) (hk.trans_le hend)
    exact ⟨x, cover_of_isPrefix hp hx, cover_of_isPrefix (hle.trans hp') hx⟩
  · have hle := (List.prefix_map_iff_of_injective Frame.batch_injective).1 hle
    obtain ⟨x, hx⟩ := htiles'.exists_cover (Nat.zero_le k) (hk'.trans_le hend')
    exact ⟨x, cover_of_isPrefix (hle.trans hp) hx, cover_of_isPrefix hp' hx⟩

omit hroomy in
/-- Broker `1` learns from the next heartbeat that the batch is committed. -/
theorem fleet_committed_same_firstBatch :
    ∃ (f : Fleet) (b c : Broker), f.host 0 = .up b ∧ f.host 1 = .up c ∧
      ∃ x, cover b.store.view.frames 0 = some x ∧ cover c.store.view.frames 0 = some x := by
  obtain ⟨f, hf, hp⟩ := Fleet.exists_of_deeds threeHosts
    (firstBatch ++ [.deliver 0 7 0, .tick 0 0, .deliver 1 8 0])
    (p := Fleet.both 0 1 fun b c => decide (0 < b.raft.commitIndex ∧ 0 < c.raft.commitIndex))
    (by decide +kernel)
  obtain ⟨b, c, hb, hc, hp⟩ := Fleet.exists_of_both hp
  obtain ⟨hk, hk'⟩ := of_decide_eq_true hp
  exact ⟨f, b, c, hb, hc, fleet_committed_same threeBrokers_roomy threeHosts_unused hf .refl
    (by decide) (by decide) hb hc hk hk'⟩

end Committed

/-! ## Restarts -/

/-- `start` on a disk that has what the replica keeps. -/
theorem Broker.Mirrors.starts {D : Deployment} {s : Cluster} (hs : s.Reachable D.membership)
    {i : Nat} (hi : i ∈ D.membership.members) {b : Broker}
    (hb : b.Mirrors (D.broker i) (s.replica i)) (hroomy : Broker.Roomy (D.broker i)) {d : Disk}
    (hrests : Rests (D.broker i) d (s.replica i))
    (hcredible : ∀ base, Credible (D.broker i).logOptions.segment d.file base) (draw : Nat) :
    ∃ b' t, @Broker.start healthy (D.broker i) draw d = .ok b' t ∧
      b'.store.view.frames = b.store.view.frames ∧ b'.raft.hard = b.raft.hard ∧
      b'.raft.logEnd = b.raft.logEnd ∧ b'.raft.epochs = b.raft.epochs := by
  obtain ⟨a, ha⟩ := hs.refines
  obtain ⟨b', t, hstart, hmirrors, -⟩ :=
    (hrests.start hroomy hcredible draw).exists_ok fun _ hf => hf
  have hviews := (ha.member i hi).tracks.views
  refine ⟨b', t, hstart, ?_, ?_, ?_, ?_⟩
  · apply List.map_injective_iff.2 Frame.batch_injective
    exact hmirrors.log.trans hb.log.symm
  · rw [hmirrors.raft, hb.raft, ← (ha.member i hi).durable]
    rfl
  · rw [hmirrors.raft, hb.raft, hviews.logEnd]
    rfl
  · rw [hmirrors.raft, hb.raft, hviews.epochs]
    rfl

/-- **Nothing is lost between calls.**  However a process ends or the power goes, the next
`start` succeeds, and finds every batch, the hard state and the epochs as they were. -/
theorem fleet_restarts_whole {D : Deployment}
    (hroomy : ∀ i ∈ D.membership.members, Broker.Roomy (D.broker i)) {f₀ f : Fleet}
    (h₀ : f₀.Unused) (hr : Fleet.CalmRuns D f₀ f) {i : Nat} (hi : i ∈ D.membership.members)
    {b : Broker} (hb : f.host i = .up b) {d : Disk}
    (hd : d = b.disk ∨ ∃ kept torn, d = b.disk.crash kept torn)
    (hcredible : ∀ base, Credible (D.broker i).logOptions.segment d.file base) (draw : Nat) :
    ∃ b' t, @Broker.start healthy (D.broker i) draw d = .ok b' t ∧
      b'.store.view.frames = b.store.view.frames ∧ b'.raft.hard = b.raft.hard ∧
      b'.raft.logEnd = b.raft.logEnd ∧ b'.raft.epochs = b.raft.epochs := by
  obtain ⟨s, hs, hpaired⟩ := h₀.exists_paired hroomy hr
  have hstands := hpaired.mirrors hi hb
  refine hstands.starts hs hi (hroomy i hi) ?_ hcredible draw
  rcases hd with rfl | ⟨kept, torn, rfl⟩
  · exact hstands.rests
  · exact hstands.rests.crash kept torn

/-- Broker `1` loses power with its first batch stored. -/
theorem fleet_restarts_whole_firstBatch :
    ∃ (b b' : Broker) (t : Disk), b.store.view.frames ≠ [] ∧
      @Broker.start healthy (threeBrokers.broker 1) 0 (b.disk.crash (fun _ => 0) fun _ => 0) =
        .ok b' t ∧ b'.store.view.frames = b.store.view.frames := by
  obtain ⟨f, hf, hp⟩ := Fleet.exists_of_deeds threeHosts firstBatch
    (p := Fleet.both 1 1 fun b _ => decide (b.store.view.frames ≠ [] ∧
      ∀ p ∈ (b.disk.crash (fun _ => 0) fun _ => 0).files.entries, p.1 = .log 0 ∨ p.1 = .state))
    (by decide +kernel)
  obtain ⟨b, -, hb, -, hp⟩ := Fleet.exists_of_both hp
  obtain ⟨hne, hnames⟩ := of_decide_eq_true hp
  obtain ⟨b', t, hstart, hframes, -⟩ := fleet_restarts_whole threeBrokers_roomy threeHosts_unused
    hf.calm (by decide) hb (.inr ⟨_, _, rfl⟩) ((Fleet.blank_of_names hnames).credible _) 0
  exact ⟨b, b', t, hne, hstart, hframes⟩

/-- `~Broker`, and with it `~Log`: the disk that a process leaves which ends by itself. -/
def Broker.shutDown [Faults] (b : Broker) : Disk :=
  match Log.close b.store with
  | .ok _ t => t.disk
  | .error _ t => t.disk

/-- What `~Log` leaves of a broker that mirrors a replica. -/
theorem Broker.Mirrors.shutDown {config : BrokerConfig} {b : Broker} {r : Replica}
    (h : b.Mirrors config r) :
    Rests config (@Broker.shutDown healthy b) r ∧
      (∀ base, Credible config.logOptions.segment (@Broker.shutDown healthy b).file base) ∧
      ∀ kept torn base,
        Credible config.logOptions.segment ((@Broker.shutDown healthy b).crash kept torn).file
          base := by
  obtain ⟨_, t, ht, -, hlogs, hstate, hcredible⟩ :=
    (@Log.close_steady healthy b.store _ not_refuses_healthy h.steady).exists_ok fun _ hf => hf
  have hdisk : @Broker.shutDown healthy b = t.disk := by
    unfold Broker.shutDown
    rw [ht]
  rw [hdisk]
  refine ⟨h.rests.congr hlogs ?_, hcredible⟩
  unfold stateFile
  exact congrArg (Option.getD · {}) hstate

/-- **A clean shutdown needs no luck.**  After `~Log` nothing has to be assumed of the
sidecars: whether the power goes later or not, the next `start` succeeds, and finds every
batch, the hard state and the epochs as they were. -/
theorem fleet_shutdown_whole {D : Deployment}
    (hroomy : ∀ i ∈ D.membership.members, Broker.Roomy (D.broker i)) {f₀ f : Fleet}
    (h₀ : f₀.Unused) (hr : Fleet.CalmRuns D f₀ f) {i : Nat} (hi : i ∈ D.membership.members)
    {b : Broker} (hb : f.host i = .up b) {d : Disk}
    (hd : d = @Broker.shutDown healthy b ∨
      ∃ kept torn, d = (@Broker.shutDown healthy b).crash kept torn) (draw : Nat) :
    ∃ b' t, @Broker.start healthy (D.broker i) draw d = .ok b' t ∧
      b'.store.view.frames = b.store.view.frames ∧ b'.raft.hard = b.raft.hard ∧
      b'.raft.logEnd = b.raft.logEnd ∧ b'.raft.epochs = b.raft.epochs := by
  obtain ⟨s, hs, hpaired⟩ := h₀.exists_paired hroomy hr
  have hstands := hpaired.mirrors hi hb
  obtain ⟨hrests, hcredible, hcut⟩ := hstands.shutDown
  rcases hd with rfl | ⟨kept, torn, rfl⟩
  · exact hstands.starts hs hi (hroomy i hi) hrests hcredible draw
  · exact hstands.starts hs hi (hroomy i hi) (hrests.crash kept torn) (hcut kept torn) draw

/-- Broker `1` ends by itself with its first batch stored, and the power cut that follows
leaves three bytes of its sidecar. -/
theorem fleet_shutdown_whole_firstBatch :
    ∃ (b b' : Broker) (t : Disk), b.store.view.frames ≠ [] ∧
      (∃ y, ((@Broker.shutDown healthy b).crash (fun _ => 0) fun _ => 3).file (.index 0) = some y ∧
        y.visible.length = 3) ∧
      @Broker.start healthy (threeBrokers.broker 1) 0
        ((@Broker.shutDown healthy b).crash (fun _ => 0) fun _ => 3) = .ok b' t ∧
      b'.store.view.frames = b.store.view.frames := by
  obtain ⟨f, hf, hp⟩ := Fleet.exists_of_deeds threeHosts firstBatch
    (p := Fleet.both 1 1 fun b _ => decide (b.store.view.frames ≠ [] ∧
      (((@Broker.shutDown healthy b).crash (fun _ => 0) fun _ => 3).file (.index 0)).map
        (fun y => y.visible.length) = some 3))
    (by decide +kernel)
  obtain ⟨b, -, hb, -, hp⟩ := Fleet.exists_of_both hp
  obtain ⟨hne, hside⟩ := of_decide_eq_true hp
  obtain ⟨b', t, hstart, hframes, -⟩ := fleet_shutdown_whole threeBrokers_roomy threeHosts_unused
    hf.calm (by decide) hb (.inr ⟨_, _, rfl⟩) 0
  exact ⟨b, b', t, hne, Option.map_eq_some_iff.1 hside, hstart, hframes⟩

end LogEngine.Server
