import LogEngine.Io.FabricSteps

/-!
# The simulated network as a byte stream

`Fabric.Sound` is what every run of the simulated network keeps.  Deliveries of one end run
in the order in which they were written, because a write is due no earlier than the one
before it and the queue breaks ties by age; and as long as nothing was lost, the bytes that
one end accepted are, in this order, those that the other has returned, has in its buffer,
has missed because it was closed, and those still on the way.

The order does not hold as the comments of the source put it: a cut that is healed before it
resets the connection leaves a hole in the stream, as bytes written during the cut are
dropped and later ones are delivered (`returned_not_isPrefix`).  Without such a write behind
the hole the stream is in order (`returned_isPrefix`).
-/

namespace LogEngine.Io

open Base Sim Verified.Machine

/-! ## Where the bytes are -/

/-- The bytes that were sent to an end whose peer has `mid` on the way, in their order:
those returned, those in the buffer, those that came too late, and those still to come. -/
def Endpoint.pending (e : Endpoint) (mid : Bytes) : Bytes :=
  e.returned ++ e.rx.contents ++ (e.missed ++ mid)

theorem Endpoint.pending_append (e : Endpoint) (mid data : Bytes) :
    e.pending (mid ++ data) = e.pending mid ++ data := by
  simp only [pending, List.append_assoc]

theorem Endpoint.Quiet.pending {e e' : Endpoint} (h : e.Quiet e') (mid : Bytes) :
    e'.pending mid = e.pending mid := by
  rw [Endpoint.pending, h.received, h.missed, Endpoint.pending]

/-- A delivery changes only the buffer of an end that is open, and nothing that its reader
sees of one that is not. -/
theorem Endpoint.arrive_eq (e : Endpoint) (payload : Bytes) :
    ∃ rx missed, e.arrive payload = { e with rx := rx, missed := missed } ∧
      (e.reset = true → rx = e.rx) ∧
      (e.reset = false → e.isOpen = true → missed = e.missed) := by
  unfold arrive
  split
  case isTrue hdead =>
    refine ⟨e.rx, _, rfl, fun _ => rfl, ?_⟩
    intro hreset hopen
    rcases hdead with h | h
    · cases hreset.symm.trans h
    · cases hopen.symm.trans h
  case isFalse hlive =>
    refine ⟨_, e.missed, rfl, ?_, fun _ _ => rfl⟩
    intro hreset
    exact absurd (.inl hreset) hlive

/-- A delivery takes bytes from the way to where the reader finds them, or too late. -/
theorem Endpoint.pending_arrive {e : Endpoint}
    (h : e.reset = false → e.isOpen = true → e.missed = []) (payload mid : Bytes) :
    (e.arrive payload).pending mid = e.pending (payload ++ mid) := by
  unfold arrive
  split
  case isTrue => simp only [Endpoint.pending, List.append_assoc]
  case isFalse hlive =>
    rw [not_or, Bool.not_eq_true, Bool.not_eq_false] at hlive
    simp only [Endpoint.pending, h hlive.1 hlive.2, Buffer.contents_append, List.append_assoc,
      List.nil_append]

namespace Fabric

/-- What every run keeps: peers are each other's, deliveries are routed between them in
the order of their deadlines, the send window counts what is on the way, and as long as
nothing was lost every accepted byte is on its way to the other end or there. -/
structure Sound (f : Fabric) : Prop where
  symm : ∀ {c p ec}, f.endpoint c = some ec → ec.peer = some p →
    ∃ ep, f.endpoint p = some ep ∧ ep.peer = some c
  routed : ∀ {e source target payload}, e ∈ f.scheduler.queue →
    e.callback = .deliver source target payload →
    ∃ ep, f.endpoint source = some ep ∧ ep.peer = some target ∧
      e.deadline ≤ max ep.lastDelivery f.scheduler.now
  window : ∀ {p ep}, f.endpoint p = some ep → ep.inFlight = (f.onTheWay p).length
  heard : ∀ {c ec}, f.endpoint c = some ec → ec.reset = false → ec.isOpen = true →
    ec.missed = []
  whole : ∀ {c p ec ep}, f.endpoint c = some ec → ec.peer = some p → f.endpoint p = some ep →
    ec.reset = false → ep.lost = [] → ec.pending (f.onTheWay p) = ep.accepted

variable {f f' : Fabric}

theorem sound_start (config : NetworkFaultConfig) : (start config).Sound where
  symm := fun h => by cases h
  routed := fun h => by cases h
  window := fun h => by cases h
  heard := fun h => by cases h
  whole := fun h => by cases h

theorem Sound.quiet (h : f.Sound) (hq : Quiet f f') : f'.Sound where
  symm := by
    intro c p ec' hc hp
    obtain ⟨ec, hec, hqc⟩ := hq.back hc
    obtain ⟨ep, hep, hpeer⟩ := h.symm hec (hqc.peer.symm.trans hp)
    obtain ⟨ep', hep', hqp⟩ := hq.forth hep
    exact ⟨ep', hep', hqp.peer.trans hpeer⟩
  routed := by
    intro e source target payload he hcb
    obtain ⟨ep, hep, hpeer, hle⟩ := h.routed (hq.deliveries e he hcb) hcb
    obtain ⟨ep', hep', hqp⟩ := hq.forth hep
    refine ⟨ep', hep', hqp.peer.trans hpeer, ?_⟩
    have hnow := hq.now
    rw [hqp.lastDelivery]
    omega
  window := by
    intro p ep' hp
    obtain ⟨ep, hep, hqp⟩ := hq.back hp
    rw [hqp.inFlight, h.window hep, hq.onTheWay]
  heard := by
    intro c ec' hc hreset hopen
    obtain ⟨ec, hec, hqc⟩ := hq.back hc
    rw [hqc.missed]
    exact h.heard hec (hqc.reset_eq_false hreset) (hqc.isOpen hopen)
  whole := by
    intro c p ec' ep' hc hpeer hp hreset hlost
    obtain ⟨ec, hec, hqc⟩ := hq.back hc
    obtain ⟨ep, hep, hqp⟩ := hq.back hp
    rw [hqc.pending, hq.onTheWay, hqp.accepted]
    exact h.whole hec (hqc.peer.symm.trans hpeer) hep (hqc.reset_eq_false hreset)
      (hqp.lost.symm.trans hlost)

/-- Nothing is on the way from an endpoint that does not exist. -/
theorem Sound.onTheWay_eq_nil (h : f.Sound) {p : Nat} (hp : f.endpoint p = none) :
    f.onTheWay p = [] := by
  apply List.flatMap_eq_nil_iff.2
  intro e he
  cases hcb : e.callback with
  | accept listener server => rfl
  | partitionReset source target => rfl
  | deliver source target payload =>
      obtain ⟨ep, hep, -⟩ := h.routed he hcb
      apply if_neg
      rintro rfl
      rw [hp] at hep
      cases hep

/-- An endpoint is one of the old ones or one of the new. -/
theorem Grows.endpoint_cases {news : List Endpoint} (h : Grows f f' news) {id : Nat}
    {e : Endpoint} (he : f'.endpoint id = some e) :
    f.endpoint id = some e ∨
      f.endpoint id = none ∧ ∃ i, id = f.endpoints.length + i ∧ news[i]? = some e := by
  rw [endpoint, h.endpoints, List.getElem?_append] at he
  split at he
  case isTrue => exact .inl he
  case isFalse hid =>
    right
    constructor
    · exact List.getElem?_eq_none (Nat.not_lt.1 hid)
    · exact ⟨id - f.endpoints.length, by omega, he⟩

theorem Grows.endpoint_old {news : List Endpoint} (h : Grows f f' news) {id : Nat}
    {e : Endpoint} (he : f.endpoint id = some e) : f'.endpoint id = some e := by
  rw [endpoint, h.endpoints, List.getElem?_append_left]
  · exact he
  · exact (List.getElem?_eq_some_iff.1 he).1

theorem Grows.endpoint_new {news : List Endpoint} (h : Grows f f' news) {i : Nat}
    {e : Endpoint} (he : news[i]? = some e) : f'.endpoint (f.endpoints.length + i) = some e := by
  rw [endpoint, h.endpoints, List.getElem?_append_right (Nat.le_add_right _ _),
    Nat.add_sub_cancel_left]
  exact he

theorem Sound.grows (h : f.Sound) {news : List Endpoint} (hg : Grows f f' news) : f'.Sound where
  symm := by
    intro c p ec hc hp
    rcases hg.endpoint_cases hc with hold | ⟨-, i, rfl, hnew⟩
    · obtain ⟨ep, hep, hpeer⟩ := h.symm hold hp
      exact ⟨ep, hg.endpoint_old hep, hpeer⟩
    · obtain ⟨j, ep, rfl, hep, hpeer⟩ := hg.peers hnew hp
      exact ⟨ep, hg.endpoint_new hep, hpeer⟩
  routed := by
    intro e source target payload he hcb
    obtain ⟨ep, hep, hpeer, hle⟩ := h.routed (hg.deliveries e he hcb) hcb
    have hnow := hg.now
    exact ⟨ep, hg.endpoint_old hep, hpeer, by omega⟩
  window := by
    intro p ep hp
    rw [hg.onTheWay]
    rcases hg.endpoint_cases hp with hold | ⟨hnone, i, -, hnew⟩
    · exact h.window hold
    · rw [h.onTheWay_eq_nil hnone, (hg.fresh ep (List.mem_of_getElem? hnew)).1]
      rfl
  heard := by
    intro c ec hc hreset hopen
    rcases hg.endpoint_cases hc with hold | ⟨-, i, -, hnew⟩
    · exact h.heard hold hreset hopen
    · exact (hg.fresh ec (List.mem_of_getElem? hnew)).2.2.2.2
  whole := by
    intro c p ec ep hc hpeer hp hreset hlost
    rw [hg.onTheWay]
    rcases hg.endpoint_cases hc with hold | ⟨-, i, rfl, hnew⟩
    · -- the peer of an old endpoint is old
      obtain ⟨ep', hep', -⟩ := h.symm hold hpeer
      obtain rfl : ep' = ep := Option.some.inj ((hg.endpoint_old hep').symm.trans hp)
      exact h.whole hold hpeer hep' hreset hlost
    · obtain ⟨j, ep', rfl, hep', -⟩ := hg.peers hnew hpeer
      obtain rfl : ep' = ep := Option.some.inj ((hg.endpoint_new hep').symm.trans hp)
      obtain ⟨-, -, -, hreceived, hmissed⟩ := hg.fresh ec (List.mem_of_getElem? hnew)
      obtain ⟨-, haccepted, -⟩ := hg.fresh ep' (List.mem_of_getElem? hep')
      have hnone : f.endpoint (f.endpoints.length + j) = none :=
        List.getElem?_eq_none (Nat.le_add_right _ _)
      rw [Endpoint.pending, hreceived, hmissed, h.onTheWay_eq_nil hnone, haccepted]
      rfl

/-! ### Writes -/

section Writes

variable {conn peer : Nat} {due : Int} {data : Bytes} {ep : Endpoint}

/-- The receiving side of an endpoint is as it was. -/
structure Receives (e e' : Endpoint) : Prop where
  node : e'.node = e.node
  peer : e'.peer = e.peer
  reset : e'.reset = e.reset
  isOpen : e'.isOpen = e.isOpen
  missed : e'.missed = e.missed
  received : e'.returned ++ e'.rx.contents = e.returned ++ e.rx.contents

theorem Receives.refl (e : Endpoint) : Receives e e := ⟨rfl, rfl, rfl, rfl, rfl, rfl⟩

theorem Receives.pending {e e' : Endpoint} (h : Receives e e') (mid : Bytes) :
    e'.pending mid = e.pending mid := by
  rw [Endpoint.pending, h.received, h.missed, Endpoint.pending]

theorem receives_send (due : Int) (data : Bytes) (e : Endpoint) : Receives e (e.send due data) :=
  ⟨rfl, rfl, rfl, rfl, rfl, rfl⟩

theorem receives_lose (data : Bytes) (e : Endpoint) : Receives e (e.lose data) :=
  ⟨rfl, rfl, rfl, rfl, rfl, rfl⟩

theorem endpoint_of_modify {change : Endpoint → Endpoint} {id id' : Nat} {e' : Endpoint}
    (h : (f.modify id change).endpoint id' = some e') :
    ∃ e, f.endpoint id' = some e ∧ e' = if id = id' then change e else e := by
  rw [endpoint_modify] at h
  obtain ⟨e, he, rfl⟩ := Option.map_eq_some_iff.1 h
  exact ⟨e, he, rfl⟩

private theorem endpoint_modify_of {change : Endpoint → Endpoint} {id id' : Nat} {e : Endpoint}
    (h : f.endpoint id' = some e) :
    (f.modify id change).endpoint id' = some (if id = id' then change e else e) := by
  rw [endpoint_modify, h]
  rfl

/-- A write changes only the sending side. -/
theorem receives_ite {change : Endpoint → Endpoint} (hchange : ∀ e, Receives e (change e))
    (id id' : Nat) (e : Endpoint) : Receives e (if id = id' then change e else e) := by
  split
  · exact hchange e
  · exact .refl e

/-- The peers and the routes stay when only sending sides change. -/
theorem Sound.symm_modify (h : f.Sound) {change : Endpoint → Endpoint}
    (hchange : ∀ e, Receives e (change e)) {id c p : Nat} {ec : Endpoint}
    (hc : (f.modify id change).endpoint c = some ec) (hp : ec.peer = some p) :
    ∃ ep, (f.modify id change).endpoint p = some ep ∧ ep.peer = some c := by
  obtain ⟨e, he, rfl⟩ := endpoint_of_modify hc
  obtain ⟨ep, hep, hpeer⟩ := h.symm he ((receives_ite hchange id c e).peer.symm.trans hp)
  exact ⟨_, endpoint_modify_of hep, (receives_ite hchange id p ep).peer.trans hpeer⟩

theorem Sound.heard_modify (h : f.Sound) {change : Endpoint → Endpoint}
    (hchange : ∀ e, Receives e (change e)) {id c : Nat} {ec : Endpoint}
    (hc : (f.modify id change).endpoint c = some ec) (hreset : ec.reset = false)
    (hopen : ec.isOpen = true) : ec.missed = [] := by
  obtain ⟨e, he, rfl⟩ := endpoint_of_modify hc
  have hr := receives_ite hchange id c e
  rw [hr.missed]
  exact h.heard he (hr.reset.symm.trans hreset) (hr.isOpen.symm.trans hopen)

theorem Sound.lose (h : f.Sound) (conn : Nat) (data : Bytes) :
    (f.modify conn (Endpoint.lose data)).Sound := by
  have hchange := receives_lose data
  constructor
  case symm => exact fun hc hp => h.symm_modify hchange hc hp
  case heard => exact fun hc hreset hopen => h.heard_modify hchange hc hreset hopen
  case routed =>
    intro e source target payload he hcb
    obtain ⟨ep, hep, hpeer, hle⟩ := h.routed he hcb
    refine ⟨_, endpoint_modify_of hep, (receives_ite hchange conn source ep).peer.trans hpeer, ?_⟩
    split <;> exact hle
  case window =>
    intro p ep hp
    obtain ⟨e, he, rfl⟩ := endpoint_of_modify hp
    have hin : (if conn = p then e.lose data else e).inFlight = e.inFlight := by split <;> rfl
    rw [hin]
    exact h.window he
  case whole =>
    intro c p ec ep hc hpeer hp hreset hlost
    obtain ⟨e, he, rfl⟩ := endpoint_of_modify hc
    obtain ⟨e₁, he₁, rfl⟩ := endpoint_of_modify hp
    have hr := receives_ite hchange conn c e
    rw [hr.pending]
    have hwhole := h.whole he (hr.peer.symm.trans hpeer) he₁ (hr.reset.symm.trans hreset)
    split at hlost
    case isTrue heq =>
      rw [if_pos heq]
      obtain ⟨hlost, hdata⟩ := List.append_eq_nil_iff.1 hlost
      refine (hwhole hlost).trans ?_
      rw [hdata, Endpoint.lose, List.append_nil]
    case isFalse hne =>
      rw [if_neg hne]
      exact hwhole hlost

/-- What is sent comes behind all that its sender has on the way. -/
theorem Sound.onTheWay_sendOff (h : f.Sound) (hep : f.endpoint conn = some ep)
    (hdue : ep.lastDelivery ≤ due) (p : Nat) :
    (f.sendOff conn peer due data).onTheWay p
      = f.onTheWay p ++ if conn = p then data else [] := by
  by_cases hp : conn = p
  · subst hp
    refine Scheduler.flatMap_scheduleAt_last ?_
    intro e he hne
    cases hcb : e.callback with
    | accept listener server =>
        rw [hcb] at hne
        exact absurd rfl hne
    | partitionReset source target =>
        rw [hcb] at hne
        exact absurd rfl hne
    | deliver source target payload =>
        rw [hcb, Callback.bytesFrom] at hne
        obtain rfl : source = conn := by
          by_contra hsource
          exact hne (if_neg hsource)
        obtain ⟨ep', hep', -, hle⟩ := h.routed he hcb
        obtain rfl : ep = ep' := Option.some.inj (hep.symm.trans hep')
        omega
  · rw [if_neg hp, List.append_nil]
    exact Scheduler.flatMap_scheduleAt_nil (if_neg hp)

theorem Sound.sendOff (h : f.Sound) (hep : f.endpoint conn = some ep) (hpeer : ep.peer = some peer)
    (hdue : ep.lastDelivery ≤ due) (data : Bytes) : (f.sendOff conn peer due data).Sound := by
  have hchange := receives_send due data
  constructor
  case symm => exact fun hc hp => h.symm_modify hchange hc hp
  case heard => exact fun hc hreset hopen => h.heard_modify hchange hc hreset hopen
  case routed =>
    intro e source target payload he hcb
    rcases Scheduler.mem_scheduleAt he with rfl | he
    · cases hcb
      refine ⟨_, endpoint_modify_of hep, ?_, ?_⟩
      · rw [if_pos rfl]
        exact hpeer
      · rw [if_pos rfl]
        exact le_rfl
    · obtain ⟨e₁, he₁, hpeer₁, hle⟩ := h.routed he hcb
      refine ⟨_, endpoint_modify_of he₁,
        (receives_ite hchange conn source e₁).peer.trans hpeer₁, ?_⟩
      split
      case isTrue heq =>
        subst heq
        obtain rfl : ep = e₁ := Option.some.inj (hep.symm.trans he₁)
        show e.deadline ≤ max due f.scheduler.now
        omega
      case isFalse => exact hle
  case window =>
    intro p e' hp
    obtain ⟨e, he, rfl⟩ := endpoint_of_modify hp
    rw [h.onTheWay_sendOff hep hdue, List.length_append, ← h.window he]
    split <;> rfl
  case whole =>
    intro c p ec e' hc hpeer' hp hreset hlost
    obtain ⟨e, he, rfl⟩ := endpoint_of_modify hc
    obtain ⟨e₁, he₁, rfl⟩ := endpoint_of_modify hp
    have hr := receives_ite hchange conn c e
    have hwhole := h.whole he (hr.peer.symm.trans hpeer') he₁ (hr.reset.symm.trans hreset)
    rw [hr.pending, h.onTheWay_sendOff hep hdue, Endpoint.pending_append]
    split at hlost
    case isTrue heq =>
      rw [if_pos heq, if_pos heq, hwhole hlost, Endpoint.send]
    case isFalse hne =>
      rw [if_neg hne, if_neg hne, hwhole hlost, List.append_nil]

end Writes

/-! ### Deliveries -/

section Deliveries

variable {source target : Nat} {payload : Bytes}

/-- What a delivery from `source` to `target` makes of endpoint `id`. -/
structure Delivered (source target : Nat) (payload : Bytes) (id : Nat) (e e' : Endpoint) :
    Prop where
  node : e'.node = e.node
  peer : e'.peer = e.peer
  reset : e'.reset = e.reset
  isOpen : e'.isOpen = e.isOpen
  lastDelivery : e'.lastDelivery = e.lastDelivery
  accepted : e'.accepted = e.accepted
  lost : e'.lost = e.lost
  inFlight : e'.inFlight = if source = id then e.inFlight - payload.length else e.inFlight
  received : e.reset = true → e'.returned ++ e'.rx.contents = e.returned ++ e.rx.contents
  missed : e.reset = false → e.isOpen = true → e'.missed = e.missed
  pending : (e.reset = false → e.isOpen = true → e.missed = []) → ∀ mid,
    e'.pending mid = e.pending ((if target = id then payload else []) ++ mid)

/-- The target takes the bytes, whatever the source's window counts. -/
theorem delivered_of_inFlight {source target id n : Nat} {e : Endpoint}
    (hn : n = if source = id then e.inFlight - payload.length else e.inFlight) :
    Delivered source target payload id e
      (if target = id then Endpoint.arrive payload { e with inFlight := n }
      else { e with inFlight := n }) := by
  split
  case isTrue htarget =>
    have hpending : (e.reset = false → e.isOpen = true → e.missed = []) → ∀ mid,
        (Endpoint.arrive payload { e with inFlight := n }).pending mid
          = e.pending ((if target = id then payload else []) ++ mid) := by
      intro h mid
      rw [if_pos htarget]
      exact Endpoint.pending_arrive (e := { e with inFlight := n }) h payload mid
    obtain ⟨rx, missed, heq, hrx, hmissed⟩ :=
      Endpoint.arrive_eq { e with inFlight := n } payload
    rw [heq] at hpending ⊢
    refine ⟨rfl, rfl, rfl, rfl, rfl, rfl, rfl, hn, ?_, hmissed, hpending⟩
    intro hreset
    exact congrArg (fun b : Buffer => e.returned ++ b.contents) (hrx hreset)
  case isFalse htarget =>
    refine ⟨rfl, rfl, rfl, rfl, rfl, rfl, rfl, hn, fun _ => rfl, fun _ _ => rfl, ?_⟩
    intro _ mid
    rw [if_neg htarget]
    rfl

private theorem delivered_arrive (source target id : Nat) (e : Endpoint) :
    Delivered source target payload id e
      (if target = id then
        Endpoint.arrive payload
          (if source = id then { e with inFlight := e.inFlight - payload.length } else e)
      else if source = id then { e with inFlight := e.inFlight - payload.length } else e) := by
  by_cases hsource : source = id
  · simp only [hsource, if_true]
    exact delivered_of_inFlight (if_pos rfl).symm
  · rw [if_neg hsource]
    exact delivered_of_inFlight (n := e.inFlight) (if_neg hsource).symm

theorem endpoint_of_deliver {id : Nat} {e' : Endpoint}
    (h : (f.deliver source target payload).endpoint id = some e') :
    ∃ e, f.endpoint id = some e ∧ Delivered source target payload id e e' := by
  obtain ⟨e₁, he₁, rfl⟩ := endpoint_of_modify h
  obtain ⟨e, he, rfl⟩ := endpoint_of_modify he₁
  exact ⟨e, he, delivered_arrive source target id e⟩

private theorem endpoint_deliver_of {id : Nat} {e : Endpoint} (h : f.endpoint id = some e) :
    ∃ e', (f.deliver source target payload).endpoint id = some e' ∧
      Delivered source target payload id e e' :=
  ⟨_, endpoint_modify_of (endpoint_modify_of h), delivered_arrive source target id e⟩

variable {ev : Event Callback} {scheduler : Scheduler Callback}

/-- A delivery to an endpoint comes from its peer. -/
theorem Sound.target_iff (h : f.Sound) (hev : ev ∈ f.scheduler.queue)
    (hcb : ev.callback = .deliver source target payload) {c p : Nat} {ec : Endpoint}
    (hc : f.endpoint c = some ec) (hp : ec.peer = some p) : target = c ↔ source = p := by
  obtain ⟨es, hes, hpeer, -⟩ := h.routed hev hcb
  constructor
  · rintro rfl
    obtain ⟨et, het, hback⟩ := h.symm hes hpeer
    obtain rfl : et = ec := Option.some.inj (het.symm.trans hc)
    exact Option.some.inj (hback.symm.trans hp)
  · rintro rfl
    obtain ⟨ep, hep, hback⟩ := h.symm hc hp
    obtain rfl : ep = es := Option.some.inj (hep.symm.trans hes)
    exact Option.some.inj (hpeer.symm.trans hback)

/-- The first delivery of the queue takes its bytes off the way. -/
theorem onTheWay_of_queue (hqueue : f.scheduler.queue = ev :: scheduler.queue)
    (hcb : ev.callback = .deliver source target payload) (p : Nat) :
    f.onTheWay p = (if source = p then payload else [])
      ++ ({ f with scheduler := scheduler }.deliver source target payload).onTheWay p := by
  rw [onTheWay, hqueue, List.flatMap_cons, hcb]
  rfl

theorem Sound.deliver (h : f.Sound) (hqueue : f.scheduler.queue = ev :: scheduler.queue)
    (hcb : ev.callback = .deliver source target payload)
    (hnow : f.scheduler.now ≤ scheduler.now) :
    ({ f with scheduler := scheduler }.deliver source target payload).Sound := by
  have hev : ev ∈ f.scheduler.queue := by
    rw [hqueue]
    exact List.mem_cons_self
  have hway := onTheWay_of_queue hqueue hcb
  constructor
  case symm =>
    intro c p ec' hc hp
    obtain ⟨ec, hec, hd⟩ := endpoint_of_deliver hc
    obtain ⟨ep, hep, hpeer⟩ := h.symm hec (hd.peer.symm.trans hp)
    obtain ⟨ep', hep', hd'⟩ := endpoint_deliver_of hep
    exact ⟨ep', hep', hd'.peer.trans hpeer⟩
  case routed =>
    intro e s t data he hcb'
    have hmem : e ∈ f.scheduler.queue := by
      rw [hqueue]
      exact List.mem_cons_of_mem _ he
    obtain ⟨ep, hep, hpeer, hle⟩ := h.routed hmem hcb'
    obtain ⟨ep', hep', hd'⟩ := endpoint_deliver_of hep
    refine ⟨ep', hep', hd'.peer.trans hpeer, ?_⟩
    rw [hd'.lastDelivery]
    show e.deadline ≤ max ep.lastDelivery scheduler.now
    omega
  case window =>
    intro p ep' hp
    obtain ⟨ep, hep, hd⟩ := endpoint_of_deliver hp
    have hlen := congrArg List.length (hway p)
    rw [List.length_append, ← h.window hep] at hlen
    rw [hd.inFlight]
    split
    case isTrue heq =>
      rw [if_pos heq] at hlen
      omega
    case isFalse hne =>
      rw [if_neg hne] at hlen
      exact hlen.trans (Nat.zero_add _)
  case heard =>
    intro c ec' hc hreset hopen
    obtain ⟨ec, hec, hd⟩ := endpoint_of_deliver hc
    rw [hd.reset] at hreset
    rw [hd.isOpen] at hopen
    rw [hd.missed hreset hopen]
    exact h.heard hec hreset hopen
  case whole =>
    intro c p ec' ep' hc hpeer hp hreset hlost
    obtain ⟨ec, hec, hdc⟩ := endpoint_of_deliver hc
    obtain ⟨ep, hep, hdp⟩ := endpoint_of_deliver hp
    rw [hdc.peer] at hpeer
    rw [hdc.reset] at hreset
    rw [hdp.lost] at hlost
    have hwhole := h.whole hec hpeer hep hreset hlost
    rw [hway p] at hwhole
    rw [hdc.pending (h.heard hec), hdp.accepted, ← hwhole]
    simp only [h.target_iff hev hcb hec hpeer]

end Deliveries

/-- The cuts are no part of it. -/
theorem Sound.update_cuts (h : f.Sound) (cuts : List (Nat × Nat)) :
    ({ f with cuts := cuts } : Fabric).Sound :=
  ⟨h.symm, h.routed, h.window, h.heard, h.whole⟩

theorem Sound.change {a : Action} (h : f.Sound) (hc : Change f a f') : f'.Sound := by
  cases hc with
  | quiet hq => exact h.quiet hq
  | grows hg => exact h.grows hg
  | cuts hq => exact (h.update_cuts _).quiet hq
  | sends hep hpeer hfar hreset hcut hdue => exact h.sendOff hep hpeer hdue _
  | drops hep hwhy => exact h.lose _ _
  | delivers hqueue hcb hnow => exact h.deliver hqueue hcb hnow

/-! ## Order -/

/-- A write that will be delivered finds that nothing was lost before it. -/
def Action.contiguous (f : Fabric) : Action → Bool
  | .write _ conn _ _ _ =>
      match f.endpoint conn with
      | none => true
      | some ep =>
          match ep.peer.bind f.endpoint with
          | none => true
          | some far => far.reset || f.isCut ep.node far.node || ep.lost.isEmpty
  | _ => true

/-- What arrived at an end is the first part of what was accepted at the other, and what is
on the way comes next. -/
structure Ordered (f : Fabric) : Prop where
  pending : ∀ {c p ec ep}, f.endpoint c = some ec → ec.peer = some p → f.endpoint p = some ep →
    ec.reset = false → ec.pending (f.onTheWay p) <+: ep.accepted
  received : ∀ {c p ec ep}, f.endpoint c = some ec → ec.peer = some p → f.endpoint p = some ep →
    ec.returned ++ ec.rx.contents <+: ep.accepted

theorem Ordered.quiet (h : f.Ordered) (hq : Quiet f f') : f'.Ordered where
  pending := by
    intro c p ec' ep' hc hpeer hp hreset
    obtain ⟨ec, hec, hqc⟩ := hq.back hc
    obtain ⟨ep, hep, hqp⟩ := hq.back hp
    rw [hqc.pending, hq.onTheWay, hqp.accepted]
    exact h.pending hec (hqc.peer.symm.trans hpeer) hep (hqc.reset_eq_false hreset)
  received := by
    intro c p ec' ep' hc hpeer hp
    obtain ⟨ec, hec, hqc⟩ := hq.back hc
    obtain ⟨ep, hep, hqp⟩ := hq.back hp
    rw [hqc.received, hqp.accepted]
    exact h.received hec (hqc.peer.symm.trans hpeer) hep

theorem Ordered.grows (h : f.Ordered) (hs : f.Sound) {news : List Endpoint}
    (hg : Grows f f' news) : f'.Ordered where
  pending := by
    intro c p ec ep hc hpeer hp hreset
    rcases hg.endpoint_cases hc with hold | ⟨-, i, rfl, hnew⟩
    · obtain ⟨ep', hep', -⟩ := hs.symm hold hpeer
      obtain rfl : ep' = ep := Option.some.inj ((hg.endpoint_old hep').symm.trans hp)
      rw [hg.onTheWay]
      exact h.pending hold hpeer hep' hreset
    · obtain ⟨j, ep', rfl, hep', -⟩ := hg.peers hnew hpeer
      obtain rfl : ep' = ep := Option.some.inj ((hg.endpoint_new hep').symm.trans hp)
      obtain ⟨-, -, hlost, -⟩ := hg.fresh ep' (List.mem_of_getElem? hep')
      exact (hs.grows hg).whole hc hpeer hp hreset hlost ▸ List.prefix_rfl
  received := by
    intro c p ec ep hc hpeer hp
    rcases hg.endpoint_cases hc with hold | ⟨-, i, rfl, hnew⟩
    · obtain ⟨ep', hep', -⟩ := hs.symm hold hpeer
      obtain rfl : ep' = ep := Option.some.inj ((hg.endpoint_old hep').symm.trans hp)
      exact h.received hold hpeer hep'
    · obtain ⟨-, -, -, hreceived, -⟩ := hg.fresh ec (List.mem_of_getElem? hnew)
      rw [hreceived]
      exact List.nil_prefix

theorem Ordered.lose (h : f.Ordered) (conn : Nat) (data : Bytes) :
    (f.modify conn (Endpoint.lose data)).Ordered := by
  have hchange := receives_lose data
  have hgrows : ∀ (p : Nat) (e : Endpoint),
      e.accepted <+: (if conn = p then e.lose data else e).accepted := by
    intro p e
    split
    · exact List.prefix_append _ _
    · exact List.prefix_rfl
  constructor
  · intro c p ec ep hc hpeer hp hreset
    obtain ⟨e, he, rfl⟩ := endpoint_of_modify hc
    obtain ⟨e₁, he₁, rfl⟩ := endpoint_of_modify hp
    have hr := receives_ite hchange conn c e
    rw [hr.pending]
    exact (h.pending he (hr.peer.symm.trans hpeer) he₁ (hr.reset.symm.trans hreset)).trans
      (hgrows p e₁)
  · intro c p ec ep hc hpeer hp
    obtain ⟨e, he, rfl⟩ := endpoint_of_modify hc
    obtain ⟨e₁, he₁, rfl⟩ := endpoint_of_modify hp
    have hr := receives_ite hchange conn c e
    rw [hr.received]
    exact (h.received he (hr.peer.symm.trans hpeer) he₁).trans (hgrows p e₁)

/-- A write whose end has lost nothing goes behind everything accepted there before. -/
theorem Ordered.sendOff (h : f.Ordered) (hs : f.Sound) {conn peer : Nat} {due : Int}
    {ep : Endpoint} (hep : f.endpoint conn = some ep) (hdue : ep.lastDelivery ≤ due)
    (hlost : ep.lost = []) (data : Bytes) : (f.sendOff conn peer due data).Ordered := by
  have hchange := receives_send due data
  constructor
  · intro c p ec ep' hc hpeer hp hreset
    obtain ⟨e, he, rfl⟩ := endpoint_of_modify hc
    obtain ⟨e₁, he₁, rfl⟩ := endpoint_of_modify hp
    have hr := receives_ite hchange conn c e
    have hpeer' := hr.peer.symm.trans hpeer
    have hreset' := hr.reset.symm.trans hreset
    rw [hr.pending, hs.onTheWay_sendOff hep hdue, Endpoint.pending_append]
    split
    case isTrue heq =>
      subst heq
      obtain rfl : ep = e₁ := Option.some.inj (hep.symm.trans he₁)
      exact hs.whole he hpeer' he₁ hreset' hlost ▸ List.prefix_rfl
    case isFalse hne =>
      rw [List.append_nil]
      exact h.pending he hpeer' he₁ hreset'
  · intro c p ec ep' hc hpeer hp
    obtain ⟨e, he, rfl⟩ := endpoint_of_modify hc
    obtain ⟨e₁, he₁, rfl⟩ := endpoint_of_modify hp
    have hr := receives_ite hchange conn c e
    rw [hr.received]
    refine (h.received he (hr.peer.symm.trans hpeer) he₁).trans ?_
    split
    · exact List.prefix_append _ _
    · exact List.prefix_rfl

theorem Ordered.deliver (h : f.Ordered) (hs : f.Sound) {ev : Event Callback}
    {scheduler : Scheduler Callback} {source target : Nat} {payload : Bytes}
    (hqueue : f.scheduler.queue = ev :: scheduler.queue)
    (hcb : ev.callback = .deliver source target payload) :
    ({ f with scheduler := scheduler }.deliver source target payload).Ordered := by
  have hev : ev ∈ f.scheduler.queue := by
    rw [hqueue]
    exact List.mem_cons_self
  have hpending : ∀ {c p ec ep},
      ({ f with scheduler := scheduler }.deliver source target payload).endpoint c = some ec →
      ec.peer = some p →
      ({ f with scheduler := scheduler }.deliver source target payload).endpoint p = some ep →
      ec.reset = false →
      ec.pending (({ f with scheduler := scheduler }.deliver source target payload).onTheWay p)
        <+: ep.accepted := by
    intro c p ec' ep' hc hpeer hp hreset
    obtain ⟨ec, hec, hdc⟩ := endpoint_of_deliver hc
    obtain ⟨ep, hep, hdp⟩ := endpoint_of_deliver hp
    rw [hdc.peer] at hpeer
    rw [hdc.reset] at hreset
    have hbefore := h.pending hec hpeer hep hreset
    rw [onTheWay_of_queue hqueue hcb p] at hbefore
    rw [hdc.pending (hs.heard hec), hdp.accepted]
    simp only [hs.target_iff hev hcb hec hpeer]
    exact hbefore
  constructor
  · exact hpending
  · intro c p ec' ep' hc hpeer hp
    cases hreset : ec'.reset with
    | false =>
        -- what the reader has and finds is the beginning of all that is pending
        refine List.IsPrefix.trans ?_ (hpending hc hpeer hp hreset)
        exact List.prefix_append _ _
    | true =>
        obtain ⟨ec, hec, hdc⟩ := endpoint_of_deliver hc
        obtain ⟨ep, hep, hdp⟩ := endpoint_of_deliver hp
        rw [hdc.received (hdc.reset.symm.trans hreset), hdp.accepted]
        exact h.received hec (hdc.peer.symm.trans hpeer) hep

theorem Ordered.update_cuts (h : f.Ordered) (cuts : List (Nat × Nat)) :
    ({ f with cuts := cuts } : Fabric).Ordered := ⟨h.pending, h.received⟩

theorem Ordered.change {a : Action} (h : f.Ordered) (hs : f.Sound) (hc : Change f a f')
    (hcontiguous : a.contiguous f = true) : f'.Ordered := by
  cases hc with
  | quiet hq => exact h.quiet hq
  | grows hg => exact h.grows hs hg
  | cuts hq => exact (h.update_cuts _).quiet hq
  | sends hep hpeer hfar hreset hcut hdue =>
      refine h.sendOff hs hep hdue ?_ _
      simp only [Action.contiguous, hep, hpeer, Option.bind_some, hfar, hreset, hcut,
        Bool.false_or, List.isEmpty_iff] at hcontiguous
      exact hcontiguous
  | drops hep hwhy => exact h.lose _ _
  | delivers hqueue hcb hnow => exact h.deliver hs hqueue hcb

/-- The bytes that were returned on an end of a connection are the first bytes that were
accepted on the other, in their order, in every run in which no write follows on bytes that
a cut has swallowed. -/
theorem returned_isPrefix {config : NetworkFaultConfig} {f : Fabric}
    (hrun : Runs Fabric.next (fun s a _ => a.contiguous s = true) (start config) f)
    {c p : Nat} {ec ep : Endpoint} (hc : f.endpoint c = some ec) (hpeer : ec.peer = some p)
    (hp : f.endpoint p = some ep) : ec.returned <+: ep.accepted := by
  have h : f.Sound ∧ f.Ordered := by
    refine hrun.invariant (I := fun f => f.Sound ∧ f.Ordered) ?_ ?_
    · refine ⟨sound_start config, ⟨?_, ?_⟩⟩
      · intro c p ec ep hc
        cases hc
      · intro c p ec ep hc
        cases hc
    · intro s a t ih hn hok
      have hchange := change_of_next hn
      exact ⟨ih.1.change hchange, ih.2.change ih.1 hchange hok⟩
  exact (List.prefix_append _ _).trans (h.2.received hc hpeer hp)

/-- A client on node 0 and a server on node 1 that has accepted its connection: the
listener is endpoint 0, the client's end 1 and the server's end 2. -/
def connected : List Action :=
  [.addNode 0 "n0", .addNode 1 "n1", .listen 1 9000, .connect 0 "n1" 9000 50,
    .runNextBefore 50, .accept 1 0]

/-- Bytes are written during a cut and go nowhere, but none after it. -/
def cutAtTheEnd : List Action :=
  connected ++ [.write 0 1 [1, 2] none 70, .write 0 1 [3] none 20, .cut 0 1,
    .write 0 1 [4] none 20, .runNextBefore 1000, .heal 0 1, .runNextBefore 1000, .read 1 2 16]

theorem returned_isPrefix_cutAtTheEnd : ∃ f ec ep,
    Runs Fabric.next (fun s a _ => a.contiguous s = true) (start {}) f ∧
      f.endpoint 2 = some ec ∧ f.endpoint 1 = some ep ∧ ec.returned = [1, 2, 3] ∧
      ec.returned <+: ep.accepted := by
  obtain ⟨f, hrun, hp⟩ := exists_of_replay Fabric.next (fun s a _ => a.contiguous s = true)
    (start {}) cutAtTheEnd (p := fun f =>
      (f.endpoint 2).any (fun e : Endpoint => decide (e.peer = some 1 ∧ e.returned = [1, 2, 3])) &&
        (f.endpoint 1).isSome) (by decide +kernel)
  rw [Bool.and_eq_true, Option.any_eq_true] at hp
  obtain ⟨⟨ec, hc, hec⟩, hp⟩ := hp
  obtain ⟨ep, hp⟩ := Option.isSome_iff_exists.1 hp
  obtain ⟨hpeer, hreturned⟩ := of_decide_eq_true hec
  exact ⟨f, ec, ep, hrun, hc, hp, hreturned, returned_isPrefix hrun hc hpeer hp⟩

/-- A cut that is healed before it resets the connection swallows a byte, and the byte
behind it arrives. -/
def cutInTheMiddle : List Action :=
  connected ++ [.write 0 1 [1] none 20, .cut 0 1, .write 0 1 [2] none 20, .heal 0 1,
    .write 0 1 [3] none 20, .runNextBefore 1000, .runNextBefore 1000, .read 1 2 16]

theorem returned_not_isPrefix : ∃ f ec ep,
    Runs Fabric.next (fun _ _ _ => True) (start {}) f ∧
      f.endpoint 2 = some ec ∧ ec.peer = some 1 ∧ f.endpoint 1 = some ep ∧
      ec.reset = false ∧ ep.reset = false ∧ ¬ ec.returned <+: ep.accepted := by
  obtain ⟨f, hrun, hp⟩ := exists_of_replay Fabric.next (fun _ _ _ => True)
    (start {}) cutInTheMiddle (p := fun f =>
      (f.endpoint 2).any (fun e : Endpoint =>
        decide (e.peer = some 1 ∧ e.reset = false ∧ e.returned = [1, 3])) &&
        (f.endpoint 1).any (fun e : Endpoint => decide (e.reset = false ∧ e.accepted = [1, 2, 3])))
    (by decide +kernel)
  rw [Bool.and_eq_true, Option.any_eq_true, Option.any_eq_true] at hp
  obtain ⟨⟨ec, hc, hec⟩, ep, hp, hep⟩ := hp
  obtain ⟨hpeer, hreset, hreturned⟩ := of_decide_eq_true hec
  obtain ⟨hreset', haccepted⟩ := of_decide_eq_true hep
  refine ⟨f, ec, ep, hrun, hc, hpeer, hp, hreset, hreset', ?_⟩
  rw [hreturned, haccepted]
  decide

end Fabric

end LogEngine.Io
