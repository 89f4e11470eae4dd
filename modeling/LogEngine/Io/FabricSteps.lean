import LogEngine.Io.SimNetwork
import LogEngine.Verified.Machine

/-!
# What a step of the simulated network does to the bytes

`Fabric.Change` lists the ways in which a step of `Io/SimNetwork` can touch the bytes of a
connection: `write` sends or drops some, a delivery arrives, endpoints are made, and
everything else is `Quiet`.
-/

namespace LogEngine.Io

open Base Sim Verified.Machine

/-! ## Steps that move no bytes -/

/-- Nothing happens to the bytes of an endpoint but that its reader takes some from the
buffer; it may be closed or reset, and neither is undone. -/
structure Endpoint.Quiet (e e' : Endpoint) : Prop where
  node : e'.node = e.node
  peer : e'.peer = e.peer
  inFlight : e'.inFlight = e.inFlight
  lastDelivery : e'.lastDelivery = e.lastDelivery
  accepted : e'.accepted = e.accepted
  lost : e'.lost = e.lost
  missed : e'.missed = e.missed
  received : e'.returned ++ e'.rx.contents = e.returned ++ e.rx.contents
  reset : e.reset = true → e'.reset = true
  isOpen : e'.isOpen = true → e.isOpen = true

theorem Endpoint.Quiet.reset_eq_false {e e' : Endpoint} (h : e.Quiet e') (he : e'.reset = false) :
    e.reset = false := by
  by_contra hne
  rw [h.reset (Bool.eq_true_of_not_eq_false hne)] at he
  cases he

theorem Endpoint.Quiet.refl (e : Endpoint) : e.Quiet e :=
  ⟨rfl, rfl, rfl, rfl, rfl, rfl, rfl, rfl, id, id⟩

theorem Endpoint.Quiet.trans {a b c : Endpoint} (h : a.Quiet b) (h' : b.Quiet c) : a.Quiet c where
  node := h'.node.trans h.node
  peer := h'.peer.trans h.peer
  inFlight := h'.inFlight.trans h.inFlight
  lastDelivery := h'.lastDelivery.trans h.lastDelivery
  accepted := h'.accepted.trans h.accepted
  lost := h'.lost.trans h.lost
  missed := h'.missed.trans h.missed
  received := h'.received.trans h.received
  reset := fun hr => h'.reset (h.reset hr)
  isOpen := fun ho => h.isOpen (h'.isOpen ho)

/-- Flags and the backlog are no bytes. -/
theorem Endpoint.Quiet.flags (e : Endpoint) {isOpen reset peerClosed : Bool} {backlog : List Nat}
    (hreset : e.reset = true → reset = true) (hopen : isOpen = true → e.isOpen = true) :
    e.Quiet { e with
      isOpen := isOpen, reset := reset, peerClosed := peerClosed, backlog := backlog } :=
  ⟨rfl, rfl, rfl, rfl, rfl, rfl, rfl, rfl, hreset, hopen⟩

namespace Fabric

/-- The bytes that a callback will deliver from endpoint `p`. -/
def Callback.bytesFrom (p : Nat) : Callback → Bytes
  | .deliver source _ payload => if source = p then payload else []
  | .accept _ _ => []
  | .partitionReset _ _ => []

/-- The bytes that endpoint `p` has sent and that are not yet delivered, in the order of
their delivery. -/
def onTheWay (f : Fabric) (p : Nat) : Bytes :=
  f.scheduler.queue.flatMap fun e => e.callback.bytesFrom p

/-- No delivery is scheduled or run, and no direction is cut. -/
structure Idle (f f' : Fabric) : Prop where
  onTheWay : ∀ p, f'.onTheWay p = f.onTheWay p
  deliveries : ∀ e ∈ f'.scheduler.queue, ∀ {source target payload},
    e.callback = .deliver source target payload → e ∈ f.scheduler.queue
  now : f.scheduler.now ≤ f'.scheduler.now
  cuts : f'.cuts ⊆ f.cuts

theorem Idle.of_eq {f f' : Fabric} (hscheduler : f'.scheduler = f.scheduler)
    (hcuts : f'.cuts ⊆ f.cuts) : Idle f f' where
  onTheWay := by
    intro p
    rw [Fabric.onTheWay, hscheduler, Fabric.onTheWay]
  deliveries := by
    intro e he _ _ _ _
    rwa [hscheduler] at he
  now := by rw [hscheduler]
  cuts := hcuts

/-- A step moves no bytes through the network. -/
structure Quiet (f f' : Fabric) : Prop extends Idle f f' where
  endpoints : ∀ id, Option.Rel Endpoint.Quiet (f.endpoint id) (f'.endpoint id)

variable {f f' f'' : Fabric} {id : Nat} {change : Endpoint → Endpoint}

theorem Quiet.forth (h : Quiet f f') {e : Endpoint} (he : f.endpoint id = some e) :
    ∃ e', f'.endpoint id = some e' ∧ e.Quiet e' := by
  have hrel := h.endpoints id
  rw [he] at hrel
  generalize ho : f'.endpoint id = o at hrel
  cases hrel with
  | some hq => exact ⟨_, rfl, hq⟩

theorem Quiet.back (h : Quiet f f') {e' : Endpoint} (he : f'.endpoint id = some e') :
    ∃ e, f.endpoint id = some e ∧ e.Quiet e' := by
  have hrel := h.endpoints id
  rw [he] at hrel
  generalize ho : f.endpoint id = o at hrel
  cases hrel with
  | some hq => exact ⟨_, rfl, hq⟩

private theorem rel_refl (o : Option Endpoint) : Option.Rel Endpoint.Quiet o o := by
  cases o with
  | none => exact .none
  | some e => exact .some (.refl e)

theorem Quiet.refl (f : Fabric) : Quiet f f :=
  ⟨.of_eq rfl (List.Subset.refl _), fun id => rel_refl (f.endpoint id)⟩

theorem Quiet.trans (h : Quiet f f') (h' : Quiet f' f'') : Quiet f f'' where
  endpoints := by
    intro id
    have h₁ := h.endpoints id
    have h₂ := h'.endpoints id
    generalize f.endpoint id = o at h₁
    generalize f'.endpoint id = o' at h₁ h₂
    generalize f''.endpoint id = o'' at h₂
    cases h₁ with
    | none =>
        cases h₂
        exact .none
    | some hq =>
        cases h₂ with
        | some hq' => exact .some (hq.trans hq')
  onTheWay := fun p => (h'.onTheWay p).trans (h.onTheWay p)
  deliveries := fun e he _ _ _ hcb => h.deliveries e (h'.deliveries e he hcb) hcb
  now := h.now.trans h'.now
  cuts := fun _ hx => h.cuts (h'.cuts hx)

theorem Quiet.foldl {α : Type} {g : Fabric → α → Fabric} (h : ∀ f a, Quiet f (g f a))
    (l : List α) (f : Fabric) : Quiet f (l.foldl g f) := by
  induction l generalizing f with
  | nil => exact .refl f
  | cons a l ih => exact (h f a).trans (ih _)

theorem endpoint_modify (f : Fabric) (id id' : Nat) (change : Endpoint → Endpoint) :
    (f.modify id change).endpoint id'
      = (f.endpoint id').map fun e => if id = id' then change e else e :=
  List.getElem?_modify ..

/-- A quiet change of one endpoint. -/
theorem quiet_modify (h : ∀ e, f.endpoint id = some e → e.Quiet (change e)) :
    Quiet f (f.modify id change) where
  endpoints := by
    intro id'
    rw [endpoint_modify]
    cases hid : f.endpoint id' with
    | none => exact .none
    | some e =>
        apply Option.Rel.some
        split
        case isTrue heq =>
          subst heq
          exact h e hid
        case isFalse => exact .refl e
  toIdle := .of_eq rfl (List.Subset.refl _)

private theorem quiet_resetOne (f : Fabric) (id : Nat) : Quiet f (f.resetOne id) := by
  unfold resetOne
  split
  · exact .refl f
  · split
    · exact .refl f
    · apply quiet_modify
      intro e _
      exact .flags e (fun _ => rfl) (by simp)

private theorem quiet_resetConnection (f : Fabric) (id : Nat) : Quiet f (f.resetConnection id) := by
  unfold resetConnection
  split
  · exact .refl f
  · split
    · exact .refl f
    · split
      · exact quiet_resetOne f id
      · exact (quiet_resetOne f id).trans (quiet_resetOne _ _)

private theorem quiet_partitionReset (f : Fabric) (source target : Nat) :
    Quiet f (f.partitionReset source target) := by
  have hround : ∀ (f : Fabric) (id : Nat), Quiet f (f.resetAcross target id) := by
    intro f id
    unfold resetAcross
    split
    · exact .refl f
    · split
      · exact .refl f
      · split
        · exact .refl f
        · split
          · exact .refl f
          · exact quiet_resetConnection f id
  unfold partitionReset
  split
  · exact .refl f
  · split
    · exact .refl f
    · exact Quiet.foldl hround _ f

/-- The listeners are no part of what a quiet step is about. -/
theorem Quiet.update_listeners (h : Quiet f f') (listeners : Nat × Nat → Option Nat) :
    Quiet f { f' with listeners := listeners } :=
  ⟨⟨h.onTheWay, h.deliveries, h.now, h.cuts⟩, h.endpoints⟩

private theorem quiet_killNodeConnections (f : Fabric) (node : Nat) :
    Quiet f (f.killNodeConnections node) := by
  have hround : ∀ (f : Fabric) (id : Nat), Quiet f (f.killEndpoint node id) := by
    intro f id
    unfold killEndpoint
    split
    · exact .refl f
    · split
      · apply Quiet.update_listeners
        apply quiet_modify
        intro e _
        exact .flags e (fun h => h) (by simp)
      · exact quiet_resetConnection f id
  unfold killNodeConnections
  split
  · exact .refl f
  case h_2 ids _ =>
    have h := Quiet.foldl hround ids f
    exact ⟨⟨h.onTheWay, h.deliveries, h.now, h.cuts⟩, h.endpoints⟩

private theorem quiet_accept (f : Fabric) (node listener : Nat) :
    Quiet f (f.accept node listener).2 := by
  unfold accept
  split
  · exact .refl f
  · split
    · exact .refl f
    · split
      · exact .refl f
      · apply quiet_modify
        intro e _
        exact .flags e (fun h => h) (fun h => h)

private theorem quiet_accepted (f : Fabric) (listener server : Nat) :
    Quiet f (f.accepted listener server) := by
  unfold accepted
  split
  · exact quiet_resetConnection f server
  · split
    · exact quiet_resetConnection f server
    · split
      · exact .refl f
      · split
        · exact .refl f
        · apply quiet_modify
          intro e _
          exact .flags e (fun h => h) (fun h => h)

private theorem quiet_close (f : Fabric) (node conn : Nat) : Quiet f (f.close node conn) := by
  have hshut : ∀ f : Fabric, Quiet f (f.modify conn fun ep => { ep with isOpen := false }) := by
    intro f
    apply quiet_modify
    intro e _
    exact .flags e (fun h => h) (by simp)
  unfold close
  split
  · exact .refl f
  · split
    · exact .refl f
    · refine Quiet.trans ?_ (hshut _)
      split
      · refine Quiet.trans ?_ (Quiet.foldl quiet_resetConnection _ _)
        apply Quiet.update_listeners
        apply quiet_modify
        intro e _
        exact .flags e (fun h => h) (fun h => h)
      · split
        · exact .refl f
        · apply quiet_modify
          intro e _
          exact .flags e (fun h => h) (fun h => h)

/-- What a read returns was in the buffer. -/
theorem quiet_read (f : Fabric) (node conn room : Nat) : Quiet f (f.read node conn room).2 := by
  unfold read
  split
  · exact .refl f
  case h_2 ep hep =>
    split
    · exact .refl f
    · split
      · exact .refl f
      · split
        · apply quiet_modify
          intro e he
          obtain rfl : ep = e := Option.some.inj (hep.symm.trans he)
          refine ⟨rfl, rfl, rfl, rfl, rfl, rfl, rfl, ?_, id, id⟩
          dsimp only
          rw [Buffer.contents_consume, List.append_assoc, List.take_append_drop]
        · split
          · exact .refl f
          · split <;> exact .refl f

/-- An event that is no delivery may be scheduled. -/
theorem Idle.scheduleAt (h : Idle f f') {callback : Callback}
    (hno : ∀ source target payload, callback ≠ .deliver source target payload)
    (deadline : Int) :
    Idle f { f' with scheduler := f'.scheduler.scheduleAt deadline callback } where
  onTheWay := by
    intro p
    refine Eq.trans (Scheduler.flatMap_scheduleAt_nil ?_) (h.onTheWay p)
    cases callback with
    | deliver source target payload => exact absurd rfl (hno source target payload)
    | accept listener server => rfl
    | partitionReset source target => rfl
  deliveries := by
    intro e he source target payload hcallback
    rcases Scheduler.mem_scheduleAt he with rfl | he
    · exact absurd hcallback (hno source target payload)
    · exact h.deliveries e he hcallback
  now := h.now
  cuts := h.cuts

/-! ## What a step can do -/

/-- Endpoints are made that nothing has happened to, and that are each other's peers. -/
structure Grows (f f' : Fabric) (news : List Endpoint) : Prop extends Idle f f' where
  endpoints : f'.endpoints = f.endpoints ++ news
  fresh : ∀ e ∈ news, e.inFlight = 0 ∧ e.accepted = [] ∧ e.lost = [] ∧
    e.returned ++ e.rx.contents = [] ∧ e.missed = []
  peers : ∀ {i e p}, news[i]? = some e → e.peer = some p →
    ∃ j e', p = f.endpoints.length + j ∧ news[j]? = some e' ∧
      e'.peer = some (f.endpoints.length + i)

/-- What a step does to the bytes of the connections. -/
inductive Change (f : Fabric) : Action → Fabric → Prop
  | quiet {a : Action} {f' : Fabric} (h : Quiet f f') : Change f a f'
  | grows {a : Action} {f' : Fabric} {news : List Endpoint} (h : Grows f f' news) : Change f a f'
  | cuts {source target : Nat} {f' : Fabric}
      (h : Quiet { f with cuts := (source, target) :: f.cuts } f') :
      Change f (.cut source target) f'
  | sends {node conn : Nat} {data data' : Bytes} {short : Option Nat} {latency : Int} {peer : Nat}
      {due : Int} {ep far : Endpoint} (hep : f.endpoint conn = some ep)
      (hpeer : ep.peer = some peer) (hfar : f.endpoint peer = some far)
      (hreset : far.reset = false) (hcut : f.isCut ep.node far.node = false)
      (hdue : ep.lastDelivery ≤ due) :
      Change f (.write node conn data short latency) (f.sendOff conn peer due data')
  | drops {node conn : Nat} {data data' : Bytes} {short : Option Nat} {latency : Int}
      {ep : Endpoint} (hep : f.endpoint conn = some ep)
      (hwhy : ∀ {peer far}, ep.peer = some peer → f.endpoint peer = some far →
        far.reset = true ∨ f.isCut ep.node far.node = true) :
      Change f (.write node conn data short latency) (f.modify conn (Endpoint.lose data'))
  | delivers {limit : Int} {e : Event Callback} {source target : Nat} {payload : Bytes}
      {scheduler : Scheduler Callback} (hqueue : f.scheduler.queue = e :: scheduler.queue)
      (hcb : e.callback = .deliver source target payload)
      (hnow : f.scheduler.now ≤ scheduler.now) :
      Change f (.runNextBefore limit)
        ({ f with scheduler := scheduler }.deliver source target payload)

private theorem listenOn_cases (f : Fabric) (node bound : Nat) :
    Quiet f (f.listenOn node bound).2 ∨ ∃ news, Grows f (f.listenOn node bound).2 news := by
  unfold listenOn
  split
  · exact .inl (.refl f)
  · refine .inr ⟨_, .of_eq rfl (List.Subset.refl _), rfl, ?_, ?_⟩
    · intro e he
      rw [List.mem_singleton.1 he]
      exact ⟨rfl, rfl, rfl, rfl, rfl⟩
    · intro i e p he hpeer
      rw [List.mem_singleton.1 (List.mem_of_getElem? he)] at hpeer
      cases hpeer

private theorem change_listen (f : Fabric) (node port : Nat) :
    Change f (.listen node port) (f.listen node port).2 := by
  unfold listen
  split
  · rcases listenOn_cases
        { f with nextEphemeralPort := (f.nextEphemeralPort + 1) % 0x10000 } node
        f.nextEphemeralPort with h | ⟨news, h⟩
    · exact .quiet ⟨⟨h.onTheWay, h.deliveries, h.now, h.cuts⟩, h.endpoints⟩
    · exact .grows ⟨⟨h.onTheWay, h.deliveries, h.now, h.cuts⟩, h.endpoints, h.fresh, h.peers⟩
  · rcases listenOn_cases f node port with h | ⟨news, h⟩
    · exact .quiet h
    · exact .grows h

private theorem grows_newConnection (f : Fabric) (node peerNode port : Nat) :
    ∃ news, Grows f (f.newConnection node peerNode port) news := by
  refine ⟨_, .of_eq rfl (List.Subset.refl _), List.append_assoc _ _ _, ?_, ?_⟩
  · intro e he
    rw [List.singleton_append, List.mem_cons, List.mem_singleton] at he
    rcases he with rfl | rfl <;> exact ⟨rfl, rfl, rfl, rfl, rfl⟩
  · intro i e p he hpeer
    match i, he with
    | 0, he =>
        cases he
        cases hpeer
        exact ⟨1, _, rfl, rfl, rfl⟩
    | 1, he =>
        cases he
        cases hpeer
        exact ⟨0, _, rfl, rfl, rfl⟩

private theorem change_connect (f : Fabric) (node : Nat) (host : String) (port : Nat)
    (latency : Int) :
    Change f (.connect node host port latency) (f.connect node host port latency).2 := by
  unfold connect
  split
  · exact .quiet (.refl f)
  case h_2 peerNode _ =>
    split
    · exact .quiet (.refl f)
    · split
      · exact .quiet (.refl f)
      case h_2 listener _ =>
        obtain ⟨news, h⟩ := grows_newConnection f node peerNode port
        exact .grows ⟨h.toIdle.scheduleAt (by simp) _, h.endpoints, h.fresh, h.peers⟩

private theorem change_cut (f : Fabric) (source target : Nat) :
    Change f (.cut source target) (f.cut source target) := by
  unfold cut
  split
  · exact .quiet (.refl f)
  · split
    · exact .quiet (.refl f)
    · exact .cuts ⟨(Idle.of_eq rfl (List.Subset.refl _)).scheduleAt (by simp) _,
        fun id => rel_refl (f.endpoint id)⟩

private theorem change_write (f : Fabric) (node conn : Nat) (data : Bytes) (short : Option Nat)
    (latency : Int) :
    Change f (.write node conn data short latency) (f.write node conn data short latency).2 := by
  unfold write
  split
  · exact .quiet (.refl f)
  case h_2 ep hep =>
    split
    · exact .quiet (.refl f)
    case isFalse hnode =>
      split
      · exact .quiet (.refl f)
      · split
        · exact .quiet (.refl f)
        · split
          · exact .quiet (.refl f)
          · obtain rfl : ep.node = node := by
              by_contra hne
              exact hnode (.inl hne)
            dsimp only
            split
            case h_1 hnone =>
              apply Change.drops hep
              intro peer far hpeer
              rw [hnone] at hpeer
              cases hpeer
            case h_2 peer hpeer =>
              split
              case h_1 hnone =>
                apply Change.drops hep
                intro peer' far hpeer' hfar
                cases hpeer.symm.trans hpeer'
                rw [hnone] at hfar
                cases hfar
              case h_2 far hfar =>
                split
                case isTrue hreset =>
                  apply Change.drops hep
                  intro peer' far' hpeer' hfar'
                  cases hpeer.symm.trans hpeer'
                  cases hfar.symm.trans hfar'
                  exact .inl hreset
                case isFalse hreset =>
                  split
                  case isTrue hcut =>
                    apply Change.drops hep
                    intro peer' far' hpeer' hfar'
                    cases hpeer.symm.trans hpeer'
                    cases hfar.symm.trans hfar'
                    exact .inr hcut
                  case isFalse hcut =>
                    exact .sends hep hpeer hfar (Bool.eq_false_of_not_eq_true hreset)
                      (Bool.eq_false_of_not_eq_true hcut) (Int.le_max_right _ _)

private theorem change_runNextBefore {limit : Int}
    (h : f.next (.runNextBefore limit) = some f') : Change f (.runNextBefore limit) f' := by
  obtain ⟨due, hdue, rfl⟩ := Option.map_eq_some_iff.1 h
  obtain ⟨callback, scheduler⟩ := due
  obtain ⟨e, hqueue, rfl, hnow⟩ := Scheduler.runNextBefore_eq_some hdue
  -- the event leaves the queue
  have htaken : (∀ p, e.callback.bytesFrom p = []) →
      Quiet f { f with scheduler := scheduler } := by
    intro hno
    refine ⟨⟨?_, ?_, hnow, List.Subset.refl _⟩, fun id => rel_refl (f.endpoint id)⟩
    · intro p
      show scheduler.queue.flatMap _ = f.scheduler.queue.flatMap _
      rw [hqueue, List.flatMap_cons, hno p, List.nil_append]
    · intro x hx _ _ _ _
      rw [hqueue]
      exact List.mem_cons_of_mem _ hx
  cases hcb : e.callback with
  | deliver source target payload =>
      exact .delivers hqueue hcb hnow
  | accept listener server =>
      refine .quiet ((htaken ?_).trans (quiet_accepted _ listener server))
      intro p
      rw [hcb]
      rfl
  | partitionReset source target =>
      refine .quiet ((htaken ?_).trans (quiet_partitionReset _ source target))
      intro p
      rw [hcb]
      rfl

/-- Every step is one of these. -/
theorem change_of_next {a : Action} (h : f.next a = some f') : Change f a f' := by
  cases a with
  | addNode node name =>
      cases h
      exact .quiet ⟨.of_eq rfl (List.Subset.refl _), fun id => rel_refl (f.endpoint id)⟩
  | listen node port =>
      cases h
      exact change_listen f node port
  | accept node listener =>
      cases h
      exact .quiet (quiet_accept f node listener)
  | connect node host port latency =>
      cases h
      exact change_connect f node host port latency
  | read node conn room =>
      cases h
      exact .quiet (quiet_read f node conn room)
  | write node conn data short latency =>
      cases h
      exact change_write f node conn data short latency
  | close node conn =>
      cases h
      exact .quiet (quiet_close f node conn)
  | cut source target =>
      cases h
      exact change_cut f source target
  | heal source target =>
      cases h
      refine .quiet ⟨.of_eq rfl ?_, fun id => rel_refl (f.endpoint id)⟩
      exact List.filter_subset_self _
  | killNodeConnections node =>
      cases h
      exact .quiet (quiet_killNodeConnections f node)
  | runNextBefore limit => exact change_runNextBefore h
  | advanceTo deadline =>
      cases h
      refine .quiet ⟨⟨fun _ => rfl, fun _ he _ _ _ _ => he, ?_, List.Subset.refl _⟩,
        fun id => rel_refl (f.endpoint id)⟩
      exact Int.le_max_right _ _

end Fabric

end LogEngine.Io
