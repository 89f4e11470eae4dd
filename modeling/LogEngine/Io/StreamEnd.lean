import LogEngine.Io.ByteStream

/-!
# The end of a stream

`close` marks the peer at once, while bytes are still in flight, so a reader may be told of
the end before the last bytes are there (`read_end_early`), other than the comments of the
source say; `read_end_iff` says when the end is told in time.
-/

namespace LogEngine.Io.Fabric

open Base Sim Verified.Machine

variable {f f' : Fabric}

/-- Nothing is lost from node `n` to node `m` as long as that direction is not cut. -/
structure Uncut (n m : Nat) (f : Fabric) : Prop where
  cuts : (n, m) ∉ f.cuts
  lost : ∀ {c p ec ep}, f.endpoint c = some ec → ec.peer = some p → f.endpoint p = some ep →
    ep.node = n → ec.node = m → ec.reset = false → ep.lost = []

theorem Uncut.quiet {n m : Nat} (h : f.Uncut n m) (hq : Quiet f f') : f'.Uncut n m where
  cuts := fun hmem => h.cuts (hq.cuts hmem)
  lost := by
    intro c p ec' ep' hc hpeer hp hn hm hreset
    obtain ⟨ec, hec, hqc⟩ := hq.back hc
    obtain ⟨ep, hep, hqp⟩ := hq.back hp
    rw [hqp.lost]
    exact h.lost hec (hqc.peer.symm.trans hpeer) hep (hqp.node.symm.trans hn)
      (hqc.node.symm.trans hm) (hqc.reset_eq_false hreset)

theorem Uncut.change {n m : Nat} {a : Action} (h : f.Uncut n m) (hs : f.Sound)
    (hc : Change f a f') (ha : a ≠ .cut n m) : f'.Uncut n m := by
  cases hc with
  | quiet hq => exact h.quiet hq
  | grows hg =>
      constructor
      · exact fun hmem => h.cuts (hg.cuts hmem)
      · intro c p ec ep hc hpeer hp hn hm hreset
        rcases hg.endpoint_cases hp with hold | ⟨-, i, -, hnew⟩
        · -- the peer of an old endpoint is old
          obtain ⟨ec', hec', -⟩ := hs.grows hg |>.symm hc hpeer
          rcases hg.endpoint_cases hc with hold' | ⟨-, i, rfl, hnew⟩
          · exact h.lost hold' hpeer hold hn hm hreset
          · obtain ⟨j, ep', rfl, hep', -⟩ := hg.peers hnew hpeer
            obtain rfl : ep' = ep := Option.some.inj ((hg.endpoint_new hep').symm.trans hp)
            exact (hg.fresh ep' (List.mem_of_getElem? hep')).2.2.1
        · exact (hg.fresh ep (List.mem_of_getElem? hnew)).2.2.1
  | @cuts source target _ hq =>
      have h' : ({ f with cuts := (source, target) :: f.cuts } : Fabric).Uncut n m := by
        refine ⟨?_, h.lost⟩
        intro hmem
        rcases List.mem_cons.1 hmem with heq | hmem
        · cases heq
          exact ha rfl
        · exact h.cuts hmem
      exact h'.quiet hq
  | @sends _ conn _ data _ _ _ due _ _ hep hpeer hfar hreset hcut hdue =>
      refine ⟨h.cuts, ?_⟩
      intro c p ec' ep' hc hpeer' hp hn hm hreset'
      obtain ⟨ec, hec, rfl⟩ := endpoint_of_modify hc
      obtain ⟨e, he, rfl⟩ := endpoint_of_modify hp
      have hr := receives_ite (receives_send due data) conn c ec
      have hr' := receives_ite (receives_send due data) conn p e
      have hlost : (if conn = p then e.send due data else e).lost = e.lost := by split <;> rfl
      rw [hlost]
      exact h.lost hec (hr.peer.symm.trans hpeer') he (hr'.node.symm.trans hn)
        (hr.node.symm.trans hm) (hr.reset.symm.trans hreset')
  | @drops _ conn _ data _ _ _ hep hwhy =>
      refine ⟨h.cuts, ?_⟩
      intro c p ec' ep' hc hpeer' hp hn hm hreset'
      obtain ⟨ec, hec, rfl⟩ := endpoint_of_modify hc
      obtain ⟨e, he, rfl⟩ := endpoint_of_modify hp
      have hr := receives_ite (receives_lose data) conn c ec
      have hr' := receives_ite (receives_lose data) conn p e
      rw [hr.peer] at hpeer'
      rw [hr'.node] at hn
      rw [hr.node] at hm
      rw [hr.reset] at hreset'
      split
      case isTrue heq =>
        -- a write on this end goes nowhere only if the other is reset or cut off
        subst heq
        obtain rfl : _ = e := Option.some.inj (hep.symm.trans he)
        obtain ⟨e₁, he₁, hback⟩ := hs.symm hec hpeer'
        obtain rfl : e₁ = _ := Option.some.inj (he₁.symm.trans he)
        rcases hwhy hback hec with hdead | hcut
        · cases hreset'.symm.trans hdead
        · rw [hn, hm] at hcut
          exact absurd (of_decide_eq_true hcut) h.cuts
      case isFalse => exact h.lost hec hpeer' he hn hm hreset'
  | delivers hqueue hcb hnow =>
      refine ⟨h.cuts, ?_⟩
      intro c p ec' ep' hc hpeer hp hn hm hreset
      obtain ⟨ec, hec, hdc⟩ := endpoint_of_deliver hc
      obtain ⟨ep, hep, hdp⟩ := endpoint_of_deliver hp
      rw [hdp.lost]
      exact h.lost hec (hdc.peer.symm.trans hpeer) hep (hdp.node.symm.trans hn)
        (hdc.node.symm.trans hm) (hdc.reset.symm.trans hreset)

/-- A read that returns nothing into a buffer with room finds the buffer empty. -/
theorem read_eq_nil {node c room : Nat} {ec : Endpoint} (hc : f.endpoint c = some ec)
    (hroom : 0 < room) (h : (f.read node c room).1 = .ok []) :
    ec.reset = false ∧ ec.rx.contents = [] := by
  unfold read at h
  rw [hc] at h
  dsimp only at h
  split at h
  · cases h
  · split at h
    · cases h
    case isFalse hreset =>
      refine ⟨Bool.eq_false_of_not_eq_true hreset, ?_⟩
      split at h
      case isTrue hsize =>
        have htake := Except.ok.inj h
        rw [List.take_eq_nil_iff, Buffer.contents_eq_nil] at htake
        omega
      case isFalse hsize => exact (Buffer.contents_eq_nil _).2 (not_not.1 hsize)

/-- When a read reports the end of the stream, everything that the other end accepted has
been returned if and only if nothing of it is still in flight and nothing came after the
reading end itself was closed. -/
theorem read_end_iff {config : NetworkFaultConfig} {n m : Nat} {f : Fabric}
    (hrun : Runs Fabric.next (fun _ a _ => a ≠ .cut n m) (start config) f)
    {c p : Nat} {ec ep : Endpoint} (hc : f.endpoint c = some ec) (hpeer : ec.peer = some p)
    (hp : f.endpoint p = some ep) (hn : ep.node = n) (hm : ec.node = m) {node room : Nat}
    (hroom : 0 < room) (hread : (f.read node c room).1 = .ok []) :
    ec.returned = ep.accepted ↔ ep.inFlight = 0 ∧ ec.missed = [] := by
  have h : f.Sound ∧ f.Uncut n m := by
    refine hrun.invariant (I := fun f => f.Sound ∧ f.Uncut n m) ?_ ?_
    · refine ⟨sound_start config, ⟨List.not_mem_nil, ?_⟩⟩
      intro c p ec ep hc
      cases hc
    · intro s a t ih hnext hok
      have hchange := change_of_next hnext
      exact ⟨ih.1.change hchange, ih.2.change ih.1 hchange hok⟩
  obtain ⟨hsound, huncut⟩ := h
  obtain ⟨hreset, hrx⟩ := read_eq_nil hc hroom hread
  have hwhole := hsound.whole hc hpeer hp hreset (huncut.lost hc hpeer hp hn hm hreset)
  rw [Endpoint.pending, hrx, List.append_nil] at hwhole
  rw [hsound.window hp, ← hwhole, List.length_eq_zero_iff]
  constructor
  · intro heq
    have hnil := List.self_eq_append_right.1 heq
    rw [List.append_eq_nil_iff] at hnil
    exact ⟨hnil.2, hnil.1⟩
  · rintro ⟨hway, hmissed⟩
    rw [hway, hmissed, List.append_nil, List.append_nil]

/-- The server reads after everything has arrived, and then finds the end. -/
def closedLate : List Action :=
  connected ++ [.write 0 1 [1, 2] none 70, .runNextBefore 1000, .close 0 1, .read 1 2 16]

theorem read_end_iff_closedLate : ∃ f ec ep,
    Runs Fabric.next (fun _ a _ => a ≠ .cut 0 1) (start {}) f ∧
      f.endpoint 2 = some ec ∧ f.endpoint 1 = some ep ∧ (f.read 1 2 16).1 = .ok [] ∧
      ep.accepted = [1, 2] ∧ (ec.returned = ep.accepted ↔ ep.inFlight = 0 ∧ ec.missed = []) := by
  obtain ⟨f, hrun, hp⟩ := exists_of_replay Fabric.next (fun _ a _ => a ≠ .cut 0 1)
    (start {}) closedLate (p := fun f =>
      (f.endpoint 2).any (fun e : Endpoint => decide (e.peer = some 1 ∧ e.node = 1)) &&
        (f.endpoint 1).any (fun e : Endpoint => decide (e.node = 0 ∧ e.accepted = [1, 2])) &&
        decide ((f.read 1 2 16).1 = .ok [])) (by decide +kernel)
  rw [Bool.and_eq_true, Bool.and_eq_true, Option.any_eq_true, Option.any_eq_true] at hp
  obtain ⟨⟨⟨ec, hc, hec⟩, ep, hp, hep⟩, hread⟩ := hp
  obtain ⟨hpeer, hm⟩ := of_decide_eq_true hec
  obtain ⟨hn, haccepted⟩ := of_decide_eq_true hep
  have hread := of_decide_eq_true hread
  exact ⟨f, ec, ep, hrun, hc, hp, hread, haccepted,
    read_end_iff hrun hc hpeer hp hn hm (by decide) hread⟩

/-- The client closes while its bytes are in flight, and the server finds the end before
them; nothing was cut or reset. -/
def closedEarly : List Action := connected ++ [.write 0 1 [1, 2] none 70, .close 0 1]

def Action.isCut : Action → Bool
  | .cut _ _ => true
  | _ => false

theorem read_end_early : ∃ f ec ep,
    Runs Fabric.next (fun _ a _ => a.isCut = false) (start {}) f ∧
      f.endpoint 2 = some ec ∧ ec.peer = some 1 ∧ f.endpoint 1 = some ep ∧
      ec.reset = false ∧ ep.reset = false ∧ (f.read 1 2 16).1 = .ok [] ∧
      ec.returned ≠ ep.accepted := by
  obtain ⟨f, hrun, hp⟩ := exists_of_replay Fabric.next (fun _ a _ => a.isCut = false)
    (start {}) closedEarly (p := fun f =>
      (f.endpoint 2).any (fun e : Endpoint =>
        decide (e.peer = some 1 ∧ e.reset = false ∧ e.returned = [])) &&
        (f.endpoint 1).any (fun e : Endpoint =>
          decide (e.reset = false ∧ e.accepted = [1, 2])) &&
        decide ((f.read 1 2 16).1 = .ok [])) (by decide +kernel)
  rw [Bool.and_eq_true, Bool.and_eq_true, Option.any_eq_true, Option.any_eq_true] at hp
  obtain ⟨⟨⟨ec, hc, hec⟩, ep, hp, hep⟩, hread⟩ := hp
  obtain ⟨hpeer, hreset, hreturned⟩ := of_decide_eq_true hec
  obtain ⟨hreset', haccepted⟩ := of_decide_eq_true hep
  refine ⟨f, ec, ep, hrun, hc, hpeer, hp, hreset, hreset', of_decide_eq_true hread, ?_⟩
  rw [hreturned, haccepted]
  decide

end LogEngine.Io.Fabric
