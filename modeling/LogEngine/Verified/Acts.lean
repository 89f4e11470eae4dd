import LogEngine.Verified.Standing

/-!
# One member acts

A program that implements the protocol of `Replication` does several abstract
steps in one of its own.  `Acts i a b` says that `b` comes from `a` by steps that
leave every member but `i` alone and only add to what is on the wire; `State.view`
is what the protocol keeps about one member.  There is one lemma for each thing a
member can do, stating what becomes of its view.  All of them but a restart are
`Steady`: confirmations that stood still stand.
-/

namespace LogEngine.Verified.Replication

open LogEngine.Verified.Tiling Extent Stamped
open Election (Ballot Role Quiet)

variable {ν α : Type*}

/-- What the protocol keeps about one member. -/
structure View (ν α : Type*) where
  mem : Ballot ν
  dur : Ballot ν
  role : Role
  tally : Finset ν
  log : List α

def State.view (a : State ν α) (i : ν) : View ν α :=
  ⟨a.el.mem i, a.el.dur i, a.el.role i, a.el.tally i, a.log i⟩

variable [Stamped α] {𝒬 : QuorumSystem ν}

/-- The invariants of the protocol, together. -/
structure Sound (𝒬 : QuorumSystem ν) (a : State ν α) : Prop where
  inv : Inv 𝒬 a
  complete : Complete 𝒬 a

theorem sound_init (𝒬 : QuorumSystem ν) : Sound 𝒬 (init : State ν α) :=
  ⟨inv_init 𝒬, complete_init 𝒬⟩

/-- Member `i` takes `a` to `b`. -/
structure Acts (𝒬 : QuorumSystem ν) (i : ν) (a b : State ν α) : Prop where
  sound : Sound 𝒬 b
  grows : Grows a b
  others : ∀ j, j ≠ i → b.view j = a.view j

theorem Acts.refl {i : ν} {a : State ν α} (ha : Sound 𝒬 a) : Acts 𝒬 i a a :=
  ⟨ha, Grows.refl a, fun _ _ => rfl⟩

theorem Acts.trans {i : ν} {a b c : State ν α} (h : Acts 𝒬 i a b)
    (h' : Acts 𝒬 i b c) : Acts 𝒬 i a c :=
  ⟨h'.sound, h.grows.trans h'.grows,
    fun j hj => (h'.others j hj).trans (h.others j hj)⟩

/-- Member `i` takes `a` to `b`, and what it has confirmed still stands. -/
structure Steady (𝒬 : QuorumSystem ν) (i : ν) (a b : State ν α) : Prop
    extends Acts 𝒬 i a b where
  standing : Standing a → Standing b

theorem Steady.refl {i : ν} {a : State ν α} (ha : Sound 𝒬 a) : Steady 𝒬 i a a :=
  ⟨Acts.refl ha, fun h => h⟩

theorem Steady.trans {i : ν} {a b c : State ν α} (h : Steady 𝒬 i a b)
    (h' : Steady 𝒬 i b c) : Steady 𝒬 i a c :=
  ⟨h.toActs.trans h'.toActs, fun hs => h'.standing (h.standing hs)⟩

variable [DecidableEq ν]

theorem Step.acts {i : ν} {a b : State ν α} (ha : Sound 𝒬 a) (h : Step 𝒬 a b)
    (ho : ∀ j, j ≠ i → b.view j = a.view j) : Acts 𝒬 i a b :=
  ⟨⟨ha.inv.step h, Complete.step ha.inv ha.complete h⟩, h.grows ha.inv, ho⟩

theorem Step.steady {i : ν} {a b : State ν α} (ha : Sound 𝒬 a) (h : Step 𝒬 a b)
    (ho : ∀ j, j ≠ i → b.view j = a.view j)
    (hi : (a.view i).mem.term ≤ (b.view i).mem.term) : Steady 𝒬 i a b := by
  refine ⟨h.acts ha ho, fun hs => hs.step ha.inv h fun x => ?_⟩
  by_cases hx : x = i
  · rw [hx]
    exact hi
  · exact (congrArg (fun v => v.mem.term) (ho x hx)).ge

/-! ## Quiet moves -/

section Quiet

variable {i : ν} {a : State ν α}

theorem exists_observe (ha : Sound 𝒬 a) {T : Nat} (h : (a.view i).mem.term < T) :
    ∃ b, Steady 𝒬 i a b ∧
      b.view i = { a.view i with mem := ⟨T, none⟩, role := .follower } := by
  refine ⟨_, Step.steady ha (.quiet a (.observe a.el i T h)) (fun j hj => ?_) ?_, ?_⟩
  · simp [State.view, hj]
  · simpa [State.view] using h.le
  · simp [State.view]

theorem exists_stepDown (ha : Sound 𝒬 a) :
    ∃ b, Steady 𝒬 i a b ∧ b.view i = { a.view i with role := .follower } := by
  refine ⟨_, Step.steady ha (.quiet a (.stepDown a.el i)) (fun j hj => ?_) ?_, ?_⟩
  · simp [State.view, hj]
  · simp [State.view]
  · simp [State.view]

theorem exists_campaign (ha : Sound 𝒬 a) :
    ∃ b, Steady 𝒬 i a b ∧ b.view i = { a.view i with
      mem := ⟨(a.view i).mem.term + 1, some i⟩
      role := .candidate
      tally := {i} } := by
  refine ⟨_, Step.steady ha (.quiet a (.campaign a.el i)) (fun j hj => ?_) ?_, ?_⟩
  · simp [State.view, hj]
  · simp [State.view]
  · simp [State.view]

theorem exists_vote (ha : Sound 𝒬 a) (y : ν) (h : (a.view i).mem.vote = none) :
    ∃ b, Steady 𝒬 i a b ∧
      b.view i = { a.view i with mem := ⟨(a.view i).mem.term, some y⟩ } := by
  refine ⟨_, Step.steady ha (.quiet a (.vote a.el i y h)) (fun j hj => ?_) ?_, ?_⟩
  · simp [State.view, hj]
  · simp [State.view]
  · simp [State.view]

theorem exists_persist (ha : Sound 𝒬 a) :
    ∃ b, Steady 𝒬 i a b ∧ b.view i = { a.view i with dur := (a.view i).mem } := by
  refine ⟨_, Step.steady ha (.quiet a (.persist a.el i)) (fun j hj => ?_) ?_, ?_⟩
  · simp [State.view, hj]
  · simp [State.view]
  · simp [State.view]

theorem exists_count (ha : Sound 𝒬 a) {v : ν}
    (h : (v, i, (a.view i).mem.term) ∈ a.el.grants) :
    ∃ b, Steady 𝒬 i a b ∧
      b.view i = { a.view i with tally := insert v (a.view i).tally } := by
  refine ⟨_, Step.steady ha (.quiet a (.count a.el i v fun _ => h)) (fun j hj => ?_) ?_, ?_⟩
  · simp [State.view, hj]
  · simp [State.view]
  · simp [State.view]

/-- A restart keeps what is confirmed standing if it does not go back to an earlier
term. -/
theorem exists_restart (ha : Sound 𝒬 a) :
    ∃ b, Acts 𝒬 i a b ∧
      ((a.view i).dur.term = (a.view i).mem.term → Standing a → Standing b) ∧
      b.view i = { a.view i with mem := (a.view i).dur, role := .follower } := by
  have hothers : ∀ j, j ≠ i → State.view { a with el :=
      { a.el with
        mem := Function.update a.el.mem i (a.el.dur i)
        role := Function.update a.el.role i .follower } } j = a.view j := by
    intro j hj
    simp [State.view, hj]
  refine ⟨_, Step.acts ha (.quiet a (.restart a.el i)) hothers, fun h => ?_, ?_⟩
  · refine (Step.steady ha (.quiet a (.restart a.el i)) hothers ?_).standing
    simpa [State.view] using h.ge
  · simp [State.view]

end Quiet

/-! ## Moves that decide something or change a log -/

section Moves

variable {i : ν} {a : State ν α}

theorem exists_win (ha : Sound 𝒬 a) (hr : (a.view i).role = .candidate)
    (hd : (a.view i).dur = (a.view i).mem) (hq : 𝒬.IsQuorum (a.view i).tally) :
    ∃ b, Steady 𝒬 i a b ∧ b.view i = { a.view i with role := .leader } := by
  refine ⟨_, Step.steady ha (.win a i hr hd hq) (fun j hj => ?_) le_rfl, ?_⟩
  · simp [State.view, Election.win, hj]
  · simp [State.view, Election.win]

theorem exists_propose (ha : Sound 𝒬 a) (e : α) (hr : (a.view i).role = .leader)
    (hb : base e = endFrom 0 (a.view i).log) (hs : base e < stop e)
    (ht : term e = (a.view i).mem.term) :
    ∃ b, Steady 𝒬 i a b ∧
      b.view i = { a.view i with log := (a.view i).log ++ [e] } := by
  refine ⟨_, Step.steady ha (.propose a i e hr hb hs ht) (fun j hj => ?_) le_rfl, ?_⟩
  · simp [State.view, hj]
  · simp [State.view]

theorem exists_trim (ha : Sound 𝒬 a) {m : Append α} {e : α} {l : List α}
    (hm : m ∈ a.appends) (ht : m.term = (a.view i).mem.term)
    (hr : (a.view i).role = .follower) (hmt : m.Matches (a.view i).log)
    (he : m.entry = some e) (hlt : m.start < endFrom 0 (a.view i).log)
    (hne : termAt (a.view i).log m.start ≠ term e)
    (hkeep : upTo (a.view i).log m.start <+: l) (hcut : l <+: (a.view i).log) :
    ∃ b, Steady 𝒬 i a b ∧ b.view i = { a.view i with log := l } := by
  refine ⟨_, Step.steady ha (.trim a i m e l hm ht hr hmt he hlt hne hkeep hcut)
    (fun j hj => ?_) le_rfl, ?_⟩
  · simp [State.view, hj]
  · simp [State.view]

theorem exists_extend (ha : Sound 𝒬 a) {m : Append α} {e : α} (hm : m ∈ a.appends)
    (ht : m.term = (a.view i).mem.term) (hr : (a.view i).role = .follower)
    (hmt : m.Matches (a.view i).log) (he : m.entry = some e)
    (hend : m.start = endFrom 0 (a.view i).log) :
    ∃ b, Steady 𝒬 i a b ∧
      b.view i = { a.view i with log := (a.view i).log ++ [e] } := by
  refine ⟨_, Step.steady ha (.extend a i m e hm ht hr hmt he hend) (fun j hj => ?_) le_rfl,
    ?_⟩
  · simp [State.view, hj]
  · simp [State.view]

end Moves

/-! ## Moves that send -/

section Sends

variable {i : ν} {a : State ν α}

theorem exists_request (ha : Sound 𝒬 a) (hr : (a.view i).role = .candidate)
    (hd : (a.view i).dur = (a.view i).mem) :
    ∃ b, Steady 𝒬 i a b ∧ b.view i = a.view i ∧
      (i, (a.view i).mem.term, endFrom 0 (a.view i).log, lastTerm (a.view i).log) ∈
        b.canvass :=
  ⟨_, Step.steady ha (.request a i hr hd) (fun _ _ => rfl) le_rfl, rfl, Set.mem_insert _ _⟩

theorem exists_grant (ha : Sound 𝒬 a) {x : ν} {e t : Nat}
    (hv : (a.view i).mem.vote = some x) (hd : (a.view i).dur = (a.view i).mem)
    (hc : (x, (a.view i).mem.term, e, t) ∈ a.canvass)
    (hup : UpToDate e t (a.view i).log) :
    ∃ b, Steady 𝒬 i a b ∧ b.view i = a.view i ∧
      (i, x, (a.view i).mem.term) ∈ b.el.grants :=
  ⟨_, Step.steady ha (.grant a i x hv hd hc hup) (fun _ _ => rfl) le_rfl, rfl, Set.mem_insert _ _⟩

theorem exists_append (ha : Sound 𝒬 a) (m : Append α)
    (hr : (a.view i).role = .leader) (ht : m.term = (a.view i).mem.term)
    {p : List α} (hp : p <+: (a.view i).log) (hend : endFrom 0 p = m.start)
    (hprev : m.start ≠ 0 → m.prevTerm = lastTerm p)
    (hent : ∀ e ∈ m.entry, p ++ [e] <+: (a.view i).log) :
    ∃ b, Steady 𝒬 i a b ∧ b.view i = a.view i ∧ m ∈ b.appends :=
  ⟨_, Step.steady ha (.append a i m hr ht p hp hend hprev hent) (fun _ _ => rfl) le_rfl, rfl,
    Set.mem_insert _ _⟩

theorem exists_ack (ha : Sound 𝒬 a) {m : Append α} (hm : m ∈ a.appends)
    (ht : m.term = (a.view i).mem.term) (hd : (a.view i).dur = (a.view i).mem)
    (hmt : m.Matches (a.view i).log)
    (he : ∀ e ∈ m.entry, m.start < endFrom 0 (a.view i).log ∧
      termAt (a.view i).log m.start = term e) :
    ∃ b, Steady 𝒬 i a b ∧ b.view i = a.view i ∧ (i, m.term, m.confirmed) ∈ b.acks :=
  ⟨_, Step.steady ha (.ack a i m hm ht hd hmt he) (fun _ _ => rfl) le_rfl, rfl, Set.mem_insert _ _⟩

end Sends

end LogEngine.Verified.Replication
