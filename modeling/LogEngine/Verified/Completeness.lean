import LogEngine.Verified.Replication

/-!
# What a quorum has confirmed is never lost

A prefix `q` of the history of term `T` that ends with a batch of term `T` is
*committed* once a quorum has confirmed all of it in that term (`Committed`).
Every chief of a later term then holds `q` (`Complete.later`).

The invariant is stated for more than the committed prefixes.  `Committable`
asks of each member of a quorum that it has confirmed `q` *or may still do so*,
its ballot on disk not having passed `T`.  Being committable can only be lost, so
the moment at which the quorum completes needs no argument of its own, and it is
the invariant, not the proof, that says what becomes of a prefix about to be
committed.
-/

namespace LogEngine.Verified.Replication

open LogEngine.Verified.Tiling Extent Stamped

variable {ν α : Type*} [Stamped α]

/-- Member `p` stands for `q` in term `T`: it is the chief of that term, or has
confirmed that far. -/
def Acked (a : State ν α) (p : ν) (T : Nat) (q : List α) : Prop :=
  a.el.chief T = some p ∨ ∃ c, (p, T, c) ∈ a.acks ∧ endFrom 0 q ≤ c

/-- `q` is a prefix of the history `L` of term `T` that ends with a batch of that
term. -/
structure OwnPrefix (L : List α) (T : Nat) (q : List α) : Prop where
  history : q <+: L
  own : lastTerm q = T
  nonempty : q ≠ []

/-- A quorum has confirmed `q` in term `T`. -/
def Committed (𝒬 : QuorumSystem ν) (a : State ν α) (T : Nat) (q : List α) : Prop :=
  OwnPrefix (a.leaderLog T) T q ∧ ∃ Q, 𝒬.IsQuorum Q ∧ ∀ p ∈ Q, Acked a p T q

/-- A quorum has confirmed `q` in term `T` or may still do so. -/
def Committable (𝒬 : QuorumSystem ν) (a : State ν α) (T : Nat) (q : List α) :
    Prop :=
  OwnPrefix (a.leaderLog T) T q ∧
    ∃ Q, 𝒬.IsQuorum Q ∧ ∀ p ∈ Q, (a.el.dur p).term ≤ T ∨ Acked a p T q

/-- The completeness invariant. -/
structure Complete (𝒬 : QuorumSystem ν) (a : State ν α) : Prop where
  /-- Every chief of a later term holds a committable prefix. -/
  later : ∀ {T U q y}, Committable 𝒬 a T q → T < U → a.el.chief U = some y →
    q <+: a.leaderLog U
  /-- Whoever confirmed a committable prefix still holds it. -/
  kept : ∀ {T q p}, Committable 𝒬 a T q → Acked a p T q → q <+: a.log p
  /-- A candidate with a vote from somebody who confirmed it holds it. -/
  voted : ∀ {T q p x}, Committable 𝒬 a T q → Acked a p T q →
    a.el.role x = .candidate → (p, x, (a.el.mem x).term) ∈ a.el.grants →
    T < (a.el.mem x).term → q <+: a.log x

theorem complete_init (𝒬 : QuorumSystem ν) :
    Complete 𝒬 (init : State ν α) := by
  constructor <;> simp [init, Election.init]
  intro T q p _ hack
  simp [Acked] at hack

section Consequences

variable {𝒬 : QuorumSystem ν} {a : State ν α}

theorem OwnPrefix.terms_le (ha : Inv 𝒬 a) {T : Nat} {q : List α}
    (hq : OwnPrefix (a.leaderLog T) T q) {e : α} (he : e ∈ q) : term e ≤ T :=
  (ha.leader_terms (hq.history.subset he)).2

theorem Committed.committable {T : Nat} {q : List α}
    (h : Committed 𝒬 a T q) : Committable 𝒬 a T q := by
  obtain ⟨hq, Q, hQ, hack⟩ := h
  exact ⟨hq, Q, hQ, fun p hp => .inr (hack p hp)⟩

/-- Whoever confirmed anything in a term has reached that term for good. -/
theorem Acked.term_le (ha : Inv 𝒬 a) {p : ν} {T : Nat} {q : List α}
    (h : Acked a p T q) : T ≤ (a.el.dur p).term := by
  rcases h with hc | ⟨c, hk, -⟩
  · exact (ha.election.chief_bound hc).1.1
  · exact ha.ack_term hk

/-- Nobody can have confirmed more than the chief ever held. -/
theorem Inv.ack_end_le (ha : Inv 𝒬 a) {p : ν} {T c : Nat}
    (hk : (p, T, c) ∈ a.acks) : c ≤ endFrom 0 (a.leaderLog T) := by
  obtain ⟨r, hr, rfl⟩ := ha.ack_sound hk
  exact (ha.leader_tiles T).end_mono hr

/-- **Domination.**  A log at least as up to date as one that holds `q` holds
`q` as well, where all chiefs of later terms do. -/
theorem Inv.prefix_of_upToDate (ha : Inv 𝒬 a) {T : Nat} {q : List α} {v x : ν}
    (hq : OwnPrefix (a.leaderLog T) T q)
    (hlater : ∀ {U y}, T < U → a.el.chief U = some y → q <+: a.leaderLog U)
    (hv : q <+: a.log v)
    (hup : UpToDate (endFrom 0 (a.log x)) (lastTerm (a.log x)) (a.log v)) :
    q <+: a.log x := by
  obtain ⟨q', z, rfl⟩ := (List.eq_nil_or_concat' q).resolve_left hq.nonempty
  have hz : term z = T := by simpa using hq.own
  have hzv : z ∈ a.log v := hv.subset (by simp)
  have hTv : T ≤ lastTerm (a.log v) := hz ▸ ha.term_le_lastTerm hzv
  have hTpos : 0 < T := hz ▸ ha.term_pos hzv
  have hxne : a.log x ≠ [] := by
    intro hnil
    rcases hup with hlt | ⟨heq, -⟩
    · simp [hnil] at hlt
    · simp [hnil] at heq
      omega
  have hx := (ha.owned x).prefix_last hxne
  rcases hup with hlt | ⟨heq, hle⟩
  · -- the candidate's last term is later: that term's chief held `q`
    obtain ⟨w, e, hw⟩ := (List.eq_nil_or_concat' (a.log x)).resolve_left hxne
    have hex : e ∈ a.log x := by simp [hw]
    have hlast : lastTerm (a.log x) = term e := by simp [hw]
    obtain ⟨y, hy⟩ := ha.chief_of_mem hex
    have hqU := hlater (by omega) (hlast ▸ hy)
    rcases List.prefix_or_prefix_of_prefix hqU hx with h | h
    · exact h
    · -- all of `q` is of terms up to `T`
      have := hq.terms_le ha (h.subset hex)
      omega
  · -- both logs end within one chief's history, so the longer holds the other
    have hvne : a.log v ≠ [] := List.ne_nil_of_mem hzv
    have hv' := (ha.owned v).prefix_last hvne
    rw [← heq] at hv'
    exact hv.trans ((ha.leader_tiles _).prefix_of_end_le hv' hx hle)

/-- What a member has confirmed is part of the history of any term it is in that
has a chief. -/
theorem Complete.prefix_leaderLog (ha : Inv 𝒬 a) (hc : Complete 𝒬 a) {x : ν}
    {T : Nat} {q : List α} (hcm : Committable 𝒬 a T q)
    (hle : T ≤ (a.el.mem x).term) {e : α}
    (he : e ∈ a.leaderLog (a.el.mem x).term) :
    q <+: a.leaderLog (a.el.mem x).term := by
  rcases hle.eq_or_lt with rfl | hlt
  · exact hcm.1.history
  · cases hch : a.el.chief (a.el.mem x).term with
    | some y => exact hc.later hcm hlt hch
    | none => simp [ha.no_chief hch] at he

end Consequences

/-! ## What is decided stays decided -/

/-- What is on the wire and what is decided in `a` still is in `b`. -/
structure Grows (a b : State ν α) : Prop where
  canvass : a.canvass ⊆ b.canvass
  grants : a.el.grants ⊆ b.el.grants
  appends : a.appends ⊆ b.appends
  acks : a.acks ⊆ b.acks
  chief : ∀ {T x}, a.el.chief T = some x → b.el.chief T = some x
  leaderLog : ∀ T, a.leaderLog T <+: b.leaderLog T

omit [Stamped α] in
theorem Grows.refl (a : State ν α) : Grows a a :=
  ⟨fun _ h => h, fun _ h => h, fun _ h => h, fun _ h => h, fun h => h,
    fun _ => List.prefix_refl _⟩

omit [Stamped α] in
theorem Grows.trans {a b c : State ν α} (h : Grows a b) (h' : Grows b c) :
    Grows a c :=
  ⟨h.canvass.trans h'.canvass, h.grants.trans h'.grants, h.appends.trans h'.appends,
    h.acks.trans h'.acks, fun hc => h'.chief (h.chief hc),
    fun T => (h.leaderLog T).trans (h'.leaderLog T)⟩

/-- `r` lies within what a quorum has confirmed by term `T`. -/
def Certified (𝒬 : QuorumSystem ν) (a : State ν α) (T : Nat) (r : List α) : Prop :=
  r = [] ∨ ∃ U q, U ≤ T ∧ Committed 𝒬 a U q ∧ r <+: q

section Certificates

variable {𝒬 : QuorumSystem ν} {a b : State ν α}

theorem Committed.mono (hg : Grows a b) {T : Nat} {q : List α}
    (h : Committed 𝒬 a T q) : Committed 𝒬 b T q := by
  obtain ⟨⟨hh, ho, hn⟩, Q, hQ, hack⟩ := h
  refine ⟨⟨hh.trans (hg.leaderLog T), ho, hn⟩, Q, hQ, fun p hp => ?_⟩
  exact (hack p hp).imp hg.chief fun ⟨c, hk, hle⟩ => ⟨c, hg.acks hk, hle⟩

theorem Committed.chief (ha : Inv 𝒬 a) {T : Nat} {q : List α}
    (h : Committed 𝒬 a T q) : ∃ x, a.el.chief T = some x := by
  cases hc : a.el.chief T with
  | some x => exact ⟨x, rfl⟩
  | none =>
      have hpre := h.1.history
      rw [ha.no_chief hc, List.prefix_nil] at hpre
      exact absurd hpre h.1.nonempty

theorem Committed.prefix_leaderLog (hc : Complete 𝒬 a) {T U : Nat} {q : List α}
    (h : Committed 𝒬 a T q) (hle : T ≤ U) {y : ν} (hy : a.el.chief U = some y) :
    q <+: a.leaderLog U := by
  rcases hle.eq_or_lt with rfl | hlt
  · exact h.1.history
  · exact hc.later h.committable hlt hy

theorem Certified.mono (hg : Grows a b) {T U : Nat} {r : List α}
    (h : Certified 𝒬 a T r) (hle : T ≤ U) : Certified 𝒬 b U r :=
  h.imp id fun ⟨V, q, hV, hq, hr⟩ => ⟨V, q, hV.trans hle, hq.mono hg, hr⟩

theorem Certified.of_isPrefix {T : Nat} {r r' : List α} (h : Certified 𝒬 a T r)
    (hr : r' <+: r) : Certified 𝒬 a T r' := by
  rcases h with rfl | ⟨V, q, hV, hq, hrq⟩
  · exact .inl (List.prefix_nil.1 hr)
  · exact .inr ⟨V, q, hV, hq, hr.trans hrq⟩

/-- What is certified is part of the history of every chief from then on. -/
theorem Certified.prefix_leaderLog (hc : Complete 𝒬 a) {T U : Nat} {r : List α}
    (h : Certified 𝒬 a T r) (hle : T ≤ U) {y : ν} (hy : a.el.chief U = some y) :
    r <+: a.leaderLog U := by
  rcases h with rfl | ⟨V, q, hV, hq, hr⟩
  · exact List.nil_prefix
  · exact hr.trans (hq.prefix_leaderLog hc (hV.trans hle) hy)

/-- The same where all that is known of the later term is that it has a history. -/
theorem Certified.prefix_of_ne_nil (ha : Inv 𝒬 a) (hc : Complete 𝒬 a) {T U : Nat}
    {r : List α} (h : Certified 𝒬 a T r) (hle : T ≤ U) (hne : a.leaderLog U ≠ []) :
    r <+: a.leaderLog U := by
  cases hy : a.el.chief U with
  | none => exact absurd (ha.no_chief hy) hne
  | some y => exact h.prefix_leaderLog hc hle hy

/-- Of two certified prefixes one extends the other. -/
theorem Certified.comparable (ha : Inv 𝒬 a) (hc : Complete 𝒬 a) {T U : Nat}
    {r r' : List α} (h : Certified 𝒬 a T r) (h' : Certified 𝒬 a U r') :
    r <+: r' ∨ r' <+: r := by
  rcases id h with rfl | ⟨V, q, hV, hq, hr⟩
  · exact .inl List.nil_prefix
  rcases id h' with rfl | ⟨V', q', hV', hq', hr'⟩
  · exact .inr List.nil_prefix
  obtain ⟨x, hx⟩ := hq.chief ha
  obtain ⟨x', hx'⟩ := hq'.chief ha
  rcases Nat.le_total V V' with hle | hle
  · exact List.prefix_or_prefix_of_prefix (hr.trans (hq.prefix_leaderLog hc hle hx'))
      (hr'.trans hq'.1.history)
  · exact List.prefix_or_prefix_of_prefix (hr.trans hq.1.history)
      (hr'.trans (hq'.prefix_leaderLog hc hle hx))

end Certificates

/-! ## The invariant is preserved -/

section Preservation

variable [DecidableEq ν] {𝒬 : QuorumSystem ν} {a : State ν α}

private theorem complete_quiet (ha : Inv 𝒬 a) (hc : Complete 𝒬 a)
    {e : Election.State ν} (h : Election.Quiet a.el e) :
    Complete 𝒬 { a with el := e } := by
  have hs := h.spec ha.election
  have hack : ∀ {p T q}, Acked { a with el := e } p T q ↔ Acked a p T q := by
    simp [Acked, hs.chief]
  have hpull : ∀ {T q}, Committable 𝒬 { a with el := e } T q →
      Committable 𝒬 a T q := by
    rintro T q ⟨⟨hh, ho, hn⟩, Q, hQ, hm⟩
    refine ⟨⟨hh, ho, hn⟩, Q, hQ, fun p hp => ?_⟩
    exact (hm p hp).imp (le_trans (hs.dur_mono p)) hack.1
  refine ⟨fun hq hlt hy => ?_, fun hq hp => hc.kept (hpull hq) (hack.1 hp), ?_⟩
  · exact hc.later (hpull hq) hlt (by simpa [hs.chief] using hy)
  · intro T q p x hq hp hx hg hlt
    simp only [hs.grants] at hg
    rcases hs.candidate x hx with ⟨hcand, hm⟩ | hfresh
    · rw [hm] at hg hlt
      exact hc.voted (hpull hq) (hack.1 hp) hcand hg hlt
    · exact absurd (ha.election.grant_request hg)
        (ha.election.fresh_campaign hfresh)

omit [DecidableEq ν] in
private theorem complete_grant (ha : Inv 𝒬 a) (hc : Complete 𝒬 a) {v x : ν}
    {e t : Nat} (hcan : (x, (a.el.mem v).term, e, t) ∈ a.canvass)
    (hup : UpToDate e t (a.log v)) :
    Complete 𝒬 { a with el := Election.grant a.el v x } := by
  refine ⟨hc.later, hc.kept, ?_⟩
  rintro T q p y hq hp hy (heq | hold) hlt
  · obtain ⟨rfl, rfl, hT⟩ := by simpa only [Prod.mk.injEq] using heq
    obtain ⟨rfl, rfl⟩ := ha.canvass_log hcan hy hT
    exact ha.prefix_of_upToDate hq.1 (fun hU hch => hc.later hq hU hch)
      (hc.kept hq hp) hup
  · exact hc.voted hq hp hy hold hlt

private theorem complete_win (ha : Inv 𝒬 a) (hc : Complete 𝒬 a) {x : ν}
    (hr : a.el.role x = .candidate) (hd : a.el.dur x = a.el.mem x)
    (hq : 𝒬.IsQuorum (a.el.tally x)) :
    Complete 𝒬 { a with
      el := Election.win a.el x
      leaderLog := Function.update a.leaderLog (a.el.mem x).term (a.log x) } := by
  -- nothing the new chief holds is of its own term yet
  have hpull : ∀ {T q}, Committable 𝒬 { a with
      el := Election.win a.el x
      leaderLog := Function.update a.leaderLog (a.el.mem x).term (a.log x) } T q →
      T ≠ (a.el.mem x).term ∧ Committable 𝒬 a T q := by
    rintro T q ⟨⟨hh, ho, hn⟩, Q, hQ, hm⟩
    have hT : T ≠ (a.el.mem x).term := by
      rintro rfl
      obtain ⟨q', z, rfl⟩ := (List.eq_nil_or_concat' q).resolve_left hn
      have hz : z ∈ a.log x := (show _ <+: a.log x by simpa using hh).subset (by simp)
      have := ha.win_terms hr hd hq hz
      simp at ho
      omega
    refine ⟨hT, ⟨by simpa [hT] using hh, ho, hn⟩, Q, hQ, fun p hp => ?_⟩
    exact (hm p hp).imp id (by simp [Acked, Election.win, hT])
  refine ⟨fun {T U q y} hcm hlt hy => ?_, fun {T q p} hcm hp => ?_,
    fun {T q p y} hcm hp hy hg hlt => ?_⟩
  · replace hcm := (hpull hcm).2
    by_cases hU : U = (a.el.mem x).term
    · -- the voter that both the election and the quorum behind `q` share
      subst hU
      obtain ⟨-, Q, hQ, hm⟩ := id hcm
      obtain ⟨v, hvx, hvQ⟩ := 𝒬.meet hq hQ
      suffices h : q <+: a.log x by simpa using h
      rcases ha.election.tally_grant hr hvx with rfl | hg
      · exact hc.kept hcm ((hm v hvQ).resolve_left (by rw [hd]; omega))
      · have := (ha.election.grant_bound hg).1.1
        exact hc.voted hcm ((hm v hvQ).resolve_left (by omega)) hr hg hlt
    · simpa [hU] using hc.later hcm hlt (by simpa [Election.win, hU] using hy)
  · obtain ⟨hT, hcm⟩ := hpull hcm
    exact hc.kept hcm (by simpa [Acked, Election.win, hT] using hp)
  · obtain ⟨hT, hcm⟩ := hpull hcm
    have hyx : y ≠ x := by
      rintro rfl
      simp [Election.win] at hy
    exact hc.voted hcm (by simpa [Acked, Election.win, hT] using hp)
      (by simpa [Election.win, hyx] using hy) hg hlt

private theorem complete_propose (ha : Inv 𝒬 a) (hc : Complete 𝒬 a) {x : ν}
    {e : α} (hr : a.el.role x = .leader) (hb : base e = endFrom 0 (a.log x))
    (hs : base e < stop e) :
    Complete 𝒬 { a with
      log := Function.update a.log x (a.log x ++ [e])
      leaderLog := Function.update a.leaderLog (a.el.mem x).term
        (a.log x ++ [e]) } := by
  have hlog := ha.leader_log hr
  have hchief := ha.election.leader_chief hr
  have hdur := ha.election.dur_le x
  -- the prefix that ends with the new batch is confirmed by its leader alone
  have hnew : ∀ {p}, Acked a p (a.el.mem x).term (a.log x ++ [e]) → p = x := by
    rintro p (hp | ⟨c, hk, hle⟩)
    · rw [hchief] at hp
      exact (Option.some.inj hp).symm
    · have := ha.ack_end_le hk
      simp only [hlog, endFrom_append, endFrom_cons, endFrom_nil] at this hle
      omega
  -- everything else was committable before
  have hpull : ∀ {T q}, Committable 𝒬 { a with
      log := Function.update a.log x (a.log x ++ [e])
      leaderLog := Function.update a.leaderLog (a.el.mem x).term
        (a.log x ++ [e]) } T q →
      Committable 𝒬 a T q ∨ (T = (a.el.mem x).term ∧ q = a.log x ++ [e]) := by
    rintro T q ⟨⟨hh, ho, hn⟩, Q, hQ, hm⟩
    by_cases hT : T = (a.el.mem x).term
    · subst hT
      rcases List.prefix_concat_iff.1 (by simpa using hh) with heq | hpre
      · exact .inr ⟨rfl, heq⟩
      · exact .inl ⟨⟨hlog ▸ hpre, ho, hn⟩, Q, hQ, hm⟩
    · exact .inl ⟨⟨by simpa [hT] using hh, ho, hn⟩, Q, hQ, hm⟩
  have hold : ∀ {y q}, q <+: a.log y →
      q <+: Function.update a.log x (a.log x ++ [e]) y := by
    intro y q hq
    by_cases hyx : y = x
    · subst hyx
      simpa using hq.trans (List.prefix_append _ _)
    · simpa [hyx] using hq
  refine ⟨fun {T U q y} hcm hlt hy => ?_, fun {T q p} hcm hp => ?_,
    fun {T q p y} hcm hp hy hg hlt => ?_⟩
  · obtain ⟨-, Q, hQ, hm⟩ := id hcm
    rcases hpull hcm with hcm | ⟨rfl, rfl⟩
    · have hq := hc.later hcm hlt hy
      by_cases hU : U = (a.el.mem x).term
      · subst hU
        simpa using (hlog ▸ hq).trans (List.prefix_append _ _)
      · simpa [hU] using hq
    · obtain ⟨v, hvQ, hvU⟩ := 𝒬.meet hQ (ha.election.chief_quorum hy)
      have hvT := ha.election.elector_term hy hvU
      obtain rfl := hnew ((hm v hvQ).resolve_left (by simp; omega))
      omega
  · rcases hpull hcm with hcm | ⟨rfl, rfl⟩
    · exact hold (hc.kept hcm hp)
    · obtain rfl := hnew hp
      simp
  · rcases hpull hcm with hcm | ⟨rfl, rfl⟩
    · exact hold (hc.voted hcm hp hy hg hlt)
    · obtain rfl := hnew hp
      have := (ha.election.grant_bound hg).2.1
      exact absurd hlt (by simpa using this)

/-- Replacing a follower's log keeps the invariant when the new log keeps what
the follower has confirmed. -/
private theorem complete_setLog (hc : Complete 𝒬 a) {x : ν} {l : List α}
    (hr : a.el.role x = .follower)
    (hl : ∀ {T q}, Committable 𝒬 a T q → Acked a x T q → q <+: a.log x →
      q <+: l) :
    Complete 𝒬 { a with log := Function.update a.log x l } := by
  refine ⟨hc.later, fun {T q p} hcm hp => ?_, fun {T q p y} hcm hp hy hg hlt => ?_⟩
  · by_cases hpx : p = x
    · subst hpx
      simpa using hl hcm hp (hc.kept hcm hp)
    · simpa [hpx] using hc.kept hcm hp
  · have hyx : y ≠ x := by
      rintro rfl
      simp [hr] at hy
    simpa [hyx] using hc.voted hcm hp hy hg hlt

private theorem complete_trim (ha : Inv 𝒬 a) (hc : Complete 𝒬 a) {x : ν}
    {m : Append α} {e : α} {l : List α} (hm : m ∈ a.appends)
    (ht : m.term = (a.el.mem x).term) (hr : a.el.role x = .follower)
    (hmt : m.Matches (a.log x)) (he : m.entry = some e)
    (hne : termAt (a.log x) m.start ≠ term e)
    (hkeep : upTo (a.log x) m.start <+: l) :
    Complete 𝒬 { a with log := Function.update a.log x l } := by
  refine complete_setLog hc hr fun {T q} hcm hp hqx => ?_
  obtain ⟨p, hpL, hend, hprev, hent⟩ := ha.append_sound hm
  have hpe := hent e he
  have hpx := ha.prefix_of_matches hpL hend hprev hmt
  have hle : T ≤ (a.el.mem x).term := (hp.term_le ha).trans (ha.election.dur_le x)
  have hqL : q <+: a.leaderLog m.term := by
    rw [ht] at hpe ⊢
    exact hc.prefix_leaderLog ha hcm hle
      (hpe.subset (List.mem_append_right _ (List.mem_singleton_self e)))
  have hqp := ha.prefix_of_conflict hpe hend hpx hne hqL hqx
  have hup := (ha.tiles x).upTo_eq hpx
  rw [hend] at hup
  exact (hup ▸ hqp).trans hkeep

omit [DecidableEq ν] in
private theorem complete_ack (ha : Inv 𝒬 a) (hc : Complete 𝒬 a) {x : ν}
    {m : Append α} (hm : m ∈ a.appends) (ht : m.term = (a.el.mem x).term)
    (hd : a.el.dur x = a.el.mem x) (hmt : m.Matches (a.log x))
    (he : ∀ e ∈ m.entry, m.start < endFrom 0 (a.log x) ∧
      termAt (a.log x) m.start = term e) :
    Complete 𝒬 { a with acks := insert (x, m.term, m.confirmed) a.acks } := by
  have hpull : ∀ {p T q},
      Acked { a with acks := insert (x, m.term, m.confirmed) a.acks } p T q →
      Acked a p T q ∨
        (p = x ∧ T = m.term ∧ endFrom 0 q ≤ m.confirmed) := by
    rintro p T q (hp | ⟨c, heq | hk, hle⟩)
    · exact .inl (.inl hp)
    · obtain ⟨rfl, rfl, rfl⟩ := by simpa only [Prod.mk.injEq] using heq
      exact .inr ⟨rfl, rfl, hle⟩
    · exact .inl (.inr ⟨c, hk, hle⟩)
  have hpullC : ∀ {T q}, Committable 𝒬
      { a with acks := insert (x, m.term, m.confirmed) a.acks } T q →
      Committable 𝒬 a T q := by
    rintro T q ⟨hq, Q, hQ, hmem⟩
    refine ⟨⟨hq.1, hq.2, hq.3⟩, Q, hQ, fun p hp => ?_⟩
    rcases hmem p hp with h | h
    · exact .inl h
    · rcases hpull h with h | ⟨rfl, rfl, -⟩
      · exact .inr h
      · exact .inl (by rw [hd, ht])
  refine ⟨fun hcm hlt hy => hc.later (hpullC hcm) hlt hy, fun {T q p} hcm hp => ?_,
    fun {T q p y} hcm hp hy hg hlt => ?_⟩
  · rcases hpull hp with hp | ⟨rfl, rfl, hle⟩
    · exact hc.kept (hpullC hcm) hp
    · -- the follower holds everything it has just confirmed
      obtain ⟨r, hrL, hrx, hrend⟩ := ha.confirmed_isPrefix hm hmt he
      exact ((ha.leader_tiles _).prefix_of_end_le hcm.1.history hrL
        (by omega)).trans hrx
  · rcases hpull hp with hp | ⟨rfl, rfl, -⟩
    · exact hc.voted (hpullC hcm) hp hy hg hlt
    · have := (ha.election.grant_bound hg).2.1
      exact absurd hlt (by simp only [ht]; omega)

/-- A step takes nothing back. -/
theorem Step.grows (ha : Inv 𝒬 a) {b : State ν α} (h : Step 𝒬 a b) :
    Grows a b := by
  have hr := Grows.refl a
  cases h with
  | quiet h =>
      have hs := h.spec ha.election
      exact { hr with
        grants := hs.grants.ge
        chief := fun hc => by rw [hs.chief]; exact hc }
  | request x _ _ => exact { hr with canvass := Set.subset_insert _ _ }
  | grant v x _ _ _ _ => exact { hr with grants := Set.subset_insert _ _ }
  | win x hrole _ hq =>
      have hfresh := ha.election.win_fresh hrole hq
      refine { hr with chief := ?_, leaderLog := ?_ }
      · intro T y hc
        have hT : T ≠ (a.el.mem x).term := by
          rintro rfl
          simp [hfresh] at hc
        simpa [Election.win, hT] using hc
      · intro T
        by_cases hT : T = (a.el.mem x).term
        · subst hT
          simp [ha.no_chief hfresh]
        · simp [hT]
  | propose x e hrole _ _ _ =>
      refine { hr with leaderLog := ?_ }
      intro T
      by_cases hT : T = (a.el.mem x).term
      · subst hT
        simp [ha.leader_log hrole]
      · simp [hT]
  | append x m _ _ _ _ _ _ _ => exact { hr with appends := Set.subset_insert _ _ }
  | trim x m e l _ _ _ _ _ _ _ _ _ => exact { hr with }
  | extend x m e _ _ _ _ _ _ => exact { hr with }
  | ack x m _ _ _ _ _ => exact { hr with acks := Set.subset_insert _ _ }

/-- Every step keeps the completeness invariant. -/
theorem Complete.step (ha : Inv 𝒬 a) (hc : Complete 𝒬 a) {b : State ν α}
    (h : Step 𝒬 a b) : Complete 𝒬 b := by
  cases h with
  | quiet h => exact complete_quiet ha hc h
  | request x _ _ => exact ⟨hc.later, hc.kept, hc.voted⟩
  | grant v x _ _ hcan hup => exact complete_grant ha hc hcan hup
  | win x hr hd hq => exact complete_win ha hc hr hd hq
  | propose x e hr hb hs _ => exact complete_propose ha hc hr hb hs
  | append x m _ _ _ _ _ _ _ => exact ⟨hc.later, hc.kept, hc.voted⟩
  | trim x m e l hm ht hr hmt he _ hne hkeep _ =>
      exact complete_trim ha hc hm ht hr hmt he hne hkeep
  | extend x m e _ _ hr _ _ _ =>
      exact complete_setLog hc hr fun _ _ hq => hq.trans (List.prefix_append _ _)
  | ack x m hm ht hd hmt he => exact complete_ack ha hc hm ht hd hmt he

end Preservation

end LogEngine.Verified.Replication
