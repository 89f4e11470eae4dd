import LogEngine.Raft.EpochMap
import LogEngine.Raft.LogView
import LogEngine.Verified.Machine

/-!
# The epoch map and the terms of the records

`epochs_` is a compression of the list of the records' terms: one entry for each run of equal
terms, with the index at which the run begins (`epochsOf`).  The three operations that
change it, `restore_log`, `log_appended` and the truncation of `handle_append_entries`
(which may cut inside a run, and inside a batch), keep it one (`Tells`), as long as the
terms do not go down.  Then `term_at`, `epoch_start_at` and `last_term` answer from the map
what the list would answer (`epochMap_faithful`).
-/

namespace LogEngine.Raft

open Verified.Machine

/-! ## Runs of equal terms -/

/-- A run of equal terms begins at `i`. -/
def RunStart (ts : List Nat) (i : Nat) : Prop := i = 0 ∨ ts[i - 1]? ≠ ts[i]?

instance (ts : List Nat) (i : Nat) : Decidable (RunStart ts i) :=
  inferInstanceAs (Decidable (_ ∨ _))

/-- The epochs of a list of terms. -/
def epochsOf (ts : List Nat) : List Epoch :=
  (List.range ts.length).filterMap fun i =>
    if RunStart ts i then ts[i]?.map fun t => ⟨t, i⟩ else none

/-- The run of equal terms that `i` is in begins at `s`. -/
structure FirstOfRun (ts : List Nat) (s i : Nat) : Prop where
  le : s ≤ i
  same : ∀ j, s ≤ j → j ≤ i → ts[j]? = ts[i]?
  first : s = 0 ∨ ts[s - 1]? ≠ ts[i]?

variable {ts : List Nat} {t i s : Nat} {e : Epoch}

private theorem start_of_run
    (h : (if RunStart ts i then ts[i]?.map fun t => (⟨t, i⟩ : Epoch) else none) = some e) :
    e.start = i := by
  split at h
  case isTrue =>
    rw [Option.map_eq_some_iff] at h
    obtain ⟨t, -, rfl⟩ := h
    rfl
  case isFalse => cases h

private theorem mem_epochsOf :
    e ∈ epochsOf ts ↔ e.start < ts.length ∧ RunStart ts e.start ∧ ts[e.start]? = some e.term := by
  unfold epochsOf
  rw [List.mem_filterMap]
  constructor
  · rintro ⟨i, hi, he⟩
    split at he
    case isTrue hrun =>
      rw [Option.map_eq_some_iff] at he
      obtain ⟨t, ht, rfl⟩ := he
      exact ⟨List.mem_range.1 hi, hrun, ht⟩
    case isFalse => cases he
  · rintro ⟨hlt, hrun, ht⟩
    refine ⟨e.start, List.mem_range.2 hlt, ?_⟩
    rw [if_pos hrun, ht]
    rfl

/-- One more record opens an epoch where its term is not the last one. -/
theorem epochsOf_snoc (ts : List Nat) (t : Nat) :
    epochsOf (ts ++ [t]) =
      epochsOf ts ++ if ts.getLast? = some t then [] else [⟨t, ts.length⟩] := by
  have hbefore : ∀ i ∈ List.range ts.length,
      (if RunStart (ts ++ [t]) i then (ts ++ [t])[i]?.map fun t => (⟨t, i⟩ : Epoch) else none) =
        if RunStart ts i then ts[i]?.map fun t => ⟨t, i⟩ else none := by
    intro i hi
    rw [List.mem_range] at hi
    have hrun : RunStart (ts ++ [t]) i ↔ RunStart ts i := by
      unfold RunStart
      rw [List.getElem?_append_left hi, List.getElem?_append_left (by omega)]
    simp only [hrun, List.getElem?_append_left hi]
  unfold epochsOf
  rw [List.length_append, List.length_singleton, List.range_succ, List.filterMap_append,
    List.filterMap_congr hbefore]
  congr 1
  have hrun : RunStart (ts ++ [t]) ts.length ↔ ¬ ts.getLast? = some t := by
    unfold RunStart
    rw [List.getElem?_concat_length, List.getLast?_eq_getElem?]
    cases ts with
    | nil => simp
    | cons a ts =>
        rw [List.getElem?_append_left (by simp)]
        simp
  rw [List.filterMap_cons, List.getElem?_concat_length]
  by_cases hlast : ts.getLast? = some t
  · rw [if_neg (fun h => hrun.1 h hlast), if_pos hlast]
    rfl
  · rw [if_pos (hrun.2 hlast), if_neg hlast]
    rfl

/-- The last epoch is the one of the last record. -/
theorem epochsOf_last (ts : List Nat) :
    (epochsOf ts).getLast?.map Epoch.term = ts.getLast? := by
  induction ts using List.reverseRecOn with
  | nil => rfl
  | append_singleton ts t ih =>
      rw [epochsOf_snoc, List.getLast?_concat]
      split
      case isTrue h => rw [List.append_nil, ih, h]
      case isFalse => rw [List.getLast?_concat]; rfl

theorem appendEpoch_epochsOf (ts : List Nat) (t : Nat) :
    appendEpoch (epochsOf ts) t ts.length = epochsOf (ts ++ [t]) := by
  have hlast := epochsOf_last ts
  rw [epochsOf_snoc]
  unfold appendEpoch
  rw [← hlast]
  cases (epochsOf ts).getLast? with
  | none => simp
  | some e => by_cases h : e.term = t <;> simp [h]

/-- Cutting the map is cutting the list, wherever the cut is. -/
theorem truncateEpochsFrom_epochsOf (p r : List Nat) :
    truncateEpochsFrom (epochsOf (p ++ r)) p.length = epochsOf p := by
  induction r using List.reverseRecOn with
  | nil =>
      rw [List.append_nil]
      exact truncateEpochsFrom_eq_self fun e he => (mem_epochsOf.1 he).1
  | append_singleton r t ih =>
      rw [← List.append_assoc, ← appendEpoch_epochsOf,
        truncateEpochsFrom_appendEpoch _ _ (by simp), ih]

theorem FirstOfRun.append (h : FirstOfRun ts s i) (hi : i < ts.length) (r : List Nat) :
    FirstOfRun (ts ++ r) s i := by
  obtain ⟨hle, hsame, hfirst⟩ := h
  constructor
  · exact hle
  · intro j hj hji
    rw [List.getElem?_append_left (by omega), List.getElem?_append_left hi]
    exact hsame j hj hji
  · rw [List.getElem?_append_left (by omega), List.getElem?_append_left hi]
    exact hfirst

/-- A record more in the last run. -/
theorem FirstOfRun.snoc (h : FirstOfRun ts s (ts.length - 1)) (hlast : ts.getLast? = some t) :
    FirstOfRun (ts ++ [t]) s ts.length := by
  have hne : ts ≠ [] := by
    rintro rfl
    cases hlast
  have hpos := List.length_pos_iff.2 hne
  have hwhole := h.append (by omega) [t]
  rw [List.getLast?_eq_getElem?] at hlast
  have heq : (ts ++ [t])[ts.length]? = (ts ++ [t])[ts.length - 1]? := by
    rw [List.getElem?_concat_length, List.getElem?_append_left (by omega), hlast]
  constructor
  · have := h.le
    omega
  · intro j hj hji
    rw [heq]
    rcases Nat.lt_or_ge j ts.length with hlt | hge
    · exact hwhole.same j hj (by omega)
    · obtain rfl : j = ts.length := by omega
      exact heq
  · rw [heq]
    exact hwhole.first

/-- The last epoch at or before a record has its term, and begins its run. -/
theorem epochsUpTo_epochsOf (hi : i < ts.length) :
    ∃ s, (epochsUpTo (epochsOf ts) i).getLast? = ts[i]?.map (fun t => ⟨t, s⟩) ∧
      FirstOfRun ts s i := by
  induction ts using List.reverseRecOn generalizing i with
  | nil => cases hi
  | append_singleton ts t ih =>
      rw [List.length_append, List.length_singleton] at hi
      rcases Nat.lt_or_ge i ts.length with hlt | hge
      · -- before the last record: whether it opens an epoch does not matter
        obtain ⟨s, hlast, hrun⟩ := ih hlt
        refine ⟨s, ?_, hrun.append hlt _⟩
        rw [List.getElem?_append_left hlt, ← hlast, epochsOf_snoc]
        split
        · rw [List.append_nil]
        · rw [epochsUpTo_snoc_of_lt hlt]
      · -- the last record: every epoch has begun
        obtain rfl : i = ts.length := by omega
        have hall : ∀ e ∈ epochsOf (ts ++ [t]), e.start ≤ ts.length := by
          intro e he
          have := (mem_epochsOf.1 he).1
          rw [List.length_append, List.length_singleton] at this
          omega
        rw [epochsUpTo_all hall, List.getElem?_concat_length, epochsOf_snoc]
        split
        case isTrue hsame =>
          have hne : ts ≠ [] := by
            rintro rfl
            cases hsame
          have hpos := List.length_pos_iff.2 hne
          obtain ⟨s, hlast, hrun⟩ := ih (i := ts.length - 1) (by omega)
          refine ⟨s, ?_, hrun.snoc hsame⟩
          have hevery : ∀ e ∈ epochsOf ts, e.start ≤ ts.length - 1 := by
            intro e he
            have := (mem_epochsOf.1 he).1
            omega
          rw [epochsUpTo_all hevery, ← List.getLast?_eq_getElem?, hsame] at hlast
          rw [List.append_nil, hlast]
        case isFalse hnew =>
          refine ⟨ts.length, by rw [List.getLast?_concat]; rfl, Nat.le_refl _, ?_, ?_⟩
          · intro j hj hji
            obtain rfl : j = ts.length := by omega
            rfl
          · rw [List.getElem?_concat_length]
            rw [List.getLast?_eq_getElem?] at hnew
            rcases Nat.eq_zero_or_pos ts.length with hzero | hpos
            · exact .inl hzero
            · right
              rw [List.getElem?_append_left (by omega)]
              exact hnew

/-! ## Terms that do not go down -/

/-- The terms of a log: none of them the term of nothing, and never going down. -/
structure Terms (ts : List Nat) : Prop where
  nonzero : ∀ t ∈ ts, t ≠ kNoTerm
  sorted : ts.Pairwise (· ≤ ·)

theorem Terms.nil : Terms [] := ⟨List.forall_mem_nil _, .nil⟩

theorem Terms.take (h : Terms ts) (i : Nat) : Terms (ts.take i) :=
  ⟨fun t ht => h.nonzero t (List.mem_of_mem_take ht), h.sorted.sublist (List.take_sublist i ts)⟩

theorem Terms.append (h : Terms ts) {n : Nat} (ht : t ≠ kNoTerm)
    (hle : ts.getLast?.getD kNoTerm ≤ t) : Terms (ts ++ List.replicate n t) := by
  constructor
  · intro x hx
    rw [List.mem_append] at hx
    rcases hx with hx | hx
    · exact h.nonzero x hx
    · rw [List.eq_of_mem_replicate hx]
      exact ht
  · rw [List.pairwise_append]
    refine ⟨h.sorted, List.pairwise_replicate.2 (.inr (Nat.le_refl t)), ?_⟩
    intro a ha b hb
    rw [List.eq_of_mem_replicate hb]
    -- a term is not above the last one
    rcases List.eq_nil_or_concat' ts with rfl | ⟨p, x, rfl⟩
    · cases ha
    · rw [List.getLast?_concat, Option.getD_some] at hle
      rw [List.mem_append, List.mem_singleton] at ha
      rcases ha with ha | rfl
      · exact Nat.le_trans ((List.pairwise_append.1 h.sorted).2.2 a ha x (by simp)) hle
      · exact hle

/-- A later epoch is of a later term. -/
theorem epochsOf_pairwise (h : Terms ts) :
    (epochsOf ts).Pairwise fun a b => a.start < b.start ∧ a.term < b.term := by
  have hstarts : (epochsOf ts).Pairwise fun a b => a.start < b.start := by
    unfold epochsOf
    refine List.Pairwise.filterMap _ ?_ List.pairwise_lt_range
    intro i j hij a ha b hb
    rw [start_of_run ha, start_of_run hb]
    exact hij
  refine hstarts.imp_of_mem ?_
  intro a b ha hb hlt
  obtain ⟨-, -, haterm⟩ := mem_epochsOf.1 ha
  obtain ⟨-, hrun, hbterm⟩ := mem_epochsOf.1 hb
  obtain ⟨ha', haterm⟩ := List.getElem?_eq_some_iff.1 haterm
  obtain ⟨hb', hbterm⟩ := List.getElem?_eq_some_iff.1 hbterm
  have hsorted := List.pairwise_iff_getElem.1 h.sorted
  have hbefore : ts[b.start - 1] ≠ ts[b.start] := by
    intro heq
    rcases hrun with hzero | hne
    · omega
    · rw [List.getElem?_eq_getElem hb', List.getElem?_eq_getElem (by omega), heq] at hne
      exact hne rfl
  have hup : ts[b.start - 1] ≤ ts[b.start] := hsorted _ _ (by omega) hb' (by omega)
  have hreach : ts[a.start] ≤ ts[b.start - 1] := by
    rcases Nat.lt_or_ge a.start (b.start - 1) with hlt' | hge
    · exact hsorted _ _ ha' (by omega) hlt'
    · have heq : a.start = b.start - 1 := by omega
      simp only [heq, Nat.le_refl]
  omega

/-- A batch of records of one term opens one epoch at most. -/
theorem epochsOf_replicate (ts : List Nat) (t n : Nat) :
    epochsOf (ts ++ List.replicate (n + 1) t) = epochsOf (ts ++ [t]) := by
  induction n with
  | zero => rfl
  | succ n ih =>
      rw [List.replicate_succ', ← List.append_assoc, epochsOf_snoc, ih, if_pos, List.append_nil]
      rw [List.replicate_succ', ← List.append_assoc, List.getLast?_concat]

/-! ## A node and the terms of its log -/

namespace Node

/-- The node's metadata are those of a log whose records have the terms `ts`. -/
structure Tells (n : Node) (ts : List Nat) : Prop where
  logEnd : n.logEnd = ts.length
  lastTerm : n.lastTerm = ts.getLast?.getD kNoTerm
  epochs : n.epochs = epochsOf ts

variable {n n' : Node}

theorem Tells.sameLog (h : n.Tells ts) (hs : n.SameLog n') : n'.Tells ts :=
  ⟨hs.logEnd.trans h.logEnd, hs.lastTerm.trans h.lastTerm, hs.epochs.trans h.epochs⟩

theorem Tells.orderAppend (h : n.Tells ts) : n.orderAppend.Tells ts :=
  ⟨h.logEnd, h.lastTerm, h.epochs⟩

private theorem termAt_of_epochs (hend : n.logEnd = ts.length) (hepochs : n.epochs = epochsOf ts)
    (i : Nat) : n.termAt i = ts[i]?.getD kNoTerm := by
  unfold termAt
  rw [hend, hepochs]
  rcases Nat.lt_or_ge i ts.length with hlt | hge
  · obtain ⟨s, hlast, -⟩ := epochsUpTo_epochsOf hlt
    rw [List.getElem?_eq_getElem hlt] at hlast ⊢
    have hne : epochsOf ts ≠ [] := by
      intro hnil
      rw [hnil] at hlast
      cases hlast
    rw [if_neg (not_or.2 ⟨Nat.not_le.2 hlt, hne⟩), hlast]
    rfl
  · rw [if_pos (.inl hge), List.getElem?_eq_none hge]
    rfl

/-- `term_at` answers from the map what the list has. -/
theorem Tells.termAt (h : n.Tells ts) (i : Nat) : n.termAt i = ts[i]?.getD kNoTerm :=
  termAt_of_epochs h.logEnd h.epochs i

/-- `epoch_start_at` is where the run begins. -/
theorem Tells.epochStartAt (h : n.Tells ts) (hi : i < n.logEnd) :
    FirstOfRun ts (n.epochStartAt i) i := by
  rw [h.logEnd] at hi
  obtain ⟨s, hlast, hrun⟩ := epochsUpTo_epochsOf hi
  rw [List.getElem?_eq_getElem hi, ← h.epochs] at hlast
  have heq : n.epochStartAt i = s := by
    unfold Node.epochStartAt
    cases hepochs : n.epochs with
    | nil =>
        rw [hepochs] at hlast
        cases hlast
    | cons first rest =>
        dsimp only
        rw [← hepochs, hlast]
        rfl
  rw [heq]
  exact hrun

/-- What `last_term` is set to from the map is the last record's term. -/
theorem lastTerm_of_epochs (hend : n.logEnd = ts.length) (hepochs : n.epochs = epochsOf ts) :
    (if n.logEnd = 0 then kNoTerm else n.termAt (n.logEnd - 1)) = ts.getLast?.getD kNoTerm := by
  rw [termAt_of_epochs hend hepochs, hend, List.getLast?_eq_getElem?]
  split
  case isTrue hzero =>
    rw [List.eq_nil_of_length_eq_zero hzero]
    rfl
  case isFalse => rfl

theorem tells_restoreLog (n : Node) (ts : List Nat) :
    (n.restoreLog ts.length (epochsOf ts)).Tells ts :=
  ⟨rfl, lastTerm_of_epochs (n := { n with logEnd := ts.length, epochs := epochsOf ts })
    rfl rfl, rfl⟩

theorem Tells.truncated (h : n.Tells ts) (hi : i < n.logEnd) :
    (n.truncated i).Tells (ts.take i) := by
  rw [h.logEnd] at hi
  have hlen : (ts.take i).length = i := by
    rw [List.length_take]
    omega
  have hepochs : truncateEpochsFrom n.epochs i = epochsOf (ts.take i) := by
    have hcut := truncateEpochsFrom_epochsOf (ts.take i) (ts.drop i)
    rw [hlen, List.take_append_drop] at hcut
    rw [h.epochs, hcut]
  constructor
  · exact hlen.symm
  · exact lastTerm_of_epochs (n := { n with
      pendingTruncate := some i
      epochs := truncateEpochsFrom n.epochs i
      logEnd := i }) hlen.symm hepochs
  · exact hepochs

theorem Tells.appended (h : n.Tells ts) {stop : Nat} (hstop : n.logEnd < stop) (t : Nat) :
    (n.appended n.logEnd stop t).Tells (ts ++ List.replicate (stop - ts.length) t) := by
  rw [h.logEnd] at hstop ⊢
  obtain ⟨k, hk⟩ : ∃ k, stop - ts.length = k + 1 := ⟨stop - ts.length - 1, by omega⟩
  constructor
  · change (if ts.length < stop then stop else ts.length + 1) = _
    rw [if_pos hstop, List.length_append, List.length_replicate]
    omega
  · rw [hk, List.replicate_succ', ← List.append_assoc, List.getLast?_concat]
    rfl
  · rw [hk, epochsOf_replicate, ← appendEpoch_epochsOf, ← h.epochs]
    rfl

/-- `log_appended` changes the view of the log as in `appended`, whatever the role is. -/
theorem sameLog_logAppended (n : Node) (index stop term : Nat) :
    (n.appended index stop term).SameLog (n.logAppended index stop term) := by
  by_cases hr : n.role = .leader
  · exact logAppended_log hr index stop term
  · rw [logAppended_follower hr]
    exact .refl _

/-! ## Runs -/

/-- An operation on the metadata of the log. -/
inductive LogOp
  /-- `restore_log` with the epochs of a list of terms. -/
  | restore (terms : List Nat)
  /-- `log_appended` where the log ends. -/
  | append (stop term : Nat)
  /-- The truncation of `handle_append_entries`, and the append behind it. -/
  | overwrite (index stop term : Nat)

/-- What may be done to a node, and what becomes of the node and of the terms of its log. -/
def LogOp.next : Node × List Nat → LogOp → Option (Node × List Nat)
  | (n, _), .restore terms =>
      if (∀ t ∈ terms, t ≠ kNoTerm) ∧ terms.Pairwise (· ≤ ·) then
        some (n.restoreLog terms.length (epochsOf terms), terms)
      else none
  | (n, ts), .append stop term =>
      if n.logEnd < stop ∧ term ≠ kNoTerm ∧ n.lastTerm ≤ term then
        some (n.logAppended n.logEnd stop term, ts ++ List.replicate (stop - n.logEnd) term)
      else none
  | (n, ts), .overwrite index stop term =>
      let cut := n.truncated index
      if index < n.logEnd ∧ index < stop ∧ term ≠ kNoTerm ∧ cut.lastTerm ≤ term then
        some (cut.orderAppend.logAppended index stop term,
          ts.take index ++ List.replicate (stop - index) term)
      else none

/-- An append keeps the terms and the map together. -/
theorem Tells.logAppended (h : n.Tells ts) (hts : Terms ts) {stop term : Nat}
    (hstop : n.logEnd < stop) (hterm : term ≠ kNoTerm) (hle : n.lastTerm ≤ term) :
    (n.logAppended n.logEnd stop term).Tells (ts ++ List.replicate (stop - n.logEnd) term) ∧
      Terms (ts ++ List.replicate (stop - n.logEnd) term) := by
  constructor
  · have happended := h.appended hstop term
    rw [← h.logEnd] at happended
    exact happended.sameLog (sameLog_logAppended n _ _ _)
  · rw [h.lastTerm] at hle
    exact hts.append hterm hle

theorem LogOp.next_tells {s s' : Node × List Nat} {op : LogOp}
    (h : s.1.Tells s.2 ∧ Terms s.2) (hnext : LogOp.next s op = some s') :
    s'.1.Tells s'.2 ∧ Terms s'.2 := by
  obtain ⟨n, ts⟩ := s
  obtain ⟨htells, hts⟩ := h
  cases op with
  | restore terms =>
      dsimp only [LogOp.next] at hnext
      split at hnext
      case isTrue hok =>
        cases hnext
        exact ⟨tells_restoreLog n terms, hok.1, hok.2⟩
      case isFalse => cases hnext
  | append stop term =>
      dsimp only [LogOp.next] at hnext
      split at hnext
      case isTrue hok =>
        cases hnext
        exact htells.logAppended hts hok.1 hok.2.1 hok.2.2
      case isFalse => cases hnext
  | overwrite index stop term =>
      dsimp only [LogOp.next] at hnext
      split at hnext
      case isTrue hok =>
        cases hnext
        obtain ⟨hindex, hstop, hterm, hle⟩ := hok
        exact (htells.truncated hindex).orderAppend.logAppended (hts.take index) hstop hterm hle
      case isFalse => cases hnext

end Node

/-- Along every run of the operations from a node with nothing in its log, in whatever role,
the map says of the log what the list of its records' terms says. -/
theorem epochMap_faithful {n₀ n : Node} {ts : List Nat} (hend : n₀.logEnd = 0)
    (hlast : n₀.lastTerm = kNoTerm) (hnone : n₀.epochs = [])
    (hrun : Runs Node.LogOp.next (fun _ _ _ => True) (n₀, []) (n, ts)) :
    n.logEnd = ts.length ∧
    (∀ i, n.termAt i = ts[i]?.getD kNoTerm) ∧
    (∀ i < n.logEnd, FirstOfRun ts (n.epochStartAt i) i) ∧
    n.lastTerm = ts.getLast?.getD kNoTerm ∧
    (n.epochs.Pairwise fun a b => a.start < b.start ∧ a.term < b.term) ∧
    ∀ e ∈ n.epochs, e.start < n.logEnd := by
  have hinv : n.Tells ts ∧ Terms ts := by
    refine hrun.invariant (I := fun s => s.1.Tells s.2 ∧ Terms s.2)
      ⟨⟨hend, hlast, hnone⟩, Terms.nil⟩ ?_
    intro s op s' h hnext _
    exact Node.LogOp.next_tells h hnext
  obtain ⟨htells, hts⟩ := hinv
  refine ⟨htells.logEnd, htells.termAt, fun i hi => htells.epochStartAt hi, htells.lastTerm, ?_, ?_⟩
  · rw [htells.epochs]
    exact epochsOf_pairwise hts
  · intro e he
    rw [htells.epochs] at he
    rw [htells.logEnd]
    exact (mem_epochsOf.1 he).1

/-- A log is restored, cut inside its second run and appended to. -/
theorem epochMap_faithful_overwritten :
    let n₀ := Node.new { peers := [1, 2] } 0 {}
    ∃ n ts, Runs Node.LogOp.next (fun _ _ _ => True) (n₀, []) (n, ts) ∧
      ts = [1, 1, 2, 4, 4, 4] ∧ n.termAt 4 = ts[4]?.getD kNoTerm ∧
      FirstOfRun ts (n.epochStartAt 4) 4 := by
  intro n₀
  obtain ⟨⟨n, ts⟩, hrun, hp⟩ := exists_of_replay Node.LogOp.next (fun _ _ _ => True) (n₀, [])
    [.restore [1, 1, 2, 2, 3], .overwrite 3 5 4, .append 6 4]
    (p := fun s => decide (4 < s.1.logEnd ∧ s.2 = [1, 1, 2, 4, 4, 4])) (by decide +kernel)
  obtain ⟨hend, hts⟩ := of_decide_eq_true hp
  obtain ⟨-, hterm, hstart, -⟩ := epochMap_faithful rfl rfl rfl hrun
  exact ⟨n, ts, hrun, hts, hterm 4, hstart 4 hend⟩

end LogEngine.Raft
