import LogEngine.Raft.Node
import LogEngine.Verified.Replication

/-!
# The epoch map describes the log

A node holds no entries, only its log's end and the epochs.  `scanEpochs` is the
epoch list a log of batches gives rise to, appending them one by one as
`Log::scan_epochs` and `log_appended` both do, and `Views` says that a node's
metadata is that of a given log.  From it follow what `termAt` answers
(`Views.termAt_eq`) and how the metadata follow the log when a batch is appended
or a tail is cut off.
-/

namespace LogEngine.Raft

open Verified Verified.Tiling Verified.Replication
open Extent Stamped

variable {α : Type*} [Stamped α]

/-- The epochs of a log, scanning its batches from the front. -/
def scanEpochs (l : List α) : List Epoch :=
  l.foldl (fun epochs e => appendEpoch epochs (term e) (base e)) []

@[simp] theorem scanEpochs_nil : scanEpochs ([] : List α) = [] := rfl

@[simp] theorem scanEpochs_snoc (l : List α) (e : α) :
    scanEpochs (l ++ [e]) = appendEpoch (scanEpochs l) (term e) (base e) := by
  simp [scanEpochs]

private theorem appendEpoch_cases (epochs : List Epoch) (t : Nat) (start : Nat) :
    (appendEpoch epochs t start = epochs ∧ ∃ e ∈ epochs.getLast?, e.term = t) ∨
      appendEpoch epochs t start = epochs ++ [⟨t, start⟩] := by
  unfold appendEpoch
  split
  case isTrue h =>
    refine .inl ⟨rfl, ?_⟩
    cases hl : epochs.getLast? with
    | none => simp [hl] at h
    | some e => exact ⟨e, rfl, by simpa [hl] using h⟩
  case isFalse h => exact .inr rfl

private theorem scanEpochs_eq_nil {l : List α} : scanEpochs l = [] ↔ l = [] := by
  rcases List.eq_nil_or_concat' l with rfl | ⟨p, e, rfl⟩
  · simp
  · rcases appendEpoch_cases (scanEpochs p) (term e) (base e) with
      ⟨heq, e', he', -⟩ | heq
    · rw [scanEpochs_snoc, heq]
      refine ⟨fun hnil => ?_, fun hnil => by simp at hnil⟩
      simp [hnil] at he'
    · simp [heq]

/-- The last epoch is the last batch's. -/
theorem scanEpochs_last {l : List α} {e : Epoch}
    (he : e ∈ (scanEpochs l).getLast?) : e.term = lastTerm l := by
  rcases List.eq_nil_or_concat' l with rfl | ⟨p, x, rfl⟩
  · simp at he
  · rw [scanEpochs_snoc] at he
    rw [lastTerm_snoc]
    rcases appendEpoch_cases (scanEpochs p) (term x) (base x) with
      ⟨heq, e', he', ht⟩ | heq
    · rw [heq, he'] at he
      exact Option.some.inj he ▸ ht
    · simp only [heq, List.getLast?_append, List.getLast?_singleton, Option.some_or,
        Option.mem_some_iff] at he
      rw [← he]

/-- Epochs begin where batches begin, below the end of the log. -/
theorem scanEpochs_start_lt {l : List α} (h : Tiles 0 l) {e : Epoch}
    (he : e ∈ scanEpochs l) : e.start < endFrom 0 l := by
  induction l using List.reverseRecOn with
  | nil => simp at he
  | append_singleton p x ih =>
      obtain ⟨hp, hb, hs⟩ := tiles_snoc.1 h
      rw [scanEpochs_snoc] at he
      have hend : endFrom 0 (p ++ [x]) = stop x := by simp
      have hstart : e ∈ scanEpochs p ∨ e = ⟨term x, base x⟩ := by
        rcases appendEpoch_cases (scanEpochs p) (term x) (base x) with ⟨heq, -⟩ | heq
        · exact .inl (heq ▸ he)
        · simpa [heq] using he
      rcases hstart with hmem | rfl
      · have := ih hp hmem
        omega
      · simp only
        omega

theorem epochsUpTo_all {epochs : List Epoch} {i : Nat}
    (h : ∀ e ∈ epochs, e.start ≤ i) : epochsUpTo epochs i = epochs :=
  List.takeWhile_eq_self_iff.2 fun e he => by simpa using h e he

theorem epochsUpTo_snoc_of_lt {epochs : List Epoch} {t : Nat}
    {start i : Nat} (h : i < start) :
    epochsUpTo (epochs ++ [⟨t, start⟩]) i = epochsUpTo epochs i := by
  unfold epochsUpTo
  rw [List.takeWhile_append]
  have hnone : List.takeWhile (fun e : Epoch => decide (e.start ≤ i)) [⟨t, start⟩] = [] := by
    simp [h]
  split
  case isTrue hlen =>
    rw [hnone, List.append_nil]
    exact (( List.takeWhile_prefix _).eq_of_length hlen).symm
  case isFalse => rfl

/-- The last epoch at or before a record is the one of the batch covering it. -/
theorem epochsUpTo_last {l : List α} (h : Tiles 0 l) {i : Nat} {x : α}
    (hx : cover l i = some x) :
    ∃ e, (epochsUpTo (scanEpochs l) i).getLast? = some e ∧ e.term = term x := by
  induction l using List.reverseRecOn with
  | nil => simp [cover] at hx
  | append_singleton p y ih =>
      obtain ⟨hp, hb, hs⟩ := tiles_snoc.1 h
      rw [scanEpochs_snoc]
      rcases Nat.lt_or_ge i (base y) with hlt | hge
      · -- the record lies before the last batch: its epoch is not looked at
        obtain ⟨x', hx'⟩ := hp.exists_cover (Nat.zero_le i) (hb ▸ hlt)
        rw [cover_append_of_some hx'] at hx
        obtain ⟨e, he, ht⟩ := ih hp (hx ▸ hx')
        refine ⟨e, ?_, ht⟩
        rcases appendEpoch_cases (scanEpochs p) (term y) (base y) with ⟨heq, -⟩ | heq
        · rw [heq, he]
        · rw [heq, epochsUpTo_snoc_of_lt hlt, he]
      · -- the record lies in the last batch: every epoch has begun
        have hlast : i < stop y := by
          obtain ⟨q, hq, -, hxi⟩ := cover_spec hx
          have hle := h.end_mono hq
          simp only [endFrom_append, endFrom_cons, endFrom_nil] at hle
          omega
        have hxy := h.cover_eq (List.prefix_refl _) hge hlast
        obtain rfl : x = y := by
          rw [hx] at hxy
          exact Option.some.inj hxy
        have hall : ∀ e ∈ appendEpoch (scanEpochs p) (term x) (base x), e.start ≤ i := by
          intro e he
          have : e ∈ scanEpochs p ∨ e = ⟨term x, base x⟩ := by
            rcases appendEpoch_cases (scanEpochs p) (term x) (base x) with ⟨heq, -⟩ | heq
            · exact .inl (heq ▸ he)
            · simpa [heq] using he
          rcases this with hmem | rfl
          · have := scanEpochs_start_lt hp hmem
            omega
          · exact hge
        rw [epochsUpTo_all hall]
        cases hl : (appendEpoch (scanEpochs p) (term x) (base x)).getLast? with
        | none =>
            rw [List.getLast?_eq_none_iff, ← scanEpochs_snoc, scanEpochs_eq_nil] at hl
            simp at hl
        | some e =>
            refine ⟨e, rfl, ?_⟩
            rw [scanEpochs_last (l := p ++ [x]) (by rw [scanEpochs_snoc, hl]; rfl),
              lastTerm_snoc]

/-- There is nothing to cut behind the last epoch. -/
theorem truncateEpochsFrom_eq_self {epochs : List Epoch} {i : Nat}
    (h : ∀ e ∈ epochs, e.start < i) : truncateEpochsFrom epochs i = epochs := by
  refine List.rdropWhile_eq_self_iff.2 fun hne => ?_
  have := h _ (List.getLast_mem hne)
  simpa using this

/-- What was appended at the cut, or behind it, is cut off. -/
theorem truncateEpochsFrom_appendEpoch (epochs : List Epoch) (t : Nat) {start i : Nat}
    (h : i ≤ start) :
    truncateEpochsFrom (appendEpoch epochs t start) i = truncateEpochsFrom epochs i := by
  rcases appendEpoch_cases epochs t start with ⟨heq, -⟩ | heq
  · rw [heq]
  · rw [heq, truncateEpochsFrom, List.rdropWhile_concat_pos _ _ _ (by simpa using h)]
    rfl

/-- Cutting the map where a batch begins gives the map of what is left. -/
theorem truncateEpochsFrom_scan {p r : List α} (h : Tiles 0 (p ++ r)) :
    truncateEpochsFrom (scanEpochs (p ++ r)) (endFrom 0 p) = scanEpochs p := by
  induction r using List.reverseRecOn with
  | nil =>
      rw [List.append_nil] at h ⊢
      exact truncateEpochsFrom_eq_self fun e he => scanEpochs_start_lt h he
  | append_singleton r x ih =>
      rw [← List.append_assoc] at h ⊢
      obtain ⟨hp, hb, -⟩ := tiles_snoc.1 h
      have hle := hp.end_mono (List.prefix_append p r)
      rw [scanEpochs_snoc, truncateEpochsFrom_appendEpoch _ _ (by omega), ih hp]

/-! ## A node that describes a log -/

/-- The node's metadata are those of the log `l`. -/
structure Node.Views (n : Node) (l : List α) : Prop where
  logEnd : n.logEnd = endFrom 0 l
  lastTerm : n.lastTerm = Replication.lastTerm l
  epochs : n.epochs = scanEpochs l

theorem Node.Views.congr {n n' : Node} {l : List α} (hv : n.Views l)
    (hend : n'.logEnd = n.logEnd) (hlast : n'.lastTerm = n.lastTerm)
    (hepochs : n'.epochs = n.epochs) : n'.Views l :=
  ⟨hend.trans hv.logEnd, hlast.trans hv.lastTerm, hepochs.trans hv.epochs⟩

/-- What `termAt` answers is the term of the batch covering the record. -/
theorem Node.Views.termAt_eq {n : Node} {l : List α} (hv : n.Views l)
    (h : Tiles 0 l) (i : Nat) : n.termAt i = Replication.termAt l i := by
  unfold Node.termAt Verified.Replication.termAt
  rcases Nat.lt_or_ge i (endFrom 0 l) with hlt | hge
  · obtain ⟨x, hx⟩ := h.exists_cover (Nat.zero_le i) hlt
    obtain ⟨e, he, ht⟩ := epochsUpTo_last h hx
    have hne : scanEpochs l ≠ [] := by
      intro hnil
      rw [scanEpochs_eq_nil] at hnil
      simp [hnil, cover] at hx
    rw [hv.logEnd, hv.epochs, if_neg (by simp [hne, hlt]), he, hx]
    simpa using ht
  · rw [hv.logEnd, if_pos (.inl hge), h.cover_none hge]
    rfl

/-- Appending a batch keeps a node's metadata up to date. -/
theorem Node.Views.snoc {n : Node} {l : List α} (hv : n.Views l) {e : α}
    (hs : base e < stop e) :
    (n.appended (base e) (stop e) (term e)).Views (l ++ [e]) :=
  ⟨by simp [Node.appended, hs], by simp [Node.appended],
    by simp [Node.appended, hv.epochs]⟩

/-- A node restored from a log describes it. -/
theorem Node.views_restoreLog (n : Node) {l : List α} (h : Tiles 0 l) :
    (n.restoreLog (endFrom 0 l) (scanEpochs l)).Views l := by
  refine ⟨rfl, ?_, rfl⟩
  rcases List.eq_nil_or_concat' l with rfl | ⟨p, x, rfl⟩
  · rfl
  · obtain ⟨hp, hb, hs⟩ := tiles_snoc.1 h
    have hend : endFrom 0 (p ++ [x]) = stop x := by simp
    have hcov := h.cover_eq (i := stop x - 1) (List.prefix_refl _) (by omega) (by omega)
    obtain ⟨e, he, ht⟩ := epochsUpTo_last h hcov
    have hne : scanEpochs (p ++ [x]) ≠ [] := by
      rw [Ne, scanEpochs_eq_nil]
      simp
    have hpos : ¬ stop x = 0 := by omega
    have hlt : ¬ stop x ≤ stop x - 1 := by omega
    simp only [restoreLog, hend, if_neg hpos, Node.termAt, hlt, hne, or_self, if_false, he,
      ht, lastTerm_snoc]

/-- Cutting a log where one of its batches begins keeps them up to date too. -/
theorem Node.Views.truncated {n : Node} {p l : List α} (hv : n.Views l)
    (h : Tiles 0 l) (hp : p <+: l) : (n.truncated (endFrom 0 p)).Views p := by
  obtain ⟨r, rfl⟩ := hp
  have hmap : truncateEpochsFrom n.epochs (endFrom 0 p) = scanEpochs p := by
    rw [hv.epochs, truncateEpochsFrom_scan h]
  refine ⟨rfl, ?_, hmap⟩
  simp only [Node.truncated, hmap]
  exact (Node.views_restoreLog { n with pendingTruncate := some (endFrom 0 p) }
    (h.of_isPrefix (List.prefix_append p r))).lastTerm

end LogEngine.Raft
