import LogEngine.Io.SimDisk
import LogEngine.Storage.Contents

/-!
# A log file and a power cut

As long as nothing is refused, the file of a segment is two rows of batches (`File.Logs`):
those that have been flushed, and those whose writes are pending.  A power cut keeps the
first row, some first batches of the second, and a part of the next.

A `truncate` into the second row fills the platter up with zeros, so that the part of a
batch that a cut leaves may have zeros behind it.  Such bytes are told from a batch by its
checksum and nothing else.  `Frame.Robust` says that this is good enough; it is not for every
batch, since a checksum of 32 bits takes some torn batches for whole ones.
-/

namespace LogEngine.Storage

open Base Io Verified.Tiling Verified.Framing

/-! ## Torn batches -/

def zeros (n : Nat) : Bytes := List.replicate n 0

/-- The batch, torn and filled up with zeros, is not taken for another one. -/
def Frame.Robust (f : Frame) : Prop :=
  ∀ k n g, Frame.bytes g <+: f.bytes.take k ++ zeros n → g = f

/-- Zeros are no batch. -/
theorem not_isPrefix_zeros (g : Frame) (n : Nat) : ¬ g.bytes <+: zeros n := by
  intro h
  have hzeros : g.bytes.take kBatchHeaderBytes = zeros kBatchHeaderBytes := by
    obtain ⟨r, hr⟩ := h
    have hle := g.header_le
    have hlen : g.bytes.length + r.length = n := by
      rw [← List.length_append, hr, zeros, List.length_replicate]
    have htake := congrArg (List.take kBatchHeaderBytes) hr
    rw [List.take_append_of_le_length hle, zeros, List.take_replicate,
      Nat.min_eq_left (by omega)] at htake
    exact htake
  have hdecode := decodeHeader_take (a := g.bytes) (n := kBatchHeaderBytes) le_rfl
  have hbad : decodeHeader (zeros kBatchHeaderBytes) = .error .corruptRecord := by decide
  rw [hzeros, g.decode, hbad] at hdecode
  cases hdecode

/-- Behind a batch that begins a torn one with zeros, there are zeros. -/
theorem rest_of_torn {f : Frame} {k n : Nat} {rest : Bytes}
    (h : f.bytes.take k ++ zeros n = f.bytes ++ rest) : ∃ m, rest = zeros m := by
  have hdrop := congrArg (List.drop f.bytes.length) h
  have hnil : (f.bytes.take k).drop f.bytes.length = [] :=
    List.drop_eq_nil_of_le (List.length_take_le' k f.bytes)
  rw [List.drop_left, List.drop_append, hnil, List.nil_append, zeros, List.drop_replicate] at hdrop
  exact ⟨_, hdrop.symm⟩

/-- Of a torn batch with zeros behind it, the batch is recovered or nothing. -/
theorem parse_torn {f : Frame} (hf : f.Robust) (a k n : Nat) :
    parse a (f.bytes.take k ++ zeros n) = ([] : List Frame) ∨
      parse a (f.bytes.take k ++ zeros n) = [f] := by
  obtain ⟨-, rest, hrest, -⟩ := Frame.parses a (f.bytes.take k ++ zeros n)
  cases hparse : (parse a (f.bytes.take k ++ zeros n) : List Frame) with
  | nil => exact .inl rfl
  | cons g gs =>
      rw [hparse, encode_cons, List.append_assoc] at hrest
      obtain rfl : g = f := hf k n g ⟨_, hrest.symm⟩
      obtain ⟨m, hm⟩ := rest_of_torn hrest
      cases gs with
      | nil => exact .inr rfl
      | cons h gs =>
          rw [encode_cons, List.append_assoc] at hm
          exact absurd ⟨_, hm⟩ (not_isPrefix_zeros h m)

/-- Of a torn batch with nothing behind it, too. -/
theorem parse_cut (f : Frame) (k : Nat) :
    parse (Extent.base f) (f.bytes.take k) = ([] : List Frame) ∨
      parse (Extent.base f) (f.bytes.take k) = [f] := by
  by_cases hk : f.bytes.take k = f.bytes
  · right
    have hencode : f.bytes = encode [f] := (List.append_nil _).symm
    rw [hk, hencode]
    exact parse_encode ⟨rfl, Proper.base_lt f, trivial⟩
  · left
    have hstuck : Stuck Frame (Extent.base f) (f.bytes.take k) :=
      stuck_of_torn (List.take_prefix k f.bytes) hk _
    exact (parses_nil hstuck).parse_eq

/-! ## Pending writes -/

/-- The writes of a row of batches, from a position on. -/
def writes : Nat → List Frame → List PendingWrite
  | _, [] => []
  | pos, f :: fs => ⟨pos, f.bytes⟩ :: writes (pos + f.bytes.length) fs

private theorem writes_append (pos : Nat) (fs gs : List Frame) :
    writes pos (fs ++ gs) = writes pos fs ++ writes (pos + (encode fs).length) gs := by
  induction fs generalizing pos with
  | nil => rfl
  | cons f fs ih => rw [List.cons_append, writes, ih, writes, List.cons_append,
      encode_cons_length, Nat.add_assoc]

private theorem writes_take (pos k : Nat) (fs : List Frame) :
    (writes pos fs).take k = writes pos (fs.take k) := by
  induction fs generalizing pos k with
  | nil => simp [writes]
  | cons f fs ih =>
      cases k with
      | zero => rfl
      | succ k => rw [writes, List.take_succ_cons, List.take_succ_cons, writes, ih]

private theorem writes_getElem? (pos k : Nat) (fs : List Frame) :
    (writes pos fs)[k]? =
      fs[k]?.map fun f => ⟨pos + (encode (fs.take k)).length, f.bytes⟩ := by
  induction fs generalizing pos k with
  | nil => rfl
  | cons f fs ih =>
      cases k with
      | zero => rfl
      | succ k => rw [writes, List.getElem?_cons_succ, List.getElem?_cons_succ, ih,
          List.take_succ_cons, encode_cons_length, Nat.add_assoc]

private theorem le_of_mem_writes {pos : Nat} {fs : List Frame} {w : PendingWrite}
    (h : w ∈ writes pos fs) : pos ≤ w.offset := by
  induction fs generalizing pos with
  | nil => exact absurd h List.not_mem_nil
  | cons f fs ih =>
      rcases List.mem_cons.1 h with rfl | h
      · exact le_rfl
      · exact (Nat.le_add_right _ _).trans (ih h)

/-- A write where the first bytes of an image end. -/
theorem applyBytes_at (a r data : Bytes) :
    applyBytes (a ++ r) a.length data = a ++ data ++ r.drop data.length := by
  by_cases hd : data = []
  · rw [applyBytes, if_pos hd, hd, List.append_nil, List.length_nil, List.drop_zero]
  · have hz : a.length - (a ++ r).length = 0 := by
      rw [List.length_append]
      omega
    rw [applyBytes, if_neg hd, hz, List.replicate_zero, List.append_nil, List.take_left,
      List.drop_append, List.drop_eq_nil_of_le (Nat.le_add_right _ _), List.nil_append,
      Nat.add_sub_cancel_left]

private theorem replay_writes (a r : Bytes) (fs : List Frame) :
    replay (a ++ r) (writes a.length fs) = a ++ encode fs ++ r.drop (encode fs).length := by
  induction fs generalizing a r with
  | nil => simp [writes, replay]
  | cons f fs ih =>
      have hstep : replay (a ++ r) (writes a.length (f :: fs)) =
          replay (a ++ f.bytes ++ r.drop f.bytes.length) (writes (a ++ f.bytes).length fs) := by
        rw [← applyBytes_at, List.length_append]
        rfl
      rw [hstep, ih, List.drop_drop, encode_cons_length, encode_cons, List.append_assoc a]
      rfl

/-! ## Files -/

private theorem applyBytes_length_mono {image data data' : Bytes} {offset : Nat}
    (h : data <+: data') :
    (applyBytes image offset data).length ≤ (applyBytes image offset data').length := by
  by_cases hd : data = []
  · rw [applyBytes, if_pos hd]
    exact length_le_applyBytes _ _ _
  · have hd' : data' ≠ [] := fun hnil => hd (List.prefix_nil.1 (hnil ▸ h))
    have hle := h.length_le
    rw [applyBytes_length hd, applyBytes_length hd']
    omega

theorem crash_empty (kept torn : Nat) : (({} : File).crash kept torn).visible = [] :=
  File.crash_of_pending rfl kept torn

/-- A power cut does not lengthen a file. -/
theorem crash_length_le {x : File} (h : x.Consistent) (kept torn : Nat) :
    (x.crash kept torn).visible.length ≤ x.visible.length := by
  have hsplit : x.visible =
      replay (replay x.durable (x.pending.take kept)) (x.pending.drop kept) := by
    rw [← replay_append, List.take_append_drop]
    exact h.symm
  rw [hsplit]
  cases hw : x.pending[kept]? with
  | none =>
      simp only [File.crash, hw]
      exact length_le_replay _ _
  | some w =>
      have hdrop : x.pending.drop kept = w :: x.pending.drop (kept + 1) := by
        obtain ⟨hlt, rfl⟩ := List.getElem?_eq_some_iff.1 hw
        exact List.drop_eq_getElem_cons hlt
      simp only [File.crash, hw, hdrop]
      exact (applyBytes_length_mono (List.take_prefix torn w.bytes)).trans (length_le_replay _ _)

/-- The file holds the batches `fd`, which have been flushed, and `fp`, which have not.  In
place of some of the latter, which are robust, there may be zeros on the platter. -/
structure File.Logs (x : File) (fd fp : List Frame) : Prop where
  visible : x.visible = encode (fd ++ fp)
  pending : x.pending = writes (encode fd).length fp
  durable : ∃ fz n, fz <+: fp ∧ (∀ f ∈ fz, f.Robust) ∧ n ≤ (encode fz).length ∧
    x.durable = encode fd ++ zeros n

namespace File.Logs

variable {x : File} {fd fp q : List Frame}

theorem settled {fs : List Frame} (hv : x.visible = encode fs) (hp : x.pending = [])
    (hd : x.durable = encode fs) : Logs x fs [] := by
  refine ⟨?_, hp, [], 0, List.prefix_rfl, fun f hf => ?_, le_rfl, ?_⟩
  · rw [hv, List.append_nil]
  · cases hf
  · rw [hd]
    exact (List.append_nil _).symm

theorem empty : Logs {} [] [] := settled rfl rfl rfl

/-- The zeros do not reach beyond the batches. -/
theorem zeros_le (h : Logs x fd fp) :
    ∃ n, n ≤ (encode fp).length ∧ x.durable = encode fd ++ zeros n := by
  obtain ⟨fz, n, hfz, -, hn, hd⟩ := h.durable
  exact ⟨n, hn.trans (encode_isPrefix hfz).length_le, hd⟩

theorem write (h : Logs x fd fp) (f : Frame) :
    Logs (x.write (encode (fd ++ fp)).length f.bytes) fd (fp ++ [f]) := by
  refine ⟨?_, ?_, ?_⟩
  · have hat := applyBytes_at (encode (fd ++ fp)) [] f.bytes
    rw [List.append_nil, List.drop_nil, List.append_nil, ← h.visible] at hat
    rw [← List.append_assoc, Segment.encode_snoc, ← h.visible]
    exact hat
  · show x.pending ++ [⟨(encode (fd ++ fp)).length, f.bytes⟩] = _
    rw [h.pending, writes_append, encode_append, List.length_append]
    rfl
  · obtain ⟨fz, n, hfz, hrobust, hn, hd⟩ := h.durable
    exact ⟨fz, n, hfz.trans (List.prefix_append _ _), hrobust, hn, hd⟩

theorem flush (h : Logs x fd fp) : Logs x.flush (fd ++ fp) [] := by
  obtain ⟨n, hn, hd⟩ := h.zeros_le
  refine settled h.visible rfl ?_
  show replay x.durable x.pending = _
  have hnil : (zeros n).drop (encode fp).length = [] :=
    List.drop_eq_nil_of_le (by rw [zeros, List.length_replicate]; exact hn)
  rw [h.pending, hd, replay_writes, hnil, List.append_nil, encode_append]

/-- Pending writes behind the new end go. -/
theorem clip_behind {pos size : Nat} (h : size ≤ pos) (fs : List Frame) :
    ((writes pos fs).map (File.clip size)).filter (fun w => w.bytes ≠ []) = [] := by
  rw [List.filter_eq_nil_iff]
  intro w hw
  obtain ⟨v, hv, rfl⟩ := List.mem_map.1 hw
  have hle : size ≤ v.offset := h.trans (le_of_mem_writes hv)
  simp [File.clip, hle]

/-- Pending writes before the new end stay. -/
theorem clip_writes (pos : Nat) (fs gs : List Frame) :
    ((writes pos (fs ++ gs)).map (File.clip (pos + (encode fs).length))).filter
      (fun w => w.bytes ≠ []) = writes pos fs := by
  induction fs generalizing pos with
  | nil => exact clip_behind le_rfl gs
  | cons f fs ih =>
      have hpos : 0 < f.bytes.length := bytes_pos f
      have hend : pos + (encode (f :: fs)).length = pos + f.bytes.length + (encode fs).length := by
        rw [encode_cons_length, Nat.add_assoc]
      have hf : File.clip (pos + (encode (f :: fs)).length) ⟨pos, f.bytes⟩ = ⟨pos, f.bytes⟩ := by
        rw [File.clip, if_neg (by dsimp only; omega),
          List.take_of_length_le (by dsimp only; omega)]
      have hne : decide (f.bytes ≠ []) = true := decide_eq_true f.bytes_ne
      rw [List.cons_append, writes, List.map_cons, hf, List.filter_cons, if_pos hne, hend, ih,
        writes]

/-- A cut into what has been flushed. -/
theorem truncate_flushed (h : Logs x fd fp) (hq : q <+: fd) :
    Logs (x.truncate (encode q).length) q [] := by
  obtain ⟨n, -, hd⟩ := h.zeros_le
  refine settled ?_ ?_ ?_
  · refine resize_eq ?_
    rw [h.visible]
    exact encode_isPrefix (hq.trans (List.prefix_append _ _))
  · show (x.pending.map _).filter _ = []
    rw [h.pending]
    exact clip_behind (encode_isPrefix hq).length_le fp
  · refine resize_eq ?_
    rw [hd]
    exact (encode_isPrefix hq).trans (List.prefix_append _ _)

/-- A cut into what has not: the platter is filled up to the cut. -/
theorem truncate_pending (h : Logs x fd fp) (hq : q <+: fp) (hrobust : ∀ f ∈ q, f.Robust) :
    Logs (x.truncate (encode (fd ++ q)).length) fd q := by
  obtain ⟨r, rfl⟩ := hq
  obtain ⟨n, -, hd⟩ := h.zeros_le
  refine ⟨?_, ?_, q, (encode q).length, List.prefix_rfl, hrobust, le_rfl, ?_⟩
  · refine resize_eq ?_
    rw [h.visible, ← List.append_assoc]
    exact encode_isPrefix (List.prefix_append _ _)
  · show (x.pending.map _).filter _ = _
    rw [h.pending, encode_append, List.length_append]
    exact clip_writes _ _ _
  · show resize x.durable _ = _
    rw [hd, resize, encode_append, List.length_append, List.append_assoc, zeros, zeros,
      List.replicate_append_replicate, List.take_length_add_append, List.take_replicate]
    congr 2
    rw [List.length_append, List.length_replicate]
    omega

/-- What a power cut leaves: the flushed batches, some first of the others, and a part of the
next, which has zeros behind it only if it is robust. -/
theorem crash_visible (h : Logs x fd fp) (kept torn : Nat) :
    ∃ tail, (x.crash kept torn).visible = encode (fd ++ fp.take kept) ++ tail ∧
      (tail = [] ∨ ∃ f k n, fp[kept]? = some f ∧ tail = f.bytes.take k ++ zeros n ∧
        (n = 0 ∨ f.Robust)) := by
  obtain ⟨fz, n, hfz, hrobust, hn, hd⟩ := h.durable
  have hkept : replay x.durable (x.pending.take kept) =
      encode (fd ++ fp.take kept) ++ zeros (n - (encode (fp.take kept)).length) := by
    rw [h.pending, hd, writes_take, replay_writes, zeros, List.drop_replicate, encode_append]
    rfl
  have hnext : x.pending[kept]? =
      fp[kept]?.map fun f => ⟨(encode (fd ++ fp.take kept)).length, f.bytes⟩ := by
    rw [h.pending, writes_getElem?, encode_append, List.length_append]
  -- beyond the robust batches there are no zeros left
  have hzeros : fz.length ≤ kept → n - (encode (fp.take kept)).length = 0 := by
    intro hle
    have hpre : fz <+: fp.take kept := by
      rw [List.prefix_take_iff]
      exact ⟨hfz, hle⟩
    have hlen := (encode_isPrefix hpre).length_le
    omega
  cases hf : fp[kept]? with
  | none =>
      have hle := hfz.length_le.trans (List.getElem?_eq_none_iff.1 hf)
      refine ⟨[], ?_, .inl rfl⟩
      rw [hf] at hnext
      simp only [File.crash, hnext, Option.map_none, hkept, hzeros hle]
      rfl
  | some f =>
      rw [hf] at hnext
      refine ⟨f.bytes.take torn ++ zeros (n - (encode (fp.take kept)).length -
        (f.bytes.take torn).length), ?_, .inr ⟨f, torn, _, rfl, rfl, ?_⟩⟩
      · simp only [File.crash, hnext, Option.map_some, hkept]
        rw [applyBytes_at, zeros, List.drop_replicate, List.append_assoc]
        rfl
      · by_cases hle : fz.length ≤ kept
        · left
          rw [hzeros hle, Nat.zero_sub]
        · right
          refine hrobust f ?_
          obtain ⟨r, rfl⟩ := hfz
          rw [List.getElem?_append_left (by omega)] at hf
          exact List.mem_of_getElem? hf

/-- A power cut keeps the batches that have been flushed, and some first of the others. -/
theorem parse_crash (h : Logs x fd fp) {b : Nat} (htiles : Tiles b (fd ++ fp)) (kept torn : Nat) :
    fd <+: parse b (x.crash kept torn).visible ∧
      parse b (x.crash kept torn).visible <+: fd ++ fp := by
  obtain ⟨tail, hvisible, htail⟩ := h.crash_visible kept torn
  have hpre : fd ++ fp.take kept <+: fd ++ fp :=
    (List.prefix_append_right_inj fd).2 (List.take_prefix kept fp)
  have hparse : parse b (x.crash kept torn).visible = fd ++ fp.take kept ++
      (parse (endFrom b (fd ++ fp.take kept)) tail : List Frame) := by
    rw [hvisible]
    exact (Parses.encode_append (htiles.of_isPrefix hpre) (Frame.parses _ tail)).parse_eq
  have hmore : (parse (endFrom b (fd ++ fp.take kept)) tail : List Frame) = [] ∨
      ∃ f, fp[kept]? = some f ∧ parse (endFrom b (fd ++ fp.take kept)) tail = [f] := by
    rcases htail with rfl | ⟨f, k, n, hf, rfl, hn⟩
    · exact .inl rfl
    · have hsnoc : fd ++ fp.take kept ++ [f] <+: fd ++ fp := by
        have htake : fp.take (kept + 1) = fp.take kept ++ [f] := by
          rw [List.take_add_one, hf]
          rfl
        rw [List.append_assoc, ← htake]
        exact (List.prefix_append_right_inj fd).2 (List.take_prefix _ fp)
      have hbase := (tiles_snoc.1 (htiles.of_isPrefix hsnoc)).2.1
      have hends : (parse (endFrom b (fd ++ fp.take kept)) (f.bytes.take k ++ zeros n) :
          List Frame) = [] ∨
          parse (endFrom b (fd ++ fp.take kept)) (f.bytes.take k ++ zeros n) = [f] := by
        rcases hn with rfl | hrobust
        · rw [← hbase]
          have hnil : f.bytes.take k ++ zeros 0 = f.bytes.take k := List.append_nil _
          rw [hnil]
          exact parse_cut f k
        · exact parse_torn hrobust _ k n
      exact hends.imp id fun hone => ⟨f, hf, hone⟩
  rw [hparse]
  refine ⟨(List.prefix_append _ _).trans (List.prefix_append _ _), ?_⟩
  rcases hmore with hnil | ⟨f, hf, hone⟩
  · rw [hnil, List.append_nil]
    exact hpre
  · have htake : fp.take (kept + 1) = fp.take kept ++ [f] := by
      rw [List.take_add_one, hf]
      rfl
    rw [hone, List.append_assoc, ← htake]
    exact (List.prefix_append_right_inj fd).2 (List.take_prefix _ fp)

/-- What is flushed stays as it is. -/
theorem crash_settled {fs : List Frame} (h : Logs x fs []) (kept torn : Nat) :
    (x.crash kept torn).visible = encode fs := by
  obtain ⟨n, hn, hd⟩ := h.zeros_le
  rw [encode_nil, List.length_nil, Nat.le_zero] at hn
  rw [File.crash_of_pending h.pending, hd, hn]
  exact List.append_nil _

theorem consistent (h : Logs x fd fp) : x.Consistent := by
  have hflush := h.flush.crash_settled 0 0
  rw [File.crash_of_pending rfl] at hflush
  exact hflush.trans h.visible.symm

end File.Logs

end LogEngine.Storage
