import LogEngine.Storage.Session

/-!
# What refused operations leave behind

Refused disk operations may leave bytes behind the batches of a segment, and files that
belong to no segment.  A later `Log::open` on a healthy disk recovers the log as it was, as
long as three things were kept apart from that: no `remove` is refused, no segment is
rolled with such bytes at its end or with such a file inside the log (`View.Ready`), and
no `truncate_to` fails once it has dropped batches (`Log.Forfeits`).

`View.Orderly` is the invariant: the segments before the last end with their batches, and
files that belong to no segment lie behind the last one.
-/

namespace LogEngine.Storage

open Base Io Io.Disk Verified.Fallible Verified.Tiling Verified.Framing Verified.Machine

/-! ## The segment that `truncate_to` cuts -/

/-- The last segment that begins below the offset, or else the first: what the loop of
`truncate_to` leaves at the end. -/
def Log.kept (l : Log) (offset : Nat) : Segment :=
  ((l.segments.filter fun s => s.baseOffset < offset).getLast?).getD (l.segments.headD l.active)

/-- The loop of `truncate_to` drops batches. -/
def Log.Forfeits (l : Log) (offset : Nat) : Prop :=
  l.startOffset ≤ offset ∧ offset < l.nextOffset ∧ (l.kept offset).nextOffset < l.nextOffset

section Kept

variable [Faults] {v w : View} {offset : Nat}

theorem Drops.segments (h : Drops offset v w) :
    w.log.nextOffset = v.log.nextOffset ∧
      ∃ gone, v.log.segments = w.log.segments ++ gone ∧ ∀ s ∈ gone, offset ≤ s.baseOffset := by
  induction h with
  | refl => exact ⟨rfl, [], (List.append_nil _).symm, by simp⟩
  | @tail u w _ hlast ih =>
      obtain ⟨hnext, gone, hsegments, hgone⟩ := ih
      cases hlast with
      | @drop init before _ y z hsealed hge hy hz =>
          refine ⟨hnext, u.log.active :: gone, ?_, List.forall_mem_cons.2 ⟨hge, hgone⟩⟩
          rw [hsegments]
          show u.log.sealed ++ [u.log.active] ++ gone = (init ++ [before]) ++ u.log.active :: gone
          rw [hsealed]
          simp

theorem Call.Popped.active_eq (h : Call.Popped v offset w) : w.log.active = v.log.kept offset := by
  obtain ⟨-, gone, hsegments, hgone⟩ := h.drops.segments
  have hnone : gone.filter (fun s => decide (s.baseOffset < offset)) = [] := by
    refine List.filter_eq_nil_iff.2 fun s hs => ?_
    have := hgone s hs
    simpa using this
  have hkept : v.log.segments.filter (fun s => decide (s.baseOffset < offset)) =
      w.log.segments.filter (fun s => decide (s.baseOffset < offset)) := by
    rw [hsegments, List.filter_append, hnone, List.append_nil]
  rw [Log.kept, hkept, Log.segments, List.filter_append]
  by_cases hlt : w.log.active.baseOffset < offset
  · rw [List.filter_singleton, decide_eq_true hlt, cond_true, List.getLast?_concat,
      Option.getD_some]
  · have hsealed : w.log.sealed = [] := h.last.resolve_right hlt
    rw [List.filter_singleton, decide_eq_false hlt, cond_false, hsealed, hsegments, Log.segments,
      hsealed]
    rfl

/-- A `truncate_to` that fails without dropping a batch leaves no gap. -/
theorem Log.Chained.popped (hc : v.log.Chained) (hw : w.Intact) (hp : Call.Popped v offset w)
    (hkept : ¬ v.log.Forfeits offset) : w.log.Chained := by
  refine ⟨hc.toLinked.drops hp.drops, ?_⟩
  have hnext := hp.drops.segments.1
  have hle := hw.next
  rw [hp.active_eq] at hle ⊢
  have hge : ¬ (v.log.kept offset).nextOffset < v.log.nextOffset := fun hlt =>
    hkept ⟨hp.start, hp.next, hlt⟩
  omega

end Kept

/-! ## Orderly directories -/

/-- How long the file of a segment is. -/
def logSize (files : FileName → Option File) (b : Nat) : Option Nat :=
  (files (.log b)).map fun x => x.visible.length

section Sizes

variable {files : FileName → Option File} {b : Nat}

theorem logSize_eq {x : File} (h : files (.log b) = some x) :
    logSize files b = some x.visible.length := by
  rw [logSize, h, Option.map_some]

theorem logSize_update (files : FileName → Option File) (b : Nat) (y : Option File) :
    logSize (Function.update files (.log b) y) =
      Function.update (logSize files) b (y.map fun x => x.visible.length) := by
  funext c
  by_cases hc : c = b
  · rw [hc, logSize, Function.update_self, Function.update_self]
  · rw [logSize, Function.update_of_ne (fun h => hc (FileName.log.inj h)), Function.update_of_ne hc,
      logSize]

private theorem logSize_update_index (files : FileName → Option File) (b : Nat) (y : Option File) :
    logSize (Function.update files (.index b) y) = logSize files := by
  funext c
  rw [logSize, Function.update_of_ne (fun h => by cases h), logSize]

end Sizes

namespace View

/-- A file that belongs to no segment of the log. -/
def Stray (v : View) (b : Nat) : Prop :=
  (∀ s ∈ v.log.segments, s.baseOffset ≠ b) ∧ logSize v.files b ≠ none

/-- The segments before the last end with their batches, and files that belong to no
segment lie behind it. -/
structure Orderly (v : View) : Prop where
  whole : ∀ s ∈ v.log.sealed, logSize v.files s.baseOffset = some s.sizeBytes
  long : ∀ n ∈ logSize v.files v.log.active.baseOffset, n ≤ v.log.options.segmentMaxBytes
  capped : ∀ s ∈ v.log.segments, s.sizeBytes ≤ kMaxFileBytes
  behind : ∀ b, v.Stray b → v.log.active.baseOffset < b

/-- The last segment ends with its batches as well, and no stray file lies inside the
log. -/
structure Ready (v : View) : Prop where
  whole : logSize v.files v.log.active.baseOffset = some v.log.active.sizeBytes
  clear : ∀ b, v.Stray b → v.log.nextOffset ≤ b

variable {v w : View}

theorem Orderly.congr (h : v.Orderly) (hlog : w.log = v.log)
    (hsize : logSize w.files = logSize v.files) : w.Orderly := by
  obtain ⟨hwhole, hlong, hcapped, hbehind⟩ := h
  refine ⟨?_, ?_, ?_, ?_⟩
  · rw [hlog, hsize]
    exact hwhole
  · rw [hlog, hsize]
    exact hlong
  · rw [hlog]
    exact hcapped
  · intro b hb
    rw [Stray, hlog, hsize] at hb
    rw [hlog]
    exact hbehind b hb

theorem Ready.congr (h : v.Ready) (hlog : w.log = v.log)
    (hsize : logSize w.files = logSize v.files) : w.Ready := by
  obtain ⟨hwhole, hclear⟩ := h
  refine ⟨?_, ?_⟩
  · rw [hlog, hsize]
    exact hwhole
  · intro b hb
    rw [Stray, hlog, hsize] at hb
    rw [hlog]
    exact hclear b hb

/-- The active segment and the length of its file may change, to a length that a segment
may have. -/
theorem Orderly.replace (h : v.Orderly) (hi : v.Intact) {seg : Segment} {y : File}
    {nextOffset : Nat} (hbase : seg.baseOffset = v.log.active.baseOffset)
    (hlong : y.visible.length ≤ v.log.options.segmentMaxBytes)
    (hcapped : seg.sizeBytes ≤ kMaxFileBytes) :
    (View.mk { v.log with active := seg, nextOffset := nextOffset }
      (Function.update v.files v.log.active.logFile (some y))).Orderly := by
  have hsize : logSize (Function.update v.files v.log.active.logFile (some y)) =
      Function.update (logSize v.files) v.log.active.baseOffset (some y.visible.length) :=
    logSize_update _ _ _
  refine ⟨fun s hs => ?_, fun n hn => ?_, fun s hs => ?_, fun b hb => ?_⟩
  · dsimp only at hs ⊢
    rw [hsize, Function.update_of_ne (hi.sealed_ne hs)]
    exact h.whole s hs
  · dsimp only at hn ⊢
    rw [hsize, hbase, Function.update_self] at hn
    rw [← Option.some.inj hn]
    exact hlong
  · rcases mem_segments.1 hs with hs | rfl
    · exact h.capped s (mem_segments.2 (.inl hs))
    · exact hcapped
  · obtain ⟨hother, hsome⟩ := hb
    dsimp only at hsome ⊢
    have hne : b ≠ v.log.active.baseOffset := fun heq =>
      hother seg (active_mem _) (hbase.trans heq.symm)
    rw [hsize, Function.update_of_ne hne] at hsome
    rw [hbase]
    refine h.behind b ⟨fun s hs => ?_, hsome⟩
    rcases mem_segments.1 hs with hs | rfl
    · exact hother s (mem_segments.2 (.inl hs))
    · exact hne.symm

section Steps

variable [Faults] {offset : Nat}

/-- A step that is no roll leaves the log and the lengths of its files. -/
theorem sync_size (hs : Step v (.quiet false) w) :
    w.log = v.log ∧ logSize w.files = logSize v.files := by
  cases hs with
  | flush hx =>
      refine ⟨rfl, (logSize_update _ _ _).trans ?_⟩
      rw [Option.map_some, Function.update_eq_iff]
      exact ⟨(logSize_eq hx).symm, fun _ _ => rfl⟩
  | sidecar hs hy => exact ⟨rfl, logSize_update_index _ _ _⟩

/-- A roll of a segment that is ready leaves one that is. -/
theorem Orderly.rolled (h : v.Orderly) (hr : v.Ready) (hi : v.Intact)
    (hs : Step v (.quiet true) w) : w.Orderly ∧ w.Ready := by
  cases hs with
  | @roll hne hflushed x y seg hx ho =>
      obtain ⟨rfl, hholds⟩ := ho.empty (hx ▸ hi.stray fun s hs => (hi.lt_next hne hs).ne)
      have hempty : y.visible = [] := hx ▸ hi.stray fun s hs => (hi.lt_next hne hs).ne
      have hzero : seg.sizeBytes = 0 := hholds.size
      have hsize : logSize (Function.update v.files (.log v.log.nextOffset) (some y)) =
          Function.update (logSize v.files) v.log.nextOffset (some 0) := by
        rw [logSize_update, Option.map_some, hempty, List.length_nil]
      have hself : logSize (Function.update v.files (.log v.log.nextOffset) (some y))
          seg.baseOffset = some 0 := by
        rw [hsize, ho.base, Function.update_self]
      have hstray : ∀ b, (View.mk { v.log with sealed := v.log.segments, active := seg }
          (Function.update v.files (.log v.log.nextOffset) (some y))).Stray b →
          b ≠ v.log.nextOffset ∧ v.Stray b := by
        rintro b ⟨hb, hsome⟩
        have hne : b ≠ v.log.nextOffset := fun heq =>
          hb seg (active_mem _) (ho.base.trans heq.symm)
        dsimp only at hsome
        rw [hsize, Function.update_of_ne hne] at hsome
        exact ⟨hne, fun s hs => hb s (mem_segments.2 (.inl hs)), hsome⟩
      refine ⟨⟨fun s hs => ?_, fun n hn => ?_, fun s hs => ?_, fun b hb => ?_⟩,
        ⟨?_, fun b hb => (hr.clear b (hstray b hb).2)⟩⟩
      · have hs : s ∈ v.log.segments := hs
        dsimp only
        rw [hsize, Function.update_of_ne (hi.lt_next hne hs).ne]
        rcases mem_segments.1 hs with hs | rfl
        · exact h.whole s hs
        · exact hr.whole
      · dsimp only at hn
        rw [hself] at hn
        rw [← Option.some.inj hn]
        exact Nat.zero_le _
      · rcases mem_segments.1 hs with hs | rfl
        · exact h.capped s hs
        · rw [hzero]
          exact Nat.zero_le _
      · obtain ⟨hne, hold⟩ := hstray b hb
        have := hr.clear b hold
        show seg.baseOffset < b
        rw [ho.base]
        omega
      · dsimp only
        rw [hself, hzero]

theorem Orderly.quiets (h : v.Orderly) (hr : v.Ready) (hi : v.Intact) (hs : Quiet v w) :
    w.Orderly ∧ w.Ready := by
  induction hs with
  | refl => exact ⟨h, hr⟩
  | tail hfirst hlast ih =>
      obtain ⟨rolls, hstep⟩ := hlast
      cases rolls with
      | true => exact ih.1.rolled ih.2 (hi.quiets hfirst).1 hstep
      | false =>
          obtain ⟨hlog, hsize⟩ := sync_size hstep
          exact ⟨ih.1.congr hlog hsize, ih.2.congr hlog hsize⟩

theorem Orderly.syncs (h : v.Orderly) (hs : Syncs v w) : w.Orderly := by
  induction hs with
  | refl => exact h
  | tail _ hlast ih =>
      obtain ⟨hlog, hsize⟩ := sync_size hlast
      exact ih.congr hlog hsize

/-- Making room is a matter of being ready, if there is none. -/
theorem Orderly.room (h : v.Orderly) (hi : v.Intact) {size : Nat}
    (hready : v.log.Full size → v.Ready) (hs : Room v size w) : w.Orderly := by
  rcases hs with rfl | ⟨hfull, hquiet⟩
  · exact h
  · exact (h.quiets (hready hfull) hi hquiet).1

omit [Faults] in
/-- A write into the room that is left. -/
theorem Orderly.write_le (h : v.Orderly) (hi : v.Intact) {x : File} {data : Bytes}
    (hx : v.files v.log.active.logFile = some x)
    (hroom : data.length ≤ v.log.active.options.maxBytes - v.log.active.sizeBytes) :
    (x.write v.log.active.sizeBytes data).visible.length ≤ v.log.options.segmentMaxBytes := by
  have hlong := h.long _ (logSize_eq (b := v.log.active.baseOffset) hx)
  obtain ⟨y, -, hholds⟩ := hi.active_holds
  have hbound := hholds.bound
  rw [hi.options _ (active_mem _)] at hbound hroom
  change v.log.active.sizeBytes ≤ v.log.options.segmentMaxBytes at hbound
  change data.length ≤ v.log.options.segmentMaxBytes - v.log.active.sizeBytes at hroom
  show (applyBytes x.visible v.log.active.sizeBytes data).length ≤ _
  by_cases hdata : data = []
  · rw [applyBytes, if_pos hdata]
    exact hlong
  · rw [applyBytes_length hdata]
    omega

theorem Orderly.spill (h : v.Orderly) (hi : v.Intact) (hs : Step v .spill w) : w.Orderly := by
  cases hs with
  | @create hne hflushed x hx hrefused =>
      have hsize : logSize (Function.update v.files (.log v.log.nextOffset) (some x)) =
          Function.update (logSize v.files) v.log.nextOffset (some x.visible.length) :=
        logSize_update _ _ _
      have hother : ∀ s ∈ v.log.segments,
          logSize (Function.update v.files (.log v.log.nextOffset) (some x)) s.baseOffset =
            logSize v.files s.baseOffset := fun s hs => by
        rw [hsize, Function.update_of_ne (hi.lt_next hne hs).ne]
      refine ⟨fun s hs => ?_, fun n hn => ?_, h.capped, fun b hb => ?_⟩
      · rw [hother s (mem_segments.2 (.inl hs))]
        exact h.whole s hs
      · rw [hother _ (active_mem _)] at hn
        exact h.long n hn
      · obtain ⟨hb, hsome⟩ := hb
        dsimp only at hsome ⊢
        by_cases heq : b = v.log.nextOffset
        · rw [heq]
          exact hi.lt_next hne (active_mem _)
        · rw [hsize, Function.update_of_ne heq] at hsome
          exact h.behind b ⟨hb, hsome⟩
  | @spill x y f hx hroom hy =>
      refine h.replace hi rfl ?_ (h.capped _ (active_mem _))
      cases hy with
      | none => exact h.long _ (logSize_eq (b := v.log.active.baseOffset) hx)
      | some k ha hne =>
          refine h.write_le hi hx (le_trans ?_ hroom)
          rw [List.length_take]
          exact Nat.min_le_right _ _

theorem Orderly.spoilt (h : v.Orderly) (hi : v.Intact) {size : Nat}
    (hready : v.log.Full size → v.Ready) (hs : Spoilt v size w) : w.Orderly := by
  obtain ⟨u, hroom, hlast⟩ := hs
  have hu := h.room hi hready hroom
  rcases hlast with rfl | hspill
  · exact hu
  · exact hu.spill (hi.quiets hroom.quiet).1 hspill

theorem Orderly.append (h : v.Orderly) (hi : v.Intact) {f : Frame} (hs : Step v (.append f) w) :
    w.Orderly := by
  cases hs with
  | append hx hbase hroom hcap => exact h.replace hi rfl (h.write_le hi hx hroom) hcap

/-- The segment that is dropped leaves no file behind. -/
theorem drop_sizes (hi : v.Intact) (hremove : ¬ Refuses .remove) (hs : Step v (.drop offset) w) :
    w.log.segments = v.log.sealed ∧
      (∀ s ∈ v.log.sealed, logSize w.files s.baseOffset = logSize v.files s.baseOffset) ∧
      ∀ b, w.Stray b → v.Stray b := by
  cases hs with
  | @drop init before _ y z hsealed hge hy hz =>
      obtain rfl : y = none := hy.elim id fun hy => absurd hy.2 hremove
      have hsize : logSize (Function.update (Function.update v.files v.log.active.logFile none)
          v.log.active.indexFile z) =
          Function.update (logSize v.files) v.log.active.baseOffset none :=
        (logSize_update_index _ _ _).trans (logSize_update _ _ _)
      refine ⟨hsealed.symm, fun s hs => ?_, ?_⟩
      · dsimp only
        rw [hsize, Function.update_of_ne (hi.sealed_ne hs)]
      · rintro b ⟨hother, hsome⟩
        dsimp only at hsome
        rw [hsize] at hsome
        have hne : b ≠ v.log.active.baseOffset := fun heq => by
          rw [heq, Function.update_self] at hsome
          exact hsome rfl
        rw [Function.update_of_ne hne] at hsome
        refine ⟨fun s hs => ?_, hsome⟩
        rcases mem_segments.1 hs with hs | rfl
        · rw [hsealed] at hs
          exact hother s hs
        · exact hne.symm

theorem Orderly.drop (h : v.Orderly) (hi : v.Intact) (hremove : ¬ Refuses .remove)
    (hs : Step v (.drop offset) w) : w.Orderly := by
  obtain ⟨hsegments, hsize, hstrays⟩ := drop_sizes hi hremove hs
  have hmem : ∀ s ∈ w.log.segments, s ∈ v.log.sealed := fun s hs => hsegments ▸ hs
  have hactive := hmem _ (active_mem w.log)
  constructor
  · intro s hs
    have hs := hmem s (mem_segments.2 (.inl hs))
    rw [hsize s hs]
    exact h.whole s hs
  · intro n hn
    rw [hsize _ hactive, h.whole _ hactive] at hn
    obtain ⟨x, -, hholds⟩ := (hi.sits _ (mem_segments.2 (.inl hactive))).holds
    have hbound := hholds.bound
    rw [hi.options _ (mem_segments.2 (.inl hactive))] at hbound
    rw [← Option.some.inj hn, Step.options hs]
    exact hbound
  · exact fun s hs => h.capped s (mem_segments.2 (.inl (hmem s hs)))
  · intro b hb
    have hbehind := h.behind b (hstrays b hb)
    have := hi.sealed_bounds hactive
    omega

/-- The segment before the dropped one is ready. -/
theorem Ready.drop (h : v.Ready) (ho : v.Orderly) (hi : v.Intact) (hremove : ¬ Refuses .remove)
    (hs : Step v (.drop offset) w) : w.Ready := by
  obtain ⟨hsegments, hsize, hstrays⟩ := drop_sizes hi hremove hs
  have hactive : w.log.active ∈ v.log.sealed := hsegments ▸ active_mem w.log
  refine ⟨?_, fun b hb => ?_⟩
  · rw [hsize _ hactive]
    exact ho.whole _ hactive
  · rw [(hi.drop hremove hs).2.2.2.1]
    exact h.clear b (hstrays b hb)

theorem Ready.drops (h : v.Ready) (ho : v.Orderly) (hi : v.Intact) (hremove : ¬ Refuses .remove)
    (hs : Drops offset v w) : w.Orderly ∧ w.Ready := by
  induction hs with
  | refl => exact ⟨ho, h⟩
  | tail hfirst hlast ih =>
      have hu := (hi.drops hremove hfirst).1
      exact ⟨ih.1.drop hu hremove hlast, ih.2.drop ih.1 hu hremove hlast⟩

theorem Orderly.drops (h : v.Orderly) (hi : v.Intact) (hremove : ¬ Refuses .remove)
    (hs : Drops offset v w) : w.Orderly := by
  induction hs with
  | refl => exact h
  | tail hfirst hlast ih => exact ih.drop (hi.drops hremove hfirst).1 hremove hlast

theorem Orderly.cut (h : v.Orderly) (hi : v.Intact) (hs : Step v (.cut offset) w) : w.Orderly := by
  obtain ⟨x, hx, hholds⟩ := hi.active_holds
  cases hs with
  | retreat hle => exact ⟨h.whole, h.long, h.capped, h.behind⟩
  | @cut y fs _ hy hfs hlt hcut =>
      have hpre := encode_isPrefix (upTo_isPrefix fs offset)
      have hshort : (encode (upTo fs offset)).length ≤ v.log.active.sizeBytes := by
        rw [hfs.size]
        exact hpre.length_le
      have hlen : (y.truncate (encode (upTo fs offset)).length).visible.length =
          (encode (upTo fs offset)).length :=
        congrArg List.length (resize_eq (hpre.trans hfs.content))
      have hbound := hfs.bound
      rw [hi.options _ (active_mem _)] at hbound
      refine h.replace hi rfl ?_ (hshort.trans (h.capped _ (active_mem _)))
      rw [hlen]
      exact hshort.trans hbound

/-- A cut leaves nothing behind the batches. -/
theorem Ready.cut (h : v.Ready) (hi : v.Intact) (hs : Step v (.cut offset) w) : w.Ready := by
  cases hs with
  | retreat hle => exact ⟨h.whole, fun b hb => hi.next.trans (h.clear b hb)⟩
  | @cut y fs _ hy hfs hlt hcut =>
      have hlen : (y.truncate (encode (upTo fs offset)).length).visible.length =
          (encode (upTo fs offset)).length := by
        have hpre := encode_isPrefix (upTo_isPrefix fs offset)
        exact congrArg List.length (resize_eq (hpre.trans hfs.content))
      have hsize : logSize (Function.update v.files v.log.active.logFile
          (some (y.truncate (encode (upTo fs offset)).length))) =
          Function.update (logSize v.files) v.log.active.baseOffset
            (some (encode (upTo fs offset)).length) :=
        (logSize_update _ _ _).trans (by rw [Option.map_some, hlen])
      constructor
      · dsimp only
        rw [hsize, Function.update_self]
      · rintro b ⟨hother, hsome⟩
        have hactive := hother _ (active_mem _)
        have hne : v.log.active.baseOffset ≠ b := hactive
        dsimp only at hsome ⊢
        rw [hsize, Function.update_of_ne hne.symm] at hsome
        have hold : v.Stray b := by
          refine ⟨fun s hs => ?_, hsome⟩
          rcases mem_segments.1 hs with hs | rfl
          · exact hother s (mem_segments.2 (.inl hs))
          · exact hne
        have hclear := h.clear b hold
        have := hi.next
        omega

end Steps

end View

/-! ## Runs -/

/-- The append does not fit into the active segment. -/
def Call.Rolls (l : Log) : Call → Prop
  | .append builder _ => l.Full builder.framedBytes
  | .appendReplicated framed => l.Full framed.length
  | .truncateTo _ => False
  | .fsync => False
  | .flushIndexes => False
  | .read _ _ => False

instance (l : Log) : (call : Call) → Decidable (call.Rolls l)
  | .append _ _ => inferInstanceAs (Decidable (_ ∧ _))
  | .appendReplicated _ => inferInstanceAs (Decidable (_ ∧ _))
  | .truncateTo _ => .isFalse id
  | .fsync => .isFalse id
  | .flushIndexes => .isFalse id
  | .read _ _ => .isFalse id

namespace View

variable [Faults] {v w : View} {call : Call}

theorem Orderly.done (h : v.Orderly) (hi : v.Intact) (hready : call.Rolls v.log → v.Ready)
    (hremove : ∀ offset, call = .truncateTo offset → ¬ Refuses .remove) (hd : call.Done v w) :
    w.Orderly := by
  cases call with
  | append builder info =>
      obtain ⟨hne, u, hroom, hstep⟩ := hd
      exact (h.room hi hready hroom).append (hi.quiets hroom.quiet).1 hstep
  | appendReplicated framed =>
      obtain ⟨f, u, hbytes, hbase, hroom, hstep⟩ := hd
      exact (h.room hi hready hroom).append (hi.quiets hroom.quiet).1 hstep
  | truncateTo offset =>
      rcases hd with ⟨-, rfl⟩ | ⟨u, hpopped, hcut⟩
      · exact h
      · have hr := hremove offset rfl
        exact (h.drops hi hr hpopped.drops).cut (hi.popped hr hpopped).1 hcut
  | fsync =>
      obtain ⟨hlog, hsize⟩ := sync_size hd
      exact h.congr hlog hsize
  | flushIndexes => exact h.syncs hd
  | read offset capacity =>
      obtain rfl : w = v := hd
      exact h

theorem Orderly.undone (h : v.Orderly) (hi : v.Intact) (hready : call.Rolls v.log → v.Ready)
    (hremove : ∀ offset, call = .truncateTo offset → ¬ Refuses .remove) (hu : call.Undone v w) :
    w.Orderly := by
  cases call with
  | append builder info => exact h.spoilt hi hready hu
  | appendReplicated framed => exact h.spoilt hi hready hu
  | truncateTo offset =>
      rcases hu with rfl | hpopped
      · exact h
      · exact h.drops hi (hremove offset rfl) hpopped.drops
  | fsync =>
      obtain rfl : w = v := hu
      exact h
  | flushIndexes => exact h.syncs hu
  | read offset capacity =>
      obtain rfl : w = v := hu
      exact h

end View

namespace Store

/-- In a `truncate_to` no `remove` is refused, and it does not fail once it has dropped
batches. -/
def Sparing (s : Store) (a : Action) (_ : Store) : Prop :=
  ∀ offset, a.call = .truncateTo offset →
    ¬ @Refuses a.faults .remove ∧ (s.Succeeds a ∨ ¬ s.log.Forfeits offset)

/-- Such a call leaves an intact log without a gap as it is. -/
theorem next_sparing {s t : Store} {a : Action} (hi : s.view.Intact) (hc : s.log.Chained)
    (ha : Sparing s a t) (hn : s.next a = some t) : t.view.Intact ∧ t.log.Chained := by
  let _ := a.faults
  have hremove : ∀ offset, a.call = .truncateTo offset → ¬ Refuses .remove :=
    fun offset hcall => (ha offset hcall).1
  rcases next_intact hi hremove hn with ⟨-, hdone⟩ | ⟨⟨e, herr⟩, hundone⟩
  · exact ⟨(hi.done hremove hdone).1, Log.Chained.done (v := s.view) hc hi hdone⟩
  · obtain ⟨ht, -⟩ := hi.undone hremove hundone
    refine ⟨ht, ?_⟩
    by_cases hcall : ∃ offset, a.call = .truncateTo offset
    · obtain ⟨offset, hcall⟩ := hcall
      have hkept : ¬ s.log.Forfeits offset := by
        refine (ha offset hcall).2.resolve_left ?_
        rintro ⟨u, hu⟩
        rw [herr] at hu
        cases hu
      rw [hcall] at hundone
      rcases hundone with hsame | hpopped
      · have hlog : t.log = s.log := congrArg View.log hsame
        rw [hlog]
        exact hc
      · exact Log.Chained.popped (v := s.view) hc ht hpopped hkept
    · exact Log.Chained.undone (v := s.view) hc hi (fun offset h => hcall ⟨offset, h⟩) hundone

/-- An append that rolls finds the log ready, and a `truncate_to` is sparing. -/
def Harmless (s : Store) (a : Action) (t : Store) : Prop :=
  (a.call.Rolls s.log → s.view.Ready) ∧ Sparing s a t

/-- What a harmless call keeps. -/
theorem next_orderly {s t : Store} {a : Action} (hi : s.view.Intact) (hc : s.log.Chained)
    (h : s.view.Orderly) (ha : Harmless s a t) (hn : s.next a = some t) :
    t.view.Intact ∧ t.log.Chained ∧ t.view.Orderly := by
  let _ := a.faults
  obtain ⟨hready, hsparing⟩ := ha
  have hremove : ∀ offset, a.call = .truncateTo offset → ¬ Refuses .remove :=
    fun offset hcall => (hsparing offset hcall).1
  obtain ⟨ht, hct⟩ := next_sparing hi hc hsparing hn
  refine ⟨ht, hct, ?_⟩
  rcases next_intact hi hremove hn with ⟨-, hdone⟩ | ⟨-, hundone⟩
  · exact h.done hi hready hremove hdone
  · exact h.undone hi hready hremove hundone

end Store

/-! ## Reopening -/

/-- A log that has just been opened is orderly. -/
theorem Reopened.orderly [Faults] {options : LogOptions} {files : FileName → Option File}
    {v : View} (h : Reopened options files v) (hremove : ¬ Refuses .remove)
    (hcap : ∀ b, ∀ n ∈ logSize files b, n ≤ kMaxFileBytes) : v.Orderly := by
  have hsize : ∀ s ∈ v.log.segments, logSize v.files s.baseOffset = some s.sizeBytes := by
    intro s hs
    obtain ⟨-, hfile, hholds⟩ := h.segment s hs
    have hframes := h.frames_eq hs
    rw [hframes] at hfile hholds
    rw [logSize_eq hfile, hholds.size]
    exact congrArg some (congrArg List.length (recovered_visible _ _))
  refine ⟨fun s hs => hsize s (View.mem_segments.2 (.inl hs)), fun n hn => ?_, fun s hs => ?_,
    fun b hb => ?_⟩
  · rw [hsize _ (View.active_mem _)] at hn
    obtain ⟨hoptions, -, hholds⟩ := h.segment _ (View.active_mem _)
    have hbound := hholds.bound
    rw [hoptions] at hbound
    rw [← Option.some.inj hn, h.config]
    exact hbound
  · obtain ⟨-, -, hholds⟩ := h.segment s hs
    have hframes := h.frames_eq hs
    rw [hframes] at hholds
    obtain ⟨-, rest, hrest, -⟩ := Frame.parses s.baseOffset
      ((files s.logFile).getD {}).visible
    have hle : s.sizeBytes ≤ ((files s.logFile).getD {}).visible.length := by
      rw [hholds.size]
      exact List.IsPrefix.length_le ⟨rest, hrest.symm⟩
    cases hx : files s.logFile with
    | none =>
        rw [hx, Option.getD_none] at hle
        exact hle.trans (Nat.zero_le _)
    | some x =>
        rw [hx, Option.getD_some] at hle
        exact hle.trans (hcap s.baseOffset _ (logSize_eq hx))
  · exfalso
    obtain ⟨hother, hsome⟩ := hb
    rcases h.strays b hother with hnone | ⟨-, hr⟩
    · rw [logSize, hnone] at hsome
      exact hsome rfl
    · exact hremove hr

/-- The segments that are whole are all recovered. -/
theorem recoverRow_tiles {visible : Nat → Bytes} {frames : Segment → List Frame} {a : Nat}
    {segments : List Segment} {want : Option Nat} (htiles : Tiles a segments)
    (hframes : ∀ s ∈ segments, visible s.baseOffset = encode (frames s) ∧
      Tiles s.baseOffset (frames s) ∧ endFrom s.baseOffset (frames s) = s.nextOffset)
    (hwant : ∀ w ∈ want, a = w) (bases : List Nat) :
    ∃ want', (∀ w ∈ want', endFrom a segments = w) ∧
      recoverRow visible (segments.map Segment.baseOffset ++ bases) want =
        (segments.map fun s => (s.baseOffset, frames s)) ++ recoverRow visible bases want' := by
  induction segments generalizing a want with
  | nil => exact ⟨want, hwant, rfl⟩
  | cons s segments ih =>
      obtain ⟨hbase, -, hrest⟩ := htiles
      obtain ⟨hvisible, hs, hend⟩ := hframes s List.mem_cons_self
      have hfile : recoverFile visible s.baseOffset = frames s := by
        rw [recoverFile, hvisible, parse_encode hs]
      obtain ⟨want', hwant', hrow⟩ := ih hrest
        (fun t ht => hframes t (List.mem_cons_of_mem _ ht))
        (fun w (hw : w ∈ some s.nextOffset) => Option.some.inj hw)
      have hjoin : ∀ w ∈ want, s.baseOffset = w := fun w hw => hbase.trans (hwant w hw)
      refine ⟨want', hwant', ?_⟩
      rw [List.map_cons, List.cons_append, recoverRow_whole hjoin (hfile.symm ▸ hvisible), hfile,
        hend, hrow]
      rfl

/-- Empty files add no batches. -/
theorem recoverRow_empty {visible : Nat → Bytes} {bases : List Nat} (want : Option Nat)
    (h : ∀ b ∈ bases, visible b = []) : (recoverRow visible bases want).flatMap Prod.snd = [] := by
  induction bases generalizing want with
  | nil => rfl
  | cons b bases ih =>
      have hb : recoverFile visible b = [] := by rw [recoverFile, h b List.mem_cons_self]; rfl
      unfold recoverRow
      split
      · rfl
      split
      · rw [List.flatMap_cons, hb, List.nil_append]
        exact ih _ fun c hc => h c (List.mem_cons_of_mem _ hc)
      · rw [List.flatMap_singleton, hb]

/-- The bases of a directory whose other files lie behind the segments. -/
theorem View.Intact.bases_eq {v : View} (hi : v.Intact) {bases : List Nat}
    (hsorted : bases.Pairwise (· < ·)) (hhere : ∀ s ∈ v.log.segments, s.baseOffset ∈ bases)
    (hbehind : ∀ b ∈ bases, (∀ s ∈ v.log.segments, s.baseOffset ≠ b) →
      v.log.active.baseOffset < b) :
    bases = v.log.sealed.map Segment.baseOffset ++ v.log.active.baseOffset ::
      bases.filter fun b => v.log.active.baseOffset < b := by
  refine List.Pairwise.eq_of_mem_iff hsorted ?_ fun b => ?_
  · refine List.pairwise_append.2 ⟨hi.rises.sorted, List.pairwise_cons.2 ⟨fun b hb => ?_, ?_⟩, ?_⟩
    · simpa using (List.mem_filter.1 hb).2
    · exact hsorted.filter _
    · intro a ha b hb
      obtain ⟨s, hs, rfl⟩ := List.mem_map.1 ha
      have hs := hi.sealed_bounds hs
      rcases List.mem_cons.1 hb with rfl | hb
      · omega
      · have : v.log.active.baseOffset < b := by simpa using (List.mem_filter.1 hb).2
        omega
  · rw [List.mem_append, List.mem_cons, List.mem_filter, decide_eq_true_eq]
    constructor
    · intro hb
      by_cases hseg : ∃ s ∈ v.log.segments, s.baseOffset = b
      · obtain ⟨s, hs, rfl⟩ := hseg
        rcases mem_segments.1 hs with hs | rfl
        · exact .inl (List.mem_map_of_mem hs)
        · exact .inr (.inl rfl)
      · exact .inr (.inr ⟨hb, hbehind b hb fun s hs heq => hseg ⟨s, hs, heq⟩⟩)
    · rintro (hb | rfl | ⟨hb, -⟩)
      · obtain ⟨s, hs, rfl⟩ := List.mem_map.1 hb
        exact hhere s (mem_segments.2 (.inl hs))
      · exact hhere _ (active_mem _)
      · exact hb

/-- The bases of an orderly directory: those of the segments, and the strays. -/
theorem View.Orderly.bases_eq {v : View} (h : v.Orderly) (hi : v.Intact) {bases : List Nat}
    (hsorted : bases.Pairwise (· < ·)) (hmem : ∀ b, b ∈ bases ↔ logSize v.files b ≠ none) :
    bases = v.log.sealed.map Segment.baseOffset ++ v.log.active.baseOffset ::
      bases.filter fun b => v.log.active.baseOffset < b := by
  refine hi.bases_eq hsorted (fun s hs => ?_) fun b hb hother => h.behind b ⟨hother, (hmem b).1 hb⟩
  obtain ⟨x, hx, -⟩ := (hi.sits s hs).holds
  rw [hmem, logSize_eq hx]
  exact Option.some_ne_none _

/-- What is recovered of an orderly directory. -/
theorem View.Orderly.row_eq {v : View} (h : v.Orderly) (hi : v.Intact) (hl : v.log.Linked)
    (hlast : parse v.log.active.baseOffset (logBytes v.files v.log.active.baseOffset) =
      v.log.active.frames v.files)
    (strays : List Nat) (hstrays : ∀ b ∈ strays, logBytes v.files b = []) :
    ∃ more, more.flatMap Prod.snd = [] ∧
      recoverRow (logBytes v.files) (v.log.sealed.map Segment.baseOffset ++
        v.log.active.baseOffset :: strays) none =
      (v.log.segments.map fun s => (s.baseOffset, s.frames v.files)) ++ more := by
  have hsealed : ∀ s ∈ v.log.sealed, logBytes v.files s.baseOffset = encode (s.frames v.files) ∧
      Tiles s.baseOffset (s.frames v.files) ∧
      endFrom s.baseOffset (s.frames v.files) = s.nextOffset := by
    intro s hs
    obtain ⟨x, hx, hholds⟩ := (hi.sits s (mem_segments.2 (.inl hs))).holds
    have hlen := h.whole s hs
    rw [logSize_eq hx, Option.some.injEq, hholds.size] at hlen
    have hx' : v.files (.log s.baseOffset) = some x := hx
    refine ⟨?_, hholds.tiles, hholds.next.symm⟩
    rw [logBytes, hx', Option.getD_some]
    exact (hholds.content.eq_of_length hlen.symm).symm
  obtain ⟨want, hwant, hrow⟩ := recoverRow_tiles hl.tiles hsealed
    (fun w (hw : w ∈ (none : Option Nat)) => by cases hw)
    (v.log.active.baseOffset :: strays)
  have hjoin : ∀ w ∈ want, v.log.active.baseOffset = w := fun w hw => hl.joins.trans (hwant w hw)
  have hfile : recoverFile (logBytes v.files) v.log.active.baseOffset =
      v.log.active.frames v.files := hlast
  rw [hrow]
  by_cases hwhole : logBytes v.files v.log.active.baseOffset =
      encode (recoverFile (logBytes v.files) v.log.active.baseOffset)
  · refine ⟨_, recoverRow_empty (some (endFrom v.log.active.baseOffset
      (v.log.active.frames v.files))) hstrays, ?_⟩
    rw [recoverRow_whole hjoin hwhole, hfile, Log.segments, List.map_append, List.append_assoc]
    rfl
  · refine ⟨[], rfl, ?_⟩
    rw [recoverRow_torn hjoin hwhole, hfile, Log.segments, List.map_append, List.append_nil]
    rfl

/-- The batches of a log, segment by segment. -/
theorem View.frames_of_row (v : View) :
    v.frames = (v.log.segments.map fun s => (s.baseOffset, s.frames v.files)).flatMap Prod.snd := by
  rw [View.frames, List.flatMap_map]

/-- An orderly directory is recovered as it was. -/
theorem View.Orderly.reopened {v v' : View} [Faults] (h : v.Orderly) (hi : v.Intact)
    (hc : v.log.Chained) (hremove : ¬ Refuses .remove) {files : FileName → Option File}
    (hbytes : ∀ b, (files (.log b)).map File.visible = (v.files (.log b)).map File.visible)
    (hlast : parse v.log.active.baseOffset (logBytes v.files v.log.active.baseOffset) =
      v.log.active.frames v.files)
    (hr : Reopened v.log.options files v') :
    v'.frames = v.frames ∧ v'.log.nextOffset = v.log.nextOffset := by
  obtain ⟨bases, hlists, hrow⟩ := hr.row
  have hsome : ∀ b, (files (.log b)).isSome = true ↔ logSize v.files b ≠ none := fun b => by
    rw [← Option.isSome_map (f := File.visible), hbytes, Option.isSome_map, logSize, ne_eq,
      Option.map_eq_none_iff, Option.isSome_iff_ne_none]
  have hvisible : logBytes files = logBytes v.files := funext fun b => by
    have hb := congrArg (fun o => o.getD []) (hbytes b)
    cases hf : files (.log b) <;> cases hv : v.files (.log b) <;>
      simp_all [logBytes]
  have hmem : ∀ b, b ∈ bases ↔ logSize v.files b ≠ none := fun b => by
    rw [hlists.mem, hsome]
    refine ⟨fun hb => hb.elim id ?_, .inl⟩
    rintro ⟨-, hnone⟩
    obtain ⟨x, hx, -⟩ := hi.active_holds
    have hactive := (hsome v.log.active.baseOffset).2 (by rw [logSize_eq hx]; simp)
    rw [hnone] at hactive
    cases hactive
  have hbases := h.bases_eq hi hlists.sorted hmem
  obtain ⟨more, hmore, hrow'⟩ := h.row_eq hi hc.toLinked hlast
    (bases.filter fun b => v.log.active.baseOffset < b) fun b hb => by
      refine hi.stray fun s hs heq => ?_
      have hlt : v.log.active.baseOffset < b := by simpa using (List.mem_filter.1 hb).2
      rcases mem_segments.1 hs with hs | rfl
      · have := hi.sealed_bounds hs
        omega
      · omega
  rw [hvisible, hbases, hrow'] at hrow
  have hframes : v'.frames = v.frames := by
    rw [frames_of_row, hrow, List.flatMap_append, hmore, List.append_nil, ← frames_of_row]
  have hstart : v'.log.startOffset = v.log.startOffset := by
    obtain ⟨s, hs⟩ : ∃ s, v.log.segments.head? = some s :=
      Option.ne_none_iff_exists'.1 fun hnil => by
        rw [List.head?_eq_none_iff, Log.segments] at hnil
        exact absurd hnil (List.append_ne_nil_of_right_ne_nil _ (List.cons_ne_nil _ _))
    have hhead := congrArg List.head? hrow
    rw [List.head?_append, List.head?_map, List.head?_map, hs, Option.map_some, Option.some_or,
      Option.map_eq_some_iff] at hhead
    obtain ⟨t, ht, heq⟩ := hhead
    rw [← hr.start t ht, ← hi.start s hs]
    exact congrArg Prod.fst heq
  have hi' : v'.Intact := hr.intact hi.width hremove
  refine ⟨hframes, ?_⟩
  calc v'.log.nextOffset
      = v'.log.active.nextOffset := hr.chained.ends
    _ = endFrom v'.log.startOffset v'.frames := (hr.chained.toLinked.tiles_frames hi').2.symm
    _ = endFrom v.log.startOffset v.frames := by rw [hstart, hframes]
    _ = v.log.active.nextOffset := (hc.toLinked.tiles_frames hi).2
    _ = v.log.nextOffset := hc.ends.symm

/-- The files of an orderly log can all be opened. -/
theorem View.Orderly.not_hopeless {v : View} (h : v.Orderly) (hi : v.Intact)
    (hlast : parse v.log.active.baseOffset (logBytes v.files v.log.active.baseOffset) =
      v.log.active.frames v.files) {b : Nat} {x y : File} (hx : v.files (.log b) = some x)
    (hy : y.visible = x.visible) : ¬ Hopeless v.log.options.segment b y := by
  rw [Hopeless, hy, not_or]
  by_cases hseg : ∃ s ∈ v.log.segments, s.baseOffset = b
  · obtain ⟨s, hs, rfl⟩ := hseg
    obtain ⟨x', hx', hholds⟩ := (hi.sits s hs).holds
    obtain rfl : x' = x := Option.some.inj (hx'.symm.trans hx)
    have hbound := hholds.bound
    rw [hi.options s hs] at hbound
    have hsize := hholds.size
    rcases mem_segments.1 hs with hs' | rfl
    · have hlen := h.whole s hs'
      rw [logSize_eq hx, Option.some.injEq] at hlen
      have hvisible : x'.visible = encode (s.frames v.files) :=
        (hholds.content.eq_of_length (by omega)).symm
      refine ⟨by omega, fun hbad => hbad.1 ?_⟩
      rw [hvisible, parse_encode hholds.tiles]
    · have hlong := h.long _ (logSize_eq hx)
      have hcap := h.capped _ hs
      have hbytes : logBytes v.files v.log.active.baseOffset = x'.visible := by
        rw [logBytes, hx, Option.getD_some]
      rw [hbytes] at hlast
      refine ⟨Nat.not_lt.2 hlong, fun hbad => ?_⟩
      rw [hlast] at hbad
      omega
  · have hempty : x.visible = [] := hi.strays b (fun s hs heq => hseg ⟨s, hs, heq⟩) x hx
    rw [hempty]
    exact ⟨Nat.not_lt_zero _, fun hbad => hbad.1 rfl⟩

/-- A disk with the log files of an orderly log and no sidecars is opened as that log. -/
theorem View.Orderly.reopens {v : View} (h : v.Orderly) (hi : v.Intact) (hc : v.log.Chained)
    (hlast : parse v.log.active.baseOffset (logBytes v.files v.log.active.baseOffset) =
      v.log.active.frames v.files) {d : Disk} (hblank : Blank d.file)
    (hbytes : ∀ b, (d.file (.log b)).map File.visible = (v.files (.log b)).map File.visible) :
    ∃ l t, @Log.open healthy v.log.options d = .ok l t ∧
      (View.mk l t.file).frames = v.frames ∧ l.nextOffset = v.log.nextOffset := by
  have hspec := @Log.open_sat healthy d v.log.options hi.width hblank
  cases hr : @Log.open healthy v.log.options d with
  | ok l t =>
      rw [hr] at hspec
      exact ⟨l, t, rfl, @View.Orderly.reopened _ _ healthy h hi hc (not_refuses_healthy _) _ hbytes
        hlast hspec⟩
  | error e t =>
      exfalso
      rw [hr] at hspec
      rcases hspec.2 with ⟨op, hop⟩ | ⟨b, y, hy, hbad⟩
      · exact not_refuses_healthy op hop
      · have hb := hbytes b
        rw [hy, Option.map_some] at hb
        obtain ⟨x, hx, hyx⟩ := Option.map_eq_some_iff.1 hb.symm
        exact h.not_hopeless hi hlast hx hyx.symm hbad

namespace Log

/-- After harmless calls, a log that is closed with all its files flushed is recovered as it
was. -/
theorem reopen_same {faults : Faults} {options : LogOptions} {d t : Disk} {l : Log} {s : Store}
    (hwidth : options.segmentMaxBytes < 0x100000000) (hblank : Blank d.file)
    (hcap : ∀ b, ∀ n ∈ logSize d.file b, n ≤ kMaxFileBytes)
    (hremove : ¬ @Refuses faults .remove) (hopen : @Log.open faults options d = .ok l t)
    (hrun : Runs Store.next Store.Harmless ⟨l, t⟩ s)
    (hlast : parse s.log.active.baseOffset (logBytes s.disk.file s.log.active.baseOffset) =
      s.log.active.frames s.disk.file) :
    ∃ l' t', @Log.open healthy options s.disk.fsyncAll.withoutSidecars = .ok l' t' ∧
      (View.mk l' t'.file).frames = s.view.frames ∧ l'.nextOffset = s.log.nextOffset := by
  have hstart := @Log.open_sat faults d options hwidth hblank
  rw [hopen] at hstart
  obtain ⟨⟨hi, hc, h⟩, rfl⟩ := hrun.invariant
    (I := fun s => (s.view.Intact ∧ s.log.Chained ∧ s.view.Orderly) ∧ s.log.options = options)
    ⟨⟨hstart.intact hwidth hremove, hstart.chained, hstart.orderly hremove hcap⟩, hstart.config⟩
    fun _ _ _ hI hn ha => ⟨Store.next_orderly hI.1.1 hI.1.2.1 hI.1.2.2 ha hn,
      (Store.next_options hI.1.1 (fun k hk => (ha.2 k hk).1) hn).trans hI.2⟩
  refine h.reopens hi hc hlast (fun b y hy => ?_) fun b => ?_
  · rw [withoutSidecars_index] at hy
    cases hy
  · rw [withoutSidecars_log, Disk.fsyncAll, file_mapFiles, Option.map_map]
    rfl

/-! ## A write that is refused halfway -/

/-- A segment has room for two of the batches. -/
def twoEach : LogOptions := { segmentMaxBytes := 150 }

/-- Every write is refused once 60 bytes of it are in the file. -/
@[reducible] def writesSixty : Faults := ⟨fun _ op => op == .pwrite, fun _ => 60⟩

/-- A batch, a longer one that is refused halfway, and one that takes its place and is
shorter than what was written. -/
def spilling : List Action :=
  [⟨.append { records := [[1]] } {}, healthy⟩, ⟨.append { records := [[2], [3]] } {}, writesSixty⟩,
    ⟨.append { records := [[4]] } {}, healthy⟩]

/-- And one batch more, which takes a segment of its own. -/
def spillingOn : List Action := spilling ++ [⟨.append { records := [[5]] } {}, healthy⟩]

/-- No roll, and no `truncate_to`. -/
def Plain (s : Store) (a : Action) (_ : Store) : Prop :=
  ¬ a.call.Rolls s.log ∧ a.call.truncates = false

theorem Plain.harmless {s t : Store} {a : Action} (h : Plain s a t) : Store.Harmless s a t := by
  refine ⟨fun hrolls => absurd hrolls h.1, fun offset hcall => ?_⟩
  have htruncates := h.2
  rw [hcall] at htruncates
  cases htruncates

instance (s : Store) (a : Action) (t : Store) : Decidable (Plain s a t) :=
  inferInstanceAs (Decidable (¬ a.call.Rolls s.log ∧ a.call.truncates = false))

/-- What is left of the refused batch, behind the last one, does no harm. -/
theorem reopen_same_spilt :
    ∃ (s : Store) (l' : Log) (t' : Disk),
      @Log.open healthy twoEach s.disk.fsyncAll.withoutSidecars = .ok l' t' ∧
      (View.mk l' t'.file).frames = s.view.frames ∧ l'.nextOffset = 2 ∧
      s.log.active.sizeBytes < (logBytes s.disk.file s.log.active.baseOffset).length := by
  obtain ⟨l, d, s, hopen, hrun, hs⟩ := exists_of_script twoEach Plain spilling (p := fun s =>
    decide (encode (parse s.log.active.baseOffset
      (logBytes s.disk.file s.log.active.baseOffset) : List Frame) =
        encode (s.log.active.frames s.disk.file)) && decide (s.log.nextOffset = 2) &&
    decide (s.log.active.sizeBytes < (logBytes s.disk.file s.log.active.baseOffset).length))
    (by decide +kernel)
  rw [Bool.and_eq_true, Bool.and_eq_true, decide_eq_true_eq, decide_eq_true_eq,
    decide_eq_true_eq] at hs
  obtain ⟨⟨hlast, hnext⟩, hleft⟩ := hs
  obtain ⟨l', t', hopen', hframes, hnext'⟩ := reopen_same (by decide) (fun b y hy => by cases hy)
    (fun b n hn => by cases hn) (not_refuses_healthy _) hopen
    (hrun.mono fun _ _ _ h => h.harmless) (encode_injective hlast)
  exact ⟨s, l', t', hopen', hframes, hnext'.trans hnext, hleft⟩

/-- Once the segment has been rolled, a reopen cuts it behind its two batches and discards
the next one. -/
theorem reopen_loses :
    ∃ (l : Log) (d : Disk) (s : Store), @Log.open healthy twoEach {} = .ok l d ∧
      Runs Store.next (fun _ _ _ => True) ⟨l, d⟩ s ∧ s.log.nextOffset = 3 ∧
      (outcome (@Log.open healthy twoEach s.disk.fsyncAll.withoutSidecars)).map
        (fun l' => (l'.nextOffset, l'.recovery.segmentsDiscarded)) = .ok (2, 1) := by
  obtain ⟨l, d, s, hopen, hrun, hs⟩ := exists_of_script twoEach (fun _ _ _ => True)
    spillingOn (p := fun s =>
      decide (s.log.nextOffset = 3) && decide
        ((outcome (@Log.open healthy twoEach s.disk.fsyncAll.withoutSidecars)).map
          (fun l' => (l'.nextOffset, l'.recovery.segmentsDiscarded)) = .ok (2, 1)))
    (by decide +kernel)
  rw [Bool.and_eq_true, decide_eq_true_eq, decide_eq_true_eq] at hs
  exact ⟨l, d, s, hopen, hrun, hs⟩

end Log

end LogEngine.Storage
