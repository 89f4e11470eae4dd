import LogEngine.Storage.Intact

/-!
# Opening a log

`Log::open` on a directory whose sidecars can be trusted (`Credible`), as those that are
empty or not there can, whatever its files hold.  Which batches it recovers is a function
of the files, `recoverRow`: segment by segment in the order of their bases, as long as each
begins where the one before it ended and none has lost its tail.  The rest of the files is
removed.  What comes out is a log without a gap.
-/

namespace LogEngine.Storage

open Base Io Io.Disk Verified.Fallible Verified.Tiling Verified.Framing

/-- There is no sidecar, or nothing in it. -/
def Blank (files : FileName → Option File) : Prop :=
  ∀ b y, files (.index b) = some y → y.visible = []

/-- What a read of a segment's file returns. -/
def logBytes (files : FileName → Option File) (b : Nat) : Bytes :=
  ((files (.log b)).getD {}).visible

/-- The sidecar of the segment can be trusted, if the segment is one that is opened at all. -/
def Credible (options : SegmentOptions) (files : FileName → Option File) (b : Nat) : Prop :=
  (logBytes files b).length ≤ options.maxBytes → ∀ y, files (.index b) = some y →
    Trusted (SparseIndex.decode y.visible (logBytes files b).length) b (logBytes files b)
      (parse b (logBytes files b))

theorem Blank.credible {files : FileName → Option File} (h : Blank files)
    (options : SegmentOptions) (b : Nat) : Credible options files b := by
  intro _ y hy
  rw [h b y hy]
  exact trusted_nil _ _ _

/-- Whether a sidecar can be trusted is a matter of its own segment. -/
theorem Credible.congr {options : SegmentOptions} {files files' : FileName → Option File} {b : Nat}
    (h : Credible options files b) (hlog : files' (.log b) = files (.log b))
    (hindex : files' (.index b) = files (.index b)) : Credible options files' b := by
  unfold Credible logBytes at h ⊢
  rw [hlog, hindex]
  exact h

/-- The batches in a file of this base. -/
def recoverFile (visible : Nat → Bytes) (b : Nat) : List Frame := parse b (visible b)

/-- The segments that `Log::open` keeps, with their batches. -/
def recoverRow (visible : Nat → Bytes) : List Nat → Option Nat → List (Nat × List Frame)
  | [], _ => []
  | b :: bases, want =>
      if want.any fun w => b ≠ w then []
      else if visible b = encode (recoverFile visible b) then
        (b, recoverFile visible b) ::
          recoverRow visible bases (some (endFrom b (recoverFile visible b)))
      else [(b, recoverFile visible b)]

private theorem recoverRow_congr {visible visible' : Nat → Bytes} {bases : List Nat}
    (h : ∀ b ∈ bases, visible' b = visible b) (want : Option Nat) :
    recoverRow visible' bases want = recoverRow visible bases want := by
  induction bases generalizing want with
  | nil => rfl
  | cons b bases ih =>
      have hb : recoverFile visible' b = recoverFile visible b := by
        rw [recoverFile, recoverFile, h b List.mem_cons_self]
      unfold recoverRow
      rw [hb, h b List.mem_cons_self, ih fun c hc => h c (List.mem_cons_of_mem _ hc)]

private theorem not_any_ne {b : Nat} {want : Option Nat} (h : ∀ w ∈ want, b = w) :
    ¬ (want.any fun w => decide (b ≠ w)) = true := by
  cases want with
  | none => exact Bool.false_ne_true
  | some w => simpa using h w rfl

theorem recoverRow_whole {visible : Nat → Bytes} {b : Nat} {bases : List Nat} {want : Option Nat}
    (hwant : ∀ w ∈ want, b = w) (h : visible b = encode (recoverFile visible b)) :
    recoverRow visible (b :: bases) want = (b, recoverFile visible b) ::
      recoverRow visible bases (some (endFrom b (recoverFile visible b))) := by
  rw [recoverRow, if_neg (not_any_ne hwant), if_pos h]

theorem recoverRow_torn {visible : Nat → Bytes} {b : Nat} {bases : List Nat} {want : Option Nat}
    (hwant : ∀ w ∈ want, b = w) (h : visible b ≠ encode (recoverFile visible b)) :
    recoverRow visible (b :: bases) want = [(b, recoverFile visible b)] := by
  rw [recoverRow, if_neg (not_any_ne hwant), if_neg h]

/-- The first segment of a directory is kept, torn or not. -/
theorem recoverRow_head (visible : Nat → Bytes) (b : Nat) (bases : List Nat) :
    (recoverRow visible (b :: bases) none).head? = some (b, recoverFile visible b) := by
  by_cases h : visible b = encode (recoverFile visible b)
  · rw [recoverRow_whole (by simp) h]
    rfl
  · rw [recoverRow_torn (by simp) h]
    rfl

private theorem recoverRow_ne_nil (visible : Nat → Bytes) (b : Nat) (bases : List Nat) :
    recoverRow visible (b :: bases) none ≠ [] := by
  intro hnil
  have hhead := recoverRow_head visible b bases
  rw [hnil] at hhead
  cases hhead

/-- What `Segment::open` leaves of a file are its batches. -/
theorem recovered_visible (x : File) (b : Nat) :
    (Segment.recovered x (parse b x.visible)).visible =
      encode (parse b x.visible : List Frame) := by
  obtain ⟨-, rest, hrest, -⟩ := Frame.parses b x.visible
  unfold Segment.recovered
  split
  case isTrue h => exact h
  case isFalse => exact resize_eq ⟨rest, hrest.symm⟩

theorem parse_recovered (x : File) (b : Nat) :
    parse b (Segment.recovered x (parse b x.visible)).visible =
      (parse b x.visible : List Frame) := by
  rw [recovered_visible, parse_encode (Frame.parses b x.visible).1]

/-- The segments that `Log::open` keeps have the batches of their files. -/
theorem mem_recoverRow {visible : Nat → Bytes} {bases : List Nat} {want : Option Nat}
    {b : Nat} {fs : List Frame} (h : (b, fs) ∈ recoverRow visible bases want) :
    fs = recoverFile visible b := by
  induction bases generalizing want with
  | nil => exact absurd h List.not_mem_nil
  | cons c bases ih =>
      unfold recoverRow at h
      split at h
      · exact absurd h List.not_mem_nil
      split at h
      · rcases List.mem_cons.1 h with h | h
        · cases h
          rfl
        · exact ih h
      · cases List.mem_singleton.1 h
        rfl

/-! ## Rows of segments -/

/-- Each segment begins where the one before it ended, and only the last may be
empty. -/
def Row : Nat → List Segment → Prop
  | _, [] => True
  | a, [s] => s.baseOffset = a
  | a, s :: rest => s.baseOffset = a ∧ a < s.nextOffset ∧ Row s.nextOffset rest

private theorem row_snoc {a : Nat} {sealed : List Segment} {active : Segment} :
    Row a (sealed ++ [active]) ↔
      Tiles a sealed ∧ active.baseOffset = endFrom a sealed := by
  induction sealed generalizing a with
  | nil => simp [Row]
  | cons s rest ih =>
      have hne : rest ++ [active] ≠ [] :=
        List.append_ne_nil_of_right_ne_nil _ (List.cons_ne_nil _ _)
      obtain ⟨t, more, hmore⟩ := List.exists_cons_of_ne_nil hne
      rw [List.cons_append, hmore, Row, ← hmore, ih, tiles_cons, endFrom_cons]
      · exact ⟨fun h => ⟨⟨h.1, h.2.1, h.2.2.1⟩, h.2.2.2⟩,
          fun h => ⟨h.1.1, h.1.2.1, h.1.2.2, h.2⟩⟩
      · exact List.cons_ne_nil _ _

/-! ## The files -/

section Opening

variable [Faults] {d : Disk} {options : SegmentOptions}

/-- The files after an open of some segments. -/
structure Recovered (opened : List Nat) (files files' : FileName → Option File) : Prop where
  here : ∀ b ∈ opened, ∀ x, files (.log b) = some x →
    files' (.log b) = some (Segment.recovered x (parse b x.visible))
  other : ∀ f, (∀ b ∈ opened, f ≠ .log b) → files' f = files f

omit [Faults] in
private theorem recovered_nil (files : FileName → Option File) : Recovered [] files files :=
  ⟨fun _ h => absurd h List.not_mem_nil, fun _ _ => rfl⟩

omit [Faults] in
/-- One more file before the others. -/
theorem Recovered.cons {files files₁ files' : FileName → Option File} {b : Nat} {x : File}
    {opened : List Nat} (hx : files (.log b) = some x)
    (hfiles : files₁ = Function.update files (.log b)
      (some (Segment.recovered x (parse b x.visible))))
    (hfresh : b ∉ opened) (h : Recovered opened files₁ files') :
    Recovered (b :: opened) files files' := by
  have hne : ∀ c ∈ opened, FileName.log c ≠ .log b := fun c hc heq =>
    hfresh (FileName.log.inj heq ▸ hc)
  refine ⟨fun c hc y hy => ?_, fun f hf => ?_⟩
  · rcases List.mem_cons.1 hc with rfl | hc
    · rw [hx, Option.some.injEq] at hy
      rw [h.other _ fun a ha => (hne a ha).symm, hfiles, Function.update_self, hy]
    · refine h.here c hc y ?_
      rw [hfiles, Function.update_of_ne (hne c hc)]
      exact hy
  · rw [h.other f fun c hc => hf c (List.mem_cons_of_mem _ hc), hfiles,
      Function.update_of_ne (hf b List.mem_cons_self)]

theorem existingSegmentOffsets_sat (d : Disk) :
    Sat (Log.existingSegmentOffsets d)
      (fun bases t => t.file = d.file ∧ bases.Pairwise (· < ·) ∧
        ∀ b, b ∈ bases ↔ (d.file (.log b)).isSome)
      (fun t => t.file = d.file ∧ Refuses .listDirectory) := by
  refine (listDirectory_sat d).bind ?_
  rintro names t ⟨ht, hnodup, hmem⟩
  have hbases : (names.filterMap Log.parseLogName).Nodup := by
    refine hnodup.filterMap fun f g b hf hg => ?_
    cases f with
    | log a =>
        cases g with
        | log c =>
            obtain rfl := Option.some.inj hf
            obtain rfl := Option.some.inj hg
            rfl
        | index c => cases hg
        | state => cases hg
    | index a => cases hf
    | state => cases hf
  refine ⟨ht, ?_, fun b => ?_⟩
  · have hsorted := List.pairwise_insertionSort (· ≤ ·) (names.filterMap Log.parseLogName)
    have hdistinct : (List.insertionSort (· ≤ ·) (names.filterMap Log.parseLogName)).Nodup :=
      (List.perm_insertionSort (· ≤ ·) _).nodup_iff.2 hbases
    exact (hsorted.and hdistinct).imp fun h => lt_of_le_of_ne h.1 h.2
  · rw [List.mem_insertionSort, List.mem_filterMap, ← hmem]
    constructor
    · rintro ⟨f, hf, hb⟩
      cases f with
      | log a => exact Option.some.inj hb ▸ hf
      | index a => cases hb
      | state => cases hb
    · exact fun h => ⟨.log b, h, rfl⟩

/-! ## Segments -/

/-- A segment's file that cannot be opened even on a healthy disk: it is too long, or so are
the batches that a cut is to leave. -/
def Hopeless (options : SegmentOptions) (b : Nat) (x : File) : Prop :=
  options.maxBytes < x.visible.length ∨ x.visible ≠ encode (parse b x.visible : List Frame) ∧
    kMaxFileBytes < (encode (parse b x.visible : List Frame)).length

/-- Why an open fails. -/
def Obstructed (options : SegmentOptions) (files : FileName → Option File) : Prop :=
  (∃ op, Refuses op) ∨ ∃ b x, files (.log b) = some x ∧ Hopeless options b x

/-- `Segment::open` beside a sidecar that can be trusted. -/
theorem Segment.open_credible {b : Nat} {x : File} (hwidth : options.maxBytes < 0x100000000)
    (hcredible : Credible options d.file b) (hx : (d.file (.log b)).getD {} = x) :
    Sat (Segment.open b options d)
      (fun s t => s.baseOffset = b ∧ s.options = options ∧
        (s.recovery.truncated = true ↔ x.visible ≠ encode (parse b x.visible : List Frame)) ∧
        ¬ Hopeless options b x ∧
        t.file = Function.update d.file (.log b)
          (some (Segment.recovered x (parse b x.visible))) ∧
        s.Holds (Segment.recovered x (parse b x.visible)) (parse b x.visible))
      (fun t => (t.file = d.file ∨ t.file = Function.update d.file (.log b) (some x)) ∧
        ((∃ op, Refuses op) ∨ Hopeless options b x)) := by
  have hopen := Segment.open_ends hwidth hx (parses_parse b x.visible) fun hfits y hy => by
    unfold Credible logBytes at hcredible
    rw [hx] at hcredible
    exact hcredible hfits y hy
  refine (hopen.sat (F := fun t => (t.file = d.file ∨
    t.file = Function.update d.file (.log b) (some x)) ∧
      ((∃ op, Refuses op) ∨ Hopeless options b x)) ?_).mono ?_ fun _ ht => ht
  · rintro e t (⟨ht, hr⟩ | ⟨ht, hr | ⟨-, hr | hr | ⟨-, hlong⟩ | ⟨-, -, htorn, hlong⟩⟩⟩)
    · exact ⟨.inl ht, .inl ⟨_, hr⟩⟩
    · exact ⟨.inr ht, .inl ⟨_, hr⟩⟩
    · exact ⟨.inr ht, .inl ⟨_, hr⟩⟩
    · exact ⟨.inr ht, .inl ⟨_, hr⟩⟩
    · exact ⟨.inr ht, .inr (.inl hlong)⟩
    · exact ⟨.inr ht, .inr (.inr ⟨htorn, hlong⟩)⟩
  · rintro s t ⟨hbase, hoptions, htruncated, hfits, hcap, ht, hholds⟩
    refine ⟨hbase, hoptions, htruncated, ?_, ht, hholds⟩
    rintro (hlong | ⟨htorn, hlong⟩)
    · omega
    · have := hcap htorn
      omega

/-- What the first loop of `Log::recover` has opened. -/
structure Kept (options : SegmentOptions) (files files' : FileName → Option File)
    (bases : List Nat) (want : Option Nat) (segments : List Segment) : Prop where
  row : (segments.map fun s => (s.baseOffset, s.frames files')) =
    recoverRow (logBytes files) bases want
  segment : ∀ s ∈ segments, s.options = options ∧ ∃ x, files s.logFile = some x ∧
    files' s.logFile = some (Segment.recovered x (s.frames files')) ∧
    s.Holds (Segment.recovered x (s.frames files')) (s.frames files')
  hopeful : ∀ s ∈ segments, ∀ x, files s.logFile = some x → ¬ Hopeless options s.baseOffset x
  linked : ∀ s ∈ segments.head?, (∀ w ∈ want, s.baseOffset = w) ∧ Row s.baseOffset segments
  files : Recovered (segments.map Segment.baseOffset) files files'

omit [Faults] in
private theorem kept_nil {files : FileName → Option File} {bases : List Nat} {want : Option Nat}
    (h : recoverRow (logBytes files) bases want = []) :
    Kept options files files bases want [] where
  row := h.symm
  segment := by simp
  hopeful := by simp
  linked := by simp
  files := recovered_nil files

omit [Faults] in
/-- One more segment before those that the rest of the loop opens. -/
theorem Kept.cons {files files₁ files' : FileName → Option File} {b : Nat} {bases rest : List Nat}
    {want : Option Nat} {x : File} {s : Segment} {segments : List Segment}
    (hsorted : (b :: bases).Pairwise (· < ·)) (hwant : ∀ w ∈ want, b = w)
    (hx : files (.log b) = some x) (hbase : s.baseOffset = b) (hoptions : s.options = options)
    (hwhole : x.visible = encode (parse b x.visible : List Frame)) (hhope : ¬ Hopeless options b x)
    (hfiles : files₁ = Function.update files (.log b)
      (some (Segment.recovered x (parse b x.visible))))
    (hholds : s.Holds (Segment.recovered x (parse b x.visible)) (parse b x.visible))
    (hbases : bases = segments.map Segment.baseOffset ++ rest)
    (h : Kept options files₁ files' bases (some s.nextOffset) segments) :
    Kept options files files' (b :: bases) want (s :: segments) := by
  obtain ⟨hlt, -⟩ := List.pairwise_cons.1 hsorted
  have hmem : ∀ t ∈ segments, t.baseOffset ∈ bases := fun t ht =>
    hbases ▸ List.mem_append_left _ (List.mem_map_of_mem ht)
  have hne : ∀ c ∈ bases, FileName.log c ≠ .log b := fun c hc heq =>
    (hlt c hc).ne' (FileName.log.inj heq)
  have hhere : files' (.log b) = some (Segment.recovered x (parse b x.visible)) := by
    rw [h.files.other, hfiles, Function.update_self]
    intro c hc heq
    obtain ⟨t, ht, rfl⟩ := List.mem_map.1 hc
    exact hne _ (hmem t ht) heq.symm
  have hframes : s.frames files' = parse b x.visible :=
    hholds.frames_eq (by rw [Segment.logFile, hbase, hhere])
  have hbytes : logBytes files b = x.visible := by rw [logBytes, hx, Option.getD_some]
  have hsame : ∀ c ∈ bases, files₁ (.log c) = files (.log c) := fun c hc => by
    rw [hfiles, Function.update_of_ne (hne c hc)]
  have hfresh : b ∉ segments.map Segment.baseOffset := by
    rintro hb
    obtain ⟨t, ht, heq⟩ := List.mem_map.1 hb
    exact (hlt _ (hmem t ht)).ne heq.symm
  refine ⟨?_, fun t ht => ?_, fun t ht y hy => ?_, fun t ht => ?_, ?_⟩
  · have hfile : recoverFile (logBytes files) b = parse b x.visible := by
      rw [recoverFile, hbytes]
    have hnext : endFrom b (parse b x.visible : List Frame) = s.nextOffset := by
      rw [hholds.next, hbase]
    have hrest : ∀ c ∈ bases, logBytes files₁ c = logBytes files c := fun c hc => by
      rw [logBytes, logBytes, hsame c hc]
    rw [List.map_cons, h.row, hframes, hbase,
      recoverRow_whole hwant (by rw [hfile, hbytes]; exact hwhole), hfile, hnext,
      recoverRow_congr hrest]
  · rcases List.mem_cons.1 ht with rfl | ht
    · refine ⟨hoptions, x, ?_, ?_, ?_⟩
      · rw [Segment.logFile, hbase, hx]
      · rw [Segment.logFile, hbase, hframes, hhere]
      · rw [hframes]
        exact hholds
    · obtain ⟨ho, y, hy, hy', hh⟩ := h.segment t ht
      exact ⟨ho, y, (hsame _ (hmem t ht)).symm.trans hy, hy', hh⟩
  · rcases List.mem_cons.1 ht with rfl | ht
    · rw [Segment.logFile, hbase, hx, Option.some.injEq] at hy
      rw [hbase, ← hy]
      exact hhope
    · exact h.hopeful t ht y ((hsame _ (hmem t ht)).trans hy)
  · obtain rfl := Option.some.inj ht
    refine ⟨fun w hw => hbase.trans (hwant w hw), ?_⟩
    cases segments with
    | nil => rfl
    | cons t more =>
        obtain ⟨hjoin, hrow⟩ := h.linked t rfl
        have hjoin := hjoin s.nextOffset rfl
        have hbt := hlt _ (hmem t List.mem_cons_self)
        refine ⟨rfl, by omega, ?_⟩
        rw [← hjoin]
        exact hrow
  · rw [List.map_cons, hbase]
    exact h.files.cons hx hfiles hfresh

omit [Faults] in
/-- The last segment, cut where its batches end. -/
theorem kept_torn {files : FileName → Option File} {b : Nat} {bases : List Nat}
    {want : Option Nat} {x : File} {s : Segment} (hwant : ∀ w ∈ want, b = w)
    (hx : files (.log b) = some x) (hbase : s.baseOffset = b) (hoptions : s.options = options)
    (htorn : x.visible ≠ encode (parse b x.visible : List Frame)) (hhope : ¬ Hopeless options b x)
    (hholds : s.Holds (Segment.recovered x (parse b x.visible)) (parse b x.visible)) :
    Kept options files (Function.update files (.log b)
      (some (Segment.recovered x (parse b x.visible)))) (b :: bases) want [s] := by
  have hself : Function.update files (.log b) (some (Segment.recovered x (parse b x.visible)))
      s.logFile = some (Segment.recovered x (parse b x.visible)) := by
    rw [Segment.logFile, hbase, Function.update_self]
  have hframes := hholds.frames_eq hself
  have hbytes : logBytes files b = x.visible := by rw [logBytes, hx, Option.getD_some]
  refine ⟨?_, fun t ht => ?_, fun t ht y hy => ?_, fun t ht => ?_, ?_⟩
  · have hfile : recoverFile (logBytes files) b = parse b x.visible := by
      rw [recoverFile, hbytes]
    rw [List.map_cons, List.map_nil, hframes, hbase,
      recoverRow_torn hwant (by rw [hfile, hbytes]; exact htorn), hfile]
  · rw [List.mem_singleton.1 ht, hframes]
    exact ⟨hoptions, x, by rw [Segment.logFile, hbase, hx], hself, hholds⟩
  · rw [List.mem_singleton.1 ht, Segment.logFile, hbase, hx, Option.some.injEq] at hy
    rw [List.mem_singleton.1 ht, hbase, ← hy]
    exact hhope
  · obtain rfl := Option.some.inj ht
    exact ⟨fun w hw => hbase.trans (hwant w hw), rfl⟩
  · rw [List.map_cons, List.map_nil, hbase]
    exact (recovered_nil _).cons hx rfl List.not_mem_nil

/-- The first loop of `Log::recover`: the segments up to the first gap or the first torn
tail, and the bases of the rest. -/
theorem openSegments_sat (hwidth : options.maxBytes < 0x100000000) {bases : List Nat}
    {segments : List Segment} {report : LogRecoveryReport}
    (hsorted : bases.Pairwise (· < ·)) (hcredible : ∀ b ∈ bases, Credible options d.file b)
    (hhere : ∀ b ∈ bases, (d.file (.log b)).isSome) :
    Sat (Log.openSegments options bases segments report d)
      (fun r t => ∃ opened, r.1 = segments ++ opened ∧
        bases = opened.map Segment.baseOffset ++ r.2.2 ∧
        Kept options d.file t.file bases (segments.getLast?.map Segment.nextOffset) opened)
      (fun t => (∃ opened, (∀ b ∈ opened, b ∈ bases) ∧ Recovered opened d.file t.file) ∧
        ((∃ op, Refuses op) ∨
          ∃ b ∈ bases, ∃ x, d.file (.log b) = some x ∧ Hopeless options b x)) := by
  induction bases generalizing d segments report with
  | nil => exact ⟨[], (List.append_nil _).symm, rfl, kept_nil rfl⟩
  | cons b bases ih =>
      have hlast : (segments.getLast?.any fun s => decide (b ≠ s.nextOffset)) =
          (segments.getLast?.map Segment.nextOffset).any fun w => decide (b ≠ w) := by
        cases segments.getLast? with
        | none => rfl
        | some s => rfl
      unfold Log.openSegments
      rw [hlast]
      refine Sat.ite (fun hgap => ⟨[], (List.append_nil _).symm, rfl, kept_nil ?_⟩) fun hjoin => ?_
      · rw [recoverRow, if_pos hgap]
      have hwant : ∀ w ∈ segments.getLast?.map Segment.nextOffset, b = w := by
        intro w hw
        rw [Option.mem_def] at hw
        rw [hw] at hjoin
        simpa using hjoin
      obtain ⟨x, hx⟩ := Option.isSome_iff_exists.1 (hhere b List.mem_cons_self)
      refine ((Segment.open_credible hwidth (hcredible b List.mem_cons_self) (x := x)
        (by rw [hx, Option.getD_some])).mono (fun _ _ h => h) ?_).bind ?_
      · rintro t ⟨ht, hwhy⟩
        refine ⟨⟨[], by simp, ?_⟩, hwhy.imp_right fun h => ⟨b, List.mem_cons_self, x, hx, h⟩⟩
        rcases ht with ht | ht
        · exact ht ▸ recovered_nil _
        · rw [← hx, Function.update_eq_self] at ht
          exact ht ▸ recovered_nil _
      rintro s t ⟨hbase, hoptions, htruncated, hhope, ht, hholds⟩
      refine Sat.ite (fun htorn => ?_) fun hwhole => ?_
      · refine ⟨[s], rfl, by simp [hbase], ?_⟩
        rw [ht]
        exact kept_torn hwant hx hbase hoptions (htruncated.1 htorn) hhope hholds
      rw [htruncated, not_not] at hwhole
      obtain ⟨hlt, hsorted'⟩ := List.pairwise_cons.1 hsorted
      have hsame : ∀ c ∈ bases, t.file (.log c) = d.file (.log c) := fun c hc => by
        have hne : FileName.log c ≠ .log b := fun h => (hlt c hc).ne' (FileName.log.inj h)
        rw [ht, Function.update_of_ne hne]
      have hcredible' : ∀ c ∈ bases, Credible options t.file c := fun c hc => by
        refine (hcredible c (List.mem_cons_of_mem _ hc)).congr (hsame c hc) ?_
        rw [ht, Function.update_of_ne (fun h => by cases h)]
      have hhere' : ∀ c ∈ bases, (t.file (.log c)).isSome := fun c hc => by
        rw [hsame c hc]
        exact hhere c (List.mem_cons_of_mem _ hc)
      have hnext : (segments ++ [s]).getLast?.map Segment.nextOffset = some s.nextOffset := by
        rw [List.getLast?_append_of_ne_nil _ (List.cons_ne_nil _ _), List.getLast?_singleton,
          Option.map_some]
      refine (ih hsorted' hcredible' hhere').mono ?_ ?_
      · rintro r u ⟨opened, hr, hbases, hkept⟩
        refine ⟨s :: opened, ?_, ?_, ?_⟩
        · rw [hr, List.append_assoc, List.singleton_append]
        · rw [List.map_cons, List.cons_append, ← hbases, hbase]
        · rw [hnext] at hkept
          exact Kept.cons hsorted hwant hx hbase hoptions hwhole hhope ht hholds hbases hkept
      · rintro u ⟨⟨opened, hopened, hfiles⟩, hwhy⟩
        refine ⟨⟨b :: opened, ?_, ?_⟩, hwhy.imp_right ?_⟩
        · exact List.forall_mem_cons.2
            ⟨List.mem_cons_self, fun c hc => List.mem_cons_of_mem _ (hopened c hc)⟩
        · exact Recovered.cons hx ht (fun hb => (hlt b (hopened b hb)).ne rfl) hfiles
        · rintro ⟨c, hc, y, hy, hhopeless⟩
          exact ⟨c, List.mem_cons_of_mem _ hc, y, (hsame c hc).symm.trans hy, hhopeless⟩

/-! ## The whole of `Log::open` -/

/-- The files after some segments have been removed, as far as that was not refused. -/
structure Discarded (bases : List Nat) (files files' : FileName → Option File) : Prop where
  log : ∀ b ∈ bases, files' (.log b) = none ∨ files' (.log b) = files (.log b) ∧ Refuses .remove
  index : ∀ b, files' (.index b) = none ∨ files' (.index b) = files (.index b)
  other : ∀ f, (∀ b ∈ bases, f ≠ .log b ∧ f ≠ .index b) → files' f = files f

theorem Discarded.log_of_not_mem {bases : List Nat} {files files' : FileName → Option File}
    (h : Discarded bases files files') {b : Nat} (hb : b ∉ bases) :
    files' (.log b) = files (.log b) :=
  h.other _ fun _ hc => ⟨fun heq => hb (FileName.log.inj heq ▸ hc), fun heq => by cases heq⟩

/-- The second loop of `Log::recover`. -/
theorem discardSegments_sat (bases : List Nat) (d : Disk) :
    Sat (Log.discardSegments bases d) (fun _ t => Discarded bases d.file t.file)
      (fun _ => False) := by
  induction bases generalizing d with
  | nil => exact ⟨fun _ h => absurd h List.not_mem_nil, fun _ => .inr rfl, fun _ _ => rfl⟩
  | cons b bases ih =>
      refine (Log.removeSegmentFiles_sat b d).bind ?_
      rintro _ t ⟨y, z, ht, hy, hz⟩
      have hlog : t.file (.log b) = y := by
        rw [ht, Function.update_of_ne (fun h => by cases h), Function.update_self]
      have hindex : t.file (.index b) = z := by rw [ht, Function.update_self]
      have hother : ∀ f, f ≠ .log b → f ≠ .index b → t.file f = d.file f := fun f hl hi => by
        rw [ht, Function.update_of_ne hi, Function.update_of_ne hl]
      refine (ih t).mono (fun _ u hu => ⟨fun c hc => ?_, fun c => ?_, fun f hf => ?_⟩)
        fun _ hf => hf
      · by_cases hcb : c = b
        · rw [hcb]
          by_cases hmem : b ∈ bases
          · rcases hu.log b hmem with hu | ⟨hu, hr⟩
            · exact .inl hu
            · rw [hu, hlog]
              exact hy
          · rw [hu.log_of_not_mem hmem, hlog]
            exact hy
        · have hc' := hu.log c ((List.mem_cons.1 hc).resolve_left hcb)
          rw [hother _ (fun h => hcb (FileName.log.inj h)) fun h => by cases h] at hc'
          exact hc'
      · have hc' := hu.index c
        by_cases hcb : c = b
        · rw [hcb, hindex] at hc'
          rw [hcb]
          exact hc'.elim .inl fun h => h ▸ hz
        · rw [hother _ (fun h => by cases h) fun h => hcb (FileName.index.inj h)] at hc'
          exact hc'
      · rw [hu.other f fun c hc => hf c (List.mem_cons_of_mem _ hc)]
        exact hother f (hf b List.mem_cons_self).1 (hf b List.mem_cons_self).2

/-- The bases of the segments in a directory; one without any gets the first. -/
structure Lists (files : FileName → Option File) (bases : List Nat) : Prop where
  sorted : bases.Pairwise (· < ·)
  mem : ∀ b, b ∈ bases ↔ (files (.log b)).isSome ∨ b = 0 ∧ ∀ c, files (.log c) = none

/-- A log that has been opened in a directory whose sidecars can be trusted. -/
structure Reopened (options : LogOptions) (files : FileName → Option File) (v : View) : Prop where
  config : v.log.options = options
  chained : v.log.Chained
  start : ∀ s ∈ v.log.segments.head?, s.baseOffset = v.log.startOffset
  row : ∃ bases, Lists files bases ∧
    (v.log.segments.map fun s => (s.baseOffset, s.frames v.files)) =
      recoverRow (logBytes files) bases none
  segment : ∀ s ∈ v.log.segments, s.options = options.segment ∧
    v.files s.logFile =
      some (Segment.recovered ((files s.logFile).getD {}) (s.frames v.files)) ∧
    s.Holds (Segment.recovered ((files s.logFile).getD {}) (s.frames v.files)) (s.frames v.files)
  hopeful : ∀ s ∈ v.log.segments, ∀ x, files s.logFile = some x →
    ¬ Hopeless options.segment s.baseOffset x
  strays : ∀ b, (∀ s ∈ v.log.segments, s.baseOffset ≠ b) → v.files (.log b) = none ∨
    v.files (.log b) = files (.log b) ∧ Refuses .remove
  sidecars : ∀ b, v.files (.index b) = none ∨ v.files (.index b) = files (.index b)

omit [Faults] in
/-- A row of segments, as `Log::open` arranges them. -/
theorem chained_of_row {l : Log} {segments : List Segment} {active : Segment}
    (hlast : segments.getLast? = some active) (hsealed : l.sealed = segments.dropLast)
    (hactive : l.active = active) (hstart : l.startOffset = (segments.headD active).baseOffset)
    (hnext : l.nextOffset = active.nextOffset)
    (hrow : ∀ s ∈ segments.head?, Row s.baseOffset segments) :
    l.segments = segments ∧ l.Chained ∧ ∀ s ∈ l.segments.head?, s.baseOffset = l.startOffset := by
  have hsegments : l.segments = segments := by
    rw [Log.segments, hsealed, hactive]
    exact List.dropLast_append_getLast? _ hlast
  cases segments with
  | nil => cases hlast
  | cons s rest =>
      have hhead : l.startOffset = s.baseOffset := hstart
      have hrow := hrow s rfl
      rw [← hsegments, Log.segments, row_snoc] at hrow
      refine ⟨hsegments, ⟨⟨hhead ▸ hrow.1, hhead ▸ hrow.2⟩, hnext.trans (hactive ▸ rfl)⟩, ?_⟩
      intro t ht
      rw [hsegments] at ht
      rw [hhead, Option.some.inj ht]

/-- The first log of a directory. -/
theorem reopened_first {options : LogOptions} {files files' : FileName → Option File}
    {seg : Segment} {l : Log} (hnone : ∀ c, files (.log c) = none) (hbase : seg.baseOffset = 0)
    (hoptions : seg.options = options.segment)
    (hfiles : files' = Function.update files (.log 0)
      (some (Segment.recovered {} (parse 0 (File.visible {})))))
    (hholds : seg.Holds (Segment.recovered {} (parse 0 (File.visible {})))
      (parse 0 (File.visible {})))
    (hconfig : l.options = options) (hsealed : l.sealed = []) (hactive : l.active = seg)
    (hstart : l.startOffset = seg.baseOffset) (hnext : l.nextOffset = seg.nextOffset) :
    Reopened options files ⟨l, files'⟩ := by
  have hl : l.segments = [seg] := by rw [Log.segments, hsealed, hactive, List.nil_append]
  have hhere : files' seg.logFile =
      some (Segment.recovered {} (parse 0 (File.visible {}))) := by
    rw [hfiles, Segment.logFile, hbase, Function.update_self]
  have hframes := hholds.frames_eq hhere
  have hbytes : logBytes files 0 = File.visible {} := by rw [logBytes, hnone, Option.getD_none]
  have hgetD : (files seg.logFile).getD {} = {} := by
    rw [Segment.logFile, hnone, Option.getD_none]
  refine ⟨hconfig, ⟨⟨?_, ?_⟩, ?_⟩, fun s hs => ?_, ⟨[0], ⟨List.pairwise_singleton _ _,
    fun b => ?_⟩, ?_⟩, fun s hs => ?_, fun s hs x hx => ?_, fun b hb => ?_, fun b => ?_⟩
  · dsimp only
    rw [hsealed]
    trivial
  · dsimp only
    rw [hsealed, hactive, endFrom_nil, hstart]
  · dsimp only
    rw [hnext, hactive]
  · dsimp only at hs ⊢
    rw [hl] at hs
    rw [← Option.some.inj hs, hstart]
  · rw [List.mem_singleton, hnone b]
    exact ⟨fun h => .inr ⟨h, hnone⟩, fun h => h.elim (fun h => by cases h) And.left⟩
  · dsimp only
    have hfile : recoverFile (logBytes files) 0 = parse 0 (File.visible {}) := by
      rw [recoverFile, hbytes]
    rw [hl, List.map_cons, List.map_nil, hframes, hbase,
      recoverRow_whole (by simp) (by rw [hfile, hbytes]; rfl), hfile]
    rfl
  · dsimp only at hs ⊢
    rw [hl, List.mem_singleton] at hs
    rw [hs, hframes, hgetD]
    exact ⟨hoptions, hhere, hholds⟩
  · rw [Segment.logFile, hnone] at hx
    cases hx
  · dsimp only at hb ⊢
    rw [hl] at hb
    have hb0 : b ≠ 0 := fun h => hb seg List.mem_cons_self (hbase.trans h.symm)
    rw [hfiles, Function.update_of_ne (fun h => hb0 (FileName.log.inj h)), hnone]
    exact .inl rfl
  · refine .inr ?_
    dsimp only
    rw [hfiles, Function.update_of_ne (fun h => by cases h)]

/-- What the two loops of `Log::recover` leave, arranged as a log. -/
theorem Kept.reopened {options : LogOptions} {files files₁ files' : FileName → Option File}
    {bases rest : List Nat} {segments : List Segment} {active : Segment} {l : Log}
    (h : Kept options.segment files files₁ bases none segments) (hlists : Lists files bases)
    (hbases : bases = segments.map Segment.baseOffset ++ rest)
    (hgone : Discarded rest files₁ files') (hlast : segments.getLast? = some active)
    (hoptions : l.options = options) (hsealed : l.sealed = segments.dropLast)
    (hactive : l.active = active) (hstart : l.startOffset = (segments.headD active).baseOffset)
    (hnext : l.nextOffset = active.nextOffset) :
    Reopened options files ⟨l, files'⟩ := by
  obtain ⟨hl, hchained, hhead⟩ := chained_of_row hlast hsealed hactive hstart hnext
    fun s hs => (h.linked s hs).2
  have hsorted := hlists.sorted
  rw [hbases, List.pairwise_append] at hsorted
  have hsame : ∀ s ∈ segments, files' s.logFile = files₁ s.logFile := fun s hs =>
    hgone.log_of_not_mem fun hrest =>
      (hsorted.2.2 _ (List.mem_map_of_mem hs) _ hrest).ne rfl
  have hframes : ∀ s ∈ segments, s.frames files' = s.frames files₁ := fun s hs =>
    Segment.frames_congr (hsame s hs)
  refine ⟨hoptions, hchained, hhead, ⟨bases, hlists, ?_⟩, fun s hs => ?_, fun s hs => ?_,
    fun b hb => ?_, fun b => ?_⟩
  · dsimp only
    rw [hl, ← h.row]
    exact List.map_congr_left fun s hs => by rw [hframes s hs]
  · dsimp only at hs ⊢
    rw [hl] at hs
    obtain ⟨ho, x, hx, hx', hholds⟩ := h.segment s hs
    rw [hframes s hs, hsame s hs, hx, Option.getD_some]
    exact ⟨ho, hx', hholds⟩
  · dsimp only at hs
    rw [hl] at hs
    exact h.hopeful s hs
  · dsimp only at hb ⊢
    rw [hl] at hb
    have hopened : b ∉ segments.map Segment.baseOffset := fun hmem => by
      obtain ⟨s, hs, rfl⟩ := List.mem_map.1 hmem
      exact hb s hs rfl
    have hfiles : files₁ (.log b) = files (.log b) := h.files.other _ fun c hc heq =>
      hopened (FileName.log.inj heq ▸ hc)
    by_cases hrest : b ∈ rest
    · rw [← hfiles]
      exact hgone.log b hrest
    · refine .inl ?_
      rw [hgone.log_of_not_mem hrest, hfiles, ← Option.not_isSome_iff_eq_none]
      intro hsome
      have hmem := (hlists.mem b).2 (.inl hsome)
      rw [hbases, List.mem_append] at hmem
      exact hmem.elim hopened hrest
  · rw [← h.files.other (.index b) fun c _ heq => by cases heq]
    exact hgone.index b

/-- A segment that has just been opened has the batches of its file. -/
theorem Reopened.frames_eq {options : LogOptions} {files : FileName → Option File} {v : View}
    (h : Reopened options files v) {s : Segment} (hs : s ∈ v.log.segments) :
    s.frames v.files = parse s.baseOffset ((files s.logFile).getD {}).visible := by
  obtain ⟨bases, -, hrow⟩ := h.row
  have hmem : (s.baseOffset, s.frames v.files) ∈ recoverRow (logBytes files) bases none :=
    hrow ▸ List.mem_map_of_mem (f := fun s : Segment => (s.baseOffset, s.frames v.files)) hs
  exact mem_recoverRow hmem

/-- A log begins at offset zero if its directory has a segment there, or none at all. -/
theorem Reopened.start_zero {options : LogOptions} {files : FileName → Option File} {v : View}
    (h : Reopened options files v)
    (hzero : ∀ b, (files (.log b)).isSome → (files (.log 0)).isSome) : v.log.startOffset = 0 := by
  obtain ⟨bases, hlists, hrow⟩ := h.row
  have hmem : 0 ∈ bases := by
    by_cases hany : ∃ b, (files (.log b)).isSome
    · obtain ⟨b, hb⟩ := hany
      exact (hlists.mem 0).2 (.inl (hzero b hb))
    · refine (hlists.mem 0).2 (.inr ⟨rfl, fun c => ?_⟩)
      rw [← Option.not_isSome_iff_eq_none]
      exact fun hc => hany ⟨c, hc⟩
  cases bases with
  | nil => cases hmem
  | cons b bases =>
      obtain rfl : b = 0 := by
        rcases List.mem_cons.1 hmem with heq | hlater
        · exact heq.symm
        · have hlt := (List.pairwise_cons.1 hlists.sorted).1 0 hlater
          omega
      have hhead := recoverRow_head (logBytes files) 0 bases
      rw [← hrow, List.head?_map, Option.map_eq_some_iff] at hhead
      obtain ⟨s, hs, heq⟩ := hhead
      exact (h.start s hs).symm.trans (congrArg Prod.fst heq)

/-- A log that has just been opened is intact, and without a gap. -/
theorem Reopened.intact {options : LogOptions} {files : FileName → Option File} {v : View}
    (h : Reopened options files v) (hwidth : options.segmentMaxBytes < 0x100000000)
    (hremove : ¬ Refuses .remove) : v.Intact where
  width := h.config ▸ hwidth
  options := fun s hs => h.config.symm ▸ (h.segment s hs).1
  start := h.start
  rises := h.chained.tiles.rises
  base := h.chained.joins.ge
  next := h.chained.ends.ge
  sits := fun s hs => ⟨_, _, (h.segment s hs).2⟩
  strays := fun b hb x hx => by
    rcases h.strays b hb with hnone | ⟨-, hr⟩
    · rw [hnone] at hx
      cases hx
    · exact absurd hr hremove

/-- What a `Log::open` that fails may have done to the files. -/
def Unopened (files files' : FileName → Option File) : Prop :=
  (∃ opened, (∀ b ∈ opened, (files (.log b)).isSome) ∧ Recovered opened files files') ∨
    (∀ c, files (.log c) = none) ∧ files' = Function.update files (.log 0) (some {})

/-- `Log::open` on whatever the files hold. -/
theorem Log.open_credible {options : LogOptions} (hwidth : options.segmentMaxBytes < 0x100000000)
    (hcredible : ∀ b, Credible options.segment d.file b) :
    Sat (Log.open options d) (fun l t => Reopened options d.file ⟨l, t.file⟩)
      (fun t => Unopened d.file t.file ∧ Obstructed options.segment d.file) := by
  have hsame : ∀ t : Disk, t.file = d.file → Unopened d.file t.file := fun t ht =>
    .inl ⟨[], fun _ h => absurd h List.not_mem_nil, ht ▸ recovered_nil _⟩
  refine ((attemptOp_sat .makeDirectories d).mono (fun _ _ h => h) fun t ht =>
    ⟨hsame t ht.1, .inl ⟨_, ht.2⟩⟩).bind fun _ d₁ hd₁ => ?_
  refine ((existingSegmentOffsets_sat d₁).mono (fun _ _ h => h) fun t ht =>
    ⟨hsame t (ht.1.trans hd₁), .inl ⟨_, ht.2⟩⟩).bind ?_
  rintro bases d₂ ⟨hd₂, hsorted, hmem⟩
  rw [hd₁] at hd₂ hmem
  have hopen : Sat (Log.openSegments options.segment bases [] {} d₂) _ _ :=
    openSegments_sat hwidth hsorted (fun b _ => hd₂ ▸ hcredible b) fun b hb => hd₂ ▸ (hmem b).1 hb
  rw [hd₂] at hopen
  refine (hopen.mono (fun _ _ h => h) ?_).bind ?_
  · rintro t ⟨⟨opened, hopened, hfiles⟩, hwhy⟩
    refine ⟨.inl ⟨opened, fun b hb => (hmem b).1 (hopened b hb), hfiles⟩, hwhy.imp_right ?_⟩
    rintro ⟨b, -, hb⟩
    exact ⟨b, hb⟩
  rintro ⟨segments, report, rest⟩ d₃ ⟨opened, hsegments, hbases, hkept⟩
  obtain rfl : opened = segments := hsegments.symm
  dsimp only at hbases ⊢
  refine ((discardSegments_sat rest d₃).mono (fun _ _ h => h) fun _ hf => hf.elim).bind
    fun _ d₄ hgone => ?_
  cases hlast : opened.getLast? with
  | none =>
      obtain rfl := List.getLast?_eq_none_iff.1 hlast
      -- the directory has no segment at all
      obtain rfl : bases = rest := hbases
      obtain rfl : bases = [] := by
        cases bases with
        | nil => rfl
        | cons b bases => exact absurd hkept.row.symm (recoverRow_ne_nil _ _ _)
      have hnone : ∀ c, d.file (.log c) = none := fun c => by
        rw [← Option.not_isSome_iff_eq_none, ← hmem]
        exact List.not_mem_nil
      have hd₃ : d₃.file = d.file := funext fun f =>
        hkept.files.other f fun _ h => absurd h List.not_mem_nil
      have hd₄ : d₄.file = d.file := (funext fun f =>
        hgone.other f fun _ h => absurd h List.not_mem_nil).trans hd₃
      have hfirst : Sat (Segment.open 0 options.segment d₄) _ _ :=
        Segment.open_credible (x := {}) hwidth (hd₄ ▸ hcredible 0)
          (by rw [hd₄, hnone, Option.getD_none])
      rw [hd₄] at hfirst
      refine (hfirst.mono (fun _ _ h => h) ?_).bind ?_
      · rintro t ⟨ht, hr | hlong | ⟨htorn, -⟩⟩
        · exact ⟨ht.elim (hsame t) fun ht => .inr ⟨hnone, ht⟩, .inl hr⟩
        · exact absurd hlong (Nat.not_lt_zero _)
        · exact absurd rfl htorn
      rintro seg t ⟨hbase, hoptions, -, -, ht, hholds⟩
      exact reopened_first hnone hbase hoptions ht hholds rfl rfl rfl rfl rfl
  | some active =>
      obtain ⟨b, hb⟩ : ∃ b, b ∈ bases := by
        obtain ⟨s, hs⟩ : ∃ s, s ∈ opened := ⟨active, List.mem_of_getLast? hlast⟩
        exact ⟨s.baseOffset, hbases ▸ List.mem_append_left _ (List.mem_map_of_mem hs)⟩
      have hlists : Lists d.file bases := by
        refine ⟨hsorted, fun c => (hmem c).trans ⟨.inl, ?_⟩⟩
        rintro (h | ⟨-, hnone⟩)
        · exact h
        · have hsome := (hmem b).1 hb
          rw [hnone b] at hsome
          cases hsome
      exact hkept.reopened hlists hbases hgone hlast rfl rfl rfl rfl rfl

/-- `Log::open` on a directory without sidecars. -/
theorem Log.open_sat {options : LogOptions} (hwidth : options.segmentMaxBytes < 0x100000000)
    (hblank : Blank d.file) :
    Sat (Log.open options d) (fun l t => Reopened options d.file ⟨l, t.file⟩)
      (fun t => Unopened d.file t.file ∧ Obstructed options.segment d.file) :=
  Log.open_credible hwidth fun b => hblank.credible options.segment b

end Opening

end LogEngine.Storage
