import LogEngine.Storage.Reads
import LogEngine.Storage.Session
import Mathlib.Data.List.Chain

/-!
# What a reader of a log sees

`Log::read` looks up the segment by its base offset, the neighbourhood of the offset in the
sparse index, walks to the batch that covers the offset and trims what it read to whole
batches.  On a log that is represented as it should be (`View.Serves`) all of that comes to
one thing: the longest run of batches that fits into the buffer, from the batch that covers
the offset on and within its segment (`Longest`).

A reader that goes on behind the last batch it was given (`Log.follow`) is handed the
batches of the log, each of them once and in order.
-/

namespace LogEngine.Storage

open Base Io Io.Disk Verified.Fallible Verified.Tiling Verified.Framing

/-! ## The longest run that fits -/

/-- The longest beginning of a row of batches that fits into a buffer. -/
structure Longest (capacity : Nat) (fs run : List Frame) : Prop where
  begins : run <+: fs
  fits : (encode run).length ≤ capacity
  longest : ∀ q : List Frame, q <+: fs → (encode q).length ≤ capacity → q <+: run

theorem Segment.fitting_longest (capacity : Nat) (fs : List Frame) :
    Longest capacity fs (fitting capacity fs) := by
  constructor
  · exact fitting_isPrefix capacity fs
  · exact encode_fitting_length_le capacity fs
  · intro q hq hlen
    induction fs generalizing capacity q with
    | nil => exact hq
    | cons f fs ih =>
        cases q with
        | nil => exact List.nil_prefix
        | cons g q =>
            obtain ⟨rfl, hle⟩ := List.cons_prefix_cons.1 hq
            rw [encode_cons_length] at hlen
            rw [fitting, if_pos (by omega)]
            apply (List.prefix_cons_inj g).2
            apply ih
            · exact hle
            · omega

/-- What a read from a row of batches hands back when `f` is the batch it is to begin with. -/
theorem Segment.readFrom_cover {p r : List Frame} {f : Frame} {a offset : Nat}
    (h : Tiles a (p ++ f :: r)) (hlo : Extent.base f ≤ offset) (hhi : offset < Extent.stop f)
    (capacity : Nat) :
    readFrom (p ++ f :: r) offset capacity =
      if capacity < f.bytes.length then .error .messageTooLarge
      else .ok (encode (fitting capacity (f :: r))) := by
  rw [readFrom, h.after_eq hlo hhi]

theorem Segment.fitting_ne_nil {capacity : Nat} {f : Frame} (h : ¬ capacity < f.bytes.length)
    (r : List Frame) : fitting capacity (f :: r) ≠ [] := by
  rw [fitting, if_pos (Nat.not_lt.1 h)]
  exact List.cons_ne_nil _ _

/-! ## Logs that can be read -/

/-- The segments from the last one that begins at or before an offset on: the first of them
covers the offset. -/
theorem drop_takeWhile_base {segments : List Segment} {s₀ : Segment} {offset stop : Nat}
    (hchain : (s₀ :: segments).IsChain fun s t => t.baseOffset = s.nextOffset)
    (hends : ∀ s ∈ (s₀ :: segments).getLast?, stop = s.nextOffset)
    (hlo : s₀.baseOffset ≤ offset) (hhi : offset < stop) :
    ∃ before s later, s₀ :: segments = before ++ s :: later ∧ s.baseOffset ≤ offset ∧
      offset < s.nextOffset ∧
      (s₀ :: segments).drop
        (((s₀ :: segments).takeWhile fun s => s.baseOffset ≤ offset).length - 1) =
          s :: later := by
  induction segments generalizing s₀ with
  | nil =>
      have hstop := hends s₀ rfl
      refine ⟨[], s₀, [], rfl, hlo, by omega, ?_⟩
      simp [hlo]
  | cons s₁ rest ih =>
      obtain ⟨hnext, hrest⟩ := List.isChain_cons_cons.1 hchain
      by_cases hle : s₁.baseOffset ≤ offset
      · rw [List.getLast?_cons_cons] at hends
        obtain ⟨before, s, later, heq, hbase, hcover, hdrop⟩ := ih hrest hends hle
        refine ⟨s₀ :: before, s, later, by rw [heq, List.cons_append], hbase, hcover, ?_⟩
        rw [← hdrop]
        simp [hlo, hle]
      · refine ⟨[], s₀, s₁ :: rest, rfl, hlo, by omega, ?_⟩
        simp [hlo, hle]

namespace View

variable {v : View}

/-- A represented log, with the two of its fields that reads look at besides. -/
structure Serves (v : View) : Prop extends v.Represented where
  start : ∀ s ∈ v.log.segments.head?, s.baseOffset = v.log.startOffset
  width : v.log.options.segmentMaxBytes < 0x100000000

/-- The states that the operations keep a log in can be read. -/
theorem serves (h : v.Intact) (hc : v.log.Chained) : v.Serves :=
  { represented h hc with
    start := h.start
    width := h.width }

/-- What a segment of a represented log holds, under the log's own bound. -/
theorem Serves.holds (h : v.Serves) {s : Segment} (hs : s ∈ v.log.segments) :
    ∃ x, v.files s.logFile = some x ∧
      ({ s with options := v.log.options.segment } : Segment).Holds x (s.frames v.files) := by
  obtain ⟨x, fs, hx, hsize, htake, htiles, hend, hbound, hincreasing, hmarks⟩ := h.segment s hs
  have hlen : s.sizeBytes = (encode fs).length := by
    rw [← htake, List.length_take, Nat.min_eq_left hsize]
  have hframes : s.frames v.files = fs := by
    rw [Segment.frames, hx, Option.getD_some, htake, parse_encode htiles]
  have hwidth := h.width
  refine ⟨x, hx, ?_⟩
  rw [hframes]
  constructor
  · exact htiles
  · exact hend.symm
  · exact hlen
  · rw [← htake]
    exact List.take_prefix _ _
  · exact hbound
  · exact hwidth
  · refine ⟨hincreasing, fun e he => ?_⟩
    obtain ⟨p, f, hp, hpos, hrel⟩ := hmarks e he
    have hf : f ∈ fs := hp.subset (List.mem_append_right _ List.mem_cons_self)
    have hstop := htiles.rises.stop_le hf
    have hbase : f.header.baseOffset < Extent.stop f := Proper.base_lt f
    have hextent := extent_lt htiles (by omega)
    refine ⟨p, f, hp, hpos, ?_⟩
    have hexact : relative f.header.baseOffset s.baseOffset =
        f.header.baseOffset - s.baseOffset := Nat.mod_eq_of_lt (by omega)
    show e.relOffset = relative f.header.baseOffset s.baseOffset
    omega

theorem Serves.readable (h : v.Serves) : ∀ s ∈ v.log.segments, s.Readable v.files := by
  intro s hs
  obtain ⟨x, hx, hholds⟩ := h.holds hs
  exact ⟨v.log.options.segment, x, _, hx, hholds⟩

/-- The batches of segments that follow each other follow each other. -/
theorem tiles_flatMap_frames {files : FileName → Option File} {segments : List Segment}
    {s₀ : Segment} {stop : Nat}
    (hchain : (s₀ :: segments).IsChain fun s t => t.baseOffset = s.nextOffset)
    (hends : ∀ s ∈ (s₀ :: segments).getLast?, stop = s.nextOffset)
    (hframes : ∀ s ∈ s₀ :: segments, Tiles s.baseOffset (s.frames files) ∧
      endFrom s.baseOffset (s.frames files) = s.nextOffset) :
    Tiles s₀.baseOffset ((s₀ :: segments).flatMap fun s => s.frames files) ∧
      endFrom s₀.baseOffset ((s₀ :: segments).flatMap fun s => s.frames files) = stop := by
  induction segments generalizing s₀ with
  | nil =>
      obtain ⟨htiles, hend⟩ := hframes s₀ List.mem_cons_self
      rw [List.flatMap_cons, List.flatMap_nil, List.append_nil, hend]
      exact ⟨htiles, (hends s₀ rfl).symm⟩
  | cons s₁ rest ih =>
      obtain ⟨hnext, hrest⟩ := List.isChain_cons_cons.1 hchain
      rw [List.getLast?_cons_cons] at hends
      obtain ⟨htiles, hend⟩ := hframes s₀ List.mem_cons_self
      obtain ⟨htail, hstop⟩ := ih hrest hends fun s hs => hframes s (List.mem_cons_of_mem _ hs)
      rw [List.flatMap_cons, tiles_append, endFrom_append, hend, ← hnext]
      exact ⟨⟨htiles, htail⟩, hstop⟩

theorem Serves.tiles (h : v.Serves) :
    Tiles v.log.startOffset v.frames ∧
      endFrom v.log.startOffset v.frames = v.log.nextOffset := by
  have hchain := h.chain
  have hends := h.ends
  have hstart := h.start
  have hframes : ∀ s ∈ v.log.segments, Tiles s.baseOffset (s.frames v.files) ∧
      endFrom s.baseOffset (s.frames v.files) = s.nextOffset := by
    intro s hs
    obtain ⟨x, -, hholds⟩ := h.holds hs
    exact ⟨hholds.tiles, hholds.next.symm⟩
  unfold frames
  cases hsegments : v.log.segments with
  | nil => exact absurd hsegments h.nonempty
  | cons s₀ rest =>
      rw [hsegments] at hchain hends hstart hframes
      rw [← hstart s₀ rfl]
      exact tiles_flatMap_frames hchain hends hframes

theorem Serves.sorted (h : v.Serves) :
    v.log.segments.Pairwise fun s t => s.baseOffset ≤ t.baseOffset := by
  have hbases : (v.log.segments.map Segment.baseOffset).IsChain (· ≤ ·) := by
    refine (List.isChain_map Segment.baseOffset).2 (h.chain.imp_of_mem_imp fun s t hs _ hst => ?_)
    obtain ⟨x, -, hholds⟩ := h.holds hs
    have hle : s.baseOffset ≤ s.nextOffset := hholds.next ▸ hholds.tiles.le_end
    exact hst ▸ hle
  exact List.pairwise_map.1 hbases.pairwise

/-- The segment and the batch that an offset of the log lies in, and where `read` begins to
look. -/
theorem Serves.covering (h : v.Serves) {offset : Nat} (hlo : v.log.startOffset ≤ offset)
    (hhi : offset < v.log.nextOffset) :
    ∃ before s later p f r, v.log.segments = before ++ s :: later ∧
      s.frames v.files = p ++ f :: r ∧ Extent.base f ≤ offset ∧ offset < Extent.stop f ∧
      v.log.segmentsFrom offset = s :: later := by
  have hchain := h.chain
  have hends := h.ends
  have hstart := h.start
  rw [Log.segmentsFrom_eq h.sorted]
  cases hsegments : v.log.segments with
  | nil => exact absurd hsegments h.nonempty
  | cons s₀ rest =>
      rw [hsegments] at hchain hends hstart
      rw [← hstart s₀ rfl] at hlo
      obtain ⟨before, s, later, heq, hbase, hnext, hdrop⟩ :=
        drop_takeWhile_base hchain hends hlo hhi
      have hs : s ∈ v.log.segments := by
        rw [hsegments, heq]
        exact List.mem_append_right _ List.mem_cons_self
      obtain ⟨x, -, hholds⟩ := h.holds hs
      have hin : offset < endFrom s.baseOffset (s.frames v.files) := hholds.next ▸ hnext
      obtain ⟨p, f, ⟨r, hr⟩, hf, hf', -⟩ := hholds.tiles.exists_snoc hbase hin
      refine ⟨before, s, later, p, f, r, heq, ?_, hf, hf', hdrop⟩
      rw [← hr, List.append_assoc, List.singleton_append]

end View

/-- The batches of the log around one of them. -/
theorem View.frames_split {v : View} {before later : List Segment} {s : Segment}
    {p r : List Frame} {f : Frame} (hsegments : v.log.segments = before ++ s :: later)
    (hframes : s.frames v.files = p ++ f :: r) :
    v.frames = ((before.flatMap fun s => s.frames v.files) ++ p) ++
      f :: (r ++ later.flatMap fun s => s.frames v.files) := by
  rw [View.frames, hsegments, List.flatMap_append, List.flatMap_cons, hframes]
  simp

/-! ## Reads on a healthy disk -/

namespace Log

variable {v : View} {d : Disk}

/-- A healthy disk answers as the batches of the log have it. -/
theorem read_healthy (h : v.Serves) (hd : d.file = v.files) (offset capacity : Nat) :
    ∃ t, t.file = v.files ∧
      (∀ bytes, v.log.reads v.files offset capacity = .ok bytes →
        @read healthy v.log offset capacity d = .ok bytes t) ∧
      ∀ e, v.log.reads v.files offset capacity = .error e →
        @read healthy v.log offset capacity d = .error e t := by
  have hspec := @read_ends healthy d v.log (fun s hs => hd ▸ h.readable s hs) offset capacity
  rw [hd] at hspec
  cases hr : @read healthy v.log offset capacity d with
  | ok bytes t =>
      rw [hr] at hspec
      obtain ⟨ht, hreads⟩ := hspec
      refine ⟨t, ht, fun bytes' hok => ?_, fun e he => ?_⟩
      · rw [hreads] at hok
        cases hok
        rfl
      · rw [hreads] at he
        cases he
  | error e t =>
      rw [hr] at hspec
      obtain ⟨ht, hrefused | hreads⟩ := hspec
      · exact absurd hrefused (not_refuses_healthy _)
      refine ⟨t, ht, fun bytes hok => ?_, fun e' he => ?_⟩
      · rw [hreads] at hok
        cases hok
      · rw [hreads] at he
        cases he
        rfl

/-- What a read at an offset of the log hands back. -/
theorem reads_cover {offset : Nat} {s : Segment} {later : List Segment} {p r : List Frame}
    {f : Frame} (h : v.Serves) (hs : s ∈ v.log.segments) (hlo : v.log.startOffset ≤ offset)
    (hhi : offset < v.log.nextOffset) (hfrom : v.log.segmentsFrom offset = s :: later)
    (hframes : s.frames v.files = p ++ f :: r) (hf : Extent.base f ≤ offset)
    (hf' : offset < Extent.stop f) (capacity : Nat) :
    v.log.reads v.files offset capacity =
      if capacity < f.bytes.length then .error .messageTooLarge
      else .ok (encode (Segment.fitting capacity (f :: r))) := by
  obtain ⟨x, -, hholds⟩ := h.holds hs
  have htiles : Tiles s.baseOffset (p ++ f :: r) := hframes ▸ hholds.tiles
  rw [reads, if_neg (Nat.not_le.2 hhi), if_neg (Nat.not_lt.2 hlo), hfrom, List.map_cons, readRow,
    hframes, Segment.readFrom_cover htiles hf hf']
  by_cases hsmall : capacity < f.bytes.length
  · rw [if_pos hsmall]
  · rw [if_neg hsmall]
    exact if_neg fun hnil => Segment.fitting_ne_nil hsmall r (encode_eq_nil.1 hnil)

/-- A read at an offset of the log. -/
theorem read_longest (h : v.Serves) (hd : d.file = v.files) {offset : Nat}
    (hlo : v.log.startOffset ≤ offset) (hhi : offset < v.log.nextOffset) :
    ∃ s ∈ v.log.segments, ∃ p f r, s.frames v.files = p ++ f :: r ∧ Extent.base f ≤ offset ∧
      offset < Extent.stop f ∧ ∀ capacity,
        (f.bytes.length ≤ capacity → ∃ run, Longest capacity (f :: r) run ∧ encode run ≠ [] ∧
          outcome (@read healthy v.log offset capacity d) = .ok (encode run)) ∧
        (capacity < f.bytes.length →
          outcome (@read healthy v.log offset capacity d) = .error .messageTooLarge) := by
  obtain ⟨before, s, later, p, f, r, hsegments, hframes, hf, hf', hfrom⟩ := h.covering hlo hhi
  have hs : s ∈ v.log.segments := by
    rw [hsegments]
    exact List.mem_append_right _ List.mem_cons_self
  refine ⟨s, hs, p, f, r, hframes, hf, hf', fun capacity => ?_⟩
  have hreads := reads_cover h hs hlo hhi hfrom hframes hf hf' capacity
  obtain ⟨t, -, hok, herror⟩ := read_healthy h hd offset capacity
  constructor
  · intro hfits
    rw [if_neg (Nat.not_lt.2 hfits)] at hreads
    refine ⟨_, Segment.fitting_longest capacity (f :: r), ?_, ?_⟩
    · exact fun hnil => Segment.fitting_ne_nil (Nat.not_lt.2 hfits) r (encode_eq_nil.1 hnil)
    · rw [hok _ hreads]
      rfl
  · intro hsmall
    rw [if_pos hsmall] at hreads
    rw [herror _ hreads]
    rfl

/-- A read where a batch of the log begins hands back that batch, and perhaps more behind it;
unless the buffer is too small for it. -/
theorem read_frame (h : v.Serves) (hd : d.file = v.files) {p r : List Frame} {f : Frame}
    (hframes : v.frames = p ++ f :: r) (capacity : Nat) :
    ∃ t, t.file = v.files ∧
      (f.bytes.length ≤ capacity → ∃ more : Bytes,
        @read healthy v.log (Extent.base f) capacity d = .ok (f.bytes ++ more) t) ∧
      (capacity < f.bytes.length →
        @read healthy v.log (Extent.base f) capacity d = .error .messageTooLarge t) := by
  obtain ⟨htiles, hend⟩ := h.tiles
  have hmem : f ∈ v.frames := by
    rw [hframes]
    exact List.mem_append_right _ List.mem_cons_self
  have hlo := htiles.rises.le_base hmem
  have hlt : Extent.base f < Extent.stop f := Proper.base_lt f
  have hhi : Extent.base f < v.log.nextOffset := by
    have := htiles.rises.stop_le hmem
    omega
  obtain ⟨before, s, later, q, g, r', hsegments, hs, hg, hg', hfrom⟩ := h.covering hlo hhi
  -- one batch covers the offset
  obtain rfl : g = f := by
    have hfirst : p ++ [f] <+: v.frames := ⟨r, by rw [hframes]; simp⟩
    have hsplit := View.frames_split hsegments hs
    have hother := List.prefix_append (((before.flatMap fun s => s.frames v.files) ++ q) ++ [g])
      (r' ++ later.flatMap fun s => s.frames v.files)
    rw [List.append_assoc _ [g], List.singleton_append, ← hsplit] at hother
    have hcover := htiles.cover_eq hfirst le_rfl hlt
    rw [htiles.cover_eq hother hg hg'] at hcover
    exact Option.some.inj hcover
  have hreads := reads_cover h (by rw [hsegments]; simp) hlo hhi hfrom hs hg hg' capacity
  obtain ⟨t, ht, hok, herror⟩ := read_healthy h hd (Extent.base g) capacity
  refine ⟨t, ht, fun hfits => ?_, fun hsmall => ?_⟩
  · rw [if_neg (Nat.not_lt.2 hfits), Segment.fitting, if_pos hfits, encode_cons] at hreads
    exact ⟨_, hok _ hreads⟩
  · rw [if_pos hsmall] at hreads
    exact herror _ hreads

theorem read_atEnd (l : Log) (d : Disk) {offset : Nat} (h : l.nextOffset ≤ offset)
    (capacity : Nat) : @read healthy l offset capacity d = .ok [] d := by
  unfold read
  rw [if_pos h]
  rfl

/-! ## A reader -/

/-- The batches in a buffer, as a reader that knows nothing of the log takes them. -/
def received (bytes : Bytes) : List Frame :=
  match (Delimited.head bytes : Option Frame) with
  | none => []
  | some f => parse (Extent.base f) bytes

private theorem received_encode {a : Nat} {run : List Frame} (h : Tiles a run) :
    received (encode run) = run := by
  unfold received
  cases run with
  | nil =>
      have hnone : (Delimited.head (encode ([] : List Frame)) : Option Frame) = none := by
        cases hhead : (Delimited.head (encode ([] : List Frame)) : Option Frame) with
        | none => rfl
        | some f =>
            have hbytes := (Delimited.head_eq_some _ f).1 hhead
            exact absurd (List.prefix_nil.1 hbytes) (Delimited.bytes_ne f)
      rw [hnone]
  | cons f run =>
      have hhead : (Delimited.head (encode (f :: run)) : Option Frame) = some f := by
        apply (Delimited.head_eq_some _ f).2
        rw [encode_cons]
        exact List.prefix_append _ _
      have hbase : Extent.base f = a := h.1
      rw [hhead]
      dsimp only
      rw [hbase]
      exact parse_encode h

/-- A reader with a buffer of the given size at each read, that goes on behind the last
batch it was handed and tries again when a read fails. -/
def follow [Faults] (l : Log) : List Nat → Nat → DiskM (List Frame)
  | [], _ => return []
  | capacity :: capacities, offset => do
      match ← attempt (l.read offset capacity) with
      | .error _ => l.follow capacities offset
      | .ok bytes =>
          let rest ← l.follow capacities (endFrom offset (received bytes))
          return received bytes ++ rest

section Reader

variable {faults : Faults} {l : Log} {capacities : List Nat} {capacity offset : Nat} {t u : Disk}

private theorem follow_ok {bytes : Bytes} {rest : List Frame}
    (hread : l.read offset capacity d = .ok bytes t)
    (hrest : l.follow capacities (endFrom offset (received bytes)) t = .ok rest u) :
    l.follow (capacity :: capacities) offset d = .ok (received bytes ++ rest) u := by
  unfold follow
  rw [bind_of_ok (attempt_of_ok hread)]
  dsimp only
  rw [bind_of_ok hrest]
  rfl

private theorem follow_error {e : ErrorCode} (hread : l.read offset capacity d = .error e t) :
    l.follow (capacity :: capacities) offset d = l.follow capacities offset t := by
  rw [follow, bind_of_ok (attempt_of_error hread)]

end Reader

/-- One read of a reader: nothing, because the log ends here or the buffer is too small, or
the next batches. -/
theorem reads_next (h : v.Serves) {offset : Nat} (hlo : v.log.startOffset ≤ offset)
    (capacity : Nat) :
    (after v.frames offset = [] ∧ v.log.reads v.files offset capacity = .ok []) ∨
    (∃ f ∈ v.frames, capacity < f.bytes.length ∧
      v.log.reads v.files offset capacity = .error .messageTooLarge) ∨
    ∃ q run rest, v.frames = q ++ run ++ rest ∧ run ≠ [] ∧
      after v.frames offset = run ++ rest ∧
      v.log.reads v.files offset capacity = .ok (encode run) := by
  obtain ⟨htiles, hend⟩ := h.tiles
  by_cases hhi : offset < v.log.nextOffset
  · obtain ⟨before, s, later, p, f, r, hsegments, hframes, hf, hf', hfrom⟩ := h.covering hlo hhi
    have hs : s ∈ v.log.segments := by
      rw [hsegments]
      exact List.mem_append_right _ List.mem_cons_self
    have hreads := reads_cover h hs hlo hhi hfrom hframes hf hf' capacity
    have hsplit := View.frames_split hsegments hframes
    by_cases hsmall : capacity < f.bytes.length
    · rw [if_pos hsmall] at hreads
      refine .inr (.inl ⟨f, ?_, hsmall, hreads⟩)
      rw [hsplit]
      exact List.mem_append_right _ List.mem_cons_self
    · rw [if_neg hsmall] at hreads
      obtain ⟨tail, htail⟩ := Segment.fitting_isPrefix capacity (f :: r)
      have hne := Segment.fitting_ne_nil hsmall r
      generalize Segment.fitting capacity (f :: r) = run at hreads htail hne
      have hrun : f :: (r ++ later.flatMap fun s => s.frames v.files) =
          run ++ (tail ++ later.flatMap fun s => s.frames v.files) := by
        rw [← List.append_assoc, htail, List.cons_append]
      refine .inr (.inr ⟨(before.flatMap fun s => s.frames v.files) ++ p, run,
        tail ++ later.flatMap fun s => s.frames v.files, ?_, hne, ?_, hreads⟩)
      · rw [hsplit, hrun, ← List.append_assoc]
      · rw [← hrun, hsplit]
        exact (hsplit ▸ htiles).after_eq hf hf'
  · refine .inl ⟨htiles.after_nil (by omega), ?_⟩
    rw [reads, if_pos (Nat.not_lt.1 hhi)]

/-- A reader is handed the batches of the log from where it starts, in order; and all of
them, once it has had as many reads with a large enough buffer as there are batches. -/
theorem follow_healthy (h : v.Serves) (hd : d.file = v.files) (capacities : List Nat)
    {offset : Nat} (hlo : v.log.startOffset ≤ offset) :
    ∃ t got, @follow healthy v.log capacities offset d = .ok got t ∧
      got <+: after v.frames offset ∧
      ((after v.frames offset).length ≤
          capacities.countP (fun c => decide (∀ f ∈ v.frames, f.bytes.length ≤ c)) →
        got = after v.frames offset) := by
  induction capacities generalizing offset d with
  | nil =>
      refine ⟨d, [], rfl, List.nil_prefix, fun hlen => ?_⟩
      exact (List.eq_nil_of_length_eq_zero (Nat.le_zero.1 hlen)).symm
  | cons capacity capacities ih =>
      obtain ⟨htiles, -⟩ := h.tiles
      obtain ⟨t, ht, hok, herror⟩ := read_healthy h hd offset capacity
      rcases reads_next h hlo capacity with ⟨hnil, hreads⟩ | ⟨f, hf, hsmall, hreads⟩ |
        ⟨q, run, rest, hsplit, hne, hafter, hreads⟩
      · -- the log ends here
        obtain ⟨u, got, hgot, hpre, -⟩ := ih ht hlo
        rw [hnil] at hpre ⊢
        obtain rfl := List.prefix_nil.1 hpre
        have hnone : received [] = [] := received_encode (tiles_nil offset)
        refine ⟨u, [], ?_, List.nil_prefix, fun _ => rfl⟩
        rw [follow_ok (hok _ hreads) (by rw [hnone]; exact hgot), hnone]
        rfl
      · -- the buffer is too small
        obtain ⟨u, got, hgot, hpre, hall⟩ := ih ht hlo
        refine ⟨u, got, (follow_error (herror _ hreads)).trans hgot, hpre, fun hlen => hall ?_⟩
        rwa [List.countP_cons_of_neg] at hlen
        intro hlarge
        have := of_decide_eq_true hlarge f hf
        omega
      · -- the next batches
        rw [hsplit] at htiles
        obtain ⟨hq, hrest⟩ := tiles_append.1 htiles
        have hstop : endFrom offset run = endFrom v.log.startOffset (q ++ run) := by
          rw [endFrom_append]
          exact endFrom_of_ne_nil hne _ _
        have hgo : after v.frames (endFrom offset run) = rest := by
          rw [hsplit, hstop]
          exact htiles.after_end
        have hreceived : received (encode run) = run := received_encode (tiles_append.1 hq).2
        have hstart : v.log.startOffset ≤ endFrom offset run := hstop ▸ hq.le_end
        obtain ⟨u, got, hgot, hpre, hall⟩ := ih ht hstart
        rw [hgo] at hpre hall
        refine ⟨u, run ++ got, ?_, ?_, fun hlen => ?_⟩
        · rw [follow_ok (hok _ hreads) (by rw [hreceived]; exact hgot), hreceived]
        · rw [hafter]
          exact (List.prefix_append_right_inj run).2 hpre
        · rw [hafter] at hlen ⊢
          rw [hall]
          have hpos := List.length_pos_of_ne_nil hne
          rw [List.length_append, List.countP_cons] at hlen
          split at hlen <;> omega

/-- Reads hand back whole batches, as many of a segment as fit from the batch that covers the
offset on, and a reader sees each batch of the log once. -/
theorem read_whole_batches (h : v.Serves) (hd : d.file = v.files) :
    (∀ offset, v.log.startOffset ≤ offset → offset < v.log.nextOffset →
      ∃ s ∈ v.log.segments, ∃ p f r, s.frames v.files = p ++ f :: r ∧ Extent.base f ≤ offset ∧
        offset < Extent.stop f ∧ ∀ capacity,
          (f.bytes.length ≤ capacity → ∃ run, Longest capacity (f :: r) run ∧ encode run ≠ [] ∧
            outcome (@read healthy v.log offset capacity d) = .ok (encode run)) ∧
          (capacity < f.bytes.length →
            outcome (@read healthy v.log offset capacity d) = .error .messageTooLarge)) ∧
    (∀ offset capacity, v.log.nextOffset ≤ offset →
      outcome (@read healthy v.log offset capacity d) = .ok []) ∧
    (Tiles v.log.startOffset v.frames ∧
      endFrom v.log.startOffset v.frames = v.log.nextOffset) ∧
    ∀ capacities offset, v.log.startOffset ≤ offset →
      ∃ got, outcome (@follow healthy v.log capacities offset d) = .ok got ∧
        got <+: after v.frames offset ∧
        ((after v.frames offset).length ≤
            capacities.countP (fun c => decide (∀ f ∈ v.frames, f.bytes.length ≤ c)) →
          got = after v.frames offset) := by
  refine ⟨fun offset hlo hhi => read_longest h hd hlo hhi, fun offset capacity hend => ?_, h.tiles,
    fun capacities offset hlo => ?_⟩
  · rw [read_atEnd v.log d hend]
    rfl
  · obtain ⟨t, got, hgot, hpre, hall⟩ := follow_healthy h hd capacities hlo
    refine ⟨got, ?_, hpre, hall⟩
    rw [hgot]
    rfl

/-- A log of two segments, the first with two batches: a read at the second offset of the
second batch, and a reader with a buffer that is too small once. -/
theorem read_whole_batches_twoSegments :
    ∃ s : Store, s.log.startOffset = 0 ∧ s.log.nextOffset = 4 ∧ s.log.sealed.length = 1 ∧
      (∃ g ∈ s.log.segments, ∃ p f r, g.frames s.disk.file = p ++ f :: r ∧ Extent.base f ≤ 2 ∧
        2 < Extent.stop f) ∧
      ∃ got, outcome (@follow healthy s.log [200, 3, 200] 0 s.disk) = .ok got ∧
        got <+: after s.view.frames 0 := by
  obtain ⟨l, d, s, hopen, hrun, hs⟩ := exists_of_begun { segmentMaxBytes := 150 }
    Store.Undisturbed [.append { records := [[1]] } {}, .append { records := [[2], [3]] } {},
      .append { records := [[4]] } {}]
    (fun _ _ _ t h _ _ => ⟨⟨t, h⟩, not_refuses_healthy _⟩)
    (p := fun s => s.log.startOffset == 0 && s.log.nextOffset == 4 && s.log.sealed.length == 1)
    (by decide +kernel)
  rw [Bool.and_eq_true, Bool.and_eq_true, beq_iff_eq, beq_iff_eq, beq_iff_eq] at hs
  obtain ⟨⟨hstart, hnext⟩, hsealed⟩ := hs
  obtain ⟨hi, hc⟩ := intact_of_runs (by decide) (fun b y hy => by cases hy)
    (not_refuses_healthy _) hopen hrun
  obtain ⟨hread, -, -, hfollow⟩ := read_whole_batches (View.serves hi hc) (d := s.disk) rfl
  obtain ⟨got, hgot, hpre, -⟩ := hfollow [200, 3, 200] 0 hstart.le
  refine ⟨s, hstart, hnext, hsealed, ?_, got, hgot, hpre⟩
  obtain ⟨g, hg, p, f, r, hframes, hbase, hstop, -⟩ :=
    hread 2 (hstart.le.trans (by decide)) (by show 2 < s.log.nextOffset; omega)
  exact ⟨g, hg, p, f, r, hframes, hbase, hstop⟩

end Log

end LogEngine.Storage
