import LogEngine.Storage.Reopen

/-!
# A disk that declines to answer

`Log::open` while the disk refuses calls.  A read that fails and a read that comes up short
mean opposite things to recovery: a short one is the end of the file, and what is torn there
is cut off; one that fails says nothing about the bytes, and the open fails with it.  So on
a directory of segments that follow each other, with sound sidecars or none, an open that
succeeds has recovered what an undisturbed one would have, and one that fails has left every
batch where it was.
-/

namespace LogEngine.Storage

open Base Io Io.Disk Verified.Fallible Verified.Tiling Verified.Framing

/-! ## Sound sidecars -/

theorem Trusted.of_isPrefix {index index' : SparseIndex} {baseOffset : Nat} {image : Bytes}
    {fs : List Frame} (h : Trusted index baseOffset image fs) (hp : index' <+: index) :
    Trusted index' baseOffset image fs :=
  fun kept e hkept => h kept e (hkept.trans hp)

/-- A sound index can be trusted, whatever the file looks like. -/
theorem IndexSound.trusted {index : SparseIndex} {baseOffset : Nat} {fs : List Frame}
    (h : IndexSound index baseOffset fs) (htiles : Tiles baseOffset fs)
    (hlen : (encode fs).length < 0x100000000) (image : Bytes) :
    Trusted index baseOffset image fs := by
  intro kept e hkept _
  constructor
  · obtain ⟨p, f, hpf, hpos, hrel⟩ := h.marks e
      (hkept.subset (List.mem_append_right _ List.mem_cons_self))
    obtain ⟨hp, hbase, hlt⟩ := tiles_snoc.1 (htiles.of_isPrefix hpf)
    have hb : f.header.baseOffset = endFrom baseOffset p := hbase
    have hle := hp.le_end
    have hext := extent_lt htiles hlen
    have hend := htiles.end_lt_of_snoc hpf
    refine ⟨p, (List.prefix_append _ _).trans hpf, hpos, ?_⟩
    rw [hrel, hb, relative, Nat.mod_eq_of_lt (by omega)]
    omega
  · intro a ha
    exact h.marks a (hkept.subset (List.mem_append_left _ ha))

/-- Each sidecar of the directory holds a sound index of its segment. -/
def SoundSidecars (files : FileName → Option File) : Prop :=
  ∀ b y, files (.index b) = some y → ∃ index, y.visible = SparseIndex.encode index ∧
    IndexSound index b (recoverFile (logBytes files) b)

theorem SoundSidecars.credible {files : FileName → Option File} (h : SoundSidecars files)
    {options : SegmentOptions} (hwidth : options.maxBytes < 0x100000000) (b : Nat) :
    Credible options files b := by
  intro hfits y hy
  obtain ⟨index, hbytes, hsound⟩ := h b y hy
  obtain ⟨htiles, rest, hrest, -⟩ := Frame.parses b (logBytes files b)
  have hlen : (encode (recoverFile (logBytes files) b)).length < 0x100000000 := by
    have hle := congrArg List.length hrest
    rw [List.length_append] at hle
    unfold recoverFile
    omega
  have hrange : ∀ e ∈ index, e.relOffset < 0x100000000 ∧ e.filePos < 0x100000000 := by
    intro e he
    obtain ⟨p, f, hpf, hpos, hrel⟩ := hsound.marks e he
    have hle := (encode_isPrefix ((List.prefix_append _ _).trans hpf)).length_le
    constructor
    · rw [hrel]
      exact Nat.mod_lt _ (by decide)
    · omega
  rw [hbytes]
  exact (hsound.trusted htiles hlen _).of_isPrefix (decode_encode_isPrefix hrange _)

/-! ## Segments that follow each other -/

/-- The segments of the directory follow each other, and only the last may have something
behind its batches. -/
structure Contiguous (files : FileName → Option File) (bases : List Nat) : Prop where
  sorted : bases.Pairwise (· < ·)
  mem : ∀ b, b ∈ bases ↔ (files (.log b)).isSome
  joins : bases.IsChain fun b c => c = endFrom b (recoverFile (logBytes files) b)
  whole : ∀ b ∈ bases.dropLast, logBytes files b = encode (recoverFile (logBytes files) b)

/-- All segments are kept. -/
theorem recoverRow_contiguous {visible : Nat → Bytes} {bases : List Nat} {want : Option Nat}
    (hwant : ∀ w ∈ want, ∀ b ∈ bases.head?, b = w)
    (hjoins : bases.IsChain fun b c => c = endFrom b (recoverFile visible b))
    (hwhole : ∀ b ∈ bases.dropLast, visible b = encode (recoverFile visible b)) :
    recoverRow visible bases want = bases.map fun b => (b, recoverFile visible b) := by
  induction bases generalizing want with
  | nil => rfl
  | cons b bases ih =>
      have hb : ∀ w ∈ want, b = w := fun w hw => hwant w hw b rfl
      cases bases with
      | nil =>
          by_cases h : visible b = encode (recoverFile visible b)
          · rw [recoverRow_whole hb h]
            rfl
          · rw [recoverRow_torn hb h]
            rfl
      | cons c bases =>
          obtain ⟨hc, hrest⟩ := List.isChain_cons_cons.1 hjoins
          rw [List.dropLast_cons_cons] at hwhole
          obtain ⟨hfirst, hothers⟩ := List.forall_mem_cons.1 hwhole
          rw [recoverRow_whole hb hfirst, List.map_cons, ih _ hrest hothers]
          intro w hw a ha
          rw [← Option.some.inj ha, ← Option.some.inj hw]
          exact hc

theorem Contiguous.row {files : FileName → Option File} {bases : List Nat}
    (h : Contiguous files bases) :
    recoverRow (logBytes files) bases none =
      bases.map fun b => (b, recoverFile (logBytes files) b) :=
  recoverRow_contiguous (by simp) h.joins h.whole

/-- A directory is listed in one way only. -/
theorem Lists.unique {files : FileName → Option File} {bases bases' : List Nat}
    (h : Lists files bases) (h' : Lists files bases') : bases = bases' := by
  apply List.Perm.eq_of_pairwise' h.sorted h'.sorted
  apply (List.perm_ext_iff_of_nodup (h.sorted.imp fun hlt => hlt.ne)
    (h'.sorted.imp fun hlt => hlt.ne)).2
  intro b
  rw [h.mem, h'.mem]

/-- The batches of a log that has just been opened, and where it ends, are a matter of what was
listed and of what is in the files. -/
theorem Reopened.of_row [Faults] {options : LogOptions} {files : FileName → Option File} {v : View}
    (h : Reopened options files v) {row : List (Nat × List Frame)}
    (hrow : (v.log.segments.map fun s => (s.baseOffset, s.frames v.files)) = row) :
    v.frames = row.flatMap Prod.snd ∧
      ∀ b fs, row.getLast? = some (b, fs) → v.log.nextOffset = endFrom b fs := by
  subst hrow
  constructor
  · rw [View.frames, List.flatMap_map]
  · intro b fs hlast
    rw [Log.segments, List.map_append, List.map_cons, List.map_nil, List.getLast?_concat,
      Option.some.injEq, Prod.mk.injEq] at hlast
    obtain ⟨rfl, rfl⟩ := hlast
    rw [h.chained.ends]
    exact (h.segment _ (View.active_mem _)).2.2.next

theorem Reopened.row_ne_nil [Faults] {options : LogOptions} {files : FileName → Option File}
    {v : View} (_ : Reopened options files v) :
    (v.log.segments.map fun s => (s.baseOffset, s.frames v.files)) ≠ [] := by
  intro hnil
  rw [Log.segments, List.map_append] at hnil
  exact List.cons_ne_nil _ _ (List.append_eq_nil_iff.1 hnil).2

/-- Two opens of one directory recover the same batches. -/
theorem Reopened.same {faults faults' : Faults} {options : LogOptions}
    {files : FileName → Option File} {v v' : View} (h : @Reopened faults options files v)
    (h' : @Reopened faults' options files v') :
    v.frames = v'.frames ∧ v.log.nextOffset = v'.log.nextOffset := by
  obtain ⟨bases, hlists, hrow⟩ := @Reopened.row faults _ _ _ h
  obtain ⟨bases', hlists', hrow'⟩ := @Reopened.row faults' _ _ _ h'
  obtain rfl := hlists.unique hlists'
  obtain ⟨hframes, hnext⟩ := @Reopened.of_row faults _ _ _ h _ hrow
  obtain ⟨hframes', hnext'⟩ := @Reopened.of_row faults' _ _ _ h' _ hrow'
  have hne := hrow ▸ @Reopened.row_ne_nil faults _ _ _ h
  obtain ⟨init, ⟨b, fs⟩, hsnoc⟩ := (List.eq_nil_or_concat' _).resolve_left hne
  have hlast : (recoverRow (logBytes files) bases none).getLast? = some (b, fs) := by
    rw [hsnoc, List.getLast?_concat]
  constructor
  · rw [hframes, hframes']
  · rw [hnext b fs hlast, hnext' b fs hlast]

/-- On a directory of segments that follow each other, all batches are recovered. -/
theorem Reopened.frames_contiguous [Faults] {options : LogOptions}
    {files : FileName → Option File} {v : View} {bases : List Nat} (h : Reopened options files v)
    (hc : Contiguous files bases) :
    v.frames = bases.flatMap (recoverFile (logBytes files)) ∧
      ∀ b ∈ bases, ∃ s ∈ v.log.segments, s.baseOffset = b := by
  obtain ⟨listed, hlists, hrow⟩ := h.row
  cases bases with
  | nil =>
      -- nothing is there: the first segment is new
      have hnone : ∀ c, files (.log c) = none := fun c =>
        Option.not_isSome_iff_eq_none.1 fun hsome => List.not_mem_nil ((hc.mem c).2 hsome)
      have hfirst : Lists files [0] := by
        constructor
        · exact List.pairwise_singleton _ _
        · intro b
          rw [List.mem_singleton, hnone b]
          exact ⟨fun hb => .inr ⟨hb, hnone⟩, fun hb => hb.elim (fun hb => by cases hb) And.left⟩
      obtain rfl := hlists.unique hfirst
      have hempty : recoverFile (logBytes files) 0 = [] := by
        rw [recoverFile, logBytes, hnone 0]
        rfl
      refine ⟨?_, by simp⟩
      have hrow₀ : recoverRow (logBytes files) [0] none =
          [(0, recoverFile (logBytes files) 0)] :=
        recoverRow_contiguous (by simp) (.singleton _) (by simp)
      rw [(h.of_row hrow).1, hrow₀, hempty]
      rfl
  | cons c bases =>
      have hmine : Lists files (c :: bases) := by
        refine ⟨hc.sorted, fun b => (hc.mem b).trans ⟨.inl, ?_⟩⟩
        rintro (hsome | ⟨-, hnone⟩)
        · exact hsome
        · have hsome := (hc.mem c).1 List.mem_cons_self
          rw [hnone c] at hsome
          cases hsome
      obtain rfl := hlists.unique hmine
      rw [hc.row] at hrow
      constructor
      · rw [(h.of_row hrow).1, List.flatMap_map]
      · intro b hb
        have hmem := List.mem_map_of_mem (f := fun b => (b, recoverFile (logBytes files) b)) hb
        rw [← hrow] at hmem
        obtain ⟨s, hs, heq⟩ := List.mem_map.1 hmem
        exact ⟨s, hs, congrArg Prod.fst heq⟩

/-- The batches of a file are still there after an open that failed. -/
theorem Unopened.batches {files files' : FileName → Option File} (h : Unopened files files')
    {b : Nat} {x : File} (hx : files (.log b) = some x) :
    ∃ y, files' (.log b) = some y ∧ encode (recoverFile (logBytes files) b) <+: y.visible := by
  have hbytes : logBytes files b = x.visible := by rw [logBytes, hx, Option.getD_some]
  rw [recoverFile, hbytes]
  rcases h with ⟨opened, -, hfiles⟩ | ⟨hnone, -⟩
  · by_cases hb : b ∈ opened
    · refine ⟨_, hfiles.here b hb x hx, ?_⟩
      rw [recovered_visible]
    · refine ⟨x, ?_, ?_⟩
      · rw [hfiles.other _ fun c hc heq => hb (by cases heq; exact hc), hx]
      · obtain ⟨-, rest, hrest, -⟩ := Frame.parses b x.visible
        exact ⟨rest, hrest.symm⟩
  · rw [hnone b] at hx
    cases hx

/-- Whatever calls the disk refuses while a log is opened: either the open fails and every batch
is still on the disk, or it recovers all batches, as an undisturbed open does. -/
theorem Log.open_disturbed {faults : Faults} {options : LogOptions} {d : Disk} {bases : List Nat}
    (hwidth : options.segmentMaxBytes < 0x100000000) (hc : Contiguous d.file bases)
    (hside : SoundSidecars d.file) :
    (∀ e t, @Log.open faults options d = .error e t → ∀ b x, d.file (.log b) = some x →
      ∃ y, t.file (.log b) = some y ∧
        encode (recoverFile (logBytes d.file) b) <+: y.visible) ∧
    ∀ l t, @Log.open faults options d = .ok l t →
      View.frames ⟨l, t.file⟩ = bases.flatMap (recoverFile (logBytes d.file)) ∧
      ∃ l' t', @Log.open healthy options d = .ok l' t' ∧
        View.frames ⟨l, t.file⟩ = View.frames ⟨l', t'.file⟩ ∧ l.nextOffset = l'.nextOffset := by
  have hspec := fun faults => @Log.open_credible faults d options hwidth (hside.credible hwidth)
  constructor
  · intro e t hopen b x hx
    have hfailed := hspec faults
    rw [hopen] at hfailed
    exact hfailed.1.batches hx
  · intro l t hopen
    have hopened : @Reopened faults options d.file ⟨l, t.file⟩ := by
      have hok := hspec faults
      rw [hopen] at hok
      exact hok
    obtain ⟨hframes, hall⟩ := @Reopened.frames_contiguous faults _ _ _ _ hopened hc
    refine ⟨hframes, ?_⟩
    have hquiet := hspec healthy
    cases hr : @Log.open healthy options d with
    | ok l' t' =>
        rw [hr] at hquiet
        obtain ⟨hsame, hnext⟩ := Reopened.same hopened hquiet
        exact ⟨l', t', rfl, hsame, hnext⟩
    | error e t' =>
        rw [hr] at hquiet
        obtain ⟨-, ⟨op, hrefused⟩ | ⟨b, x, hx, hhopeless⟩⟩ := hquiet
        · exact absurd hrefused (not_refuses_healthy op)
        -- a file that cannot be opened at all would have stopped the first open, too
        · obtain ⟨s, hs, rfl⟩ := hall b ((hc.mem b).2 (by rw [hx]; rfl))
          exact absurd hhopeless (@Reopened.hopeful faults _ _ _ hopened s hs x hx)

/-! ## A directory of two segments -/

def batchAtZero : Frame := BatchBuilder.frame { records := [[11]] } (by decide) 0 {}

def batchAtOne : Frame := BatchBuilder.frame { records := [[12], [13]] } (by decide) 1 {}

def batchAtThree : Frame := BatchBuilder.frame { records := [[14]] } (by decide) 3 {}

/-- Two batches with a sidecar, and one batch with a torn one behind it. -/
def tornDirectory : Disk :=
  ((({} : Disk).put (.log 0) { visible := encode [batchAtZero, batchAtOne] }).put
    (.index 0) { visible := SparseIndex.encode [⟨0, 0⟩, ⟨1, 57⟩] }).put
    (.log 3) { visible := encode [batchAtThree] ++ [5, 5] }

private theorem tornDirectory_file : tornDirectory.file = Function.update (Function.update
    (Function.update (fun _ => none) (.log 0)
      (some { visible := encode [batchAtZero, batchAtOne] })) (.index 0)
      (some { visible := SparseIndex.encode [⟨0, 0⟩, ⟨1, 57⟩] })) (.log 3)
      (some { visible := encode [batchAtThree] ++ [5, 5] }) := by
  rw [tornDirectory, file_put, file_put, file_put]
  rfl

private theorem tornDirectory_first : recoverFile (logBytes tornDirectory.file) 0 =
    [batchAtZero, batchAtOne] := by
  have hbytes : logBytes tornDirectory.file 0 = encode [batchAtZero, batchAtOne] := by
    rw [logBytes, tornDirectory_file]
    rfl
  rw [recoverFile, hbytes]
  apply parse_encode
  exact ⟨by decide +kernel, by decide +kernel, by decide +kernel, by decide +kernel, trivial⟩

private theorem tornDirectory_contiguous : Contiguous tornDirectory.file [0, 3] := by
  constructor
  · decide
  · intro b
    rw [tornDirectory_file]
    simp only [Function.update_apply, FileName.log.injEq, reduceCtorEq, if_false]
    by_cases h₃ : b = 3
    · simp [h₃]
    by_cases h₀ : b = 0
    · simp [h₀]
    · simp [h₀, h₃]
  · refine .cons_cons ?_ (.singleton _)
    rw [tornDirectory_first]
    decide +kernel
  · intro b hb
    obtain rfl : b = 0 := List.mem_singleton.1 hb
    rw [tornDirectory_first, logBytes, tornDirectory_file]
    rfl

private theorem tornDirectory_sidecars : SoundSidecars tornDirectory.file := by
  intro b y hy
  rw [tornDirectory_file] at hy
  obtain rfl : b = 0 := by
    by_contra hb
    simp [hb] at hy
  obtain rfl := Option.some.inj hy
  refine ⟨[⟨0, 0⟩, ⟨1, 57⟩], rfl, ?_⟩
  rw [tornDirectory_first]
  constructor
  · exact List.pairwise_pair.2 ⟨by decide, by decide⟩
  · intro e he
    rcases List.mem_cons.1 he with rfl | he
    · exact ⟨[], batchAtZero, ⟨[batchAtOne], rfl⟩, rfl, by decide +kernel⟩
    · obtain rfl := List.mem_singleton.1 he
      exact ⟨[batchAtZero], batchAtOne, List.prefix_rfl, by decide +kernel, by decide +kernel⟩

/-- A disk that declines one read in three. -/
@[reducible] def everyThirdRead : Faults := ⟨fun n op => n % 3 == 0 && op == .pread, fun _ => 0⟩

theorem open_disturbed_tornDirectory :
    (∀ e t, @Log.open everyThirdRead {} tornDirectory = .error e t →
      ∃ y, t.file (.log 0) = some y ∧ encode [batchAtZero, batchAtOne] <+: y.visible) ∧
    ∀ l t, @Log.open everyThirdRead {} tornDirectory = .ok l t →
      ∃ l' t', @Log.open healthy {} tornDirectory = .ok l' t' ∧ l.nextOffset = l'.nextOffset := by
  obtain ⟨hfailed, hopened⟩ := @Log.open_disturbed everyThirdRead {} _ _ (by decide)
    tornDirectory_contiguous tornDirectory_sidecars
  constructor
  · intro e t h
    rw [← tornDirectory_first]
    apply hfailed e t h 0 { visible := encode [batchAtZero, batchAtOne] }
    rw [tornDirectory_file]
    rfl
  · intro l t h
    obtain ⟨-, l', t', hquiet, -, hnext⟩ := hopened l t h
    exact ⟨l', t', hquiet, hnext⟩

end LogEngine.Storage
