import LogEngine.Io.SimDisk
import LogEngine.Storage.Leftovers

/-!
# The log on the platter

What a power cut would leave of a log.  A segment is flushed before the next one is opened,
and the active one by `fsync`; a cut goes through to the platter at once.  So after an
`fsync` the batches of the log are on the platter, all of them (`View.Durable`), and a log
that is opened on the platter alone has them (`View.Firm.recovers`).

The sidecars are written and never flushed: none of their bytes is ever on the platter
(`Faint`).
-/

namespace LogEngine.Storage

open Base Io Io.Disk Verified.Fallible Verified.Tiling Verified.Framing

/-! ## Files -/

section Files

variable {x : File}

/-- With nothing pending, what is visible is on the platter. -/
theorem durable_of_settled (h : x.Consistent) (hp : x.pending = []) : x.durable = x.visible := by
  have hreplay : replay x.durable x.pending = x.visible := h
  rw [hp] at hreplay
  exact hreplay

private theorem durable_length_le (h : x.Consistent) : x.durable.length ≤ x.visible.length := by
  rw [← show replay x.durable x.pending = x.visible from h]
  exact length_le_replay _ _

private theorem consistent_update {files : FileName → Option File}
    (h : ∀ b x, files (.log b) = some x → x.Consistent) {g : FileName} {y : Option File}
    (hy : ∀ x ∈ y, x.Consistent) (b : Nat) (x : File)
    (hx : Function.update files g y (.log b) = some x) : x.Consistent := by
  by_cases hg : .log b = g
  · rw [← hg, Function.update_self] at hx
    exact hy x hx
  · rw [Function.update_of_ne hg] at hx
    exact h b x hx

private theorem consistent_getD {files : FileName → Option File}
    (h : ∀ b x, files (.log b) = some x → x.Consistent) (b : Nat) :
    ((files (.log b)).getD {}).Consistent := by
  cases hb : files (.log b) with
  | none => exact File.consistent_empty
  | some x => exact h b x hb

end Files

/-! ## Sidecars -/

/-- Nothing of the sidecars is on the platter. -/
def Faint (files : FileName → Option File) : Prop :=
  ∀ b y, files (.index b) = some y → y.durable = []

/-- If nothing of the sidecars was on the platter, nothing is. -/
def Fades (d t : Disk) : Prop := Faint d.file → Faint t.file

private theorem fades_update {d t : Disk} {g : FileName} {y : Option File}
    (ht : t.file = Function.update d.file g y) (hy : ∀ x ∈ y, Faint d.file → x.durable = []) :
    Fades d t := by
  intro h b x hx
  rw [ht] at hx
  by_cases hg : .index b = g
  · rw [← hg, Function.update_self] at hx
    exact hy x hx h
  · rw [Function.update_of_ne hg] at hx
    exact h b x hx

private theorem fades_of_eq {d t : Disk} (ht : t.file = d.file) : Fades d t := by
  intro h
  rw [ht]
  exact h

/-- A sidecar is emptied and written, and not flushed. -/
theorem flushIndex_fades [Faults] (s : Segment) : Keeps Fades s.flushIndex := by
  intro d
  refine ((openCreate_sat s.indexFile d).mono (fun _ _ ht => ht) fun t ht => fades_of_eq ht.1).bind
    fun _ t ht => ?_
  have hx : t.file s.indexFile = some ((d.file s.indexFile).getD {}) := by
    rw [ht, Function.update_self]
  have hopened : Fades d t := by
    refine fades_update ht fun x hx hd => ?_
    obtain rfl := Option.some.inj hx
    cases hfile : d.file s.indexFile with
    | none => rfl
    | some y => exact hd s.baseOffset y hfile
  refine ((truncate_ends hx 0).sat fun _ u hu hd => fades_of_eq hu.1 (hopened hd)).bind
    fun _ u hu => ?_
  -- from here on the sidecar has nothing on the platter, whatever was there
  have hafter : ∀ (y : File) (w : Disk), y.durable = [] →
      w.file = Function.update u.file s.indexFile (some y) → Fades d w := by
    intro y w hy hw hd
    refine fades_update hw (fun x hx _ => Option.some.inj hx ▸ hy) ?_
    refine fades_update hu.2 (fun x hx _ => ?_) (hopened hd)
    obtain rfl := Option.some.inj hx
    rfl
  have hy : u.file s.indexFile = some (((d.file s.indexFile).getD {}).truncate 0) := by
    rw [hu.2, Function.update_self]
  refine Sat.ite (fun _ => ?_) fun hne => ?_
  · exact hafter _ u rfl (by rw [← hy, Function.update_eq_self])
  · refine ((pwrite_sat hy hne 0).mono (fun _ _ hw => hw.2.2) fun w hw => ?_).bind fun _ w hw => ?_
    · obtain ⟨z, hw, hz⟩ := hw
      cases hz with
      | none => exact hafter _ w rfl hw
      | some k ha hk => exact hafter _ w rfl hw
    · exact hafter _ w rfl hw

theorem framed_fades [Faults] : Log.Framed Fades where
  refl _ h := h
  trans h h' hd := h' (h hd)
  log b d t h hd c y hy := by
    rw [h (.index c) FileName.noConfusion] at hy
    exact hd c y hy
  flushIndex := flushIndex_fades
  removeIndex b d := by
    refine (remove_sat (.index b) d).mono (fun _ t ht => ?_) fun t ht => ?_
    · exact fades_update ht fun _ hx => by cases hx
    · exact fades_of_eq ht.1

/-! ## Views -/

namespace View

/-- What is visible of a log file is on its platter once it is flushed, and for a sealed
segment it is there. -/
structure Sturdy (v : View) : Prop where
  consistent : ∀ b x, v.files (.log b) = some x → x.Consistent
  sealed : ∀ s ∈ v.log.sealed, ∀ x, v.files s.logFile = some x → x.pending = []

/-- The batches of the active segment are on the platter. -/
def Durable (v : View) : Prop :=
  ∃ x fs, v.files v.log.active.logFile = some x ∧ v.log.active.Holds x fs ∧
    encode fs <+: x.durable

/-- The file of the active segment has its batches and nothing behind them. -/
def Whole (v : View) : Prop :=
  logSize v.files v.log.active.baseOffset = some v.log.active.sizeBytes

section Steps

variable [Faults] {v w : View} {label : Label} {offset : Nat}

omit [Faults] in
/-- The file of the active segment may change, to one that is consistent. -/
theorem Sturdy.replace (h : v.Sturdy) (hi : v.Intact) {log : Log} {y : File}
    (hsealed : log.sealed = v.log.sealed) (hy : y.Consistent) :
    (View.mk log (Function.update v.files v.log.active.logFile (some y))).Sturdy where
  consistent := by
    refine consistent_update h.consistent fun x hx => ?_
    obtain rfl := Option.some.inj hx
    exact hy
  sealed := by
    intro s hs x hx
    dsimp only at hs hx
    rw [hsealed] at hs
    have hne : s.logFile ≠ v.log.active.logFile := fun heq =>
      hi.sealed_ne hs (FileName.log.inj heq)
    rw [Function.update_of_ne hne] at hx
    exact h.sealed s hs x hx

/-- Every step keeps the files of the log consistent. -/
theorem Sturdy.step (h : v.Sturdy) (hi : v.Intact) (hs : Step v label w) : w.Sturdy := by
  have hactive : ∀ {x}, v.files v.log.active.logFile = some x → x.Consistent :=
    fun hx => h.consistent _ _ hx
  cases hs with
  | flush hx =>
      refine h.replace hi rfl ?_
      rw [(hactive hx).flush]
      rfl
  | sidecar hs hy =>
      refine ⟨fun b x hx => ?_, fun s hs x hx => ?_⟩
      · dsimp only at hx
        rw [Function.update_of_ne FileName.noConfusion] at hx
        exact h.consistent b x hx
      · dsimp only at hx
        rw [Function.update_of_ne FileName.noConfusion] at hx
        exact h.sealed s hs x hx
  | @roll hne hflushed x y seg hx ho =>
      have hold : x.Consistent := hx ▸ consistent_getD h.consistent _
      have hnew : y.Consistent := by
        rcases ho.file with rfl | ⟨n, rfl⟩
        · exact hold
        · exact hold.truncate n
      refine ⟨consistent_update h.consistent fun z hz => Option.some.inj hz ▸ hnew, ?_⟩
      intro s hs z hz
      have hother : s.logFile ≠ .log v.log.nextOffset := fun heq =>
        (hi.lt_next hne hs).ne (FileName.log.inj heq)
      dsimp only at hz
      rw [Function.update_of_ne hother] at hz
      rcases mem_segments.1 hs with hs | rfl
      · exact h.sealed s hs z hz
      · obtain ⟨z', hz', hpending⟩ := hflushed
        obtain rfl := Option.some.inj (hz'.symm.trans hz)
        exact hpending
  | @create hne hflushed x hx hr =>
      have hold : x.Consistent := hx ▸ consistent_getD h.consistent _
      refine ⟨consistent_update h.consistent fun z hz => Option.some.inj hz ▸ hold, ?_⟩
      intro s hs z hz
      have hother : s.logFile ≠ .log v.log.nextOffset := fun heq =>
        (hi.lt_next hne (mem_segments.2 (.inl hs))).ne (FileName.log.inj heq)
      dsimp only at hz
      rw [Function.update_of_ne hother] at hz
      exact h.sealed s hs z hz
  | @spill x y f hx hroom hy =>
      refine h.replace hi rfl ?_
      cases hy with
      | none => exact hactive hx
      | some k ha hne => exact (hactive hx).write _ _
  | append hx hbase hroom hcap => exact h.replace hi rfl ((hactive hx).write _ _)
  | @drop init before _ y z hsealed hge hy hz =>
      refine ⟨fun b x hx => ?_, fun s hs x hx => ?_⟩
      · dsimp only at hx
        rw [Function.update_of_ne FileName.noConfusion] at hx
        refine consistent_update h.consistent (fun x' hx' => ?_) b x hx
        rcases hy with rfl | ⟨rfl, -⟩
        · cases hx'
        · exact hactive hx'
      · dsimp only at hs hx
        have hs' : s ∈ v.log.sealed := hsealed ▸ List.mem_append_left _ hs
        have hne : s.logFile ≠ v.log.active.logFile := fun heq =>
          hi.sealed_ne hs' (FileName.log.inj heq)
        rw [Function.update_of_ne FileName.noConfusion, Function.update_of_ne hne] at hx
        exact h.sealed s hs' x hx
  | retreat hle => exact ⟨h.consistent, h.sealed⟩
  | cut hx hholds hlt hcut => exact h.replace hi rfl ((hactive hx).truncate _)

omit [Faults] in
/-- A flush brings the batches to the platter. -/
theorem Sturdy.durable (h : v.Sturdy) (hi : v.Intact) {x : File}
    (hx : v.files v.log.active.logFile = some x) :
    (View.mk v.log (Function.update v.files v.log.active.logFile (some x.flush))).Durable := by
  obtain ⟨y, hy, hholds⟩ := hi.active_holds
  obtain rfl := Option.some.inj (hy.symm.trans hx)
  refine ⟨y.flush, _, Function.update_self .., hholds.congr_file hholds.content, ?_⟩
  rw [(h.consistent _ _ hx).flush]
  exact hholds.content

theorem Durable.quiet (h : v.Durable) (hs : v.Sturdy) (hi : v.Intact) {rolls : Bool}
    (hstep : Step v (.quiet rolls) w) : w.Durable := by
  cases hstep with
  | flush hx => exact hs.durable hi hx
  | sidecar hseg hy =>
      obtain ⟨x, fs, hx, hholds⟩ := h
      refine ⟨x, fs, ?_, hholds⟩
      dsimp only
      rw [Function.update_of_ne FileName.noConfusion]
      exact hx
  | @roll hne hflushed x y seg hx ho =>
      obtain ⟨rfl, hholds⟩ := ho.empty (hx ▸ hi.stray fun s hs => (hi.lt_next hne hs).ne)
      refine ⟨y, [], ?_, hholds, List.nil_prefix⟩
      have hfile : seg.logFile = .log v.log.nextOffset := congrArg FileName.log ho.base
      dsimp only
      rw [hfile, Function.update_self]

theorem Durable.quiets (h : v.Durable) (hs : v.Sturdy) (hi : v.Intact) (hq : Quiet v w) :
    w.Sturdy ∧ w.Durable := by
  induction hq with
  | refl => exact ⟨hs, h⟩
  | tail hfirst hlast ih =>
      obtain ⟨rolls, hstep⟩ := hlast
      have hu := (hi.quiets hfirst).1
      exact ⟨ih.1.step hu hstep, ih.2.quiet ih.1 hu hstep⟩

theorem Durable.spill (h : v.Durable) (hi : v.Intact) (hstep : Step v .spill w) : w.Durable := by
  obtain ⟨x, fs, hx, hholds, hdurable⟩ := h
  cases hstep with
  | @create hne hflushed y hy hr =>
      refine ⟨x, fs, ?_, hholds, hdurable⟩
      have hother : v.log.active.logFile ≠ .log v.log.nextOffset := fun heq =>
        (hi.lt_next hne (active_mem _)).ne (FileName.log.inj heq)
      dsimp only
      rw [Function.update_of_ne hother]
      exact hx
  | @spill x' y f hx' hroom hy =>
      obtain rfl := Option.some.inj (hx'.symm.trans hx)
      refine ⟨y, fs, Function.update_self .., hholds.attempted hy, ?_⟩
      cases hy with
      | none => exact hdurable
      | some k ha hne => exact hdurable

theorem Durable.spoilt (h : v.Durable) (hs : v.Sturdy) (hi : v.Intact) {size : Nat}
    (hspoilt : Spoilt v size w) : w.Sturdy ∧ w.Durable := by
  obtain ⟨u, hroom, hlast⟩ := hspoilt
  have hu := h.quiets hs hi hroom.quiet
  rcases hlast with rfl | hspill
  · exact hu
  · have hi' := (hi.quiets hroom.quiet).1
    exact ⟨hu.1.step hi' hspill, hu.2.spill hi' hspill⟩

/-- The segment before the active one has been flushed. -/
theorem Sturdy.drop (h : v.Sturdy) (hi : v.Intact) (hremove : ¬ Refuses .remove)
    (hstep : Step v (.drop offset) w) : w.Durable := by
  have hw := h.step hi hstep
  have hi' := (hi.drop hremove hstep).1
  obtain ⟨x, hx, hholds⟩ := hi'.active_holds
  refine ⟨x, _, hx, hholds, ?_⟩
  have hpending : x.pending = [] := by
    cases hstep with
    | @drop init before _ y z hsealed hge hy hz =>
        have hbefore : before ∈ v.log.sealed := hsealed ▸ List.mem_append_right _ (by simp)
        have hne : before.logFile ≠ v.log.active.logFile := fun heq =>
          hi.sealed_ne hbefore (FileName.log.inj heq)
        dsimp only at hx
        rw [Function.update_of_ne FileName.noConfusion, Function.update_of_ne hne] at hx
        exact h.sealed before hbefore x hx
  rw [durable_of_settled (hw.consistent _ _ hx) hpending]
  exact hholds.content

theorem Durable.drops (h : v.Durable) (hs : v.Sturdy) (hi : v.Intact) (hremove : ¬ Refuses .remove)
    (hdrops : Drops offset v w) : w.Sturdy ∧ w.Durable := by
  induction hdrops with
  | refl => exact ⟨hs, h⟩
  | tail hfirst hlast ih =>
      have hu := (hi.drops hremove hfirst).1
      exact ⟨ih.1.step hu hlast, ih.1.drop hu hremove hlast⟩

/-- A cut goes through to the platter. -/
theorem Durable.cut (h : v.Durable) (hle : v.log.active.baseOffset ≤ offset)
    (hstep : Step v (.cut offset) w) : w.Durable := by
  obtain ⟨x, fs, hx, hholds, hdurable⟩ := h
  cases hstep with
  | retreat => exact ⟨x, fs, hx, hholds, hdurable⟩
  | @cut y gs _ hy hgs hlt hcut =>
      obtain rfl := Option.some.inj (hy.symm.trans hx)
      obtain rfl : gs = fs := (hgs.frames_eq hx).symm.trans (hholds.frames_eq hx)
      have hpre := upTo_isPrefix gs offset
      have hshort := hgs.truncated hpre
      rw [hcut.end_eq hgs.tiles hle] at hshort
      refine ⟨_, _, Function.update_self .., hshort, ?_⟩
      show encode (upTo gs offset) <+: resize y.durable (encode (upTo gs offset)).length
      rw [resize_eq ((encode_isPrefix hpre).trans hdurable)]

omit [Faults] in
/-- With nothing behind the batches, all that is visible of the log files is on the platter. -/
theorem Durable.settled (h : v.Durable) (hs : v.Sturdy) (hi : v.Intact) (hw : v.Whole) {b : Nat}
    {x : File} (hx : v.files (.log b) = some x) : x.durable = x.visible := by
  have hlen := durable_length_le (hs.consistent b x hx)
  by_cases hseg : ∃ s ∈ v.log.segments, s.baseOffset = b
  · obtain ⟨s, hseg, rfl⟩ := hseg
    rcases mem_segments.1 hseg with hsealed | rfl
    · exact durable_of_settled (hs.consistent _ _ hx) (hs.sealed s hsealed x hx)
    · obtain ⟨y, fs, hy, hholds, hdurable⟩ := h
      obtain rfl := Option.some.inj (hy.symm.trans hx)
      have hsize : y.visible.length = (encode fs).length := by
        have hwhole := hw
        rw [Whole, logSize_eq hx, Option.some.injEq] at hwhole
        exact hwhole.trans hholds.size
      have hle := hdurable.length_le
      exact (hdurable.eq_of_length (by omega)).symm.trans (hholds.content.eq_of_length hsize.symm)
  · have hempty := hi.strays b (fun s hs heq => hseg ⟨s, hs, heq⟩) x hx
    rw [hempty] at hlen ⊢
    exact List.eq_nil_of_length_eq_zero (Nat.le_zero.1 hlen)

/-- A batch goes behind the others. -/
theorem Whole.append (h : v.Whole) {f : Frame} (hstep : Step v (.append f) w) : w.Whole := by
  cases hstep with
  | @append x _ hx hbase hroom hcap =>
      have hlen : x.visible.length = v.log.active.sizeBytes := by
        rw [Whole, logSize_eq hx, Option.some.injEq] at h
        exact h
      have hnew : (x.write v.log.active.sizeBytes f.bytes).visible.length =
          v.log.active.sizeBytes + f.bytes.length := by
        refine (applyBytes_length f.bytes_ne).trans ?_
        rw [hlen]
        exact Nat.max_eq_right (Nat.le_add_right _ _)
      exact (logSize_eq (Function.update_self ..)).trans (congrArg some hnew)

end Steps

/-! ## Calls -/

/-- An orderly log, whose batches are all on the platter. -/
structure Firm (v : View) : Prop where
  orderly : v.Orderly
  sturdy : v.Sturdy
  durable : v.Durable

section Calls

variable [Faults] {u v w : View} {offset size : Nat}

theorem Firm.spoilt (h : v.Firm) (hi : v.Intact) (hready : v.Ready) (hs : Spoilt v size w) :
    w.Firm := by
  obtain ⟨hsturdy, hdurable⟩ := h.durable.spoilt h.sturdy hi hs
  exact ⟨h.orderly.spoilt hi (fun _ => hready) hs, hsturdy, hdurable⟩

theorem Firm.truncated (h : v.Firm) (hi : v.Intact) (hready : v.Ready) (hremove : ¬ Refuses .remove)
    (hd : (Call.truncateTo offset).Done v w) : w.Firm ∧ w.Ready := by
  rcases hd with ⟨rfl, rfl⟩ | ⟨u, hpopped, hcut⟩
  · exact ⟨h, hready⟩
  · obtain ⟨hu, -, hstart, -⟩ := hi.popped hremove hpopped
    obtain ⟨horderly, hready'⟩ := hready.drops h.orderly hi hremove hpopped.drops
    obtain ⟨hsturdy, hdurable⟩ := h.durable.drops h.sturdy hi hremove hpopped.drops
    have hle := hu.base_le (hstart ▸ hpopped.start) hpopped.last
    exact ⟨⟨horderly.cut hu hcut, hsturdy.step hu hcut, hdurable.cut hle hcut⟩, hready'.cut hu hcut⟩

/-- An append that is flushed. -/
theorem Firm.appended (h : v.Firm) (hi : v.Intact) (hready : v.Ready) (hroom : Room v size u)
    {f : Frame} (hstep : Step u (.append f) w) {x : File}
    (hx : w.files w.log.active.logFile = some x) :
    (View.mk w.log (Function.update w.files w.log.active.logFile (some x.flush))).Firm ∧
      (View.mk w.log (Function.update w.files w.log.active.logFile (some x.flush))).Whole := by
  have hu := (hi.quiets hroom.quiet).1
  have hw := (hu.append hstep).1
  have horderly := (h.orderly.room hi (fun _ => hready) hroom).append hu hstep
  have hwhole : u.Whole := (h.orderly.quiets hready hi hroom.quiet).2.whole
  have hsturdy := ((h.durable.quiets h.sturdy hi hroom.quiet).1).step hu hstep
  have hflush : Step w (.quiet false) _ := Step.flush hx
  obtain ⟨hlog, hsize⟩ := sync_size hflush
  refine ⟨⟨horderly.congr hlog hsize, hsturdy.step hw hflush, hsturdy.durable hw hx⟩, ?_⟩
  show logSize _ _ = _
  rw [hsize]
  exact hwhole.append hstep

omit [Faults] in
/-- The log is opened as it was on its platter alone. -/
theorem Firm.recovers (h : v.Firm) (hi : v.Intact) (hc : v.log.Chained) (hw : v.Whole)
    (hfaint : Faint v.files) {d : Disk} (hd : ∀ g ≠ .state, d.file g = v.files g) :
    ∃ l t, @Log.open healthy v.log.options d.platter = .ok l t ∧
      (View.mk l t.file).frames = v.frames ∧ l.nextOffset = v.log.nextOffset := by
  have hplatter : ∀ g, d.platter.file g = (d.file g).map File.platter := file_mapFiles d _
  refine h.orderly.reopens hi hc ?_ (fun b y hy => ?_) fun b => ?_
  · obtain ⟨x, hx, hholds⟩ := hi.active_holds
    have hwhole := hw
    rw [Whole, logSize_eq hx, Option.some.injEq, hholds.size] at hwhole
    have hx' : v.files (.log v.log.active.baseOffset) = some x := hx
    rw [logBytes, hx', Option.getD_some, ← hholds.content.eq_of_length hwhole.symm,
      parse_encode hholds.tiles]
  · rw [hplatter, hd _ FileName.noConfusion, Option.map_eq_some_iff] at hy
    obtain ⟨x, hx, rfl⟩ := hy
    exact hfaint b x hx
  · rw [hplatter, hd _ FileName.noConfusion, Option.map_map]
    refine Option.map_congr fun x hx => ?_
    exact h.durable.settled h.sturdy hi hw hx

end Calls

end View

/-! ## Stores -/

section Stores

variable [Faults] {s t : Store}

/-- A batch is appended, and then flushed. -/
theorem View.Firm.flushed (h : s.view.Firm) (hi : s.view.Intact) (hready : s.view.Ready) {u : View}
    {w : Store} {size : Nat} {f : Frame} (hroom : Room s.view size u)
    (hstep : Step u (.append f) w.view) (hsync : Log.fsync w = .ok () t) :
    t.view.Firm ∧ t.view.Whole := by
  have hw := ((hi.quiets hroom.quiet).1.append hstep).1
  obtain ⟨x, hx, -⟩ := hw.active_holds
  have hspec := Log.fsync_sat hx
  rw [hsync] at hspec
  have hview : t.view = ⟨w.log, Function.update w.view.files w.log.active.logFile (some x.flush)⟩ :=
    hspec
  rw [hview]
  exact h.appended hi hready hroom hstep hx

theorem Carried.firm_replicated {framed : Bytes} (h : s.view.Firm) (hi : s.view.Intact)
    (hready : s.view.Ready) (hcalls : Carried s [.appendReplicated framed, .fsync] t) :
    t.view.Firm ∧ t.view.Whole := by
  cases hcalls with
  | cons hfirst hrest =>
      obtain ⟨f, u, -, -, hroom, hstep⟩ := Carried.done hi (fun _ hc => by cases hc) hfirst
      cases hrest with
      | cons hsync hnil =>
          cases hnil
          exact h.flushed hi hready hroom hstep hsync

theorem Carried.firm_proposed {builder : BatchBuilder} {info : BatchMeta} (h : s.view.Firm)
    (hi : s.view.Intact) (hready : s.view.Ready)
    (hcalls : Carried s [.append builder info, .fsync] t) : t.view.Firm ∧ t.view.Whole := by
  cases hcalls with
  | cons hfirst hrest =>
      obtain ⟨hne, u, hroom, hstep⟩ := Carried.done hi (fun _ hc => by cases hc) hfirst
      cases hrest with
      | cons hsync hnil =>
          cases hnil
          exact h.flushed hi hready hroom hstep hsync

omit [Faults] in
theorem recovered_settled {x : File} (h : x.Consistent ∧ x.pending = []) (fs : List Frame) :
    (Segment.recovered x fs).Consistent ∧ (Segment.recovered x fs).pending = [] := by
  unfold Segment.recovered
  split
  · exact h
  · refine ⟨h.1.truncate _, ?_⟩
    show (x.pending.map _).filter _ = []
    rw [h.2]
    rfl

/-- A log that has just been opened, on a disk where nothing is pending. -/
theorem Reopened.firm {options : LogOptions} {files : FileName → Option File} {v : View}
    (h : Reopened options files v) (hi : v.Intact) (hremove : ¬ Refuses .remove)
    (hcap : ∀ b, ∀ n ∈ logSize files b, n ≤ kMaxFileBytes)
    (hsettled : ∀ b x, files (.log b) = some x → x.Consistent ∧ x.pending = []) : v.Firm := by
  have hfiles : ∀ b x, v.files (.log b) = some x → x.Consistent ∧ x.pending = [] := by
    intro b x hx
    by_cases hseg : ∃ s ∈ v.log.segments, s.baseOffset = b
    · obtain ⟨s, hs, rfl⟩ := hseg
      have hold : ((files s.logFile).getD {}).Consistent ∧
          ((files s.logFile).getD {}).pending = [] := by
        cases hfile : files s.logFile with
        | none => exact ⟨File.consistent_empty, rfl⟩
        | some y => exact hsettled s.baseOffset y hfile
      obtain rfl := Option.some.inj ((h.segment s hs).2.1.symm.trans hx)
      exact recovered_settled hold _
    · rcases h.strays b fun s hs heq => hseg ⟨s, hs, heq⟩ with hnone | ⟨-, hr⟩
      · rw [hnone] at hx
        cases hx
      · exact absurd hr hremove
  obtain ⟨x, hx, hholds⟩ := hi.active_holds
  have hactive := hfiles _ x hx
  refine ⟨h.orderly hremove hcap,
    ⟨fun b x hx => (hfiles b x hx).1, fun s _ x hx => (hfiles _ x hx).2⟩,
    x, _, hx, hholds, ?_⟩
  rw [durable_of_settled hactive.1 hactive.2]
  exact hholds.content

end Stores

end LogEngine.Storage
