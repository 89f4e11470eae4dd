import LogEngine.Storage.Crash

/-!
# Runs that end in a power cut

Every operation of the disk succeeds until the power is cut, and none after.  The cut comes in
the middle of some call of the log, or between two.  The log that is found afterwards is a first
part of the one before that call or after it, and has every batch that an `fsync` covers and no
later `truncate_to` takes away (`crash_durable`).

Two things are needed for that.  A `truncate_to` that drops segments is at the edge of a batch:
else it fails with the segments gone and the end of the log as it was, the log goes on behind a
gap, and what is flushed there is lost (`crash_loses`).  And a `truncate_to` that keeps batches
which have not been flushed leaves zeros on the platter in their place, so that these batches
have to be robust (`Frame.Robust`).
-/

namespace LogEngine.Storage

open Base Io Io.Disk Verified.Fallible Verified.Tiling Verified.Framing Verified.Machine

/-- From operation `n` on everything is refused. -/
@[reducible] def powerCut (n : Nat) : Faults := ⟨fun k _ => decide (n ≤ k), fun _ => 0⟩

/-- No batch lies across the offset. -/
def View.Aligned (v : View) (offset : Nat) : Prop :=
  ∀ f ∈ v.frames, ¬ (Extent.base f < offset ∧ offset < Extent.stop f)

/-- The call leaves the batch in the log. -/
def Call.Spares (f : Frame) (call : Call) : Prop :=
  ∀ offset, call = .truncateTo offset → Extent.base f < offset

/-- A `truncate_to` that drops batches is at the edge of one; and the log has been flushed, or
its batches are robust. -/
def Store.Prudent (s : Store) (call : Call) : Prop :=
  ∀ offset, call = .truncateTo offset → (s.log.Forfeits offset → s.view.Aligned offset) ∧
    (s.view.Flushed ∨ ∀ f ∈ s.view.frames, f.Robust)

theorem Store.Prudent.robust {s : Store} {call : Call} {offset : Nat} {fd fp : List Frame}
    (h : s.Prudent call) (hcall : call = .truncateTo offset) (hlaid : s.view.Laid fd fp) :
    ∀ f ∈ fp, f.Robust := by
  rcases (h offset hcall).2 with hflushed | hrobust
  · rw [hlaid.of_flushed hflushed]
    exact fun f hf => absurd hf List.not_mem_nil
  · intro f hf
    apply hrobust
    rw [View.frames_eq, hlaid.rows]
    exact List.mem_append_right _ (List.mem_append_right _ hf)

/-! ## Calls that are cut short -/

namespace View

section Cut

variable [Faults] {v w : View} {call : Call} {fd fp : List Frame} {d : Disk}

/-- What is found after a call that was done. -/
theorem Laid.found_done (h : v.Laid fd fp) (hi : v.Intact) (hc : v.log.Chained)
    (hrobust : ∀ offset, call = .truncateTo offset → ∀ f ∈ fp, f.Robust)
    (hdone : call.Done v w) (hd : d.file = w.files) (kept torn : FileName → Nat) :
    ∃ fs, Found v.log.options (d.rebooted kept torn) fs ∧
      (∀ f ∈ v.sealedFrames ++ fd, call.Spares f → f ∈ fs) ∧
      (fs <+: v.frames ∨ ∃ f, call.Brings v.log.nextOffset f ∧ fs <+: v.frames ++ [f]) := by
  have hquiet : Quiet v w → ∃ fs, Found v.log.options (d.rebooted kept torn) fs ∧
      (∀ f ∈ v.sealedFrames ++ fd, call.Spares f → f ∈ fs) ∧
      (fs <+: v.frames ∨ ∃ f, call.Brings v.log.nextOffset f ∧ fs <+: v.frames ++ [f]) := by
    intro hq
    obtain ⟨fd', fp', hw, hsecures⟩ := h.quiets hi hq
    obtain ⟨hi', hframes⟩ := hi.quiets hq
    obtain ⟨fs, hfound, hsure, hpart⟩ := hw.found hi' (Log.Chained.quiets hc hi hq).toLinked
      (fun b => congrFun hd _) kept torn
    rw [hq.log.2.1] at hfound
    exact ⟨fs, hfound, fun f hf _ => hsure.subset (hsecures hf), .inl (hframes ▸ hpart)⟩
  cases call with
  | append builder info =>
      obtain ⟨hne, u, hroom, hs⟩ := hdone
      obtain ⟨fs, hfound, hsure, hpart⟩ := h.found_append hi hc hroom hs hd kept torn
      exact ⟨fs, hfound, fun f hf _ => hsure hf, .inr ⟨_, ⟨hne, rfl⟩, hpart⟩⟩
  | appendReplicated framed =>
      obtain ⟨f, u, hbytes, hbase, hroom, hs⟩ := hdone
      obtain ⟨fs, hfound, hsure, hpart⟩ := h.found_append hi hc hroom hs hd kept torn
      exact ⟨fs, hfound, fun f hf _ => hsure hf, .inr ⟨f, ⟨hbytes, hbase⟩, hpart⟩⟩
  | truncateTo offset =>
      rcases hdone with ⟨-, rfl⟩ | ⟨u, hpopped, hs⟩
      · exact hquiet .refl
      · obtain ⟨fs, hfound, hsure, hpart⟩ := h.found_truncated hi hc.toLinked
          (hrobust offset rfl) hpopped hs hd kept torn
        exact ⟨fs, hfound, fun f hf hspares => hsure f hf (hspares offset rfl), .inl hpart⟩
  | fsync => exact hquiet (.single ⟨_, hdone⟩)
  | flushIndexes => exact hquiet (Syncs.quiet hdone)
  | read offset capacity => exact hquiet (hdone ▸ .refl)

/-- What is found after one that failed, or was cut short. -/
theorem Laid.found_undone (hatomic : Faults.Atomic ‹_›) (h : v.Laid fd fp) (hi : v.Intact)
    (hc : v.log.Chained) (hundone : call.Undone v w) (hd : d.file = w.files)
    (kept torn : FileName → Nat) :
    ∃ fs, Found v.log.options (d.rebooted kept torn) fs ∧
      (∀ f ∈ v.sealedFrames ++ fd, call.Spares f → f ∈ fs) ∧ fs <+: v.frames := by
  have hsame : w = v → ∃ fs, Found v.log.options (d.rebooted kept torn) fs ∧
      (∀ f ∈ v.sealedFrames ++ fd, call.Spares f → f ∈ fs) ∧ fs <+: v.frames := by
    rintro rfl
    obtain ⟨fs, hfound, hsure, hpart⟩ := h.found hi hc.toLinked (fun b => congrFun hd _) kept torn
    exact ⟨fs, hfound, fun f hf _ => hsure.subset hf, hpart⟩
  have hspoilt : ∀ {size}, Spoilt v size w → ∃ fs, Found v.log.options (d.rebooted kept torn) fs ∧
      (∀ f ∈ v.sealedFrames ++ fd, call.Spares f → f ∈ fs) ∧ fs <+: v.frames := by
    intro size hs
    obtain ⟨fs, hfound, hsure, hpart⟩ := h.found_spoilt hatomic hi hc hs hd kept torn
    exact ⟨fs, hfound, fun f hf _ => hsure hf, hpart⟩
  cases call with
  | append builder info => exact hspoilt hundone
  | appendReplicated framed => exact hspoilt hundone
  | truncateTo offset =>
      rcases hundone with heq | hpopped
      · exact hsame heq
      · obtain ⟨u, hs, -, hfiles⟩ := drops_healthy hi hpopped.drops
        obtain ⟨fs, hfound, hsure, hpart⟩ := h.found_dropped hi hc.toLinked hs
          (fun b => hd ▸ hfiles b) kept torn
        exact ⟨fs, hfound, fun f hf hspares => hsure f hf (hspares offset rfl), hpart⟩
  | fsync => exact hsame hundone
  | flushIndexes =>
      have hdone : Call.flushIndexes.Done v w := hundone
      obtain ⟨fs, hfound, hsure, hpart⟩ := h.found_done hi hc
        (fun _ hcall => Call.noConfusion hcall) hdone hd kept torn
      refine ⟨fs, hfound, hsure, hpart.resolve_right ?_⟩
      rintro ⟨f, hf, -⟩
      exact hf
  | read offset capacity => exact hsame hundone

end Cut

/-! ## Calls on a healthy disk -/

section Healthy

variable {v w : View} {call : Call} {fd fp : List Frame} {size offset : Nat}

/-- The batches that are on the platter stay there, but for those that are truncated. -/
def Retains (v : View) (fd : List Frame) (call : Call) (w : View) : Prop :=
  ∃ fd' fp', w.Laid fd' fp' ∧
    ∀ f ∈ v.sealedFrames ++ fd, call.Spares f → f ∈ w.sealedFrames ++ fd'

theorem Laid.retains (h : v.Laid fd fp) (call : Call) : v.Retains fd call v :=
  ⟨fd, fp, h, fun _ hf _ => hf⟩

theorem Laid.retains_quiets [Faults] (h : v.Laid fd fp) (hi : v.Intact) (hs : Quiet v w)
    (call : Call) : v.Retains fd call w := by
  obtain ⟨fd', fp', hw, hsecures⟩ := h.quiets hi hs
  exact ⟨fd', fp', hw, fun f hf _ => hsecures hf⟩

/-- Nothing spills on a healthy disk. -/
theorem Laid.spill (h : v.Laid fd fp) (hi : v.Intact) (hs : @Step healthy v .spill w) : w = v := by
  cases hs with
  | create hne hflushed hx hr =>
      refine absurd (hr ?_) (not_refuses_healthy .size)
      rw [← hx, h.clear _ fun s hs heq => ?_]
      · rfl
      · exact (hi.lt_next hne hs).ne heq
  | @spill x y f hx hroom hy =>
      cases hy with
      | none => exact congrArg (View.mk v.log) (Function.update_eq_self_iff.2 hx.symm)
      | some k ha hne => exact absurd (fun _ => rfl) ha

theorem Laid.retains_spoilt (h : v.Laid fd fp) (hi : v.Intact) (hs : @Spoilt healthy v size w)
    (call : Call) : v.Retains fd call w := by
  let _ := healthy
  obtain ⟨u, hroom, hw⟩ := hs
  obtain ⟨fd', fp', hu, hsecures⟩ := h.quiets hi hroom.quiet
  obtain rfl : w = u := by
    rcases hw with rfl | hspill
    · rfl
    · exact hu.spill (hi.quiets hroom.quiet).1 hspill
  exact ⟨fd', fp', hu, fun f hf _ => hsecures hf⟩

theorem Laid.retains_append (h : v.Laid fd fp) (hi : v.Intact) {u : View} {f : Frame}
    (hroom : @Room healthy v size u) (hs : @Step healthy u (.append f) w) (call : Call) :
    v.Retains fd call w := by
  let _ := healthy
  obtain ⟨fd', fp', hu, hsecures⟩ := h.quiets hi hroom.quiet
  obtain ⟨hw, hsecures'⟩ := hu.append (hi.quiets hroom.quiet).1 hs
  exact ⟨fd', _, hw, fun f hf _ => hsecures' (hsecures hf)⟩

/-- Of a `truncate_to` the segments that are dropped. -/
theorem Laid.retains_popped (h : v.Laid fd fp) (hi : v.Intact) (hl : v.log.Linked)
    (hp : @Call.Popped healthy v offset w) : v.Retains fd (.truncateTo offset) w := by
  let _ := healthy
  obtain ⟨gone, hdropped⟩ := dropped_of_drops hi hl hp.drops
  obtain ⟨fd', fp', hw, -, hsure⟩ := hdropped.laid h hi hp.drops
  exact ⟨fd', fp', hw, fun f hf hspares => hsure f hf (hspares offset rfl)⟩

/-- And the cut. -/
theorem Laid.retains_cut (h : v.Laid fd fp) (hi : v.Intact) (hl : v.log.Linked)
    (hrobust : ∀ f ∈ fp, f.Robust) {u : View} (hp : @Call.Popped healthy v offset u)
    (hs : @Step healthy u (.cut offset) w) : v.Retains fd (.truncateTo offset) w := by
  let _ := healthy
  obtain ⟨gone, hdropped⟩ := dropped_of_drops hi hl hp.drops
  obtain ⟨fd', fp', hu, hsub, hsure⟩ := hdropped.laid h hi hp.drops
  have hle := hdropped.intact.base_le (by rw [hp.drops.start]; exact hp.start) hp.last
  obtain ⟨fd'', fp'', hw, hsure'⟩ := @Laid.cut healthy _ _ _ _ _ hu hdropped.intact hle
    (fun f hf => hrobust f (hsub hf)) hs
  exact ⟨fd'', fp'', hw, fun f hf hspares =>
    hsure' f (hsure f hf (hspares offset rfl)) (hspares offset rfl)⟩

theorem Laid.done (h : v.Laid fd fp) (hi : v.Intact) (hl : v.log.Linked)
    (hrobust : ∀ offset, call = .truncateTo offset → ∀ f ∈ fp, f.Robust)
    (hdone : @Call.Done healthy v call w) : v.Retains fd call w := by
  let _ := healthy
  cases call with
  | append builder info =>
      obtain ⟨_, u, hroom, hs⟩ := hdone
      exact h.retains_append hi hroom hs _
  | appendReplicated framed =>
      obtain ⟨f, u, -, -, hroom, hs⟩ := hdone
      exact h.retains_append hi hroom hs _
  | truncateTo offset =>
      rcases hdone with ⟨-, rfl⟩ | ⟨u, hpopped, hs⟩
      · exact h.retains _
      · exact h.retains_cut hi hl (hrobust offset rfl) hpopped hs
  | fsync => exact h.retains_quiets hi (.single ⟨_, hdone⟩) _
  | flushIndexes => exact h.retains_quiets hi (Syncs.quiet hdone) _
  | read offset capacity => exact hdone ▸ h.retains _

theorem Laid.undone (h : v.Laid fd fp) (hi : v.Intact) (hl : v.log.Linked)
    (hundone : @Call.Undone healthy v call w) : v.Retains fd call w := by
  let _ := healthy
  cases call with
  | append builder info => exact h.retains_spoilt hi hundone _
  | appendReplicated framed => exact h.retains_spoilt hi hundone _
  | truncateTo offset =>
      rcases hundone with rfl | hpopped
      · exact h.retains _
      · exact h.retains_popped hi hl hpopped
  | fsync => exact hundone ▸ h.retains _
  | flushIndexes => exact h.retains_quiets hi (Syncs.quiet hundone) _
  | read offset capacity => exact hundone ▸ h.retains _

end Healthy

end View

namespace Store

section Calls

variable {s t : Store} {call : Call} {fd fp : List Frame} {offset : Nat}

/-- At such an offset the segment that is left can be cut. -/
theorem cutsAt_of_aligned {w : View} {gone : List Segment} (h : s.view.Aligned offset)
    (hdropped : View.Dropped s.view w offset gone) (hle : w.log.active.baseOffset ≤ offset)
    (hlt : offset < w.log.active.nextOffset) :
    Segment.CutsAt w.log.active.baseOffset (w.log.active.frames w.files) offset := by
  obtain ⟨x, hx, hholds⟩ := hdropped.intact.active_holds
  obtain ⟨p, f, hpre, hlo, hhi, -⟩ := hholds.tiles.exists_snoc hle (hholds.next ▸ hlt)
  have hmem : f ∈ w.log.active.frames w.files := hpre.subset (by simp)
  have hf : f ∈ s.view.frames := by
    refine hdropped.isPrefix.subset ?_
    rw [View.frames_eq]
    exact List.mem_append_right _ hmem
  have hbase : ¬ Extent.base f < offset := fun hbase => h f hf ⟨hbase, hhi⟩
  exact .inr ⟨f, hmem, by omega⟩

/-- A `truncate_to` there succeeds. -/
theorem truncateTo_aligned (h : s.view.Aligned offset) (hi : s.view.Intact) (hc : s.log.Chained)
    (hlaid : s.view.Laid fd fp) (hstart : s.log.startOffset ≤ offset)
    (hlt : offset < s.log.nextOffset) :
    Sat (@Log.truncateTo healthy offset s) (fun _ _ => True) (fun _ => False) := by
  let _ := healthy
  refine Log.getLog_sat ?_
  rw [if_neg (by omega), if_neg (by omega), if_neg (by omega)]
  refine ((Log.popSegments_sat offset s.log.sealed.length le_rfl).mono (fun _ _ ht => ht)
    fun _ hf => hf.elim).bind ?_
  rintro _ t ⟨hdrops, hend⟩
  obtain ⟨gone, hdropped⟩ := View.dropped_of_drops hi hc.toLinked hdrops
  obtain ⟨x, hx, hholds⟩ := hdropped.intact.active_holds
  have hle := hdropped.intact.base_le (by rw [hdrops.start]; exact hstart) hend
  refine Log.getLog_sat ((Log.onDisk_sat (Q := fun _ _ => True)
    (((Segment.truncateTo_ends hholds hx offset).sat
    fun e d hd => ?_).mono (fun _ _ _ => trivial) fun _ hd => hd)).bind fun _ _ _ => trivial)
  rcases hd.2.2 with hr | hr | ⟨-, hcut | hlong⟩
  · exact not_refuses_healthy _ hr
  · exact not_refuses_healthy _ hr
  · exact hcut (cutsAt_of_aligned h hdropped hle hd.2.1)
  · have hshort := (encode_isPrefix (upTo_isPrefix (t.view.log.active.frames t.view.files)
      offset)).length_le
    have hmem : t.view.log.active ∈ s.view.log.segments := by
      rw [hdropped.segments]
      exact List.mem_append_left _ (View.active_mem _)
    have hcap := hlaid.capped _ hmem
    rw [hholds.size] at hcap
    omega

/-- Such a call drops no batches and fails then. -/
theorem Prudent.sparing (h : s.Prudent call) (hi : s.view.Intact) (hc : s.log.Chained)
    (hlaid : s.view.Laid fd fp) : Sparing s ⟨call, healthy⟩ t := by
  intro offset hcall
  refine ⟨not_refuses_healthy _, ?_⟩
  by_cases hforfeits : s.log.Forfeits offset
  · obtain rfl : call = .truncateTo offset := hcall
    obtain ⟨_, t, ht, -⟩ := (truncateTo_aligned ((h offset rfl).1 hforfeits) hi hc hlaid
      hforfeits.1 hforfeits.2.1).exists_ok fun _ h => h
    exact .inl ⟨t, ht⟩
  · exact .inr hforfeits

/-- An append that could be written finds room on a healthy disk. -/
theorem spacious_of_room [Faults] {v u w : View} {size : Nat} {f : Frame} (hroom : Room v size u)
    (hs : Step u (.append f) w) (hsize : f.bytes.length = size) : v.log.Spacious size := by
  intro hfits
  rcases hroom with rfl | ⟨⟨-, hfull⟩, -⟩
  · cases hs with
    | append hx hbase hroom hcap => exact hsize ▸ hcap
  · omega

end Calls

end Store

/-- An append brings one batch. -/
theorem Call.Brings.unique {call : Call} {next : Nat} {f g : Frame} (hf : call.Brings next f)
    (hg : call.Brings next g) : f = g := by
  cases call with
  | append builder info => exact hf.2.trans hg.2.symm
  | appendReplicated framed => exact Frame.ext (hf.1.trans hg.1.symm)
  | truncateTo offset => exact hf.elim
  | fsync => exact hf.elim
  | flushIndexes => exact hf.elim
  | read offset capacity => exact hf.elim

namespace Store

section Calls

variable {s t : Store} {call : Call} {fd fp safe : List Frame} {options : LogOptions}

/-- On a healthy disk the batch is then in the log. -/
theorem frames_of_brings (hi : s.view.Intact) {f : Frame} (hf : call.Brings s.log.nextOffset f)
    (hrun : @Call.run healthy call s = .ok () t) : t.view.frames = s.view.frames ++ [f] := by
  let _ := healthy
  have hgives := (hi.done (fun _ _ => not_refuses_healthy _) (done_of_ok hi hrun)).2
  cases call with
  | append builder info =>
      obtain ⟨g, hg, hframes⟩ := hgives
      rw [hframes, hg.unique hf]
  | appendReplicated framed =>
      obtain ⟨g, hg, hframes⟩ := hgives
      rw [hframes, hg.unique hf]
  | truncateTo offset => exact hf.elim
  | fsync => exact hf.elim
  | flushIndexes => exact hf.elim
  | read offset capacity => exact hf.elim

/-- What an append has written, it writes when nothing is refused. -/
theorem append_again [Faults] (hi : s.view.Intact) (hc : s.log.Chained) {w : View} {f : Frame}
    (hf : call.Brings s.log.nextOffset f) (hdone : call.Done s.view w) :
    ∃ s', @Call.run healthy call s = .ok () s' := by
  cases call with
  | append builder info =>
      obtain ⟨hne, u, hroom, hs⟩ := hdone
      have hgains := hi.gains hc hroom hs
      have hlength := builder.finish_length s.log.nextOffset info
      have hnext : s.log.nextOffset < 0x10000000000000000 := by
        have hmod : s.log.nextOffset % 256 ^ 8 = s.log.nextOffset := hgains.base
        omega
      have hrun : Sat (@Call.run healthy (.append builder info) s) (fun _ _ => True)
          fun _ => False :=
        (@Log.append_progress healthy s not_refuses_healthy hi hc builder hne info hnext
          (hlength ▸ hgains.short) (spacious_of_room hroom hs hlength)).bind fun _ _ _ => trivial
      obtain ⟨_, s', hs', -⟩ := hrun.exists_ok fun _ h => h
      exact ⟨s', hs'⟩
  | appendReplicated framed =>
      obtain ⟨g, u, rfl, hbase, hroom, hs⟩ := hdone
      obtain ⟨_, s', hrun, -⟩ := (@Log.appendReplicated_progress healthy s not_refuses_healthy hi hc
        g hbase (hi.gains hc hroom hs).short (spacious_of_room hroom hs rfl)).exists_ok fun _ h => h
      exact ⟨s', hrun⟩
  | truncateTo offset => exact hf.elim
  | fsync => exact hf.elim
  | flushIndexes => exact hf.elim
  | read offset capacity => exact hf.elim

/-- The log is as a healthy disk leaves it, and the batches are on the platter. -/
structure Keeps (options : LogOptions) (safe : List Frame) (s : Store) : Prop where
  config : s.log.options = options
  intact : s.view.Intact
  chained : s.log.Chained
  laid : ∃ fd fp, s.view.Laid fd fp ∧ safe ⊆ s.view.sealedFrames ++ fd

theorem Keeps.next (h : Keeps options safe s) (hp : s.Prudent call)
    (hspares : ∀ f ∈ safe, call.Spares f) (hn : s.next ⟨call, healthy⟩ = some t) :
    Keeps options safe t := by
  obtain ⟨fd, fp, hlaid, hsafe⟩ := h.laid
  have hremove : ∀ offset, call = .truncateTo offset → ¬ @Refuses healthy .remove :=
    fun _ _ => not_refuses_healthy _
  obtain ⟨hi, hc⟩ := next_sparing h.intact h.chained (hp.sparing h.intact h.chained hlaid) hn
  have hretains : s.view.Retains fd call t.view := by
    rcases next_intact h.intact hremove hn with ⟨-, hdone⟩ | ⟨-, hundone⟩
    · exact hlaid.done h.intact h.chained.toLinked (fun _ hcall => hp.robust hcall hlaid) hdone
    · exact hlaid.undone h.intact h.chained.toLinked hundone
  obtain ⟨fd', fp', hlaid', hkept⟩ := hretains
  exact ⟨(next_options h.intact hremove hn).trans h.config, hi, hc, fd', fp', hlaid',
    fun f hf => hkept f (hsafe hf) (hspares f hf)⟩

/-- After an `fsync` all batches are on the platter. -/
theorem Keeps.fsync (h : Keeps options safe s) (hrun : @Call.run healthy .fsync s = .ok () t) :
    Keeps options t.view.frames t := by
  obtain ⟨fd, fp, hlaid, -⟩ := h.laid
  obtain ⟨x, hx, -⟩ := h.intact.active_holds
  have hn : s.next ⟨.fsync, healthy⟩ = some t := by
    unfold Store.next
    rw [hrun]
  have hfree : Keeps options [] s :=
    ⟨h.config, h.intact, h.chained, fd, fp, hlaid, List.nil_subset _⟩
  have hkeeps := hfree.next (fun _ hcall => Call.noConfusion hcall)
    (fun _ hf => absurd hf List.not_mem_nil) hn
  refine ⟨hkeeps.config, hkeeps.intact, hkeeps.chained, fd ++ fp, [], ?_⟩
  have hsync := @Log.fsync_sat healthy s x hx
  have hlog : @Log.fsync healthy s = .ok () t := hrun
  rw [hlog] at hsync
  have hview : t.view = _ := hsync
  have hflush : t.view.Laid (fd ++ fp) [] := by
    rw [hview]
    exact hlaid.flush h.intact hx
  refine ⟨hflush, ?_⟩
  rw [View.frames_eq, hflush.rows, List.append_nil]
  exact fun f hf => hf

/-- A log in an empty directory. -/
theorem keeps_open {l : Log} {d : Disk} (hwidth : options.segmentMaxBytes < 0x100000000)
    (hopen : @Log.open healthy options {} = .ok l d) : Keeps options [] ⟨l, d⟩ := by
  have hnone : ∀ f, ({} : Disk).file f = none := fun f => rfl
  have hstart := @Log.open_sat healthy {} options hwidth fun b y hy => by
    rw [hnone] at hy
    cases hy
  rw [hopen] at hstart
  let _ := healthy
  have hi := hstart.intact hwidth (not_refuses_healthy _)
  have hframes : ∀ g ∈ l.segments, g.frames d.file = [] := by
    intro g hg
    rw [hstart.frames_eq hg, hnone]
    rfl
  have hfile : ∀ g ∈ l.segments, d.file g.logFile = some {} := by
    intro g hg
    have hfile := (hstart.segment g hg).2.1
    rw [hframes g hg, hnone] at hfile
    exact hfile
  have hlogs : File.Logs {} [] [] := .settled rfl rfl rfl
  refine ⟨hstart.config, hi, hstart.chained, [], [], ⟨fun g hg => ?_, ?_, ?_, fun g hg => ?_,
    fun b hb => ?_⟩, List.nil_subset _⟩
  · have hmem := View.mem_segments.2 (.inl hg)
    exact ⟨{}, hfile g hmem, hframes g hmem ▸ hlogs⟩
  · exact ⟨{}, hfile _ (View.active_mem _), hlogs⟩
  · exact hframes _ (View.active_mem _)
  · have hholds := (hstart.segment g hg).2.2
    rw [hframes g hg] at hholds
    rw [hholds.size]
    exact Nat.zero_le _
  · rcases hstart.strays b hb with hnone | ⟨-, hr⟩
    · exact hnone
    · exact absurd hr (not_refuses_healthy _)

/-- The power is cut in the middle of a call. -/
theorem Keeps.cut (h : Keeps options safe s) (hp : s.Prudent call)
    (hspares : ∀ f ∈ safe, call.Spares f) {n : Nat} (hn : s.next ⟨call, powerCut n⟩ = some t)
    (kept torn : FileName → Nat) :
    ∃ fs, View.Found options (t.disk.rebooted kept torn) fs ∧ safe ⊆ fs ∧
      (fs <+: s.view.frames ∨ ∃ s', s.next ⟨call, healthy⟩ = some s' ∧ fs <+: s'.view.frames) := by
  obtain ⟨fd, fp, hlaid, hsafe⟩ := h.laid
  let _ := powerCut n
  rcases next_cases hn with hok | ⟨e, herror⟩
  · have hdone := done_of_ok h.intact hok
    obtain ⟨fs, hfound, hsure, hpart⟩ := hlaid.found_done (d := t.disk) h.intact h.chained
      (fun _ hcall => hp.robust hcall hlaid) hdone rfl kept torn
    refine ⟨fs, h.config ▸ hfound, fun f hf => hsure f (hsafe hf) (hspares f hf), ?_⟩
    rcases hpart with hpart | ⟨f, hf, hpart⟩
    · exact .inl hpart
    · obtain ⟨s', hs'⟩ := append_again h.intact h.chained hf hdone
      refine .inr ⟨s', ?_, frames_of_brings h.intact hf hs' ▸ hpart⟩
      unfold Store.next
      rw [hs']
  · obtain ⟨fs, hfound, hsure, hpart⟩ := hlaid.found_undone (d := t.disk) (fun _ => rfl) h.intact
      h.chained (undone_of_error h.intact herror) rfl kept torn
    exact ⟨fs, h.config ▸ hfound, fun f hf => hsure f (hsafe hf) (hspares f hf), .inl hpart⟩

theorem Keeps.mono {safe' : List Frame} (h : Keeps options safe s) (hsub : safe' ⊆ safe) :
    Keeps options safe' s := by
  obtain ⟨fd, fp, hlaid, hsafe⟩ := h.laid
  exact ⟨h.config, h.intact, h.chained, fd, fp, hlaid, fun f hf => hsafe (hsub hf)⟩

/-- The disk is healthy, and the call prudent. -/
def Tended (s : Store) (a : Action) (_ : Store) : Prop := a.faults = healthy ∧ s.Prudent a.call

theorem Keeps.runs (h : Keeps options safe s)
    (hrun : Runs Store.next (fun s a t => Tended s a t ∧ ∀ f ∈ safe, a.call.Spares f) s t) :
    Keeps options safe t := by
  refine hrun.invariant h fun s a t h hn hok => ?_
  obtain ⟨call, faults⟩ := a
  obtain ⟨⟨hfaults, hp⟩, hspares⟩ := hok
  obtain rfl : faults = healthy := hfaults
  exact h.next hp hspares hn

private theorem keeps_runs {l : Log} {d : Disk} (hwidth : options.segmentMaxBytes < 0x100000000)
    (hopen : @Log.open healthy options {} = .ok l d) (hrun : Runs next Tended ⟨l, d⟩ s) :
    Keeps options [] s :=
  (keeps_open hwidth hopen).runs
    (hrun.mono fun _ _ _ hok => ⟨hok, fun _ hf => absurd hf List.not_mem_nil⟩)

end Calls

end Store

theorem View.Found.unique {options : LogOptions} {d : Disk} {fs gs : List Frame}
    (h : Found options d fs) (h' : Found options d gs) : fs = gs := by
  obtain ⟨l, t, hopen, rfl⟩ := h
  obtain ⟨l', t', hopen', rfl⟩ := h'
  rw [hopen] at hopen'
  cases hopen'
  rfl

namespace Log

/-- The power is cut at any operation of the disk, in a run of prudent calls.  The log that is
found is a first part of the one before the last call or after it, and has what was flushed. -/
theorem crash_durable {options : LogOptions} {l : Log} {d : Disk} {s t : Store}
    (hwidth : options.segmentMaxBytes < 0x100000000)
    (hopen : @Log.open healthy options {} = .ok l d) (hrun : Runs Store.next Store.Tended ⟨l, d⟩ s)
    {call : Call} (hcall : s.Prudent call) {n : Nat} (hcut : s.next ⟨call, powerCut n⟩ = some t)
    (kept torn : FileName → Nat) :
    ∃ fs, View.Found options (t.disk.rebooted kept torn) fs ∧
      (fs <+: s.view.frames ∨ ∃ s', s.next ⟨call, healthy⟩ = some s' ∧ fs <+: s'.view.frames) ∧
      ∀ s₁ s₂, Runs Store.next Store.Tended ⟨l, d⟩ s₁ → @Call.run healthy .fsync s₁ = .ok () s₂ →
        ∀ f ∈ s₂.view.frames, call.Spares f →
          Runs Store.next (fun s a t => Store.Tended s a t ∧ a.call.Spares f) s₂ s → f ∈ fs := by
  obtain ⟨fs, hfound, -, hpart⟩ := (Store.keeps_runs hwidth hopen hrun).cut hcall
    (fun _ hf => absurd hf List.not_mem_nil) hcut kept torn
  refine ⟨fs, hfound, hpart, fun s₁ s₂ hbefore hfsync f hf hspares hafter => ?_⟩
  have hkeeps : Store.Keeps options [f] s := by
    have hflushed := (Store.keeps_runs hwidth hopen hbefore).fsync hfsync
    refine (hflushed.mono (fun g hg => List.mem_singleton.1 hg ▸ hf)).runs
      (hafter.mono fun _ a _ hok => ?_)
    exact ⟨hok.1, fun g hg => List.mem_singleton.1 hg ▸ hok.2⟩
  obtain ⟨gs, hfound', hsafe, -⟩ := hkeeps.cut hcall
    (fun g hg => List.mem_singleton.1 hg ▸ hspares) hcut kept torn
  rw [hfound.unique hfound']
  exact hsafe List.mem_cons_self

/-- Two records, which leave no room for another batch in a segment of 100 bytes. -/
def headPair : BatchBuilder := { records := [[30], [31]] }

def tailOne : BatchBuilder := { records := [[32]] }

/-- The first batch is flushed.  The power is cut while the second one makes the log roll, and
the first is found again. -/
theorem crash_durable_flushed : ∃ (l : Log) (d : Disk) (s₁ s₂ t : Store) (fs : List Frame),
    @Log.open healthy { segmentMaxBytes := 100 } {} = .ok l d ∧
      Runs Store.next Store.Tended ⟨l, d⟩ s₁ ∧ @Call.run healthy .fsync s₁ = .ok () s₂ ∧
      s₂.next ⟨.append tailOne {}, powerCut (s₂.disk.clock + 2)⟩ = some t ∧
      View.Found { segmentMaxBytes := 100 } (t.disk.rebooted (fun _ => 0) fun _ => 0) fs ∧
      headPair.frame (by decide) 0 {} ∈ fs := by
  have hprudent : ∀ (s : Store) (call : Call), call.truncates = false → s.Prudent call := by
    rintro s call hcall offset rfl
    cases hcall
  obtain ⟨l, d, s₁, hopen, hrun, hs₁⟩ := exists_of_begun { segmentMaxBytes := 100 } Store.Tended
    [.append headPair {}]
    (fun c hc s t _ => ⟨rfl, hprudent s c (List.mem_singleton.1 hc ▸ rfl)⟩)
    (p := fun s => decide (Sat (@Call.run healthy .fsync s)
      (fun _ t => headPair.frame (by decide) 0 {} ∈ t.view.frames) fun _ => False))
    (by decide +kernel)
  obtain ⟨_, s₂, hfsync, hmem⟩ := (of_decide_eq_true hs₁).exists_ok fun _ h => h
  have hnext : s₁.next ⟨.fsync, healthy⟩ = some s₂ := by
    unfold Store.next
    rw [hfsync]
  have hrun' : Runs Store.next Store.Tended ⟨l, d⟩ s₂ :=
    hrun.tail ⟨_, hnext, rfl, hprudent s₁ _ rfl⟩
  obtain ⟨t, ht⟩ : ∃ t, s₂.next ⟨.append tailOne {}, powerCut (s₂.disk.clock + 2)⟩ = some t := by
    unfold Store.next
    split
    · exact ⟨_, rfl⟩
    · exact ⟨_, rfl⟩
  obtain ⟨fs, hfound, -, hsafe⟩ := crash_durable (by decide) hopen hrun' (hprudent s₂ _ rfl) ht
    (fun _ => 0) fun _ => 0
  exact ⟨l, d, s₁, s₂, t, fs, hopen, hrun, hfsync, ht, hfound, hsafe s₁ s₂ hrun hfsync _ hmem
    (fun _ hcall => Call.noConfusion hcall) .refl⟩

/-- A log in an empty directory, and calls on it that may fail. -/
def tried (options : LogOptions) (calls : List Call) : Option Store :=
  match @Log.open healthy options {} with
  | .ok l d => calls.foldlM (fun s c => s.next ⟨c, healthy⟩) ⟨l, d⟩
  | .error _ _ => none

private theorem exists_of_tried (options : LogOptions) (calls : List Call) {p : Store → Bool}
    (h : (tried options calls).any p = true) :
    ∃ l d s, @Log.open healthy options {} = .ok l d ∧
      Runs Store.next (fun _ a _ => a.faults = healthy) ⟨l, d⟩ s ∧ p s = true := by
  have hruns : ∀ {calls : List Call} {s t : Store},
      calls.foldlM (fun s c => s.next ⟨c, healthy⟩) s = some t →
      Runs Store.next (fun _ a _ => a.faults = healthy) s t := by
    intro calls
    induction calls with
    | nil =>
        intro s t ht
        obtain rfl := Option.some.inj ht
        exact .refl
    | cons c calls ih =>
        intro s t ht
        rw [List.foldlM_cons] at ht
        obtain ⟨u, hu, hrest⟩ := Option.bind_eq_some_iff.1 ht
        exact .head ⟨⟨c, healthy⟩, hu, rfl⟩ (ih hrest)
  obtain ⟨s, hs, hp⟩ := (Option.any_eq_true _ _).1 h
  unfold tried at hs
  cases hr : @Log.open healthy options {} with
  | ok l d =>
      rw [hr] at hs
      exact ⟨l, d, s, rfl, hruns hs, hp⟩
  | error e d =>
      rw [hr] at hs
      cases hs

def stranded : BatchBuilder := { records := [[33]] }

/-- The log has two segments.  A `truncate_to` into the first batch drops the second segment and
fails, and the log goes on at offset 3.  That batch is flushed, and is not found after a power
cut: there is a gap before it. -/
theorem crash_loses : ∃ (l : Log) (d : Disk) (s₁ s₂ : Store) (fs : List Frame),
    @Log.open healthy { segmentMaxBytes := 100 } {} = .ok l d ∧
      Runs Store.next (fun _ a _ => a.faults = healthy) ⟨l, d⟩ s₁ ∧
      @Call.run healthy .fsync s₁ = .ok () s₂ ∧
      stranded.frame (by decide) 3 {} ∈ s₂.view.frames ∧
      View.Found { segmentMaxBytes := 100 } (s₂.disk.rebooted (fun _ => 0) fun _ => 0) fs ∧
      stranded.frame (by decide) 3 {} ∉ fs := by
  obtain ⟨l, d, s₁, hopen, hrun, hs₁⟩ := exists_of_tried { segmentMaxBytes := 100 }
    [.append headPair {}, .append tailOne {}, .truncateTo 1, .append stranded {}]
    (p := fun s => decide (Sat (@Call.run healthy .fsync s)
      (fun _ t => stranded.frame (by decide) 3 {} ∈ t.view.frames ∧
        Sat (@Log.open healthy { segmentMaxBytes := 100 }
          (t.disk.rebooted (fun _ => 0) fun _ => 0))
          (fun l u => stranded.frame (by decide) 3 {} ∉ (View.mk l u.file).frames)
          fun _ => False) fun _ => False))
    (by decide +kernel)
  obtain ⟨_, s₂, hfsync, hmem, hfound⟩ := (of_decide_eq_true hs₁).exists_ok fun _ h => h
  obtain ⟨l', u, hopen', hlost⟩ := hfound.exists_ok fun _ h => h
  exact ⟨l, d, s₁, s₂, _, hopen, hrun, hfsync, hmem, ⟨l', u, hopen', rfl⟩, hlost⟩

end Log

end LogEngine.Storage
