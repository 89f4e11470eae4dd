import LogEngine.Storage.Reopen
import LogEngine.Verified.Machine

/-!
# Runs of a log

What the owner of a log may ask of it is a `Call`, and a run is a row of calls, each with
its own pattern of refused disk operations: a call that fails is answered with another
call.  `Call.Done` and `Call.Undone` say what a call does, on success and on failure, in
the steps of `Storage/Steps`.

The first result is the representation of a log, `View.Represented`: it holds in every
state that any calls lead to from a log that was opened, as long as no `truncate_to` meets
a disk error.
-/

namespace LogEngine.Storage

open Base Io Io.Disk Verified.Fallible Verified.Tiling Verified.Framing Verified.Machine

/-! ## Calls -/

/-- The calls of the owner of a log. -/
inductive Call
  | append (builder : BatchBuilder) (info : BatchMeta)
  | appendReplicated (framed : Bytes)
  | truncateTo (offset : Nat)
  | fsync
  | flushIndexes
  | read (offset capacity : Nat)

namespace Call

def truncates : Call → Bool
  | .append _ _ => false
  | .appendReplicated _ => false
  | .truncateTo _ => true
  | .fsync => false
  | .flushIndexes => false
  | .read _ _ => false

section Specs

variable [Faults]

/-- A call, without what it hands back. -/
def run : Call → LogM Unit
  | .append builder info => do
      let _ ← Log.append builder info
      return ()
  | .appendReplicated framed => Log.appendReplicated framed
  | .truncateTo offset => Log.truncateTo offset
  | .fsync => Log.fsync
  | .flushIndexes => Log.flushIndexes
  | .read offset capacity => do
      let l ← Log.getLog
      let _ ← Log.onDisk (l.read offset capacity)
      return ()

/-- `truncate_to` has dropped what it drops, and has not cut yet. -/
structure Popped (v : View) (offset : Nat) (w : View) : Prop where
  start : v.log.startOffset ≤ offset
  next : offset < v.log.nextOffset
  drops : Drops offset v w
  last : w.log.sealed = [] ∨ w.log.active.baseOffset < offset

/-- What a call has done when it succeeds. -/
def Done (v : View) : Call → View → Prop
  | .append builder info, w => ∃ (hne : builder.records ≠ []) (u : View),
      Room v builder.framedBytes u ∧ Step u (.append (builder.frame hne v.log.nextOffset info)) w
  | .appendReplicated framed, w => ∃ (f : Frame) (u : View), f.bytes = framed ∧
      Extent.base f = v.log.nextOffset ∧ Room v framed.length u ∧ Step u (.append f) w
  | .truncateTo offset, w => offset = v.log.nextOffset ∧ w = v ∨
      ∃ u, Popped v offset u ∧ Step u (.cut offset) w
  | .fsync, w => Step v (.quiet false) w
  | .flushIndexes, w => Syncs v w
  | .read _ _, w => w = v

/-- What a call may have done when it fails. -/
def Undone (v : View) : Call → View → Prop
  | .append builder _, w => Spoilt v builder.framedBytes w
  | .appendReplicated framed, w => Spoilt v framed.length w
  | .truncateTo offset, w => w = v ∨ Popped v offset w
  | .fsync, w => w = v
  | .flushIndexes, w => Syncs v w
  | .read _ _, w => w = v

variable {s : Store}

/-- Every call is what `Done` and `Undone` say. -/
theorem run_sat (hwidth : s.log.options.segmentMaxBytes < 0x100000000)
    (hfile : ∃ x, s.view.files s.log.active.logFile = some x)
    (call : Call) (hkept : ∀ offset w, call = .truncateTo offset → Popped s.view offset w →
      w.log.active.Sits w.files) :
    Sat (call.run s) (fun _ t => call.Done s.view t.view) (fun t => call.Undone s.view t.view) := by
  obtain ⟨x, hx⟩ := hfile
  cases call with
  | append builder info =>
      refine (Log.append_sat hwidth hx builder info).bind ?_
      rintro base t ⟨-, hdone⟩
      exact hdone
  | appendReplicated framed => exact Log.appendReplicated_sat hwidth hx framed
  | truncateTo offset =>
      have hsits : ∀ w, Drops offset s.view w → s.log.startOffset ≤ offset →
          offset < s.log.nextOffset → (w.log.sealed = [] ∨ w.log.active.baseOffset < offset) →
          ∃ x fs, w.files w.log.active.logFile = some x ∧ w.log.active.Holds x fs :=
        fun w hdrops hstart hnext hlast => hkept offset w rfl ⟨hstart, hnext, hdrops, hlast⟩
      refine (Log.truncateTo_sat offset hsits).mono ?_ ?_
      · rintro _ t ⟨hstart, hsame | ⟨hnext, w, hdrops, hlast, hcut⟩⟩
        · exact .inl hsame
        · exact .inr ⟨w, ⟨hstart, hnext, hdrops, hlast⟩, hcut⟩
      · rintro t (hsame | ⟨hstart, hnext, hdrops, hlast⟩)
        · exact .inl hsame
        · exact .inr ⟨hstart, hnext, hdrops, hlast⟩
  | fsync =>
      refine (Log.fsync_sat hx).mono (fun _ t ht => ?_) fun _ ht => ht
      show Step s.view (.quiet false) t.view
      rw [ht]
      exact .flush hx
  | flushIndexes => exact Log.flushIndexes_sat s
  | read offset capacity =>
      have hread := Untouched.sat (fun g => Log.read_untouched g s.log offset capacity) s.disk
      refine Log.getLog_sat ((Log.onDisk_sat (Q := fun _ t => t.view = s.view)
        (E := fun t => t.view = s.view) (hread.mono (fun _ d hd => ?_) fun d hd => ?_)).bind
        fun _ t ht => ht)
      · exact congrArg (View.mk s.log) hd
      · exact congrArg (View.mk s.log) hd

theorem Popped.options {v w : View} {offset : Nat} (h : Popped v offset w) :
    w.log.options = v.log.options :=
  h.drops.options

theorem Done.options {v w : View} {call : Call} (h : call.Done v w) :
    w.log.options = v.log.options := by
  cases call with
  | append builder info =>
      obtain ⟨hne, u, hroom, hstep⟩ := h
      exact hstep.options.trans hroom.quiet.log.2.1
  | appendReplicated framed =>
      obtain ⟨f, u, hbytes, hbase, hroom, hstep⟩ := h
      exact hstep.options.trans hroom.quiet.log.2.1
  | truncateTo offset =>
      rcases h with ⟨-, rfl⟩ | ⟨u, hpopped, hcut⟩
      · rfl
      · exact hcut.options.trans hpopped.options
  | fsync => exact Step.options h
  | flushIndexes => exact (Syncs.quiet h).log.2.1
  | read offset capacity =>
      obtain rfl : w = v := h
      rfl

theorem Undone.options {v w : View} {call : Call} (h : call.Undone v w) :
    w.log.options = v.log.options := by
  cases call with
  | append builder info => exact Spoilt.options h
  | appendReplicated framed => exact Spoilt.options h
  | truncateTo offset =>
      rcases h with rfl | hpopped
      · rfl
      · exact hpopped.options
  | fsync =>
      obtain rfl : w = v := h
      rfl
  | flushIndexes => exact (Syncs.quiet h).log.2.1
  | read offset capacity =>
      obtain rfl : w = v := h
      rfl

end Specs

/-- The batch that a call brings to a log that ends at `next`. -/
def Brings (next : Nat) : Call → Frame → Prop
  | .append builder info, f => ∃ hne : builder.records ≠ [], f = builder.frame hne next info
  | .appendReplicated framed, f => f.bytes = framed ∧ Extent.base f = next
  | .truncateTo _, _ => False
  | .fsync, _ => False
  | .flushIndexes, _ => False
  | .read _ _, _ => False

/-- What a call is for: the batches of a log that ends at `next`, before and after. -/
def Gives (next : Nat) (fs : List Frame) : Call → List Frame → Prop
  | .append builder info, gs =>
      ∃ f, (Call.append builder info).Brings next f ∧ gs = fs ++ [f]
  | .appendReplicated framed, gs =>
      ∃ f, (Call.appendReplicated framed).Brings next f ∧ gs = fs ++ [f]
  | .truncateTo offset, gs => gs = upTo fs offset
  | .fsync, gs => gs = fs
  | .flushIndexes, gs => gs = fs
  | .read _ _, gs => gs = fs

/-- What a call that fails may do to the batches. -/
def Leaves (fs : List Frame) : Call → List Frame → Prop
  | .append _ _, gs => gs = fs
  | .appendReplicated _, gs => gs = fs
  | .truncateTo offset, gs => ∃ gone, fs = gs ++ gone ∧ ∀ f ∈ gone, offset ≤ Extent.base f
  | .fsync, gs => gs = fs
  | .flushIndexes, gs => gs = fs
  | .read _ _, gs => gs = fs

/-- A batch that is not there, and not brought, is not there afterwards. -/
theorem Gives.not_mem {next : Nat} {fs gs : List Frame} {call : Call} {f : Frame}
    (h : call.Gives next fs gs) (hf : f ∉ fs) (hnew : ¬ call.Brings next f) : f ∉ gs := by
  cases call with
  | append builder info =>
      obtain ⟨g, hg, rfl⟩ := h
      rw [List.mem_append, List.mem_singleton, not_or]
      exact ⟨hf, fun heq => hnew (heq ▸ hg)⟩
  | appendReplicated framed =>
      obtain ⟨g, hg, rfl⟩ := h
      rw [List.mem_append, List.mem_singleton, not_or]
      exact ⟨hf, fun heq => hnew (heq ▸ hg)⟩
  | truncateTo offset =>
      obtain rfl : gs = upTo fs offset := h
      exact fun hmem => hf ((upTo_isPrefix fs offset).subset hmem)
  | fsync =>
      obtain rfl : gs = fs := h
      exact hf
  | flushIndexes =>
      obtain rfl : gs = fs := h
      exact hf
  | read offset capacity =>
      obtain rfl : gs = fs := h
      exact hf

/-- A call that fails leaves some first batches. -/
theorem Leaves.isPrefix {fs gs : List Frame} {call : Call} (h : call.Leaves fs gs) : gs <+: fs := by
  cases call with
  | append builder info => exact h ▸ List.prefix_rfl
  | appendReplicated framed => exact h ▸ List.prefix_rfl
  | truncateTo offset =>
      obtain ⟨gone, rfl, -⟩ := h
      exact List.prefix_append _ _
  | fsync => exact h ▸ List.prefix_rfl
  | flushIndexes => exact h ▸ List.prefix_rfl
  | read offset capacity => exact h ▸ List.prefix_rfl

end Call

/-! ## What a call does to an intact log -/

namespace View

variable [Faults] {v w : View} {offset : Nat} {call : Call}

theorem Intact.popped (h : v.Intact) (hremove : ¬ Refuses .remove) (hp : Call.Popped v offset w) :
    w.Intact ∧ w.log.nextOffset = v.log.nextOffset ∧ w.log.startOffset = v.log.startOffset ∧
      ∃ gone, v.frames = w.frames ++ gone ∧ ∀ f ∈ gone, offset ≤ Extent.base f :=
  h.drops hremove hp.drops

omit [Faults] in
/-- A batch lies below the end of the log. -/
theorem Intact.frame_lt (h : v.Intact) {f : Frame} (hf : f ∈ v.frames) :
    Extent.base f < v.log.nextOffset := by
  have hnext := h.next
  rw [frames_eq] at hf
  rcases List.mem_append.1 hf with hf | hf
  · have := h.sealedFrames_lt hf
    have := h.active_sits.le
    omega
  · have := h.active_sits.frame_bounds hf
    omega

/-- A `truncate_to` that succeeds leaves the batches below the offset. -/
theorem Intact.truncated (h : v.Intact) (hremove : ¬ Refuses .remove)
    (hd : (Call.truncateTo offset).Done v w) :
    w.Intact ∧ w.frames = upTo v.frames offset ∧ w.log.startOffset = v.log.startOffset := by
  rcases hd with ⟨rfl, rfl⟩ | ⟨u, hpopped, hcut⟩
  · refine ⟨h, (upTo_of_lt fun f hf => ?_).symm, rfl⟩
    exact h.frame_lt hf
  · obtain ⟨hu, hnext, hstart, gone, hframes, hgone⟩ := h.popped hremove hpopped
    obtain ⟨hw, hcutframes, -, -, hstart'⟩ :=
      hu.cut (hstart ▸ hpopped.start) hpopped.last hcut
    refine ⟨hw, ?_, hstart'.trans hstart⟩
    rw [hframes, upTo_append_of_le hgone]
    exact hcutframes

/-- A call that succeeds does to the batches what it is for. -/
theorem Intact.done (h : v.Intact)
    (hremove : ∀ offset, call = .truncateTo offset → ¬ Refuses .remove) (hd : call.Done v w) :
    w.Intact ∧ call.Gives v.log.nextOffset v.frames w.frames := by
  cases call with
  | append builder info =>
      obtain ⟨hne, u, hroom, hstep⟩ := hd
      obtain ⟨hu, hframes⟩ := h.quiets hroom.quiet
      obtain ⟨hw, hframes', -⟩ := hu.append hstep
      exact ⟨hw, _, ⟨hne, rfl⟩, hframes ▸ hframes'⟩
  | appendReplicated framed =>
      obtain ⟨f, u, hbytes, hbase, hroom, hstep⟩ := hd
      obtain ⟨hu, hframes⟩ := h.quiets hroom.quiet
      obtain ⟨hw, hframes', -⟩ := hu.append hstep
      exact ⟨hw, f, ⟨hbytes, hbase⟩, hframes ▸ hframes'⟩
  | truncateTo offset =>
      obtain ⟨hw, hframes, -⟩ := h.truncated (hremove offset rfl) hd
      exact ⟨hw, hframes⟩
  | fsync => exact h.quiet hd
  | flushIndexes => exact h.quiets (Syncs.quiet hd)
  | read offset capacity =>
      obtain rfl : w = v := hd
      exact ⟨h, rfl⟩

/-- A call that fails adds nothing. -/
theorem Intact.undone (h : v.Intact)
    (hremove : ∀ offset, call = .truncateTo offset → ¬ Refuses .remove) (hu : call.Undone v w) :
    w.Intact ∧ call.Leaves v.frames w.frames := by
  cases call with
  | append builder info => exact h.spoilt hu
  | appendReplicated framed => exact h.spoilt hu
  | truncateTo offset =>
      rcases hu with rfl | hpopped
      · exact ⟨h, [], (List.append_nil _).symm, by simp⟩
      · obtain ⟨hw, -, -, hgone⟩ := h.popped (hremove offset rfl) hpopped
        exact ⟨hw, hgone⟩
  | fsync =>
      obtain rfl : w = v := hu
      exact ⟨h, rfl⟩
  | flushIndexes => exact h.quiets (Syncs.quiet hu)
  | read offset capacity =>
      obtain rfl : w = v := hu
      exact ⟨h, rfl⟩

end View

namespace Log

variable [Faults] {v w : View} {call : Call}

/-- A call that succeeds leaves no gap where there was none. -/
theorem Chained.done (hc : v.log.Chained) (h : v.Intact) (hd : call.Done v w) :
    w.log.Chained := by
  cases call with
  | append builder info =>
      obtain ⟨hne, u, hroom, hstep⟩ := hd
      exact ((hc.quiets h hroom.quiet).append hstep).1
  | appendReplicated framed =>
      obtain ⟨f, u, hbytes, hbase, hroom, hstep⟩ := hd
      exact ((hc.quiets h hroom.quiet).append hstep).1
  | truncateTo offset =>
      rcases hd with ⟨-, rfl⟩ | ⟨u, hpopped, hcut⟩
      · exact hc
      · exact (hc.toLinked.drops hpopped.drops).cut hcut
  | fsync => exact hc.quiet h hd
  | flushIndexes => exact hc.quiets h (Syncs.quiet hd)
  | read offset capacity =>
      obtain rfl : w = v := hd
      exact hc

/-- Nor does a call that fails, other than `truncate_to`. -/
theorem Chained.undone (hc : v.log.Chained) (h : v.Intact)
    (hcall : ∀ offset, call ≠ .truncateTo offset) (hu : call.Undone v w) : w.log.Chained := by
  cases call with
  | append builder info => exact hc.spoilt h hu
  | appendReplicated framed => exact hc.spoilt h hu
  | truncateTo offset => exact absurd rfl (hcall offset)
  | fsync =>
      obtain rfl : w = v := hu
      exact hc
  | flushIndexes => exact hc.quiets h (Syncs.quiet hu)
  | read offset capacity =>
      obtain rfl : w = v := hu
      exact hc

end Log

/-- A batch has come to the end of a log. -/
structure View.Gains (v : View) (f : Frame) (w : View) : Prop where
  base : Extent.base f = v.log.nextOffset
  frames : w.frames = v.frames ++ [f]
  next : w.log.nextOffset = Extent.stop f
  start : w.log.startOffset = v.log.startOffset
  short : f.bytes.length ≤ v.log.options.segmentMaxBytes

theorem View.Intact.gains [Faults] {u v w : View} {size : Nat} {f : Frame} (h : v.Intact)
    (hc : v.log.Chained) (hroom : Room v size u) (hstep : Step u (.append f) w) :
    v.Gains f w := by
  obtain ⟨hu, hframes⟩ := h.quiets hroom.quiet
  obtain ⟨hnext, hoptions, hstart⟩ := hroom.quiet.log
  obtain ⟨-, hframes', hnext', -⟩ := hu.append hstep
  have hbase := ((hc.quiets h hroom.quiet).append hstep).2
  cases hstep with
  | append hx _ hfits hcap =>
      have hmax : u.log.active.options.maxBytes = v.log.options.segmentMaxBytes := by
        rw [hu.options _ (View.active_mem _), hoptions]
        rfl
      constructor
      · exact hbase.trans hnext
      · rw [hframes', hframes]
      · exact hnext'
      · exact hstart
      · omega

/-- The `fsync` behind the batch changes nothing about that. -/
theorem View.Gains.flushed [Faults] {v w u : View} {f : Frame} (h : v.Gains f w) (hi : w.Intact)
    (hs : Step w (.quiet false) u) : v.Gains f u where
  base := h.base
  frames := (hi.quiet hs).2.trans h.frames
  next := hs.quiet_log.1.trans h.next
  start := hs.quiet_log.2.2.trans h.start
  short := h.short

/-- The segment that is left reaches to the cut, for there was no gap behind it. -/
theorem Log.Linked.le_next [Faults] {v w : View} {offset : Nat} (hc : v.log.Linked)
    (hs : Drops offset v w) (hle : offset ≤ v.log.active.nextOffset) :
    offset ≤ w.log.active.nextOffset := by
  induction hs with
  | refl => exact hle
  | @tail u w hdrops hlast ih =>
      have hjoins := (hc.drops hdrops).joins
      cases hlast with
      | @drop init before _ y z hsealed hge hy hz =>
          rw [hsealed, endFrom_append, endFrom_cons, endFrom_nil] at hjoins
          exact hge.trans hjoins.le

/-- Where a log ends that was cut. -/
theorem View.Intact.truncated_next [Faults] {v w : View} {offset : Nat} (h : v.Intact)
    (hc : v.log.Chained) (hremove : ¬ Refuses .remove) (hd : (Call.truncateTo offset).Done v w) :
    w.log.nextOffset = offset := by
  rcases hd with ⟨rfl, rfl⟩ | ⟨u, hpopped, hcut⟩
  · rfl
  · obtain ⟨hu, hnext, hstart, -⟩ := h.popped hremove hpopped
    obtain ⟨-, -, -, hend, -⟩ := hu.cut (hstart ▸ hpopped.start) hpopped.last hcut
    rw [hend]
    apply Nat.min_eq_right
    exact hc.toLinked.le_next hpopped.drops (hc.ends ▸ hpopped.next.le)

/-- `scan_epochs` finds where the terms of the batches change. -/
theorem Log.scanEpochs_sat [Faults] {v : View} (hi : v.Intact) (d : Disk) (hd : d.file = v.files) :
    Sat (v.log.scanEpochs d)
      (fun epochs t => t.file = v.files ∧ epochs = boundaries (v.frames.map Frame.header))
      (fun _ => Refuses .pread) := by
  have key : ∀ (segments : List Segment) (d : Disk), (∀ g ∈ segments, g.Sits v.files) →
      d.file = v.files → Sat (scanSegments segments d)
        (fun headers t => t.file = v.files ∧
          headers = (segments.flatMap fun g => g.frames v.files).map Frame.header)
        (fun _ => Refuses .pread) := by
    intro segments
    induction segments with
    | nil => exact fun d _ hd => ⟨hd, rfl⟩
    | cons g rest ih =>
        intro d hsits hd
        obtain ⟨x, hx, hholds⟩ := (hsits g List.mem_cons_self).holds
        refine ((Segment.scanHeaders_sat hholds (hd ▸ hx)).mono (fun _ _ h => h)
          fun _ h => h.2).bind ?_
        rintro headers t ⟨ht, rfl⟩
        refine (ih t (fun k hk => hsits k (List.mem_cons_of_mem g hk)) (ht.trans hd)).bind ?_
        rintro more u ⟨hu, rfl⟩
        refine ⟨hu, ?_⟩
        rw [List.flatMap_cons, List.map_append]
  refine (key v.log.segments d hi.sits hd).bind ?_
  rintro headers t ⟨ht, rfl⟩
  exact ⟨ht, rfl⟩

/-! ## Runs -/

/-- A call, and what the disk refuses meanwhile. -/
structure Action where
  call : Call
  faults : Faults

namespace Store

/-- Where a call leads, whether it succeeds or fails. -/
def next (s : Store) (a : Action) : Option Store :=
  match @Call.run a.faults a.call s with
  | .ok _ t => some t
  | .error _ t => some t

/-- A call succeeds. -/
def Succeeds (s : Store) (a : Action) : Prop :=
  ∃ t, @Call.run a.faults a.call s = .ok () t

/-- The outcome of a step. -/
theorem next_cases {s t : Store} {a : Action} (h : s.next a = some t) :
    @Call.run a.faults a.call s = .ok () t ∨ ∃ e, @Call.run a.faults a.call s = .error e t := by
  unfold next at h
  cases hr : @Call.run a.faults a.call s with
  | ok u r =>
      rw [hr] at h
      obtain rfl := Option.some.inj h
      exact .inl rfl
  | error e r =>
      rw [hr] at h
      obtain rfl := Option.some.inj h
      exact .inr ⟨e, rfl⟩

/-- What a call does to an intact log. -/
theorem next_intact {s t : Store} {a : Action} (h : s.view.Intact)
    (hremove : ∀ offset, a.call = .truncateTo offset → ¬ @Refuses a.faults .remove)
    (hn : s.next a = some t) :
    @Call.run a.faults a.call s = .ok () t ∧ @Call.Done a.faults s.view a.call t.view ∨
      (∃ e, @Call.run a.faults a.call s = .error e t) ∧
        @Call.Undone a.faults s.view a.call t.view := by
  let _ := a.faults
  obtain ⟨x, hx, -⟩ := h.active_holds
  have hrun := Call.run_sat (s := s) h.width ⟨x, hx⟩ a.call fun offset w hcall hw =>
    (h.popped (hremove offset hcall) hw).1.active_sits
  rcases next_cases hn with hr | ⟨e, hr⟩
  · rw [hr] at hrun
    exact .inl ⟨hr, hrun⟩
  · rw [hr] at hrun
    exact .inr ⟨⟨e, hr⟩, hrun⟩

/-- The options of a log stay as they are. -/
theorem next_options {s t : Store} {a : Action} (h : s.view.Intact)
    (hremove : ∀ offset, a.call = .truncateTo offset → ¬ @Refuses a.faults .remove)
    (hn : s.next a = some t) : t.log.options = s.log.options := by
  rcases next_intact h hremove hn with ⟨-, hdone⟩ | ⟨-, hundone⟩
  · exact @Call.Done.options a.faults _ _ _ hdone
  · exact @Call.Undone.options a.faults _ _ _ hundone

/-- Calls on a healthy disk, as long as they succeed. -/
def carryOut (s : Store) : List Call → Option Store
  | [] => some s
  | c :: calls =>
      match @Call.run healthy c s with
      | .ok _ t => t.carryOut calls
      | .error _ _ => none

private theorem runs_of_carryOut {ok : Store → Action → Store → Prop} {calls : List Call}
    (hok : ∀ c ∈ calls, ∀ s t, @Call.run healthy c s = .ok () t → ok s ⟨c, healthy⟩ t)
    {s t : Store} (h : s.carryOut calls = some t) : Runs next ok s t := by
  induction calls generalizing s with
  | nil =>
      obtain rfl := Option.some.inj h
      exact .refl
  | cons c calls ih =>
      unfold carryOut at h
      cases hr : @Call.run healthy c s with
      | ok u r =>
          rw [hr] at h
          have hrest := ih (fun c hc => hok c (List.mem_cons_of_mem _ hc)) h
          exact .head ⟨⟨c, healthy⟩, by rw [next, hr], hok c List.mem_cons_self s r hr⟩ hrest
      | error e r =>
          rw [hr] at h
          cases h

/-- A `truncate_to` succeeds, and no `remove` is refused. -/
def Undisturbed (s : Store) (a : Action) (_ : Store) : Prop :=
  ∀ offset, a.call = .truncateTo offset → s.Succeeds a ∧ ¬ @Refuses a.faults .remove

/-- An undisturbed call leaves an intact log without a gap as it is. -/
theorem next_chained {s t : Store} {a : Action} (h : s.view.Intact) (hc : s.log.Chained)
    (ha : Undisturbed s a t) (hn : s.next a = some t) : t.view.Intact ∧ t.log.Chained := by
  let _ := a.faults
  have hremove : ∀ offset, a.call = .truncateTo offset → ¬ Refuses .remove :=
    fun offset hcall => (ha offset hcall).2
  rcases next_intact h hremove hn with ⟨-, hdone⟩ | ⟨⟨e, hr⟩, hundone⟩
  · exact ⟨(h.done hremove hdone).1, Log.Chained.done (v := s.view) hc h hdone⟩
  · refine ⟨(h.undone hremove hundone).1, Log.Chained.undone (v := s.view) hc h ?_ hundone⟩
    intro offset hcall
    obtain ⟨u, hu⟩ := (ha offset hcall).1
    rw [hr] at hu
    cases hu

end Store

/-! ## Calls that all succeed -/

/-- The calls have been carried out one after the other, and none of them failed. -/
inductive Carried [Faults] : Store → List Call → Store → Prop
  | nil (s : Store) : Carried s [] s
  | cons {s t u : Store} {call : Call} {calls : List Call} (h : call.run s = .ok () t)
      (rest : Carried t calls u) : Carried s (call :: calls) u

namespace Carried

variable [Faults] {s t : Store} {calls : List Call}

/-- A call that succeeds does what it says, on an intact log. -/
theorem done {call : Call} (hi : s.view.Intact)
    (hremove : ∀ offset, call = .truncateTo offset → ¬ Refuses .remove)
    (h : call.run s = .ok () t) : call.Done s.view t.view := by
  obtain ⟨x, hx, -⟩ := hi.active_holds
  have hrun := Call.run_sat (s := s) hi.width ⟨x, hx⟩ call fun offset w hcall hw =>
    (hi.popped (hremove offset hcall) hw).1.active_sits
  rw [h] at hrun
  exact hrun

/-- What every one of the calls keeps is kept. -/
theorem invariant {I : Store → Prop} (h : Carried s calls t) (hs : I s)
    (hcall : ∀ call ∈ calls, ∀ s t : Store, I s → call.run s = .ok () t → I t) : I t := by
  induction h with
  | nil s => exact hs
  | @cons s t u call calls h rest ih =>
      apply ih
      · exact hcall call List.mem_cons_self s t hs h
      · exact fun c hc => hcall c (List.mem_cons_of_mem call hc)

/-- A call that brings a batch, and the `fsync` behind it. -/
theorem flushed {call : Call} (hi : s.view.Intact)
    (hcall : ∀ offset, call ≠ .truncateTo offset) (h : Carried s [call, .fsync] t) :
    ∃ w, call.Done s.view w ∧ ∀ f, s.view.Gains f w → s.view.Gains f t.view := by
  cases h with
  | @cons _ u _ _ _ hfirst hrest =>
      cases hrest with
      | cons hsync hnil =>
          cases hnil
          have hdone := done hi (fun offset heq => absurd heq (hcall offset)) hfirst
          have hu := (hi.done (fun offset heq => absurd heq (hcall offset)) hdone).1
          have hstep := done hu (fun _ heq => by cases heq) hsync
          exact ⟨u.view, hdone, fun f hf => hf.flushed hu hstep⟩

/-- What was replicated is the next batch of the log. -/
theorem gains_replicated {framed : Bytes} (hi : s.view.Intact) (hc : s.log.Chained)
    (h : Carried s [.appendReplicated framed, .fsync] t) :
    ∃ f : Frame, f.bytes = framed ∧ s.view.Gains f t.view := by
  obtain ⟨w, ⟨f, u, hbytes, hbase, hroom, hstep⟩, hgains⟩ :=
    flushed hi (fun _ heq => by cases heq) h
  exact ⟨f, hbytes, hgains f (hi.gains hc hroom hstep)⟩

/-- And so is what was proposed. -/
theorem gains_proposed {builder : BatchBuilder} {info : BatchMeta} (hi : s.view.Intact)
    (hc : s.log.Chained) (h : Carried s [.append builder info, .fsync] t) :
    ∃ hne : builder.records ≠ [],
      s.view.Gains (builder.frame hne s.log.nextOffset info) t.view := by
  obtain ⟨w, ⟨hne, u, hroom, hstep⟩, hgains⟩ := flushed hi (fun _ heq => by cases heq) h
  exact ⟨hne, hgains _ (hi.gains hc hroom hstep)⟩

end Carried

/-- A log that is opened in an empty directory, and calls on it. -/
def Log.begun (options : LogOptions) (calls : List Call) : Option Store :=
  match @Log.open healthy options {} with
  | .ok l d => (Store.mk l d).carryOut calls
  | .error _ _ => none

theorem Log.exists_of_begun (options : LogOptions) (ok : Store → Action → Store → Prop)
    (calls : List Call)
    (hok : ∀ c ∈ calls, ∀ s t, @Call.run healthy c s = .ok () t → ok s ⟨c, healthy⟩ t)
    {p : Store → Bool} (h : (begun options calls).any p = true) :
    ∃ l d s, @Log.open healthy options {} = .ok l d ∧ Runs Store.next ok ⟨l, d⟩ s ∧
      p s = true := by
  obtain ⟨s, hs, hp⟩ := (Option.any_eq_true _ _).1 h
  unfold begun at hs
  cases hr : @Log.open healthy options {} with
  | ok l d =>
      rw [hr] at hs
      exact ⟨l, d, s, rfl, Store.runs_of_carryOut hok hs, hp⟩
  | error e d =>
      rw [hr] at hs
      cases hs

/-- A log that is opened in an empty directory, and calls on it that may fail. -/
def Log.script (options : LogOptions) (ok : Store → Action → Store → Prop)
    [∀ s a t, Decidable (ok s a t)] (actions : List Action) : Option Store :=
  match @Log.open healthy options {} with
  | .ok l d => replay Store.next ok ⟨l, d⟩ actions
  | .error _ _ => none

theorem Log.exists_of_script (options : LogOptions) (ok : Store → Action → Store → Prop)
    [∀ s a t, Decidable (ok s a t)] (actions : List Action) {p : Store → Bool}
    (h : (script options ok actions).any p = true) :
    ∃ l d s, @Log.open healthy options {} = .ok l d ∧ Runs Store.next ok ⟨l, d⟩ s ∧
      p s = true := by
  obtain ⟨s, hs, hp⟩ := (Option.any_eq_true _ _).1 h
  unfold script at hs
  cases hr : @Log.open healthy options {} with
  | ok l d =>
      rw [hr] at hs
      exact ⟨l, d, s, rfl, runs_of_replay hs, hp⟩
  | error e d =>
      rw [hr] at hs
      cases hs

/-! ## The representation -/

namespace View

/-- The representation of a log. -/
structure Represented (v : View) : Prop where
  nonempty : v.log.segments ≠ []
  chain : v.log.segments.IsChain fun s t => t.baseOffset = s.nextOffset
  ends : ∀ s ∈ v.log.segments.getLast?, v.log.nextOffset = s.nextOffset
  segment : ∀ s ∈ v.log.segments, ∃ x fs, v.files s.logFile = some x ∧
    s.sizeBytes ≤ x.visible.length ∧ x.visible.take s.sizeBytes = encode (fs : List Frame) ∧
    Tiles s.baseOffset fs ∧ endFrom s.baseOffset fs = s.nextOffset ∧
    s.sizeBytes ≤ v.log.options.segmentMaxBytes ∧ s.index.Pairwise IndexEntry.Below ∧
    ∀ e ∈ s.index, ∃ p f, p ++ [f] <+: fs ∧ e.filePos = (encode p).length ∧
      s.baseOffset + e.relOffset = f.header.baseOffset

theorem represented {v : View} (h : v.Intact) (hc : v.log.Chained) : v.Represented where
  nonempty := List.append_ne_nil_of_right_ne_nil _ (List.cons_ne_nil _ _)
  chain := hc.tiles.isChain_snoc hc.joins
  ends := fun s hs => by
    rw [Log.segments, List.getLast?_concat] at hs
    rw [← Option.some.inj hs, hc.ends]
  segment := fun s hs => by
    obtain ⟨x, hx, hholds⟩ := (h.sits s hs).holds
    refine ⟨x, _, hx, ?_, hholds.take_visible, hholds.tiles, hholds.next.symm, ?_,
      hholds.index.increasing, fun e he => ?_⟩
    · rw [hholds.size]
      exact hholds.content.length_le
    · have hbound := hholds.bound
      rw [h.options s hs] at hbound
      exact hbound
    · obtain ⟨p, f, hp, hpos, hrel⟩ := hholds.index.marks e he
      have hmem : f ∈ s.frames v.files := hp.subset (List.mem_append_right _ List.mem_cons_self)
      obtain ⟨hle, hlt, hstop⟩ := (h.sits s hs).frame_bounds hmem
      have hwidth := extent_lt hholds.tiles hholds.length_lt
      rw [← hholds.next] at hwidth
      change s.baseOffset ≤ f.header.baseOffset at hle
      change f.header.baseOffset < _ at hlt
      have hexact : relative f.header.baseOffset s.baseOffset =
          f.header.baseOffset - s.baseOffset :=
        Nat.mod_eq_of_lt (by omega)
      exact ⟨p, f, hp, hpos, by omega⟩

end View

namespace Log

/-- The states of a run of undisturbed calls. -/
theorem intact_of_runs {faults : Faults} {options : LogOptions} {d t : Disk} {l : Log} {s : Store}
    (hwidth : options.segmentMaxBytes < 0x100000000) (hblank : Blank d.file)
    (hremove : ¬ @Refuses faults .remove) (hopen : @Log.open faults options d = .ok l t)
    (hrun : Runs Store.next Store.Undisturbed ⟨l, t⟩ s) : s.view.Intact ∧ s.log.Chained := by
  have hstart := @Log.open_sat faults d options hwidth hblank
  rw [hopen] at hstart
  exact hrun.invariant (I := fun s => s.view.Intact ∧ s.log.Chained)
    ⟨hstart.intact hwidth hremove, hstart.chained⟩
    fun _ _ _ h hn ha => Store.next_chained h.1 h.2 ha hn

/-- The representation holds in every state of a run, and an append goes where the log
ends. -/
theorem representation {faults : Faults} {options : LogOptions} {d t : Disk} {l : Log} {s : Store}
    (hwidth : options.segmentMaxBytes < 0x100000000) (hblank : Blank d.file)
    (hremove : ¬ @Refuses faults .remove) (hopen : @Log.open faults options d = .ok l t)
    (hrun : Runs Store.next Store.Undisturbed ⟨l, t⟩ s) :
    s.view.Represented ∧ ∀ (faults : Faults) (builder : BatchBuilder) (info : BatchMeta)
      (base : Nat) (s' : Store), @Log.append faults builder info s = .ok base s' →
      base = s.log.nextOffset ∧ s'.log.nextOffset = base + builder.recordCount := by
  obtain ⟨hs, hc⟩ := intact_of_runs hwidth hblank hremove hopen hrun
  refine ⟨View.represented hs hc, fun faults builder info base s' happend => ?_⟩
  obtain ⟨x, hx, -⟩ := hs.active_holds
  have hspec := @Log.append_sat faults s x hs.width hx builder info
  rw [happend] at hspec
  obtain ⟨hbase, hne, w, hroom, hstep⟩ := hspec
  have hquiet := hroom.quiet
  have hw := (hs.quiets hquiet).1
  obtain ⟨-, hstart⟩ := (Chained.quiets (v := s.view) hc hs hquiet).append hstep
  obtain ⟨-, -, hnext, -⟩ := hw.append hstep
  refine ⟨hbase, ?_⟩
  calc s'.log.nextOffset
      = Extent.stop (builder.frame hne s.log.nextOffset info) := hnext
    _ = Extent.base (builder.frame hne s.log.nextOffset info) + builder.recordCount := by
        rw [← builder.cut_recordCount s.log.nextOffset info]
        exact Frame.nextOffset_eq _
    _ = base + builder.recordCount := by rw [hstart, hquiet.log.1, hbase]; rfl

/-- A log in an empty directory that takes two batches, gives the second one up and takes
another in its place, each in a segment of its own. -/
theorem representation_replaced :
    ∃ s : Store, s.view.Represented ∧ s.log.nextOffset = 3 ∧ s.log.sealed.length = 1 := by
  obtain ⟨l, d, s, hopen, hrun, hs⟩ := exists_of_begun { segmentMaxBytes := 100 }
    Store.Undisturbed [.append { records := [[1], [2]] } {}, .append { records := [[3]] } {},
      .truncateTo 2, .append { records := [[4]] } {}]
    (fun _ _ _ t h _ _ => ⟨⟨t, h⟩, not_refuses_healthy _⟩)
    (p := fun s => s.log.nextOffset == 3 && s.log.sealed.length == 1) (by decide +kernel)
  rw [Bool.and_eq_true, beq_iff_eq, beq_iff_eq] at hs
  exact ⟨s, (representation (by decide) (fun b y hy => by cases hy) (not_refuses_healthy _) hopen
    hrun).1, hs⟩

end Log

end LogEngine.Storage
