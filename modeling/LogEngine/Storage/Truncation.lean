import LogEngine.Storage.Reads
import LogEngine.Storage.Session

/-!
# Truncated batches stay away

A session is a log that is opened, used and closed again, any number of times, on the same
directory.  Once a `truncate_to` has succeeded, a batch that it cut off is in no later
state of the session, neither in the log nor in a file that a later `Log::open` would
read, unless it is appended again.

This takes two things of the disk.  A refused `remove` leaves the file of a segment that
was dropped, and both a roll and a reopen take it up again.  And the bytes of a write that
was refused halfway stay behind the batches of the segment, where a reopen reads them.
-/

namespace LogEngine.Storage

open Base Io Io.Disk Verified.Fallible Verified.Tiling Verified.Framing Verified.Machine

/-! ## Sessions -/

/-- A directory, or a log in it. -/
inductive Session
  | closed (disk : Disk)
  | opened (store : Store)

/-- What happens in a session. -/
inductive Deed
  | call (action : Action)
  /-- The log is closed, and its sidecars are removed. -/
  | close
  | open (options : LogOptions) (faults : Faults)

namespace Session

def next : Session → Deed → Option Session
  | .opened s, .call a => (s.next a).map .opened
  | .opened s, .close => some (.closed s.disk.withoutSidecars)
  | .closed d, .open options faults =>
      match @Log.open faults options d with
      | .ok l t => some (.opened ⟨l, t⟩)
      | .error _ t => some (.closed t)
  | .opened _, .open _ _ => none
  | .closed _, .call _ => none
  | .closed _, .close => none

/-- The deed brings this batch to the log. -/
def Brings : Session → Deed → Frame → Prop
  | .opened s, .call a, f => a.call.Brings s.log.nextOffset f
  | .opened _, .close, _ => False
  | .opened _, .open _ _, _ => False
  | .closed _, _, _ => False

end Session

/-- Nothing behind the batches of a segment is read as a further batch. -/
def View.Settled (v : View) : Prop :=
  ∀ s ∈ v.log.segments, ∀ x, v.files s.logFile = some x →
    parse s.baseOffset x.visible = s.frames v.files

/-- No `remove` is refused, and a log is settled when it is closed. -/
def Session.Careful : Session → Deed → Session → Prop
  | .opened _, .call a, _ => ∀ offset, a.call = .truncateTo offset → ¬ @Refuses a.faults .remove
  | .opened s, .close, _ => s.view.Settled
  | .closed _, .open options faults, _ =>
      options.segmentMaxBytes < 0x100000000 ∧ ¬ @Refuses faults .remove
  | .opened _, .open _ _, _ => True
  | .closed _, .call _, _ => True
  | .closed _, .close, _ => True

/-! ## What a directory holds -/

/-- A log that has just been opened has the batches of the files. -/
theorem Reopened.mem_frames [Faults] {options : LogOptions} {files : FileName → Option File}
    {v : View} (h : Reopened options files v) {f : Frame} (hf : f ∈ v.frames) :
    ∃ b, f ∈ recoverFile (logBytes files) b := by
  obtain ⟨s, hs, hf⟩ := List.mem_flatMap.1 hf
  refine ⟨s.baseOffset, ?_⟩
  rw [h.frames_eq hs] at hf
  exact hf

/-- A refused open changes nothing about the batches in the files. -/
theorem Recovered.recoverFile_eq {opened : List Nat} {files files' : FileName → Option File}
    (h : Recovered opened files files')
    (hopened : ∀ b ∈ opened, (files (.log b)).isSome) (b : Nat) :
    recoverFile (logBytes files') b = recoverFile (logBytes files) b := by
  unfold recoverFile logBytes
  by_cases hb : b ∈ opened
  · obtain ⟨x, hx⟩ := Option.isSome_iff_exists.1 (hopened b hb)
    rw [h.here b hb x hx, hx]
    exact parse_recovered x b
  · have hother : ∀ c ∈ opened, FileName.log b ≠ .log c := fun c hc heq =>
      hb (FileName.log.inj heq ▸ hc)
    rw [h.other _ hother]

/-- The files of an intact log that is settled have its batches and no others. -/
theorem View.Intact.mem_of_recoverFile {v : View} (h : v.Intact) (hsettled : v.Settled) {b : Nat}
    {f : Frame} (hf : f ∈ recoverFile (logBytes v.files) b) : f ∈ v.frames := by
  by_cases hb : ∃ s ∈ v.log.segments, s.baseOffset = b
  · obtain ⟨s, hs, rfl⟩ := hb
    obtain ⟨x, hx, -⟩ := (h.sits s hs).holds
    have hbytes : logBytes v.files s.baseOffset = x.visible := by
      have hx' : v.files (.log s.baseOffset) = some x := hx
      rw [logBytes, hx', Option.getD_some]
    rw [recoverFile, hbytes, hsettled s hs x hx] at hf
    exact List.mem_flatMap.2 ⟨s, hs, hf⟩
  · have hempty : logBytes v.files b = [] := h.stray fun s hs heq => hb ⟨s, hs, heq⟩
    rw [recoverFile, hempty] at hf
    exact absurd hf List.not_mem_nil

/-! ## Invariants of a session -/

namespace Session

/-- An opened log is intact, and a closed one has no sidecars. -/
def Sound : Session → Prop
  | .closed d => ∀ b, d.file (.index b) = none
  | .opened s => s.view.Intact

/-- The batch is nowhere to be found. -/
def Lacks (f : Frame) : Session → Prop
  | .closed d => ∀ b, f ∉ recoverFile (logBytes d.file) b
  | .opened s => f ∉ s.view.frames

variable {σ τ : Session} {deed : Deed}

/-- What opening a directory without sidecars leads to. -/
theorem next_open {d : Disk} {options : LogOptions} {faults : Faults}
    (hn : (closed d).next (.open options faults) = some τ) :
    (∃ l t, @Log.open faults options d = .ok l t ∧ τ = .opened ⟨l, t⟩) ∨
      ∃ e t, @Log.open faults options d = .error e t ∧ τ = .closed t := by
  unfold next at hn
  dsimp only at hn
  cases hr : @Log.open faults options d with
  | ok l t =>
      rw [hr] at hn
      exact .inl ⟨l, t, rfl, (Option.some.inj hn).symm⟩
  | error e t =>
      rw [hr] at hn
      exact .inr ⟨e, t, rfl, (Option.some.inj hn).symm⟩

private theorem sound_next (h : σ.Sound) (hn : σ.next deed = some τ) (hok : σ.Careful deed τ) :
    τ.Sound := by
  cases σ with
  | opened s =>
      cases deed with
      | call a =>
          obtain ⟨t, ht, rfl⟩ := Option.map_eq_some_iff.1 hn
          let _ := a.faults
          rcases Store.next_intact h hok ht with ⟨-, hdone⟩ | ⟨-, hundone⟩
          · exact (View.Intact.done h hok hdone).1
          · exact (View.Intact.undone h hok hundone).1
      | close =>
          obtain rfl := Option.some.inj hn
          exact fun b => withoutSidecars_index _ b
      | «open» options faults => cases hn
  | closed d =>
      cases deed with
      | call a => cases hn
      | close => cases hn
      | «open» options faults =>
          have hspec := @Log.open_sat faults d options hok.1 fun b y hy => by
            rw [h b] at hy
            cases hy
          rcases next_open hn with ⟨l, t, hr, rfl⟩ | ⟨e, t, hr, rfl⟩
          · rw [hr] at hspec
            exact Reopened.intact hspec hok.1 hok.2
          · rw [hr] at hspec
            intro b
            rcases hspec.1 with ⟨opened, -, hfiles⟩ | ⟨-, hfiles⟩
            · rw [hfiles.other _ fun c _ heq => by cases heq]
              exact h b
            · rw [hfiles, Function.update_of_ne (fun heq => by cases heq)]
              exact h b

/-- A batch that is not there stays away, unless it is brought. -/
theorem lacks_next {f : Frame} (h : σ.Sound) (hf : σ.Lacks f) (hn : σ.next deed = some τ)
    (hok : σ.Careful deed τ) (hnew : ¬ σ.Brings deed f) : τ.Lacks f := by
  cases σ with
  | opened s =>
      cases deed with
      | call a =>
          obtain ⟨t, ht, rfl⟩ := Option.map_eq_some_iff.1 hn
          let _ := a.faults
          rcases Store.next_intact h hok ht with ⟨-, hdone⟩ | ⟨-, hundone⟩
          · exact Call.Gives.not_mem (View.Intact.done h hok hdone).2 hf hnew
          · exact fun hmem => hf ((View.Intact.undone h hok hundone).2.isPrefix.subset hmem)
      | close =>
          obtain rfl := Option.some.inj hn
          intro b hb
          refine hf (View.Intact.mem_of_recoverFile h hok (b := b) ?_)
          unfold recoverFile logBytes at hb ⊢
          rw [withoutSidecars_log] at hb
          exact hb
      | «open» options faults => cases hn
  | closed d =>
      cases deed with
      | call a => cases hn
      | close => cases hn
      | «open» options faults =>
          have hspec := @Log.open_sat faults d options hok.1 fun b y hy => by
            rw [h b] at hy
            cases hy
          rcases next_open hn with ⟨l, t, hr, rfl⟩ | ⟨e, t, hr, rfl⟩
          · rw [hr] at hspec
            intro hmem
            obtain ⟨b, hb⟩ := Reopened.mem_frames hspec hmem
            exact hf b hb
          · rw [hr] at hspec
            intro b
            rcases hspec.1 with ⟨opened, hopened, hfiles⟩ | ⟨hnone, hfiles⟩
            · rw [hfiles.recoverFile_eq hopened]
              exact hf b
            · unfold recoverFile logBytes
              rw [hfiles]
              by_cases hb : b = 0
              · rw [hb, Function.update_self]
                exact List.not_mem_nil
              · rw [Function.update_of_ne fun heq => hb (FileName.log.inj heq)]
                exact hf b

/-- Careful deeds keep a session sound. -/
theorem sound_runs (h : σ.Sound) (hrun : Runs next Careful σ τ) : τ.Sound :=
  hrun.invariant h fun _ _ _ hs hn hok => sound_next hs hn hok

/-- Once `truncate_to` has succeeded, no later read hands back a batch at the offset or
behind it, unless the batch is appended again. -/
theorem truncated_gone {d : Disk} {s t u : Store} {faults : Faults} {offset : Nat} {f : Frame}
    (hnone : ∀ b, d.file (.index b) = none)
    (hrun : Runs next Careful (.closed d) (.opened s))
    (hcut : @Log.truncateTo faults offset s = .ok () t) (hremove : ¬ @Refuses faults .remove)
    (hoffset : offset ≤ Extent.base f)
    (hlater : Runs next (fun σ deed τ => σ.Careful deed τ ∧ ¬ σ.Brings deed f)
      (.opened t) (.opened u))
    {reading : Faults} {start capacity : Nat} {bytes : Bytes} {d' : Disk}
    (hread : @Log.read reading u.log start capacity u.disk = .ok bytes d') {gs : List Frame}
    (hgs : bytes = encode gs) : f ∉ gs := by
  have hs : s.view.Intact := sound_runs (show (Session.closed d).Sound from hnone) hrun
  have hstep : s.next ⟨.truncateTo offset, faults⟩ = some t := by
    have hcall : @Call.run faults (.truncateTo offset) s = .ok () t := hcut
    rw [Store.next, hcall]
  obtain ⟨ht, hframes⟩ : t.view.Intact ∧ t.view.frames = upTo s.view.frames offset := by
    have hok : ∀ k, Call.truncateTo offset = .truncateTo k → ¬ @Refuses faults .remove :=
      fun _ _ => hremove
    rcases Store.next_intact hs hok hstep with ⟨-, hdone⟩ | ⟨⟨e, herr⟩, -⟩
    · exact @View.Intact.done faults _ _ _ hs hok hdone
    · cases herr.symm.trans (hcut : @Call.run faults (.truncateTo offset) s = .ok () t)
  have hgone : f ∉ t.view.frames := fun hmem => by
    rw [hframes] at hmem
    have := base_lt_of_mem_upTo hmem
    omega
  obtain ⟨hu, hlacks⟩ := hlater.invariant (I := fun τ => τ.Sound ∧ τ.Lacks f) ⟨ht, hgone⟩
    fun _ _ _ h hn hok => ⟨sound_next h.1 hn hok.1, lacks_next h.1 h.2 hn hok.1 hok.2⟩
  have hspec := @Log.read_ends reading u.disk u.log
    (fun g hg => (hu.sits g hg).readable) start capacity
  rw [hread] at hspec
  obtain ⟨hs, hbytes, hmem⟩ := Log.mem_of_reads (v := u.view) hspec.2
  obtain rfl : gs = hs := encode_injective (hgs.symm.trans hbytes)
  exact fun hfgs => hlacks (hmem f hfgs)

/-! ## A file that is left behind -/

/-- Calls on an opened log are deeds of its session. -/
theorem runs_of_calls {ok : Store → Action → Store → Prop}
    {ok' : Session → Deed → Session → Prop}
    (hok : ∀ s a t, ok s a t → ok' (.opened s) (.call a) (.opened t)) {s t : Store}
    (h : Runs Store.next ok s t) : Runs next ok' (.opened s) (.opened t) := by
  induction h with
  | refl => exact .refl
  | tail _ hlast ih =>
      obtain ⟨a, hn, ha⟩ := hlast
      exact ih.tail ⟨.call a, by rw [next, hn, Option.map_some], hok _ a _ ha⟩

/-- A segment has room for one of the batches. -/
def oneEach : LogOptions := { segmentMaxBytes := 100 }

def firstOne : BatchBuilder := { records := [[6]] }

def secondOne : BatchBuilder := { records := [[2]] }

/-- The second of the batches, behind the first. -/
def second : Frame := secondOne.frame (by decide) 1 {}

/-- Two batches in a session that has begun with an empty directory. -/
theorem exists_pair {p : Store → Bool}
    (h : (Log.begun oneEach [.append firstOne {}, .append secondOne {}]).any p = true) :
    ∃ s, Runs next Careful (.closed {}) (.opened s) ∧ p s = true := by
  obtain ⟨l, d, s, hopen, hrun, hs⟩ := Log.exists_of_begun oneEach
    (fun _ a _ => ∀ offset, a.call = .truncateTo offset → ¬ @Refuses a.faults .remove) _
    (fun _ _ _ _ _ _ _ => not_refuses_healthy _) h
  refine ⟨s, .head ⟨.open oneEach healthy, ?_, ?_⟩ (runs_of_calls (fun _ _ _ h => h) hrun), hs⟩
  · rw [next, hopen]
  · exact ⟨by decide, not_refuses_healthy _⟩

def twoMore : BatchBuilder := { records := [[3], [4]] }

/-- The second batch is cut off, another one takes its place, and is read. -/
def replaceSecond (s : Store) : Option (Store × Store × Bytes × Disk) :=
  match @Log.truncateTo healthy 1 s with
  | .error _ _ => none
  | .ok _ t =>
      match @Call.run healthy (.append twoMore {}) t with
      | .error _ _ => none
      | .ok _ u =>
          match @Log.read healthy u.log 1 1000 u.disk with
          | .error _ _ => none
          | .ok bytes d => some (t, u, bytes, d)

/-- What is read is another batch than the one that was cut off. -/
theorem truncated_gone_replaced :
    ∃ (s t u : Store) (bytes : Bytes) (d : Disk), @Log.truncateTo healthy 1 s = .ok () t ∧
      @Log.read healthy u.log 1 1000 u.disk = .ok bytes d ∧ bytes ≠ [] ∧
      ∀ gs : List Frame, bytes = encode gs → second ∉ gs := by
  obtain ⟨s, hrun, hs⟩ := exists_pair
    (p := fun s => (replaceSecond s).any
    fun r : Store × Store × Bytes × Disk => decide (r.2.2.1 ≠ [])) (by decide +kernel)
  obtain ⟨⟨t, u, bytes, d⟩, hr, hne⟩ := (Option.any_eq_true _ _).1 hs
  unfold replaceSecond at hr
  split at hr
  · cases hr
  case h_2 t' hcut =>
    split at hr
    · cases hr
    case h_2 u' hcall =>
      split at hr
      · cases hr
      case h_2 bytes' d' hread =>
        cases hr
        have hother : ¬ Brings (.opened t) (.call ⟨.append twoMore {}, healthy⟩) second := by
          rintro ⟨hne, heq⟩
          have hcount := congrArg (fun f => f.header.recordCount) heq
          have htwo := twoMore.cut_recordCount t.log.nextOffset {}
          have hone := secondOne.cut_recordCount 1 {}
          exact absurd (hone.symm.trans (hcount.trans htwo)) (by decide)
        have hruns : Runs next (fun σ deed τ => σ.Careful deed τ ∧ ¬ σ.Brings deed second)
            (.opened t) (.opened u) := by
          refine .single ⟨.call ⟨.append twoMore {}, healthy⟩, ?_, fun _ h => ?_, hother⟩
          · rw [next, Store.next, hcall, Option.map_some]
          · cases h
        exact ⟨s, t, u, bytes, d, hcut, hread, of_decide_eq_true hne, fun gs hgs =>
          truncated_gone (fun b => by rfl) hrun hcut (not_refuses_healthy _) (by decide) hruns hread
            hgs⟩

/-- Every `remove` is refused. -/
@[reducible] def keepsFiles : Faults := ⟨fun _ op => op == .remove, fun _ => 0⟩

/-- The second batch is cut off, and the log is closed and opened again. -/
def reopenSecond (s : Store) : Option (Store × Disk × Store) :=
  match @Log.truncateTo keepsFiles 1 s with
  | .error _ _ => none
  | .ok _ t =>
      match @Log.open healthy oneEach t.disk.withoutSidecars with
      | .error _ _ => none
      | .ok l d => some (t, t.disk.withoutSidecars, ⟨l, d⟩)

/-- The file of the second batch is left behind, and a reopen finds it. -/
theorem truncated_back :
    ∃ (s t u : Store) (d : Disk), Runs next Careful (.closed {}) (.opened s) ∧
      outcome (@Log.read healthy s.log 1 1000 s.disk) = .ok second.bytes ∧
      @Log.truncateTo keepsFiles 1 s = .ok () t ∧
      next (.opened t) .close = some (.closed d) ∧
      next (.closed d) (.open oneEach healthy) = some (.opened u) ∧
      outcome (@Log.read healthy u.log 1 1000 u.disk) = .ok second.bytes := by
  obtain ⟨s, hrun, hs⟩ := exists_pair (p := fun s =>
    decide (outcome (@Log.read healthy s.log 1 1000 s.disk) = .ok second.bytes) &&
      (reopenSecond s).any fun r =>
        decide (outcome (@Log.read healthy r.2.2.log 1 1000 r.2.2.disk) = .ok second.bytes))
    (by decide +kernel)
  rw [Bool.and_eq_true, decide_eq_true_eq] at hs
  obtain ⟨hbefore, hafter⟩ := hs
  obtain ⟨⟨t, d, u⟩, hr, hread⟩ := (Option.any_eq_true _ _).1 hafter
  unfold reopenSecond at hr
  split at hr
  · cases hr
  case h_2 t' hcut =>
    split at hr
    · cases hr
    case h_2 l d' hopen =>
      cases hr
      refine ⟨s, t, ⟨l, d'⟩, _, hrun, hbefore, hcut, rfl, ?_, of_decide_eq_true hread⟩
      rw [next, hopen]

end Session

end LogEngine.Storage
