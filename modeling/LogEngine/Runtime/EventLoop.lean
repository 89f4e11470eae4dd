import LogEngine.Sim.Timeline

/-!
# The event loop

`src/runtime/event_loop.{h,cpp}`: tasks that were posted, and timers in the order of their
deadlines and, for one deadline, in the order in which they were added.  The heap of the
source is a list in that order, as in `Sim/Scheduler`: a timer is an event, and its
`LaterFirst` is the one of the scheduler.

The calls of a loop are interleaved with those of its tasks and I/O handlers, which add and
cancel timers and post tasks while the loop is draining, polling or firing.  A life of a loop
is therefore a run of small steps (`Life.next`), and the phase says where in `run_once` the
loop is.  Every reading of the clock is an argument, and not before the one before it.

What has fired and what is still there are in order all together (`Life.Sound`), from which
follows the order over the whole life of the loop (`timers_fire_in_order`).
-/

namespace LogEngine.Runtime

open Sim Verified.Machine

/-- `EventLoop::Timer`; what is to run stands for the task. -/
abbrev Timer (κ : Type) := Event κ

/-- `EventLoop`, apart from the clock and the network. -/
structure EventLoop (κ : Type) where
  timers : List (Timer κ) := []
  pending : List κ := []
  nextTimerId : Nat := 1
  sorted : timers.Pairwise Event.Before := by exact Scheduler.start.sorted
  fresh : ∀ t ∈ timers, t.id < nextTimerId := by exact Scheduler.start.fresh

namespace EventLoop

variable {κ : Type} (loop : EventLoop κ)

/-- The timer that `add_timer_after` makes, with what the clock reads. -/
def timer (reading delay : Int) (task : κ) : Timer κ :=
  ⟨reading + if 0 < delay then delay else 0, loop.nextTimerId, task⟩

/-- `add_timer_after`. -/
def addTimerAfter (reading delay : Int) (task : κ) : EventLoop κ where
  timers := Event.push (loop.timer reading delay task) loop.timers
  pending := loop.pending
  nextTimerId := loop.nextTimerId + 1
  sorted := Event.pairwise_push loop.sorted loop.fresh
  fresh := by
    intro t ht
    rcases Event.mem_push.1 ht with rfl | ht
    · exact Nat.lt_succ_self _
    · exact Nat.lt_succ_of_lt (loop.fresh t ht)

/-- Some timers are left out. -/
def withTimers (timers : List (Timer κ)) (h : timers.Sublist loop.timers) : EventLoop κ where
  timers := timers
  pending := loop.pending
  nextTimerId := loop.nextTimerId
  sorted := loop.sorted.sublist h
  fresh := fun t ht => loop.fresh t (h.subset ht)

/-- `cancel_timer`. -/
def cancelTimer (id : Nat) : Bool × EventLoop κ :=
  if loop.timers.any fun t => t.id == id then
    (true, loop.withTimers (loop.timers.eraseP fun t => t.id == id) List.eraseP_sublist)
  else (false, loop)

/-- `post`. -/
def post (task : κ) : EventLoop κ := { loop with pending := loop.pending ++ [task] }

/-- `next_deadline`. -/
def nextDeadline : Int :=
  match loop.timers with
  | [] => kNoTimeout
  | t :: _ => t.deadline

/-- How long `run_once` lets the network block. -/
def pollTimeout (maxBlock reading : Int) : Int :=
  if loop.pending ≠ [] then 0
  else if loop.nextDeadline ≠ kNoTimeout then
    let left := loop.nextDeadline - reading
    let capped := if 0 < left then left else 0
    if maxBlock = kNoTimeout then capped else min maxBlock capped
  else maxBlock

/-- The timer at the front, if it is due: one turn of the loop of `fire_expired_timers`, up to
the task. -/
def popExpired (now : Int) : Option (Timer κ × EventLoop κ) :=
  match h : loop.timers with
  | [] => none
  | t :: rest =>
      if t.deadline ≤ now then
        some (t, loop.withTimers rest (by rw [h]; exact List.sublist_cons_self t rest))
      else none

variable {loop} {now reading : Int}

private theorem popExpired_eq_some {t : Timer κ} {loop' : EventLoop κ}
    (h : loop.popExpired now = some (t, loop')) :
    t.deadline ≤ now ∧ loop.timers = t :: loop'.timers ∧ loop'.nextTimerId = loop.nextTimerId := by
  unfold popExpired at h
  split at h
  · cases h
  case h_2 t' rest htimers =>
    split at h
    case isTrue hdue =>
      cases h
      exact ⟨hdue, htimers, rfl⟩
    case isFalse => cases h

/-- Where no timer at the front is due, none is. -/
theorem popExpired_eq_none (h : loop.popExpired now = none) :
    ∀ t ∈ loop.timers, now < t.deadline := by
  have hsorted := loop.sorted
  unfold popExpired at h
  split at h
  case h_1 hnil =>
    rw [hnil]
    exact List.forall_mem_nil _
  case h_2 t rest htimers =>
    split at h
    · cases h
    case isFalse hdue =>
      rw [htimers, List.pairwise_cons] at hsorted
      rw [htimers]
      intro x hx
      rcases List.mem_cons.1 hx with rfl | hx
      · exact Int.not_le.1 hdue
      · exact Int.lt_of_lt_of_le (Int.not_le.1 hdue) (hsorted.1 x hx).deadline_le

/-- `next_deadline` is not after the deadline of any timer. -/
theorem nextDeadline_le {t : Timer κ} (ht : t ∈ loop.timers) : loop.nextDeadline ≤ t.deadline := by
  have hsorted := loop.sorted
  unfold nextDeadline
  cases htimers : loop.timers with
  | nil =>
      rw [htimers] at ht
      cases ht
  | cons front rest =>
      rw [htimers, List.pairwise_cons] at hsorted
      rw [htimers] at ht
      rcases List.mem_cons.1 ht with rfl | ht
      · exact Int.le_refl _
      · exact (hsorted.1 t ht).deadline_le

/-- The loop does not sleep past the deadline of a timer. -/
theorem pollTimeout_le {maxBlock : Int} {t : Timer κ} (ht : t ∈ loop.timers)
    (hreal : loop.nextDeadline ≠ kNoTimeout) (hreading : reading ≤ t.deadline) :
    reading + loop.pollTimeout maxBlock reading ≤ t.deadline := by
  have hfirst := nextDeadline_le ht
  unfold pollTimeout
  split
  · omega
  · dsimp only
    split <;> split <;> omega

end EventLoop

/-! ## The life of a loop -/

/-- Where in `run_once` a loop is. -/
inductive Phase (κ : Type)
  | idle
  /-- In `drain_pending`, with the tasks of `draining_` that are left. -/
  | draining (rest : List κ)
  | polling
  /-- In `fire_expired_timers`, with its reading of the clock. -/
  | firing (now : Int)

/-- A step of a loop, or a call of its owner, its tasks or its I/O handlers. -/
inductive Act (κ : Type)
  | addTimerAfter (reading delay : Int) (task : κ)
  | cancelTimer (id : Nat)
  | post (task : κ)
  /-- `run_once` begins: the posted tasks are swapped out. -/
  | runOnce
  /-- The next of them begins. -/
  | runTask
  /-- They are through; the network is polled, and that many events are handled. -/
  | poll (reading : Int) (events : Nat)
  /-- `fire_expired_timers` reads the clock. -/
  | fireExpired (reading : Int)
  /-- The timer at the front is due, and its task begins. -/
  | fire
  /-- No timer is due, and `run_once` returns. -/
  | returned

/-- A loop, with what has happened to it. -/
structure Life (κ : Type) where
  loop : EventLoop κ
  phase : Phase κ
  /-- What `run_once` will return. -/
  work : Nat
  /-- The last reading of the clock. -/
  reading : Int
  /-- The timers that have fired, in the order in which they have, and the reading of the
  clock for which each of them was due. -/
  fired : List (Timer κ × Int)
  /-- The timers for which `cancel_timer` has returned true. -/
  revoked : List Nat

namespace Life

variable {κ : Type}

/-- A new loop, with what the clock reads then. -/
def start (reading : Int) : Life κ := ⟨{}, .idle, 0, reading, [], []⟩

def next (l : Life κ) : Act κ → Option (Life κ)
  | .addTimerAfter reading delay task =>
      if l.reading ≤ reading then
        some { l with loop := l.loop.addTimerAfter reading delay task, reading := reading }
      else none
  | .cancelTimer id =>
      let (found, loop) := l.loop.cancelTimer id
      some { l with loop := loop, revoked := if found then id :: l.revoked else l.revoked }
  | .post task => some { l with loop := l.loop.post task }
  | .runOnce =>
      match l.phase with
      | .idle =>
          some { l with
            loop := { l.loop with pending := [] }
            phase := .draining l.loop.pending
            work := 0 }
      | _ => none
  | .runTask =>
      match l.phase with
      | .draining (_ :: rest) => some { l with phase := .draining rest, work := l.work + 1 }
      | _ => none
  | .poll reading events =>
      match l.phase with
      | .draining [] =>
          if l.reading ≤ reading then
            some { l with phase := .polling, reading := reading, work := l.work + events }
          else none
      | _ => none
  | .fireExpired reading =>
      match l.phase with
      | .polling =>
          if l.reading ≤ reading then some { l with phase := .firing reading, reading := reading }
          else none
      | _ => none
  | .fire =>
      match l.phase with
      | .firing now =>
          match l.loop.popExpired now with
          | some (t, loop) =>
              some { l with loop := loop, fired := l.fired ++ [(t, now)], work := l.work + 1 }
          | none => none
      | _ => none
  | .returned =>
      match l.phase with
      | .firing now =>
          match l.loop.popExpired now with
          | some _ => none
          | none => some { l with phase := .idle }
      | _ => none

/-- The timers that have fired, and those that are still there. -/
def all (l : Life κ) : List (Timer κ) := l.fired.map Prod.fst ++ l.loop.timers

/-- What a life keeps. -/
structure Sound (l : Life κ) : Prop where
  ordered : l.all.Pairwise Event.Before
  distinct : ∀ a ∈ l.all, ∀ b ∈ l.all, a.id = b.id → a = b
  fresh : ∀ t ∈ l.all, t.id < l.loop.nextTimerId
  due : ∀ p ∈ l.fired, p.1.deadline ≤ p.2 ∧ p.2 ≤ l.reading
  now_le : ∀ now, l.phase = .firing now → now ≤ l.reading
  revoked : ∀ id ∈ l.revoked, id < l.loop.nextTimerId ∧ ∀ t ∈ l.all, t.id ≠ id

variable {l l' : Life κ}

private theorem sound_start (reading : Int) : (start reading : Life κ).Sound := by
  constructor
  · exact List.Pairwise.nil
  · exact List.forall_mem_nil _
  · exact List.forall_mem_nil _
  · exact List.forall_mem_nil _
  · intro now h
    cases h
  · exact List.forall_mem_nil _

/-- What has fired stays so, and what was cancelled. -/
structure Continues (l l' : Life κ) : Prop where
  fired : l.fired <+: l'.fired
  revoked : l.revoked ⊆ l'.revoked

theorem Continues.refl (l : Life κ) : l.Continues l := ⟨List.prefix_rfl, List.Subset.refl _⟩

theorem Continues.trans {l'' : Life κ} (h : l.Continues l') (h' : l'.Continues l'') :
    l.Continues l'' :=
  ⟨h.fired.trans h'.fired, List.Subset.trans h.revoked h'.revoked⟩

/-- Steps that leave the timers alone. -/
theorem Sound.of_same (h : l.Sound) (htimers : l'.loop.timers = l.loop.timers)
    (hid : l'.loop.nextTimerId = l.loop.nextTimerId) (hfired : l'.fired = l.fired)
    (hrevoked : l'.revoked = l.revoked) (hreading : l.reading ≤ l'.reading)
    (hnow : ∀ now, l'.phase = .firing now → now ≤ l'.reading) :
    l'.Sound ∧ l.Continues l' := by
  have hall : l'.all = l.all := by
    unfold all
    rw [htimers, hfired]
  refine ⟨?_, hfired ▸ List.prefix_rfl, hrevoked ▸ List.Subset.refl _⟩
  constructor
  · rw [hall]
    exact h.ordered
  · rw [hall]
    exact h.distinct
  · rw [hall, hid]
    exact h.fresh
  · rw [hfired]
    intro p hp
    exact ⟨(h.due p hp).1, Int.le_trans (h.due p hp).2 hreading⟩
  · exact hnow
  · rw [hall, hid, hrevoked]
    exact h.revoked

/-- A timer that is added is due no earlier than what has fired. -/
theorem Sound.addTimerAfter (h : l.Sound) {reading : Int} (hreading : l.reading ≤ reading)
    (delay : Int) (task : κ) :
    { l with loop := l.loop.addTimerAfter reading delay task, reading := reading }.Sound := by
  have hdeadline : reading ≤ (l.loop.timer reading delay task).deadline := by
    unfold EventLoop.timer
    dsimp only
    split <;> omega
  have hmem : ∀ t, t ∈ l.fired.map Prod.fst ++
      Event.push (l.loop.timer reading delay task) l.loop.timers ↔
      t = l.loop.timer reading delay task ∨ t ∈ l.all := by
    intro t
    unfold all
    rw [List.mem_append, List.mem_append, Event.mem_push]
    tauto
  constructor
  · refine Event.pairwise_append_push h.ordered h.fresh ?_
    intro t ht
    obtain ⟨p, hp, rfl⟩ := List.mem_map.1 ht
    have hdue := h.due p hp
    omega
  · intro a ha b hb heq
    rcases (hmem a).1 ha with rfl | ha
    · rcases (hmem b).1 hb with rfl | hb
      · rfl
      · exact absurd heq (Nat.ne_of_gt (h.fresh b hb))
    · rcases (hmem b).1 hb with rfl | hb
      · exact absurd heq (Nat.ne_of_lt (h.fresh a ha))
      · exact h.distinct a ha b hb heq
  · intro t ht
    rcases (hmem t).1 ht with rfl | ht
    · exact Nat.lt_succ_self _
    · exact Nat.lt_succ_of_lt (h.fresh t ht)
  · intro p hp
    exact ⟨(h.due p hp).1, Int.le_trans (h.due p hp).2 hreading⟩
  · intro now hphase
    exact Int.le_trans (h.now_le now hphase) hreading
  · intro id hid
    obtain ⟨hlt, hne⟩ := h.revoked id hid
    refine ⟨Nat.lt_succ_of_lt hlt, ?_⟩
    intro t ht
    rcases (hmem t).1 ht with rfl | ht
    · exact Nat.ne_of_gt hlt
    · exact hne t ht

/-- The timer that is cancelled is the only one with its identifier. -/
theorem id_ne_of_mem_eraseP {timers : List (Timer κ)} {id : Nat} (h : timers.Pairwise Event.Before)
    (hdistinct : ∀ a ∈ timers, ∀ b ∈ timers, a.id = b.id → a = b) {x : Timer κ}
    (hx : x ∈ timers.eraseP fun t => t.id == id) : x.id ≠ id := by
  induction timers with
  | nil => cases hx
  | cons t rest ih =>
      rw [List.pairwise_cons] at h
      rw [List.eraseP_cons] at hx
      cases hid : t.id == id with
      | true =>
          rw [hid, cond_true] at hx
          rintro rfl
          obtain rfl : x = t := hdistinct x (List.mem_cons_of_mem _ hx) t List.mem_cons_self
            (beq_iff_eq.1 hid).symm
          exact Event.Before.irrefl x (h.1 x hx)
      | false =>
          rw [hid, cond_false] at hx
          rcases List.mem_cons.1 hx with rfl | hx
          · exact beq_eq_false_iff_ne.1 hid
          · refine ih h.2 (fun a ha b hb => ?_) hx
            exact hdistinct a (List.mem_cons_of_mem _ ha) b (List.mem_cons_of_mem _ hb)

/-- A timer is gone, and it has not fired. -/
theorem Sound.cancelTimer (h : l.Sound) (id : Nat) (hl : l.next (.cancelTimer id) = some l') :
    l'.Sound ∧ l.Continues l' := by
  dsimp only [Life.next, EventLoop.cancelTimer] at hl
  split at hl
  case isTrue hfound =>
    cases hl
    refine ⟨?_, List.prefix_rfl, List.subset_cons_self _ _⟩
    obtain ⟨t, ht, hid⟩ := List.any_eq_true.1 hfound
    obtain rfl : t.id = id := beq_iff_eq.1 hid
    have hsub : (l.loop.timers.eraseP fun x => x.id == t.id).Sublist l.loop.timers :=
      List.eraseP_sublist
    have hall := hsub.append_left (l.fired.map Prod.fst)
    constructor
    · exact h.ordered.sublist hall
    · intro a ha b hb heq
      exact h.distinct a (hall.subset ha) b (hall.subset hb) heq
    · intro x hx
      exact h.fresh x (hall.subset hx)
    · exact h.due
    · exact h.now_le
    · intro i hi
      rcases List.mem_cons.1 hi with rfl | hi
      · refine ⟨h.fresh t (List.mem_append_right _ ht), ?_⟩
        intro x hx heq
        obtain ⟨-, hsorted, hcross⟩ := List.pairwise_append.1 h.ordered
        rcases List.mem_append.1 hx with hx | hx
        · obtain rfl : x = t := h.distinct x (List.mem_append_left _ hx) t
            (List.mem_append_right _ ht) heq
          exact Event.Before.irrefl x (hcross x hx x ht)
        · refine id_ne_of_mem_eraseP hsorted (fun a ha b hb => ?_) hx heq
          exact h.distinct a (List.mem_append_right _ ha) b (List.mem_append_right _ hb)
      · obtain ⟨hlt, hne⟩ := h.revoked i hi
        exact ⟨hlt, fun x hx => hne x (hall.subset hx)⟩
  case isFalse =>
    cases hl
    exact ⟨h, .refl l⟩

theorem Sound.fire (h : l.Sound) {now : Int} (hphase : l.phase = .firing now) {t : Timer κ}
    {loop : EventLoop κ} (hpop : l.loop.popExpired now = some (t, loop)) :
    { l with loop := loop, fired := l.fired ++ [(t, now)], work := l.work + 1 }.Sound := by
  obtain ⟨hdue, htimers, hid⟩ := EventLoop.popExpired_eq_some hpop
  have hall : (l.fired ++ [(t, now)]).map Prod.fst ++ loop.timers = l.all := by
    unfold all
    rw [htimers, List.map_append, List.append_assoc]
    rfl
  constructor
  · unfold all
    rw [hall]
    exact h.ordered
  · unfold all
    rw [hall]
    exact h.distinct
  · unfold all
    rw [hall, hid]
    exact h.fresh
  · intro p hp
    rcases List.mem_append.1 hp with hp | hp
    · exact h.due p hp
    · rw [List.mem_singleton.1 hp]
      exact ⟨hdue, h.now_le now hphase⟩
  · exact h.now_le
  · unfold all
    rw [hall, hid]
    exact h.revoked

theorem Sound.next {act : Act κ} (h : l.Sound) (hl : l.next act = some l') :
    l'.Sound ∧ l.Continues l' := by
  cases act with
  | addTimerAfter reading delay task =>
      dsimp only [Life.next] at hl
      split at hl
      case isTrue hreading =>
        cases hl
        exact ⟨h.addTimerAfter hreading delay task, List.prefix_rfl, List.Subset.refl _⟩
      case isFalse => cases hl
  | cancelTimer id => exact h.cancelTimer id hl
  | post task =>
      cases hl
      exact h.of_same rfl rfl rfl rfl (Int.le_refl _) h.now_le
  | runOnce =>
      dsimp only [Life.next] at hl
      split at hl
      · cases hl
        exact h.of_same rfl rfl rfl rfl (Int.le_refl _) fun now hp => by cases hp
      · cases hl
  | runTask =>
      dsimp only [Life.next] at hl
      split at hl
      · cases hl
        exact h.of_same rfl rfl rfl rfl (Int.le_refl _) fun now hp => by cases hp
      · cases hl
  | poll reading events =>
      dsimp only [Life.next] at hl
      split at hl
      · split at hl
        case isTrue hreading =>
          cases hl
          exact h.of_same rfl rfl rfl rfl hreading fun now hp => by cases hp
        case isFalse => cases hl
      · cases hl
  | fireExpired reading =>
      dsimp only [Life.next] at hl
      split at hl
      · split at hl
        case isTrue hreading =>
          cases hl
          refine h.of_same rfl rfl rfl rfl hreading fun now hp => ?_
          cases hp
          exact Int.le_refl _
        case isFalse => cases hl
      · cases hl
  | fire =>
      dsimp only [Life.next] at hl
      split at hl
      case h_1 now hphase =>
        split at hl
        case h_1 t loop hpop =>
          cases hl
          exact ⟨h.fire hphase hpop, List.prefix_append _ _, List.Subset.refl _⟩
        case h_2 => cases hl
      case h_2 => cases hl
  | returned =>
      dsimp only [Life.next] at hl
      split at hl
      · split at hl
        · cases hl
        · cases hl
          exact h.of_same rfl rfl rfl rfl (Int.le_refl _) fun now hp => by cases hp
      · cases hl

end Life

/-- Over the whole life of a loop, on a clock that does not go back, timers fire in the
order of their deadlines and identifiers, none before its deadline and each of them once; a
timer that was cancelled never fires; and when `fire_expired_timers` returns no timer is left
that was due at its reading of the clock. -/
theorem timers_fire_in_order {κ : Type} {reading : Int} {l : Life κ}
    (hrun : Runs Life.next (fun _ _ _ => True) (Life.start reading) l) :
    (l.fired.map Prod.fst).Pairwise Event.Before ∧
    (∀ p ∈ l.fired, p.1.deadline ≤ p.2) ∧
    (l.fired.map fun p => p.1.id).Nodup ∧
    (∀ l', Runs Life.next (fun _ _ _ => True) l l' →
      l.fired <+: l'.fired ∧ ∀ p ∈ l'.fired, p.1.id ∉ l.revoked) ∧
    ∀ now l', l.phase = .firing now → l.next .returned = some l' →
      ∀ t ∈ l'.loop.timers, now < t.deadline := by
  have hsound : l.Sound := by
    refine hrun.invariant (Life.sound_start reading) ?_
    intro l act l' h hl _
    exact (h.next hl).1
  have hordered := (List.pairwise_append.1 hsound.ordered).1
  refine ⟨hordered, fun p hp => (hsound.due p hp).1, ?_, ?_, ?_⟩
  · have hnodup := Event.nodup_id hordered fun a ha b hb =>
      hsound.distinct a (List.mem_append_left _ ha) b (List.mem_append_left _ hb)
    rw [List.map_map] at hnodup
    exact hnodup
  · intro l' hrun'
    obtain ⟨hsound', hcontinues⟩ : l'.Sound ∧ l.Continues l' := by
      refine hrun'.invariant (I := fun x => x.Sound ∧ l.Continues x) ⟨hsound, .refl l⟩ ?_
      intro x act y h hy _
      obtain ⟨hy', hcontinues⟩ := h.1.next hy
      exact ⟨hy', h.2.trans hcontinues⟩
    refine ⟨hcontinues.fired, ?_⟩
    intro p hp hmem
    exact (hsound'.revoked p.1.id (hcontinues.revoked hmem)).2 p.1
      (List.mem_append_left _ (List.mem_map_of_mem hp)) rfl
  · intro now l' hphase hl
    dsimp only [Life.next] at hl
    rw [hphase] at hl
    dsimp only at hl
    split at hl
    · cases hl
    case h_2 hnone =>
      cases hl
      exact EventLoop.popExpired_eq_none hnone

/-- Two timers of one deadline and one that is added with no delay while the first of them
fires; the second is cancelled by it. -/
theorem timers_fire_in_order_reentrant :
    ∃ l : Life Unit, Runs Life.next (fun _ _ _ => True) (Life.start 0) l ∧
      l.fired.map (fun p => p.1.id) = [1, 3] ∧ (l.fired.map Prod.fst).Pairwise Event.Before ∧
      ∀ p ∈ l.fired, p.1.deadline ≤ p.2 := by
  obtain ⟨l, hrun, hp⟩ := exists_of_replay Life.next (fun _ _ _ => True) (Life.start 0 : Life Unit)
    [.addTimerAfter 0 5 (), .addTimerAfter 0 5 (), .post (), .runOnce, .runTask, .poll 3 0,
      .fireExpired 7, .fire, .addTimerAfter 7 0 (), .cancelTimer 2, .fire, .returned]
    (p := fun l => decide (l.fired.map (fun p => p.1.id) = [1, 3])) (by decide +kernel)
  obtain ⟨hordered, hdue, -⟩ := timers_fire_in_order hrun
  exact ⟨l, hrun, of_decide_eq_true hp, hordered, hdue⟩

end LogEngine.Runtime
