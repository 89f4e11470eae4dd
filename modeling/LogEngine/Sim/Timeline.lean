import LogEngine.Sim.Scheduler
import LogEngine.Verified.Machine
import Mathlib.Data.Finset.Basic

/-!
# The order of a simulation

`src/sim/scheduler.cpp` with its tombstones.  `cancel` only notes the identifier of an
event; the event leaves the queue when it gets to the front (`drop_cancelled_from_top`),
and the note with it.

A simulation is a run of calls of the scheduler, with what the callbacks do inside of
them (`Life.next`).  Beside the scheduler it keeps three books: what was scheduled, what
was executed, and what was cancelled before it ran.  `Books` is how the queue and its
tombstones answer to the books: what was executed and what is in the queue are in order
all together, and what was scheduled, and neither executed nor cancelled, is in the
queue and has no tombstone.  From it follows that the order of a simulation is total and
causal (`simulation_causal`).
-/

namespace LogEngine.Sim

open Verified.Machine

/-- `kNoTimeout`. -/
def kNoTimeout : Int := -1

/-- `kInvalidEvent`. -/
def kInvalidEvent : Nat := 0

/-- `Scheduler`, with `cancelled_`. -/
structure Timeline (κ : Type) extends Scheduler κ where
  cancelled : Finset Nat

/-- The loop of `drop_cancelled_from_top`. -/
def dropCancelled {κ : Type} : List (Event κ) → Finset Nat → List (Event κ) × Finset Nat
  | [], cancelled => ([], cancelled)
  | e :: rest, cancelled =>
      if e.id ∈ cancelled then dropCancelled rest (cancelled.erase e.id)
      else (e :: rest, cancelled)

section Drop

variable {κ : Type} {queue : List (Event κ)} {cancelled : Finset Nat}

private theorem dropCancelled_suffix (queue : List (Event κ)) (cancelled : Finset Nat) :
    (dropCancelled queue cancelled).1 <:+ queue := by
  induction queue generalizing cancelled with
  | nil => exact List.suffix_rfl
  | cons e rest ih =>
      unfold dropCancelled
      split
      · exact (ih _).trans (List.suffix_cons e rest)
      · exact List.suffix_rfl

/-- The event that is left at the front is not cancelled. -/
theorem dropCancelled_front {e : Event κ} {rest : List (Event κ)}
    (h : (dropCancelled queue cancelled).1 = e :: rest) :
    e.id ∉ (dropCancelled queue cancelled).2 := by
  induction queue generalizing cancelled with
  | nil => cases h
  | cons x queue ih =>
      unfold dropCancelled at h ⊢
      split at h
      case isTrue hx =>
        rw [if_pos hx]
        exact ih h
      case isFalse hx =>
        rw [if_neg hx]
        cases h
        exact hx

/-- What one turn of the loop keeps, the loop keeps. -/
theorem dropCancelled_keeps {P : List (Event κ) → Finset Nat → Prop}
    (hstep : ∀ e rest cancelled, e.id ∈ cancelled → P (e :: rest) cancelled →
      P rest (cancelled.erase e.id))
    (h : P queue cancelled) :
    P (dropCancelled queue cancelled).1 (dropCancelled queue cancelled).2 := by
  induction queue generalizing cancelled with
  | nil => exact h
  | cons e rest ih =>
      unfold dropCancelled
      split
      case isTrue he => exact ih (hstep e rest cancelled he h)
      case isFalse => exact h

end Drop

namespace Timeline

variable {κ : Type}

def start : Timeline κ := { Scheduler.start with cancelled := ∅ }

variable (s : Timeline κ)

/-- `cancel`: whether the identifier was not cancelled yet. -/
def cancel (id : Nat) : Bool × Timeline κ :=
  if id = kInvalidEvent then (false, s)
  else (decide (id ∉ s.cancelled), { s with cancelled := insert id s.cancelled })

/-- `drop_cancelled_from_top`. -/
def dropCancelledFromTop : Timeline κ where
  queue := (dropCancelled s.queue s.cancelled).1
  now := s.now
  nextId := s.nextId
  sorted := s.sorted.sublist (dropCancelled_suffix _ _).sublist
  fresh := fun e he => s.fresh e ((dropCancelled_suffix _ _).subset he)
  cancelled := (dropCancelled s.queue s.cancelled).2

/-- `next_deadline`. -/
def nextDeadline : Int × Timeline κ :=
  let s := s.dropCancelledFromTop
  match s.queue with
  | [] => (kNoTimeout, s)
  | e :: _ => (e.deadline, s)

/-- `run_next_before`, up to the callback of the event that was taken. -/
def runNextBefore (limit : Int) : Option (Event κ) × Timeline κ :=
  let s := s.dropCancelledFromTop
  match s.queue, s.toScheduler.runNextBefore limit with
  | e :: _, some (_, scheduler) => (some e, { s with toScheduler := scheduler })
  | _, _ => (none, s)

variable {s} {limit : Int}

/-- What `run_next_before` does: it takes the event at the front of what is left of the
queue, or there is none that is due. -/
theorem runNextBefore_cases (s : Timeline κ) (limit : Int) :
    (∃ e s', s.runNextBefore limit = (some e, s') ∧ e.deadline ≤ limit ∧
      s.dropCancelledFromTop.queue = e :: s'.queue ∧ s'.now = max e.deadline s.now ∧
      s'.nextId = s.nextId ∧ s'.cancelled = s.dropCancelledFromTop.cancelled) ∨
    (s.runNextBefore limit = (none, s.dropCancelledFromTop) ∧
      ∀ e rest, s.dropCancelledFromTop.queue = e :: rest → limit < e.deadline) := by
  unfold runNextBefore
  dsimp only
  cases hqueue : s.dropCancelledFromTop.queue with
  | nil =>
      right
      refine ⟨rfl, fun e rest h => ?_⟩
      cases h
  | cons e rest =>
      by_cases hle : e.deadline ≤ limit
      · obtain ⟨scheduler, hrun, hrest, hnow, hid⟩ :=
          Scheduler.runNextBefore_of_le hqueue hle
        left
        rw [hrun]
        refine ⟨e, _, rfl, hle, ?_, hnow, hid, rfl⟩
        rw [← hrest]
      · right
        have hlt : ∀ x xs, s.dropCancelledFromTop.queue = x :: xs →
            limit < x.deadline := by
          intro x xs hx
          rw [hqueue] at hx
          cases hx
          exact Int.not_le.1 hle
        rw [Scheduler.runNextBefore_of_lt hlt]
        refine ⟨rfl, fun x xs h => hlt x xs ?_⟩
        rw [hqueue, h]

end Timeline

/-! ## Simulations -/

/-- What a callback may do. -/
inductive Op (κ : Type)
  | scheduleAt (deadline : Int) (callback : κ)
  | scheduleAfter (delay : Int) (callback : κ)
  | cancel (id : Nat)

/-- A call of the scheduler; `body` is what the callback does, if one is run. -/
inductive Call (κ : Type)
  | op (op : Op κ)
  | advanceTo (deadline : Int)
  | nextDeadline
  | runNextBefore (limit : Int) (body : List (Op κ))

/-- A simulation: the scheduler, and the books. -/
structure Life (κ : Type) where
  timeline : Timeline κ
  /-- Every event that was scheduled. -/
  scheduled : List (Event κ)
  /-- The events that were executed, in the order in which they were. -/
  executed : List (Event κ)
  /-- The identifiers of events that were cancelled before they ran. -/
  withdrawn : List Nat

namespace Life

variable {κ : Type}

def start : Life κ := ⟨Timeline.start, [], [], []⟩

def now (l : Life κ) : Int := l.timeline.now

/-- The event that `schedule_at` makes. -/
def event (l : Life κ) (deadline : Int) (callback : κ) : Event κ :=
  ⟨max deadline l.timeline.now, l.timeline.nextId, callback⟩

def schedule (l : Life κ) (deadline : Int) (callback : κ) : Life κ :=
  { l with
    timeline :=
      { l.timeline with toScheduler := l.timeline.scheduleAt deadline callback }
    scheduled := l.scheduled ++ [l.event deadline callback] }

/-- One call of a callback, or from outside; only identifiers that were returned can be
cancelled. -/
def perform (l : Life κ) : Op κ → Option (Life κ)
  | .scheduleAt deadline callback => some (l.schedule deadline callback)
  | .scheduleAfter delay callback =>
      some (l.schedule (l.timeline.now + max delay 0) callback)
  | .cancel id =>
      if l.timeline.nextId ≤ id then none
      else
        some { l with
          timeline := (l.timeline.cancel id).2
          withdrawn :=
            if id = kInvalidEvent ∨ id ∈ l.executed.map Event.id then l.withdrawn
            else id :: l.withdrawn }

/-- The calls of a callback, one after the other. -/
def performAll : Life κ → List (Op κ) → Option (Life κ)
  | l, [] => some l
  | l, op :: ops => (l.perform op).bind fun l => performAll l ops

/-- A call of the scheduler. -/
def next (l : Life κ) : Call κ → Option (Life κ)
  | .op op => l.perform op
  | .advanceTo deadline =>
      some { l with
        timeline := { l.timeline with toScheduler := l.timeline.advanceTo deadline } }
  | .nextDeadline => some { l with timeline := l.timeline.nextDeadline.2 }
  | .runNextBefore limit body =>
      match l.timeline.runNextBefore limit with
      | (none, timeline) => some { l with timeline := timeline }
      | (some e, timeline) =>
          performAll { l with timeline := timeline, executed := l.executed ++ [e] } body

/-- The event is yet to run: it was scheduled, and neither executed nor cancelled. -/
def Pending (l : Life κ) (e : Event κ) : Prop :=
  e ∈ l.scheduled ∧ e ∉ l.executed ∧ e.id ∉ l.withdrawn

end Life

/-! ## The books -/

/-- The queue and its tombstones answer to the books. -/
structure Books {κ : Type} (scheduled executed : List (Event κ)) (withdrawn : List Nat)
    (queue : List (Event κ)) (cancelled : Finset Nat) : Prop where
  ordered : (executed ++ queue).Pairwise Event.Before
  known : ∀ e ∈ executed ++ queue, e ∈ scheduled
  complete : ∀ e ∈ scheduled, e ∈ executed ∨ e ∈ queue ∨ e.id ∈ withdrawn
  distinct : ∀ a ∈ scheduled, ∀ b ∈ scheduled, a.id = b.id → a = b
  spared : ∀ e ∈ executed, e.id ∉ withdrawn
  tombstones : ∀ e ∈ queue, e.id ∈ cancelled ↔ e.id ∈ withdrawn

namespace Books

variable {κ : Type} {scheduled executed queue rest : List (Event κ)}
  {withdrawn : List Nat}
  {cancelled : Finset Nat} {e x : Event κ} {id : Nat}

private theorem queue_known (h : Books scheduled executed withdrawn queue cancelled)
    (he : e ∈ queue) :
    e ∈ scheduled := h.known e (List.mem_append_right _ he)

/-- Nothing that was executed is in the queue, under any deadline. -/
theorem id_ne (h : Books scheduled executed withdrawn queue cancelled)
    (hx : x ∈ executed)
    (he : e ∈ queue) : e.id ≠ x.id := by
  intro heq
  obtain rfl : e = x :=
    h.distinct e (h.queue_known he) x (h.known x (List.mem_append_left _ hx)) heq
  exact Event.Before.irrefl e ((List.pairwise_append.1 h.ordered).2.2 e hx e he)

/-- Two events of the queue are different in their identifiers. -/
theorem front_id_ne (h : Books scheduled executed withdrawn (e :: rest) cancelled)
    (hx : x ∈ rest) : x.id ≠ e.id := by
  intro heq
  obtain rfl : x = e := h.distinct x (h.queue_known (List.mem_cons_of_mem _ hx)) e
    (h.queue_known List.mem_cons_self) heq
  have hsorted := (List.pairwise_append.1 h.ordered).2.1
  rw [List.pairwise_cons] at hsorted
  exact Event.Before.irrefl x (hsorted.1 x hx)

/-- A cancelled event leaves the queue, and its tombstone with it. -/
theorem drop_front (h : Books scheduled executed withdrawn (e :: rest) cancelled)
    (he : e.id ∈ cancelled) :
    Books scheduled executed withdrawn rest (cancelled.erase e.id) where
  ordered := h.ordered.sublist ((List.sublist_cons_self e rest).append_left executed)
  known := by
    intro x hx
    apply h.known
    rw [List.mem_append] at hx ⊢
    exact hx.imp_right (List.mem_cons_of_mem e)
  complete := by
    intro x hx
    rcases h.complete x hx with hx | hx | hx
    · exact .inl hx
    · rcases List.mem_cons.1 hx with rfl | hx
      · exact .inr (.inr ((h.tombstones x List.mem_cons_self).1 he))
      · exact .inr (.inl hx)
    · exact .inr (.inr hx)
  distinct := h.distinct
  spared := h.spared
  tombstones := by
    intro x hx
    rw [Finset.mem_erase, ← h.tombstones x (List.mem_cons_of_mem e hx)]
    exact and_iff_right (h.front_id_ne hx)

private theorem drop (h : Books scheduled executed withdrawn queue cancelled) :
    Books scheduled executed withdrawn (dropCancelled queue cancelled).1
      (dropCancelled queue cancelled).2 :=
  dropCancelled_keeps (fun _ _ _ he hbooks => hbooks.drop_front he) h

/-- The event at the front is executed. -/
theorem execute (h : Books scheduled executed withdrawn (e :: rest) cancelled)
    (he : e.id ∉ cancelled) :
    Books scheduled (executed ++ [e]) withdrawn rest cancelled where
  ordered := by
    rw [List.append_assoc]
    exact h.ordered
  known := by
    rw [List.append_assoc]
    exact h.known
  complete := by
    intro x hx
    rcases h.complete x hx with hx | hx | hx
    · exact .inl (List.mem_append_left _ hx)
    · rcases List.mem_cons.1 hx with rfl | hx
      · exact .inl (by simp)
      · exact .inr (.inl hx)
    · exact .inr (.inr hx)
  distinct := h.distinct
  spared := by
    intro x hx
    rw [List.mem_append, List.mem_singleton] at hx
    rcases hx with hx | rfl
    · exact h.spared x hx
    · rw [← h.tombstones x List.mem_cons_self]
      exact he
  tombstones := fun x hx => h.tombstones x (List.mem_cons_of_mem e hx)

/-- An event is scheduled that is due no earlier than what was executed. -/
theorem schedule (h : Books scheduled executed withdrawn queue cancelled)
    (hfresh : ∀ x ∈ scheduled, x.id < e.id)
    (hdue : ∀ x ∈ executed, x.deadline ≤ e.deadline)
    (hcancelled : e.id ∉ cancelled) (hwithdrawn : e.id ∉ withdrawn) :
    Books (scheduled ++ [e]) executed withdrawn (Event.push e queue) cancelled where
  ordered :=
    Event.pairwise_append_push h.ordered (fun x hx => hfresh x (h.known x hx)) hdue
  known := by
    intro x hx
    rw [List.mem_append, Event.mem_push] at hx
    rcases hx with hx | rfl | hx
    · exact List.mem_append_left _ (h.known x (List.mem_append_left _ hx))
    · simp
    · exact List.mem_append_left _ (h.queue_known hx)
  complete := by
    intro x hx
    rw [List.mem_append, List.mem_singleton] at hx
    rw [Event.mem_push]
    rcases hx with hx | rfl
    · rcases h.complete x hx with hx | hx | hx
      · exact .inl hx
      · exact .inr (.inl (.inr hx))
      · exact .inr (.inr hx)
    · exact .inr (.inl (.inl rfl))
  distinct := by
    intro a ha b hb hab
    rw [List.mem_append, List.mem_singleton] at ha hb
    rcases ha with ha | rfl
    · rcases hb with hb | rfl
      · exact h.distinct a ha b hb hab
      · have := hfresh a ha
        omega
    · rcases hb with hb | rfl
      · have := hfresh b hb
        omega
      · rfl
  spared := h.spared
  tombstones := by
    intro x hx
    rcases Event.mem_push.1 hx with rfl | hx
    · exact iff_of_false hcancelled hwithdrawn
    · exact h.tombstones x hx

/-- An event that was executed is cancelled: too late. -/
theorem cancel_executed (h : Books scheduled executed withdrawn queue cancelled)
    (hid : id ∈ executed.map Event.id) :
    Books scheduled executed withdrawn queue (insert id cancelled) :=
  { h with
    tombstones := by
      intro e he
      obtain ⟨x, hx, rfl⟩ := List.mem_map.1 hid
      rw [Finset.mem_insert, ← h.tombstones e he]
      exact or_iff_right (h.id_ne hx he) }

/-- An event that was not executed is cancelled. -/
theorem withdraw (h : Books scheduled executed withdrawn queue cancelled)
    (hid : id ∉ executed.map Event.id) :
    Books scheduled executed (id :: withdrawn) queue (insert id cancelled) :=
  { h with
    complete := by
      intro e he
      rcases h.complete e he with he | he | he
      · exact .inl he
      · exact .inr (.inl he)
      · exact .inr (.inr (List.mem_cons_of_mem id he))
    spared := by
      intro e he hmem
      rcases List.mem_cons.1 hmem with rfl | hmem
      · exact hid (List.mem_map_of_mem he)
      · exact h.spared e he hmem
    tombstones := by
      intro e he
      rw [Finset.mem_insert, List.mem_cons, h.tombstones e he] }

end Books

/-! ## What a simulation keeps -/

namespace Life

variable {κ : Type} {l l' : Life κ}

/-- The books are right, what was executed was due, and identifiers are not used
twice. -/
structure Sound (l : Life κ) : Prop where
  books : Books l.scheduled l.executed l.withdrawn l.timeline.queue l.timeline.cancelled
  due : ∀ e ∈ l.executed, e.deadline ≤ l.now
  fresh : ∀ e ∈ l.scheduled, e.id < l.timeline.nextId
  cancelled : ∀ id ∈ l.timeline.cancelled, id < l.timeline.nextId
  withdrawn : ∀ id ∈ l.withdrawn, id < l.timeline.nextId

/-- A call goes on from what has happened: time does not go back, what was executed
stays so, and what was cancelled in time stays cancelled. -/
structure Continues (l l' : Life κ) : Prop where
  now_le : l.now ≤ l'.now
  executed : l.executed <+: l'.executed
  withdrawn : l.withdrawn ⊆ l'.withdrawn

theorem Continues.refl (l : Life κ) : l.Continues l :=
  ⟨Int.le_refl _, List.prefix_rfl, List.Subset.refl _⟩

theorem Continues.trans {l'' : Life κ} (h : l.Continues l') (h' : l'.Continues l'') :
    l.Continues l'' :=
  ⟨Int.le_trans h.now_le h'.now_le, h.executed.trans h'.executed,
    List.Subset.trans h.withdrawn h'.withdrawn⟩

private theorem sound_start : (start : Life κ).Sound := by
  constructor
  · constructor
    · exact List.Pairwise.nil
    all_goals
      intro e he
      cases he
  · intro e he
    cases he
  · intro e he
    cases he
  · intro id hid
    exact absurd hid (Finset.notMem_empty id)
  · intro id hid
    cases hid

theorem Sound.schedule (h : l.Sound) (deadline : Int) (callback : κ) :
    (l.schedule deadline callback).Sound where
  books := by
    refine h.books.schedule h.fresh ?_ ?_ ?_
    · intro x hx
      exact Int.le_trans (h.due x hx) (Int.le_max_right _ _)
    · intro hmem
      exact Nat.lt_irrefl _ (h.cancelled _ hmem)
    · intro hmem
      exact Nat.lt_irrefl _ (h.withdrawn _ hmem)
  due := h.due
  fresh := by
    intro e he
    rcases List.mem_append.1 he with he | he
    · exact Nat.lt_succ_of_lt (h.fresh e he)
    · rw [List.mem_singleton.1 he]
      exact Nat.lt_succ_self _
  cancelled := fun id hid => Nat.lt_succ_of_lt (h.cancelled id hid)
  withdrawn := fun id hid => Nat.lt_succ_of_lt (h.withdrawn id hid)

private theorem continues_schedule (l : Life κ) (deadline : Int) (callback : κ) :
    l.Continues (l.schedule deadline callback) :=
  ⟨Int.le_refl _, List.prefix_rfl, List.Subset.refl _⟩

theorem Sound.perform {op : Op κ} (h : l.Sound) (hl : l.perform op = some l') :
    l'.Sound ∧ l.Continues l' := by
  cases op with
  | scheduleAt deadline callback =>
      cases hl
      exact ⟨h.schedule deadline callback, l.continues_schedule deadline callback⟩
  | scheduleAfter delay callback =>
      cases hl
      exact ⟨h.schedule _ callback, l.continues_schedule _ callback⟩
  | cancel id =>
      dsimp only [Life.perform] at hl
      split at hl
      · cases hl
      case isFalse hid =>
      cases hl
      unfold Timeline.cancel
      by_cases hinvalid : id = kInvalidEvent
      · rw [if_pos hinvalid, if_pos (.inl hinvalid)]
        exact ⟨h, .refl l⟩
      rw [if_neg hinvalid]
      have hcancelled :
          ∀ i ∈ insert id l.timeline.cancelled, i < l.timeline.nextId := by
        intro i hi
        rcases Finset.mem_insert.1 hi with rfl | hi
        · exact Nat.not_le.1 hid
        · exact h.cancelled i hi
      by_cases hlate : id ∈ l.executed.map Event.id
      · rw [if_pos (.inr hlate)]
        exact ⟨⟨h.books.cancel_executed hlate, h.due, h.fresh, hcancelled, h.withdrawn⟩,
          Int.le_refl _, List.prefix_rfl, List.Subset.refl _⟩
      · rw [if_neg (not_or.2 ⟨hinvalid, hlate⟩)]
        refine ⟨⟨h.books.withdraw hlate, h.due, h.fresh, hcancelled, ?_⟩, Int.le_refl _,
          List.prefix_rfl, List.subset_cons_self _ _⟩
        intro i hi
        rcases List.mem_cons.1 hi with rfl | hi
        · exact Nat.not_le.1 hid
        · exact h.withdrawn i hi

/-- A callback, call by call. -/
theorem Sound.performAll {ops : List (Op κ)} (h : l.Sound)
    (hl : l.performAll ops = some l') :
    l'.Sound ∧ l.Continues l' := by
  induction ops generalizing l with
  | nil =>
      cases hl
      exact ⟨h, .refl _⟩
  | cons op ops ih =>
      obtain ⟨m, hm, hrest⟩ := Option.bind_eq_some_iff.1 hl
      obtain ⟨hsound, hcontinues⟩ := h.perform hm
      obtain ⟨hsound', hcontinues'⟩ := ih hsound hrest
      exact ⟨hsound', hcontinues.trans hcontinues'⟩

theorem Sound.drop (h : l.Sound) :
    { l with timeline := l.timeline.dropCancelledFromTop }.Sound where
  books := h.books.drop
  due := h.due
  fresh := h.fresh
  cancelled := by
    refine dropCancelled_keeps (P := fun _ c => ∀ id ∈ c, id < l.timeline.nextId) ?_
      h.cancelled
    intro e rest c _ hc id hid
    exact hc id (Finset.mem_of_mem_erase hid)
  withdrawn := h.withdrawn

theorem Sound.next {call : Call κ} (h : l.Sound) (hl : l.next call = some l') :
    l'.Sound ∧ l.Continues l' := by
  cases call with
  | op op => exact h.perform hl
  | advanceTo deadline =>
      cases hl
      have hnow : l.now ≤ max deadline l.timeline.now := Int.le_max_right _ _
      refine ⟨⟨h.books, ?_, h.fresh, h.cancelled, h.withdrawn⟩, hnow, List.prefix_rfl,
        List.Subset.refl _⟩
      intro e he
      exact Int.le_trans (h.due e he) hnow
  | nextDeadline =>
      have htimeline : l.timeline.nextDeadline.2 = l.timeline.dropCancelledFromTop := by
        unfold Timeline.nextDeadline
        dsimp only
        split
        · rfl
        · rfl
      cases hl
      rw [htimeline]
      exact ⟨h.drop, Int.le_refl _, List.prefix_rfl, List.Subset.refl _⟩
  | runNextBefore limit body =>
      dsimp only [Life.next] at hl
      rcases l.timeline.runNextBefore_cases limit with
        ⟨e, timeline, hrun, -, hqueue, hnow, hid, hcancelled⟩ | ⟨hrun, -⟩
      · rw [hrun] at hl
        dsimp only at hl
        have hdropped := h.drop
        have hbooks := hdropped.books
        have hfront : e.id ∉ l.timeline.dropCancelledFromTop.cancelled :=
          dropCancelled_front hqueue
        dsimp only at hbooks
        rw [hqueue] at hbooks
        -- the event is executed, and then its callback runs
        have hexecuted :
            { l with timeline := timeline, executed := l.executed ++ [e] }.Sound := by
          refine ⟨?_, ?_, ?_, ?_, ?_⟩
          · dsimp only
            rw [hcancelled]
            exact hbooks.execute hfront
          · intro x hx
            rw [now, hnow]
            rcases List.mem_append.1 hx with hx | hx
            · exact Int.le_trans (h.due x hx) (Int.le_max_right _ _)
            · rw [List.mem_singleton.1 hx]
              exact Int.le_max_left _ _
          · dsimp only
            rw [hid]
            exact h.fresh
          · dsimp only
            rw [hcancelled, hid]
            exact hdropped.cancelled
          · dsimp only
            rw [hid]
            exact h.withdrawn
        have hcontinues :
            l.Continues
              { l with timeline := timeline, executed := l.executed ++ [e] } := by
          refine ⟨?_, List.prefix_append _ _, List.Subset.refl _⟩
          rw [now, now, hnow]
          exact Int.le_max_right _ _
        obtain ⟨hsound, hrest⟩ := hexecuted.performAll hl
        exact ⟨hsound, hcontinues.trans hrest⟩
      · rw [hrun] at hl
        cases hl
        exact ⟨h.drop, Int.le_refl _, List.prefix_rfl, List.Subset.refl _⟩

/-- An event is pending if it is in the queue without a tombstone. -/
theorem Sound.pending_iff (h : l.Sound) {e : Event κ} :
    l.Pending e ↔ e ∈ l.timeline.queue ∧ e.id ∉ l.timeline.cancelled := by
  constructor
  · rintro ⟨hscheduled, hexecuted, hwithdrawn⟩
    rcases h.books.complete e hscheduled with he | he | he
    · exact absurd he hexecuted
    · exact ⟨he, fun hmem => hwithdrawn ((h.books.tombstones e he).1 hmem)⟩
    · exact absurd he hwithdrawn
  · rintro ⟨hqueue, hcancelled⟩
    refine ⟨h.books.queue_known hqueue, fun hmem => h.books.id_ne hmem hqueue rfl, ?_⟩
    rw [← h.books.tombstones e hqueue]
    exact hcancelled

/-- With the tombstones gone from its front, the queue begins with the first of the
pending events. -/
theorem Sound.front (h : l.Sound) {e : Event κ} {rest : List (Event κ)}
    (hqueue : l.timeline.dropCancelledFromTop.queue = e :: rest) :
    l.Pending e ∧ ∀ x, l.Pending x → e.deadline ≤ x.deadline := by
  have hiff : ∀ x, l.Pending x ↔ x ∈ e :: rest ∧
      x.id ∉ l.timeline.dropCancelledFromTop.cancelled := by
    intro x
    rw [← hqueue]
    exact h.drop.pending_iff
  constructor
  · rw [hiff]
    exact ⟨List.mem_cons_self, dropCancelled_front hqueue⟩
  · intro x hx
    have hsorted := l.timeline.dropCancelledFromTop.sorted
    rw [hqueue, List.pairwise_cons] at hsorted
    rcases List.mem_cons.1 ((hiff x).1 hx).1 with rfl | hmem
    · exact Int.le_refl _
    · exact (hsorted.1 x hmem).deadline_le

theorem Sound.not_pending (h : l.Sound)
    (hqueue : l.timeline.dropCancelledFromTop.queue = [])
    (x : Event κ) : ¬ l.Pending x := by
  intro hx
  have hmem := (h.drop.pending_iff.1 hx).1
  dsimp only at hmem
  rw [hqueue] at hmem
  cases hmem

end Life

/-- Whatever is scheduled, cancelled and run, by callbacks too: events are executed in
the order of their deadlines and identifiers and each of them once; time does not go
back and has reached what was executed; what is cancelled before it ran never runs;
`next_deadline` is the earliest deadline of the pending events; and where
`run_next_before` finds nothing to run, nothing is due. -/
theorem simulation_causal {κ : Type} {l : Life κ}
    (hrun : Runs Life.next (fun _ _ _ => True) Life.start l) :
    l.executed.Pairwise Event.Before ∧
    (l.executed.map Event.id).Nodup ∧
    (∀ e ∈ l.executed, e.deadline ≤ l.now) ∧
    (∀ l', Runs Life.next (fun _ _ _ => True) l l' →
      l.now ≤ l'.now ∧ l.executed <+: l'.executed ∧
        ∀ e ∈ l'.executed, e.id ∉ l.withdrawn) ∧
    (l.timeline.nextDeadline.1 = kNoTimeout ∧ (∀ e, ¬ l.Pending e) ∨
      ∃ e, l.Pending e ∧ l.timeline.nextDeadline.1 = e.deadline ∧
        ∀ x, l.Pending x → e.deadline ≤ x.deadline) ∧
    ∀ limit, (l.timeline.runNextBefore limit).1 = none →
      ∀ e, l.Pending e → limit < e.deadline := by
  have hsound : l.Sound := by
    refine hrun.invariant Life.sound_start ?_
    intro l call l' h hl _
    exact (h.next hl).1
  have hordered := (List.pairwise_append.1 hsound.books.ordered).1
  refine ⟨hordered, ?_, hsound.due, ?_, ?_, ?_⟩
  · refine Event.nodup_id hordered ?_
    intro a ha b hb heq
    exact hsound.books.distinct a (hsound.books.known a (List.mem_append_left _ ha)) b
      (hsound.books.known b (List.mem_append_left _ hb)) heq
  · intro l' hrun'
    obtain ⟨hsound', hcontinues⟩ : l'.Sound ∧ l.Continues l' := by
      refine hrun'.invariant (I := fun x => x.Sound ∧ l.Continues x)
        ⟨hsound, .refl l⟩ ?_
      intro x call y h hy _
      obtain ⟨hsound', hcontinues⟩ := h.1.next hy
      exact ⟨hsound', h.2.trans hcontinues⟩
    refine ⟨hcontinues.now_le, hcontinues.executed, ?_⟩
    intro e he hmem
    exact hsound'.books.spared e he (hcontinues.withdrawn hmem)
  · unfold Timeline.nextDeadline
    dsimp only
    cases hqueue : l.timeline.dropCancelledFromTop.queue with
    | nil => exact .inl ⟨rfl, hsound.not_pending hqueue⟩
    | cons e rest =>
        obtain ⟨hpending, hleast⟩ := hsound.front hqueue
        exact .inr ⟨e, hpending, rfl, hleast⟩
  · intro limit hnone x hx
    rcases l.timeline.runNextBefore_cases limit with ⟨e, timeline, heq, -⟩ | ⟨-, hlt⟩
    · rw [heq] at hnone
      cases hnone
    · cases hqueue : l.timeline.dropCancelledFromTop.queue with
      | nil => exact absurd hx (hsound.not_pending hqueue x)
      | cons e rest =>
          exact Int.lt_of_lt_of_le (hlt e rest hqueue) ((hsound.front hqueue).2 x hx)

/-- Of two events one is cancelled by the callback of the other, which also schedules
one at its own instant. -/
theorem simulation_causal_callback :
    ∃ l : Life Unit, Runs Life.next (fun _ _ _ => True) Life.start l ∧
      l.executed.map Event.id = [2, 3] ∧ l.executed.Pairwise Event.Before ∧
      ∀ e ∈ l.executed, e.deadline ≤ l.now := by
  obtain ⟨l, hrun, hp⟩ :=
    exists_of_replay Life.next (fun _ _ _ => True) (Life.start : Life Unit)
    [.op (.scheduleAt 10 ()), .op (.scheduleAt 5 ()),
      .runNextBefore 20 [.cancel 1, .scheduleAfter 0 ()], .runNextBefore 20 [],
      .runNextBefore 20 [], .advanceTo 30, .nextDeadline]
    (p := fun l => decide (l.executed.map Event.id = [2, 3])) (by decide +kernel)
  obtain ⟨hordered, -, hdue, -⟩ := simulation_causal hrun
  exact ⟨l, hrun, of_decide_eq_true hp, hordered, hdue⟩

end LogEngine.Sim
