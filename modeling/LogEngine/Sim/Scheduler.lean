import Mathlib.Data.List.Basic
import Mathlib.Order.Basic

/-!
# The event queue

`src/sim/scheduler.cpp`: virtual time and the events that are yet to run, in the order
of their deadlines and, among events of one instant, in the order in which they were
scheduled.  The heap of the source is a list in that order here, and the order is a field
of the queue.  Times are integers, in nanoseconds.

What the queue holds of one kind, in the order in which it will run, is a `flatMap`.
`flatMap_scheduleAt_last` says that an event which is due no earlier than the others of
its kind comes behind all of them.
-/

namespace LogEngine.Sim

/-- `Scheduler::Event`: what is to run stands for the callback. -/
structure Event (κ : Type) where
  deadline : Int
  id : Nat
  callback : κ
  deriving DecidableEq

namespace Event

variable {κ : Type}

/-- `LaterFirst`, from the other side: `a` runs before `b`. -/
def Before (a b : Event κ) : Prop :=
  a.deadline < b.deadline ∨ a.deadline = b.deadline ∧ a.id < b.id

instance (a b : Event κ) : Decidable (Before a b) := instDecidableOr

theorem Before.trans {a b c : Event κ} (hab : Before a b) (hbc : Before b c) : Before a c := by
  unfold Before at *
  omega

/-- `push_heap`: an event takes its place among those that are waiting. -/
def push (e : Event κ) : List (Event κ) → List (Event κ)
  | [] => [e]
  | x :: rest => if Before x e then x :: push e rest else e :: x :: rest

theorem Before.irrefl (a : Event κ) : ¬ Before a a := by
  unfold Before
  omega

theorem Before.deadline_le {a b : Event κ} (h : Before a b) : a.deadline ≤ b.deadline := by
  unfold Before at h
  omega

theorem mem_push {e x : Event κ} {l : List (Event κ)} : x ∈ push e l ↔ x = e ∨ x ∈ l := by
  induction l with
  | nil => simp [push]
  | cons y rest ih =>
      unfold push
      split
      · rw [List.mem_cons, ih, List.mem_cons]
        tauto
      · simp

theorem pairwise_push {e : Event κ} {l : List (Event κ)} (hl : l.Pairwise Before)
    (he : ∀ x ∈ l, x.id < e.id) : (push e l).Pairwise Before := by
  induction l with
  | nil => exact List.pairwise_singleton _ _
  | cons y rest ih =>
      rw [List.pairwise_cons] at hl
      unfold push
      split
      case isTrue hbefore =>
        rw [List.pairwise_cons]
        constructor
        · intro x hx
          rcases mem_push.1 hx with rfl | hx
          · exact hbefore
          · exact hl.1 x hx
        · exact ih hl.2 fun x hx => he x (List.mem_cons_of_mem _ hx)
      case isFalse hnot =>
        -- the identifiers grow, so the one in front has a later deadline
        have hey : Before e y := by
          have := he y List.mem_cons_self
          unfold Before at *
          omega
        rw [List.pairwise_cons, List.pairwise_cons]
        refine ⟨?_, hl⟩
        intro x hx
        rcases List.mem_cons.1 hx with rfl | hx
        · exact hey
        · exact hey.trans (hl.1 x hx)

/-- What has run, in the order in which it ran, and what waits are in order all together,
and stay so when an event comes that is due no earlier than what has run. -/
theorem pairwise_append_push {e : Event κ} {ran l : List (Event κ)}
    (h : (ran ++ l).Pairwise Before) (hid : ∀ x ∈ ran ++ l, x.id < e.id)
    (hdue : ∀ x ∈ ran, x.deadline ≤ e.deadline) : (ran ++ push e l).Pairwise Before := by
  rw [List.pairwise_append] at h ⊢
  obtain ⟨hran, hl, hcross⟩ := h
  refine ⟨hran, pairwise_push hl fun x hx => hid x (List.mem_append_right _ hx), ?_⟩
  intro x hx y hy
  rcases mem_push.1 hy with rfl | hy
  · have hlt := hid x (List.mem_append_left _ hx)
    have hle := hdue x hx
    unfold Before
    omega
  · exact hcross x hx y hy

/-- Where an identifier names one event, no identifier occurs twice in a list in order. -/
theorem nodup_id {l : List (Event κ)} (h : l.Pairwise Before)
    (hdistinct : ∀ a ∈ l, ∀ b ∈ l, a.id = b.id → a = b) : (l.map Event.id).Nodup := by
  unfold List.Nodup
  rw [List.pairwise_map]
  refine h.imp_of_mem ?_
  intro a b ha hb hab heq
  obtain rfl : a = b := hdistinct a ha b hb heq
  exact Before.irrefl a hab

variable {β : Type} {g : Event κ → List β} {e : Event κ} {l : List (Event κ)}

/-- An event of another kind changes nothing. -/
theorem flatMap_push_nil (he : g e = []) : (push e l).flatMap g = l.flatMap g := by
  induction l with
  | nil => simp [push, he]
  | cons y rest ih =>
      unfold push
      split
      · rw [List.flatMap_cons, ih, List.flatMap_cons]
      · rw [List.flatMap_cons, he, List.nil_append]

/-- An event behind which there are none of its kind is the last of them. -/
theorem flatMap_push_last (hl : l.Pairwise Before) (he : ∀ x ∈ l, g x ≠ [] → Before x e) :
    (push e l).flatMap g = l.flatMap g ++ g e := by
  induction l with
  | nil => simp [push]
  | cons y rest ih =>
      rw [List.pairwise_cons] at hl
      unfold push
      split
      case isTrue =>
        rw [List.flatMap_cons, List.flatMap_cons, List.append_assoc,
          ih hl.2 fun x hx => he x (List.mem_cons_of_mem _ hx)]
      case isFalse hnot =>
        -- from here on everything is later than `e`, so nothing is of its kind
        have hrest : ∀ x ∈ y :: rest, g x = [] := by
          intro x hx
          by_contra hne
          have hxe := he x hx hne
          rcases List.mem_cons.1 hx with rfl | hmem
          · exact hnot hxe
          · exact hnot ((hl.1 x hmem).trans hxe)
        have hnil : (y :: rest).flatMap g = [] := List.flatMap_eq_nil_iff.2 hrest
        rw [List.flatMap_cons, hnil, List.append_nil, List.nil_append]

end Event

/-- `Scheduler`. -/
structure Scheduler (κ : Type) where
  queue : List (Event κ)
  now : Int
  nextId : Nat
  sorted : queue.Pairwise Event.Before
  fresh : ∀ e ∈ queue, e.id < nextId

namespace Scheduler

variable {κ : Type}

/-- The scheduler of a new simulation. -/
def start : Scheduler κ := ⟨[], 0, 1, List.Pairwise.nil, by simp⟩

variable (s : Scheduler κ)

/-- `schedule_at`: an event in the past runs at the current instant. -/
def scheduleAt (deadline : Int) (callback : κ) : Scheduler κ where
  queue := Event.push ⟨max deadline s.now, s.nextId, callback⟩ s.queue
  now := s.now
  nextId := s.nextId + 1
  sorted := Event.pairwise_push s.sorted s.fresh
  fresh := by
    intro e he
    rcases Event.mem_push.1 he with rfl | he
    · exact Nat.lt_succ_self _
    · exact Nat.lt_succ_of_lt (s.fresh e he)

/-- `schedule_after`. -/
def scheduleAfter (delay : Int) (callback : κ) : Scheduler κ :=
  s.scheduleAt (s.now + max delay 0) callback

/-- `advance_to`: time never moves backwards. -/
def advanceTo (deadline : Int) : Scheduler κ := { s with now := max deadline s.now }

/-- `run_next_before`: the earliest event is taken off the queue if it is due by `limit`,
and time moves to it.  Running its callback is up to the caller. -/
def runNextBefore (limit : Int) : Option (κ × Scheduler κ) :=
  match h : s.queue with
  | [] => none
  | e :: rest =>
      if limit < e.deadline then none
      else
        some (e.callback,
          { queue := rest
            now := max e.deadline s.now
            nextId := s.nextId
            sorted := by
              have hs := s.sorted
              rw [h, List.pairwise_cons] at hs
              exact hs.2
            fresh := by
              intro x hx
              apply s.fresh
              rw [h]
              exact List.mem_cons_of_mem _ hx })

variable {s} {callback : κ} {deadline limit : Int}

/-- What `run_next_before` takes was at the front. -/
theorem runNextBefore_eq_some {s' : Scheduler κ}
    (h : s.runNextBefore limit = some (callback, s')) :
    ∃ e, s.queue = e :: s'.queue ∧ e.callback = callback ∧ s.now ≤ s'.now := by
  unfold runNextBefore at h
  split at h
  · cases h
  case h_2 e rest hqueue =>
    split at h
    · cases h
    · cases h
      exact ⟨e, hqueue, rfl, Int.le_max_right _ _⟩

/-- An event at the front that is due is taken. -/
theorem runNextBefore_of_le {e : Event κ} {rest : List (Event κ)} (hqueue : s.queue = e :: rest)
    (hle : e.deadline ≤ limit) :
    ∃ s', s.runNextBefore limit = some (e.callback, s') ∧ s'.queue = rest ∧
      s'.now = max e.deadline s.now ∧ s'.nextId = s.nextId := by
  unfold runNextBefore
  split
  case h_1 hnil =>
    rw [hqueue] at hnil
    cases hnil
  case h_2 e' rest' hcons =>
    rw [hqueue] at hcons
    cases hcons
    rw [if_neg (Int.not_lt.2 hle)]
    exact ⟨_, rfl, rfl, rfl, rfl⟩

/-- An event at the front that is not due is left there, and everything with it. -/
theorem runNextBefore_of_lt (h : ∀ e rest, s.queue = e :: rest → limit < e.deadline) :
    s.runNextBefore limit = none := by
  unfold runNextBefore
  split
  case h_1 => rfl
  case h_2 e rest hcons => rw [if_pos (h e rest hcons)]

theorem mem_scheduleAt {e : Event κ} (h : e ∈ (s.scheduleAt deadline callback).queue) :
    e = ⟨max deadline s.now, s.nextId, callback⟩ ∨ e ∈ s.queue := Event.mem_push.1 h

section Kinds

variable {β : Type} {g : Event κ → List β}

theorem flatMap_scheduleAt_nil (h : g ⟨max deadline s.now, s.nextId, callback⟩ = []) :
    (s.scheduleAt deadline callback).queue.flatMap g = s.queue.flatMap g :=
  Event.flatMap_push_nil h

/-- An event that is due no earlier than the others of its kind runs behind them. -/
theorem flatMap_scheduleAt_last
    (h : ∀ e ∈ s.queue, g e ≠ [] → e.deadline ≤ max deadline s.now) :
    (s.scheduleAt deadline callback).queue.flatMap g
      = s.queue.flatMap g ++ g ⟨max deadline s.now, s.nextId, callback⟩ := by
  apply Event.flatMap_push_last s.sorted
  intro e he hne
  have hle := h e he hne
  have hid := s.fresh e he
  unfold Event.Before
  dsimp only
  omega

end Kinds

end Scheduler

end LogEngine.Sim
