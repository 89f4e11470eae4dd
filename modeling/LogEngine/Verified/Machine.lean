import Mathlib.Logic.Relation

/-!
# Runs of a machine

A machine is a partial function `next` from a state and an action to a state.
`Runs next ok` relates the states between which some actions lead, each of them
meeting a condition `ok` on the state before, the action and the state after.

`Runs.invariant` is the induction over a run.  `replay` carries out a list of
actions and checks the condition on the way, so that a run on fixed inputs is one
computation.
-/

namespace LogEngine.Verified.Machine

variable {σ α : Type} {next : σ → α → Option σ} {ok : σ → α → σ → Prop}

/-- Some actions lead from `s` to `t`, each of them as in `ok`. -/
def Runs (next : σ → α → Option σ) (ok : σ → α → σ → Prop) : σ → σ → Prop :=
  Relation.ReflTransGen fun s t => ∃ a, next s a = some t ∧ ok s a t

/-- What holds at the start and is kept by every action holds at the end. -/
theorem Runs.invariant {I : σ → Prop} {s t : σ} (h : Runs next ok s t) (hs : I s)
    (hstep : ∀ s a t, I s → next s a = some t → ok s a t → I t) : I t := by
  induction h with
  | refl => exact hs
  | tail _ hlast ih =>
      obtain ⟨a, hn, hok⟩ := hlast
      exact hstep _ a _ ih hn hok

/-- A run under a condition is a run under a weaker one. -/
theorem Runs.mono {ok' : σ → α → σ → Prop} (hok : ∀ s a t, ok s a t → ok' s a t)
    {s t : σ}
    (h : Runs next ok s t) : Runs next ok' s t := by
  induction h with
  | refl => exact .refl
  | tail _ hlast ih =>
      obtain ⟨a, hn, ha⟩ := hlast
      exact ih.tail ⟨a, hn, hok _ a _ ha⟩

/-- Carries out a list of actions, `none` where one cannot happen or is not as in
`ok`. -/
def replay (next : σ → α → Option σ) (ok : σ → α → σ → Prop)
    [∀ s a t, Decidable (ok s a t)]
    (s : σ) : List α → Option σ
  | [] => some s
  | a :: l =>
      match next s a with
      | none => none
      | some t => if ok s a t then replay next ok t l else none

theorem runs_of_replay [∀ s a t, Decidable (ok s a t)] {s t : σ} {l : List α}
    (h : replay next ok s l = some t) : Runs next ok s t := by
  induction l generalizing s with
  | nil =>
      obtain rfl := Option.some.inj h
      exact .refl
  | cons a l ih =>
      unfold replay at h
      split at h
      · cases h
      case h_2 u hu =>
        split at h
        case isTrue hok => exact .head ⟨a, hu, hok⟩ (ih h)
        case isFalse => cases h

theorem exists_of_replay (next : σ → α → Option σ) (ok : σ → α → σ → Prop)
    [∀ s a t, Decidable (ok s a t)] (s : σ) (l : List α) {p : σ → Bool}
    (h : (replay next ok s l).any p = true) : ∃ t, Runs next ok s t ∧ p t = true := by
  obtain ⟨t, ht, hp⟩ := (Option.any_eq_true _ _).1 h
  exact ⟨t, runs_of_replay ht, hp⟩

end LogEngine.Verified.Machine
