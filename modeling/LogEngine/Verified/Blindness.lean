import LogEngine.Verified.Fallible

/-!
# Programs that cannot tell two states apart

`Blind R x` says of a program that from states which `R` relates it ends alike: with the
same result or the same error, in states that `R` relates again.  What a program does not
look at may then be anything, and two copies of a system that differ in it do the same.

There is one rule for each way of putting programs together; `bind` is the one for two
programs in a row.
-/

namespace LogEngine.Verified.Fallible

variable {ε σ α β : Type} {R : σ → σ → Prop}

/-- Two outcomes are alike. -/
inductive Alike (R : σ → σ → Prop) : EStateM.Result ε σ α → EStateM.Result ε σ α → Prop
  | ok (a : α) {s t : σ} (h : R s t) : Alike R (.ok a s) (.ok a t)
  | error (e : ε) {s t : σ} (h : R s t) : Alike R (.error e s) (.error e t)

/-- From related states the program ends alike. -/
def Blind (R : σ → σ → Prop) (x : EStateM ε σ α) : Prop := ∀ s t, R s t → Alike R (x s) (x t)

theorem Alike.outcome_eq {r r' : EStateM.Result ε σ α} (h : Alike R r r') :
    outcome r = outcome r' := by
  cases h with
  | ok a _ => rfl
  | error e _ => rfl

theorem Alike.of_ok {r' : EStateM.Result ε σ α} {a : α} {s : σ} (h : Alike R (.ok a s) r') :
    ∃ t, r' = .ok a t ∧ R s t := by
  cases h with
  | ok a h => exact ⟨_, rfl, h⟩

namespace Blind

theorem pure (a : α) : Blind R (Pure.pure a : EStateM ε σ α) := fun _ _ h => .ok a h

theorem throw (e : ε) : Blind R (MonadExcept.throw e : EStateM ε σ α) := fun _ _ h => .error e h

theorem bind {x : EStateM ε σ α} {f : α → EStateM ε σ β} (hx : Blind R x)
    (hf : ∀ a, Blind R (f a)) : Blind R (x >>= f) := by
  intro s t h
  have halike := hx s t h
  cases hs : x s with
  | ok a s' =>
      rw [hs] at halike
      obtain ⟨t', ht, h'⟩ := halike.of_ok
      rw [bind_of_ok hs, bind_of_ok ht]
      exact hf a s' t' h'
  | error e s' =>
      rw [hs] at halike
      cases ht : x t with
      | ok a t' =>
          rw [ht] at halike
          cases halike
      | error e' t' =>
          rw [ht] at halike
          rw [bind_of_error hs, bind_of_error ht]
          cases halike with
          | error e h' => exact .error e h'

theorem ite {c : Prop} [Decidable c] {x y : EStateM ε σ α} (hx : Blind R x) (hy : Blind R y) :
    Blind R (if c then x else y) := by
  split
  · exact hx
  · exact hy

theorem attempt {x : EStateM ε σ α} (hx : Blind R x) : Blind R (Fallible.attempt x) := by
  intro s t h
  have halike := hx s t h
  unfold Fallible.attempt
  generalize x s = r at halike ⊢
  generalize x t = r' at halike ⊢
  cases halike with
  | ok a h' => exact .ok _ h'
  | error e h' => exact .ok _ h'

theorem zoom {τ : Type} {view : τ → σ} {update : σ → τ → τ} {x : EStateM ε σ α}
    {S : τ → τ → Prop} (hx : Blind R x) (hview : ∀ u v, S u v → R (view u) (view v))
    (hupdate : ∀ u v s t, S u v → R s t → S (update s u) (update t v)) :
    Blind S (Fallible.zoom view update x) := by
  intro u v h
  have halike := hx _ _ (hview u v h)
  unfold Fallible.zoom
  generalize x (view u) = r at halike ⊢
  generalize x (view v) = r' at halike ⊢
  cases halike with
  | ok a h' => exact .ok a (hupdate u v _ _ h h')
  | error e h' => exact .error e (hupdate u v _ _ h h')

end Blind

end LogEngine.Verified.Fallible
