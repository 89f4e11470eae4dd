import Mathlib.Logic.Basic

/-!
# Programs that may fail halfway

A program over a state that may stop with an error: `EStateM`.  What it did to
the state before it stopped stays done, which is the behaviour of code that talks
to a disk and returns early at the first refusal.

`Sat r Q E` says of an outcome that it is a result and a state as in `Q`, or an
error that leaves a state as in `E`; `Sat.bind` is the rule of sequencing.
`Keeps R x` says that `x` relates the state before to the state after by `R`,
however it ends, and is what frame conditions are made of.
-/

namespace LogEngine.Verified.Fallible

variable {ε σ α β : Type}

/-- The outcome is a result as in `Q` or an error as in `E`. -/
def Sat (r : EStateM.Result ε σ α) (Q : α → σ → Prop) (E : σ → Prop) : Prop :=
  match r with
  | .ok a t => Q a t
  | .error _ t => E t

instance {r : EStateM.Result ε σ α} {Q : α → σ → Prop} {E : σ → Prop}
    [∀ a t, Decidable (Q a t)] [∀ t, Decidable (E t)] : Decidable (Sat r Q E) :=
  match r with
  | .ok a t => inferInstanceAs (Decidable (Q a t))
  | .error _ t => inferInstanceAs (Decidable (E t))

/-- The outcome of a program that has its errors handed to it as values. -/
def attempt (x : EStateM ε σ α) : EStateM ε σ (Except ε α) := fun s =>
  match x s with
  | .ok a t => .ok (.ok a) t
  | .error e t => .ok (.error e) t

/-- A program that works on a part of a larger state. -/
def zoom {τ : Type} (view : τ → σ) (update : σ → τ → τ) (x : EStateM ε σ α) :
    EStateM ε τ α := fun s =>
  match x (view s) with
  | .ok a t => .ok a (update t s)
  | .error e t => .error e (update t s)

namespace Sat

variable {Q Q' : α → σ → Prop} {E E' : σ → Prop} {s : σ}

theorem mono {r : EStateM.Result ε σ α} (h : Sat r Q E) (hQ : ∀ a t, Q a t → Q' a t)
    (hE : ∀ t, E t → E' t) : Sat r Q' E' := by
  cases r with
  | ok a t => exact hQ a t h
  | error e t => exact hE t h

theorem imp {r : EStateM.Result ε σ α} (h : Sat r Q E) (hQ : ∀ a t, Q a t → Q' a t) :
    Sat r Q' E :=
  h.mono hQ fun _ he => he

/-- A program that cannot fail fails in no way. -/
theorem sure {r : EStateM.Result ε σ α} (h : Sat r Q fun _ => False) : Sat r Q E :=
  h.mono (fun _ _ hq => hq) fun _ hf => hf.elim

/-- Two descriptions of one outcome hold together. -/
theorem and {r : EStateM.Result ε σ α} (h : Sat r Q E) (h' : Sat r Q' E') :
    Sat r (fun a t => Q a t ∧ Q' a t) (fun t => E t ∧ E' t) := by
  cases r with
  | ok a t => exact ⟨h, h'⟩
  | error e t => exact ⟨h, h'⟩

/-- A program that cannot fail has a result. -/
theorem exists_ok {r : EStateM.Result ε σ α} (h : Sat r Q E) (hE : ∀ t, ¬ E t) :
    ∃ a t, r = .ok a t ∧ Q a t := by
  cases r with
  | ok a t => exact ⟨a, t, rfl, h⟩
  | error e t => exact absurd h (hE t)

theorem bind {R : β → σ → Prop} {x : EStateM ε σ α} {f : α → EStateM ε σ β}
    (hx : Sat (x s) Q E) (hf : ∀ a t, Q a t → Sat (f a t) R E) :
    Sat ((x >>= f) s) R E := by
  show Sat (EStateM.bind x f s) R E
  unfold EStateM.bind
  cases hr : x s with
  | ok a t =>
      rw [hr] at hx
      exact hf a t hx
  | error e t =>
      rw [hr] at hx
      exact hx

/-- A program that asks a question first. -/
theorem ite {c : Prop} [Decidable c] {x y : EStateM ε σ α} (hx : c → Sat (x s) Q E)
    (hy : ¬ c → Sat (y s) Q E) : Sat ((if c then x else y) s) Q E := by
  by_cases hc : c
  · rw [if_pos hc]
    exact hx hc
  · rw [if_neg hc]
    exact hy hc

theorem attempt {x : EStateM ε σ α} {R : Except ε α → σ → Prop}
    (h : Sat (x s) (fun a t => R (.ok a) t) (fun t => ∀ e, R (.error e) t)) :
    Sat (Fallible.attempt x s) R E := by
  unfold Fallible.attempt
  cases hr : x s with
  | ok a t =>
      rw [hr] at h
      exact h
  | error e t =>
      rw [hr] at h
      exact h e

/-- Sequencing with the first outcome named. -/
theorem bind_eq {R : β → σ → Prop} {x : EStateM ε σ α} {f : α → EStateM ε σ β}
    (herr : ∀ e t, x s = .error e t → E t)
    (hok : ∀ a t, x s = .ok a t → Sat (f a t) R E) : Sat ((x >>= f) s) R E := by
  show Sat (EStateM.bind x f s) R E
  unfold EStateM.bind
  cases hr : x s with
  | ok a t => exact hok a t hr
  | error e t => exact herr e t hr

/-- An attempt hands over what happened. -/
theorem attempt_eq (x : EStateM ε σ α) (s : σ) :
    Sat (Fallible.attempt x s)
      (fun r t => match r with
        | .ok a => x s = .ok a t
        | .error e => x s = .error e t) (fun _ => False) := by
  unfold Fallible.attempt
  cases x s with
  | ok a t => exact rfl
  | error e t => exact rfl

theorem zoom {τ : Type} {view : τ → σ} {update : σ → τ → τ} {x : EStateM ε σ α}
    {P : α → τ → Prop} {F : τ → Prop} {u : τ}
    (h : Sat (x (view u)) (fun a t => P a (update t u)) (fun t => F (update t u))) :
    Sat (Fallible.zoom view update x u) P F := by
  unfold Fallible.zoom
  cases hr : x (view u) with
  | ok a t =>
      rw [hr] at h
      exact h
  | error e t =>
      rw [hr] at h
      exact h

end Sat

/-- The outcome is a result as in `Q` or an error as in `E`, which also sees the
error. -/
def Ends (r : EStateM.Result ε σ α) (Q : α → σ → Prop) (E : ε → σ → Prop) : Prop :=
  match r with
  | .ok a t => Q a t
  | .error e t => E e t

namespace Ends

variable {Q Q' : α → σ → Prop} {E E' : ε → σ → Prop} {s : σ}

theorem of_sat {r : EStateM.Result ε σ α} {F : σ → Prop} (h : Sat r Q F)
    (hE : ∀ e t, F t → E e t) : Ends r Q E := by
  cases r with
  | ok a t => exact h
  | error e t => exact hE e t h

theorem sat {r : EStateM.Result ε σ α} {F : σ → Prop} (h : Ends r Q E)
    (hE : ∀ e t, E e t → F t) : Sat r Q F := by
  cases r with
  | ok a t => exact h
  | error e t => exact hE e t h

theorem mono {r : EStateM.Result ε σ α} (h : Ends r Q E) (hQ : ∀ a t, Q a t → Q' a t)
    (hE : ∀ e t, E e t → E' e t) : Ends r Q' E' := by
  cases r with
  | ok a t => exact hQ a t h
  | error e t => exact hE e t h

theorem bind {R : β → σ → Prop} {x : EStateM ε σ α} {f : α → EStateM ε σ β}
    (hx : Ends (x s) Q E) (hf : ∀ a t, Q a t → Ends (f a t) R E) :
    Ends ((x >>= f) s) R E := by
  show Ends (EStateM.bind x f s) R E
  unfold EStateM.bind
  cases hr : x s with
  | ok a t =>
      rw [hr] at hx
      exact hf a t hx
  | error e t =>
      rw [hr] at hx
      exact hx

theorem ite {c : Prop} [Decidable c] {x y : EStateM ε σ α} (hx : c → Ends (x s) Q E)
    (hy : ¬ c → Ends (y s) Q E) : Ends ((if c then x else y) s) Q E := by
  by_cases hc : c
  · rw [if_pos hc]
    exact hx hc
  · rw [if_neg hc]
    exact hy hc

end Ends

/-- What a program hands back, leaving aside the state. -/
def outcome (r : EStateM.Result ε σ α) : Except ε α :=
  match r with
  | .ok a _ => .ok a
  | .error e _ => .error e

/-- A program of two parts that succeeds. -/
theorem bind_ok {x : EStateM ε σ α} {f : α → EStateM ε σ β} {s u : σ} {b : β}
    (h : (x >>= f) s = .ok b u) : ∃ a t, x s = .ok a t ∧ f a t = .ok b u := by
  change EStateM.bind x f s = .ok b u at h
  unfold EStateM.bind at h
  cases hx : x s with
  | ok a t =>
      rw [hx] at h
      exact ⟨a, t, rfl, h⟩
  | error e t =>
      rw [hx] at h
      cases h

section Forward

variable {x : EStateM ε σ α} {s t : σ} {a : α} {e : ε}

/-- A program of two parts whose first part is known. -/
theorem bind_of_ok (h : x s = .ok a t) (f : α → EStateM ε σ β) : (x >>= f) s = f a t := by
  show EStateM.bind x f s = _
  unfold EStateM.bind
  rw [h]

theorem bind_of_error (h : x s = .error e t) (f : α → EStateM ε σ β) :
    (x >>= f) s = .error e t := by
  show EStateM.bind x f s = _
  unfold EStateM.bind
  rw [h]

theorem attempt_of_ok (h : x s = .ok a t) : attempt x s = .ok (.ok a) t := by
  unfold attempt
  rw [h]

theorem attempt_of_error (h : x s = .error e t) : attempt x s = .ok (.error e) t := by
  unfold attempt
  rw [h]

end Forward

section Zoom

variable {τ : Type} {view : τ → σ} {update : σ → τ → τ} {x : EStateM ε σ α} {u v : τ}

theorem zoom_ok {a : α} (h : zoom view update x u = .ok a v) :
    ∃ t, x (view u) = .ok a t ∧ v = update t u := by
  unfold zoom at h
  cases hr : x (view u) with
  | ok b t =>
      rw [hr] at h
      cases h
      exact ⟨t, rfl, rfl⟩
  | error e t =>
      rw [hr] at h
      cases h

theorem zoom_error {e : ε} (h : zoom view update x u = .error e v) :
    ∃ t, x (view u) = .error e t ∧ v = update t u := by
  unfold zoom at h
  cases hr : x (view u) with
  | ok b t =>
      rw [hr] at h
      cases h
  | error e' t =>
      rw [hr] at h
      cases h
      exact ⟨t, rfl, rfl⟩

theorem zoom_of_ok {a : α} {t : σ} (h : x (view u) = .ok a t) :
    zoom view update x u = .ok a (update t u) := by
  unfold zoom
  rw [h]

theorem zoom_of_error {e : ε} {t : σ} (h : x (view u) = .error e t) :
    zoom view update x u = .error e (update t u) := by
  unfold zoom
  rw [h]

end Zoom

/-! ## Frame conditions -/

/-- However `x` ends, the state before and the state after are related by `R`. -/
def Keeps (R : σ → σ → Prop) (x : EStateM ε σ α) : Prop :=
  ∀ s, Sat (x s) (fun _ t => R s t) (R s)

namespace Keeps

variable {R : σ → σ → Prop}

theorem ok {x : EStateM ε σ α} (h : Keeps R x) {s t : σ} {a : α} (hx : x s = .ok a t) :
    R s t := by
  have hs := h s
  rw [hx] at hs
  exact hs

theorem error {x : EStateM ε σ α} (h : Keeps R x) {s t : σ} {e : ε} (hx : x s = .error e t) :
    R s t := by
  have hs := h s
  rw [hx] at hs
  exact hs

/-- Frame conditions hold together. -/
theorem forall_ {ι : Type} {R : ι → σ → σ → Prop} {x : EStateM ε σ α}
    (h : ∀ i, Keeps (R i) x) : Keeps (fun s t => ∀ i, R i s t) x := by
  intro s
  have hs := fun i => h i s
  generalize x s = r at hs ⊢
  cases r with
  | ok a t => exact hs
  | error e t => exact hs

theorem pure (hrefl : ∀ s, R s s) (a : α) : Keeps R (Pure.pure a : EStateM ε σ α) :=
  fun s => hrefl s

theorem throw (hrefl : ∀ s, R s s) (e : ε) :
    Keeps R (MonadExcept.throw e : EStateM ε σ α) :=
  fun s => hrefl s

theorem bind (htrans : ∀ {s t u}, R s t → R t u → R s u) {x : EStateM ε σ α}
    {f : α → EStateM ε σ β} (hx : Keeps R x) (hf : ∀ a, Keeps R (f a)) :
    Keeps R (x >>= f) :=
  fun s => (hx s).bind fun a t hst =>
    (hf a t).mono (fun _ _ htu => htrans hst htu) fun _ htu => htrans hst htu

theorem ite {c : Prop} [Decidable c] {x y : EStateM ε σ α} (hx : Keeps R x)
    (hy : Keeps R y) : Keeps R (if c then x else y) :=
  fun s => Sat.ite (fun _ => hx s) fun _ => hy s

theorem attempt {x : EStateM ε σ α} (hx : Keeps R x) : Keeps R (Fallible.attempt x) :=
  fun s => Sat.attempt (R := fun _ t => R s t) ((hx s).mono (fun _ _ h => h) fun _ h _ => h)

theorem zoom {τ : Type} {view : τ → σ} {update : σ → τ → τ} {x : EStateM ε σ α}
    {S : τ → τ → Prop} (hx : Keeps R x) (h : ∀ u t, R (view u) t → S u (update t u)) :
    Keeps S (Fallible.zoom view update x) :=
  fun u => Sat.zoom ((hx (view u)).mono (fun _ t => h u t) (h u))

end Keeps

end LogEngine.Verified.Fallible
