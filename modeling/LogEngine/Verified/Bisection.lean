import Mathlib.Data.List.Basic

/-!
# Bisection

The search behind the bounds of the C++ library: a range is halved, and the element in the
middle says in which half the search goes on.  A range is a list here, so that the half
before the middle is a `take` and the half behind it a `drop`.

On a list whose elements that satisfy `p` all come first, the search ends where they end
(`bisect_eq`).
-/

namespace LogEngine.Verified.Bisection

variable {α : Type} {p : α → Bool} {l : List α}

/-- The loop of the search, with `fuel` for as many rounds. -/
def bisect (p : α → Bool) : Nat → List α → Nat
  | 0, _ => 0
  | fuel + 1, l =>
      match l.drop (l.length / 2) with
      | [] => 0
      | middle :: rest =>
          if p middle then l.length / 2 + 1 + bisect p fuel rest
          else bisect p fuel (l.take (l.length / 2))

/-- Where the elements end that satisfy `p`. -/
def partitionPoint (p : α → Bool) (l : List α) : Nat := bisect p l.length l

/-- What satisfies `p` comes before what does not. -/
def Partitioned (p : α → Bool) (l : List α) : Prop := l.Pairwise fun a b => p b = true → p a = true

/-- The middle satisfies `p`, and so does all that is before it. -/
theorem takeWhile_middle {front rest : List α} {middle : α}
    (h : Partitioned p (front ++ middle :: rest)) (hp : p middle = true) :
    (front ++ middle :: rest).takeWhile p = front ++ middle :: rest.takeWhile p := by
  have hfront : ∀ a ∈ front, p a = true := fun a ha =>
    (List.pairwise_append.1 h).2.2 a ha middle List.mem_cons_self hp
  rw [List.takeWhile_append_of_pos hfront, List.takeWhile_cons, if_pos hp]

/-- The middle does not, and nothing behind it matters. -/
theorem takeWhile_front {front rest : List α} {middle : α} (hp : ¬ p middle = true) :
    (front ++ middle :: rest).takeWhile p = front.takeWhile p := by
  induction front with
  | nil =>
      show (middle :: rest).takeWhile p = []
      rw [List.takeWhile_cons, if_neg hp]
  | cons a front ih =>
      rw [List.cons_append, List.takeWhile_cons, List.takeWhile_cons, ih]

private theorem bisect_eq {fuel : Nat} (h : Partitioned p l) (hfuel : l.length ≤ fuel) :
    bisect p fuel l = (l.takeWhile p).length := by
  induction fuel generalizing l with
  | zero =>
      rw [List.eq_nil_of_length_eq_zero (Nat.le_zero.1 hfuel)]
      rfl
  | succ fuel ih =>
      have hsplit := List.take_append_drop (l.length / 2) l
      have hhalf : (l.take (l.length / 2)).length = l.length / 2 := by
        rw [List.length_take]
        omega
      unfold bisect
      cases hdrop : l.drop (l.length / 2) with
      | nil =>
          have hlen := congrArg List.length hdrop
          rw [List.length_drop, List.length_nil] at hlen
          rw [List.eq_nil_of_length_eq_zero (l := l) (by omega)]
          rfl
      | cons middle rest =>
          rw [hdrop] at hsplit
          have hlen := congrArg List.length hsplit
          rw [List.length_append, List.length_cons, hhalf] at hlen
          rw [← hsplit] at h
          dsimp only
          split
          case isTrue hp =>
            -- the search goes on behind the middle
            have hrest : Partitioned p rest := (List.pairwise_append.1 h).2.1.of_cons
            have htake := takeWhile_middle h hp
            rw [hsplit] at htake
            rw [ih hrest (by omega), htake, List.length_append, List.length_cons, hhalf]
            omega
          case isFalse hp =>
            have hfront : Partitioned p (l.take (l.length / 2)) := (List.pairwise_append.1 h).1
            rw [ih hfront (by omega), ← takeWhile_front hp, hsplit]

theorem partitionPoint_eq (h : Partitioned p l) : partitionPoint p l = (l.takeWhile p).length :=
  bisect_eq h (Nat.le_refl _)

theorem take_partitionPoint (h : Partitioned p l) :
    l.take (partitionPoint p l) = l.takeWhile p := by
  rw [partitionPoint_eq h]
  exact (List.prefix_iff_eq_take.1 (List.takeWhile_prefix p)).symm

/-- The element before the partition point is the last one that satisfies `p`. -/
theorem getLast?_takeWhile (h : Partitioned p l) {n : Nat} (hn : partitionPoint p l = n + 1) :
    (l.takeWhile p).getLast? = l[n]? := by
  have hlen : n < l.length := by
    have hle := (List.takeWhile_prefix p (l := l)).length_le
    rw [← partitionPoint_eq h, hn] at hle
    exact hle
  rw [← take_partitionPoint h, hn, List.take_add_one, List.getElem?_eq_getElem hlen]
  exact List.getLast?_concat

end LogEngine.Verified.Bisection
