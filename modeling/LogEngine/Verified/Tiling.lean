import Mathlib.Data.List.Infix
import Mathlib.Data.List.TakeWhile

/-!
# Tilings: lists of extents laid end to end

An append-only log addressed by record offset is a list of *extents*: each
element occupies a half-open interval `[base, stop)`, and each one begins
where the one before it ended.  This module supplies the list facts such a
log rests on, for any type whose values carry an extent:

* a prefix of a tiling is determined by where it ends
  (`Tiles.prefix_of_end_le`, `Tiles.prefix_eq_of_end`);
* every offset inside a tiling is covered by exactly one element, and that
  element closes a unique prefix (`Tiles.cover_spec`, `Tiles.cover_eq`);
* cutting a tiling at one of its boundaries recovers the prefix that ends
  there (`Tiles.upTo_eq`).

Nothing here knows what an element is besides its extent.
-/

namespace LogEngine.Verified.Tiling

/-- A value that occupies the half-open interval `[base, stop)`. -/
class Extent (α : Type*) where
  /-- The first offset of the interval. -/
  base : α → Nat
  /-- One past the last offset of the interval. -/
  stop : α → Nat

open Extent

variable {α : Type*} [Extent α]

/-- Where a list of extents ends when it starts at `a`. -/
def endFrom (a : Nat) : List α → Nat
  | [] => a
  | x :: l => endFrom (stop x) l

/-- The list occupies an interval starting at `a` without gap or overlap, and
no element is empty. -/
def Tiles : Nat → List α → Prop
  | _, [] => True
  | a, x :: l => base x = a ∧ a < stop x ∧ Tiles (stop x) l

/-- The element covering offset `i`, if there is one. -/
def cover (l : List α) (i : Nat) : Option α :=
  l.find? fun x => decide (base x ≤ i ∧ i < stop x)

/-- The elements that begin below offset `k`. -/
def upTo (l : List α) (k : Nat) : List α :=
  l.takeWhile fun x => decide (base x < k)

/-- The elements from the one covering offset `i` on. -/
def after (l : List α) (i : Nat) : List α :=
  l.dropWhile fun x => decide (stop x ≤ i)

@[simp] theorem endFrom_nil (a : Nat) : endFrom a ([] : List α) = a := rfl

@[simp] theorem endFrom_cons (a : Nat) (x : α) (l : List α) :
    endFrom a (x :: l) = endFrom (stop x) l := rfl

@[simp] theorem endFrom_append (a : Nat) (l m : List α) :
    endFrom a (l ++ m) = endFrom (endFrom a l) m := by
  induction l generalizing a with
  | nil => rfl
  | cons x l ih => simpa using ih (stop x)

/-- Where a list ends is a matter of its last element. -/
theorem endFrom_of_ne_nil {l : List α} (h : l ≠ []) (a b : Nat) : endFrom a l = endFrom b l := by
  cases l with
  | nil => exact absurd rfl h
  | cons x l => rfl

@[simp] theorem tiles_nil (a : Nat) : Tiles a ([] : List α) := trivial

theorem tiles_cons {a : Nat} {x : α} {l : List α} :
    Tiles a (x :: l) ↔ base x = a ∧ a < stop x ∧ Tiles (stop x) l := Iff.rfl

theorem tiles_append {a : Nat} {l m : List α} :
    Tiles a (l ++ m) ↔ Tiles a l ∧ Tiles (endFrom a l) m := by
  induction l generalizing a with
  | nil => simp
  | cons x l ih =>
      simp only [List.cons_append, tiles_cons, endFrom_cons, ih]
      tauto

/-- Appending one element at the end keeps a tiling. -/
theorem tiles_snoc {a : Nat} {l : List α} {x : α} :
    Tiles a (l ++ [x]) ↔
      Tiles a l ∧ base x = endFrom a l ∧ endFrom a l < stop x := by
  simp [tiles_append, tiles_cons]

theorem Tiles.le_end {a : Nat} {l : List α} (h : Tiles a l) :
    a ≤ endFrom a l := by
  induction l generalizing a with
  | nil => exact Nat.le_refl a
  | cons x l ih =>
      obtain ⟨-, hlt, hl⟩ := h
      exact Nat.le_trans (Nat.le_of_lt hlt) (ih hl)

theorem Tiles.of_isPrefix {a : Nat} {p l : List α} (h : Tiles a l)
    (hp : p <+: l) : Tiles a p := by
  obtain ⟨r, rfl⟩ := hp
  exact (tiles_append.1 h).1

/-- A tiling ends no earlier than any of its prefixes. -/
theorem Tiles.end_mono {a : Nat} {p l : List α} (h : Tiles a l)
    (hp : p <+: l) : endFrom a p ≤ endFrom a l := by
  obtain ⟨r, rfl⟩ := hp
  rw [endFrom_append]
  exact (tiles_append.1 h).2.le_end

/-- A proper prefix of a tiling ends strictly earlier. -/
theorem Tiles.end_lt_of_snoc {a : Nat} {p l : List α} {x : α}
    (h : Tiles a l) (hp : p ++ [x] <+: l) :
    endFrom a p < endFrom a l := by
  have hx := (tiles_snoc.1 (h.of_isPrefix hp)).2.2
  have hle := h.end_mono hp
  rw [endFrom_append] at hle
  exact Nat.lt_of_lt_of_le hx hle

/-- Of two prefixes of one tiling, the one that ends first is a prefix of the
other. -/
theorem Tiles.prefix_of_end_le {a : Nat} {p q l : List α} (h : Tiles a l)
    (hp : p <+: l) (hq : q <+: l) (hle : endFrom a p ≤ endFrom a q) :
    p <+: q := by
  rcases List.prefix_or_prefix_of_prefix hp hq with hpq | hqp
  · exact hpq
  · obtain ⟨r, rfl⟩ := hqp
    cases r with
    | nil => simp
    | cons x r =>
        have hlt : endFrom a q < endFrom a (q ++ x :: r) :=
          (h.of_isPrefix hp).end_lt_of_snoc (x := x) ⟨r, by simp⟩
        omega

/-- Where a prefix of a tiling ends determines it. -/
theorem Tiles.prefix_eq_of_end {a : Nat} {p q l : List α} (h : Tiles a l)
    (hp : p <+: l) (hq : q <+: l) (heq : endFrom a p = endFrom a q) :
    p = q :=
  (h.prefix_of_end_le hp hq heq.le).eq_of_length_le
    (h.prefix_of_end_le hq hp heq.ge).length_le

/-! ## Rows with gaps -/

/-- The list occupies intervals from `a` on, in order and without overlap, and no
element is empty. -/
def Rises : Nat → List α → Prop
  | _, [] => True
  | a, x :: l => a ≤ base x ∧ base x < stop x ∧ Rises (stop x) l

@[simp] theorem rises_nil (a : Nat) : Rises a ([] : List α) := trivial

theorem Tiles.rises {a : Nat} {l : List α} (h : Tiles a l) : Rises a l := by
  induction l generalizing a with
  | nil => trivial
  | cons x l ih =>
      obtain ⟨rfl, hlt, hl⟩ := h
      exact ⟨le_rfl, hlt, ih hl⟩

private theorem rises_append {a : Nat} {l m : List α} :
    Rises a (l ++ m) ↔ Rises a l ∧ Rises (endFrom a l) m := by
  induction l generalizing a with
  | nil => simp
  | cons x l ih =>
      simp only [List.cons_append, Rises, endFrom_cons, ih]
      tauto

theorem rises_snoc {a : Nat} {l : List α} {x : α} :
    Rises a (l ++ [x]) ↔ Rises a l ∧ endFrom a l ≤ base x ∧ base x < stop x := by
  simp [rises_append, Rises]

theorem Rises.le_end {a : Nat} {l : List α} (h : Rises a l) : a ≤ endFrom a l := by
  induction l generalizing a with
  | nil => exact le_rfl
  | cons x l ih =>
      obtain ⟨hle, hlt, hl⟩ := h
      exact (hle.trans hlt.le).trans (ih hl)

/-- Every element ends no later than the list. -/
theorem Rises.stop_le {a : Nat} {l : List α} (h : Rises a l) {x : α} (hx : x ∈ l) :
    stop x ≤ endFrom a l := by
  induction l generalizing a with
  | nil => cases hx
  | cons y l ih =>
      obtain ⟨-, -, hl⟩ := h
      rcases List.mem_cons.1 hx with rfl | hx
      · exact hl.le_end
      · exact ih hl hx

/-- Every element begins no earlier than the list. -/
theorem Rises.le_base {a : Nat} {l : List α} (h : Rises a l) {x : α} (hx : x ∈ l) : a ≤ base x := by
  induction l generalizing a with
  | nil => cases hx
  | cons y l ih =>
      obtain ⟨hle, hlt, hl⟩ := h
      rcases List.mem_cons.1 hx with rfl | hx
      · exact hle
      · exact (hle.trans hlt.le).trans (ih hl hx)

/-- The elements begin one behind another. -/
theorem Rises.sorted {a : Nat} {l : List α} (h : Rises a l) : (l.map base).Pairwise (· < ·) := by
  induction l generalizing a with
  | nil => exact .nil
  | cons x l ih =>
      obtain ⟨-, hlt, hl⟩ := h
      refine List.pairwise_cons.2 ⟨fun b hb => ?_, ih hl⟩
      obtain ⟨y, hy, rfl⟩ := List.mem_map.1 hb
      exact hlt.trans_le (hl.le_base hy)

/-- Every element ends before the ones behind it begin. -/
theorem Rises.apart {a : Nat} {l : List α} (h : Rises a l) :
    l.Pairwise fun x y => stop x ≤ base y := by
  induction l generalizing a with
  | nil => exact .nil
  | cons x l ih =>
      obtain ⟨-, -, hl⟩ := h
      exact List.pairwise_cons.2 ⟨fun y hy => hl.le_base hy, ih hl⟩

theorem Rises.base_lt_stop {a : Nat} {l : List α} (h : Rises a l) {x : α} (hx : x ∈ l) :
    base x < stop x := by
  induction l generalizing a with
  | nil => cases hx
  | cons y l ih =>
      obtain ⟨-, hlt, hl⟩ := h
      rcases List.mem_cons.1 hx with rfl | hx
      · exact hlt
      · exact ih hl hx

/-! ## The element covering an offset -/

theorem cover_append_of_some {l m : List α} {i : Nat} {x : α}
    (h : cover l i = some x) : cover (l ++ m) i = some x := by
  unfold cover at h ⊢
  rw [List.find?_append, h, Option.some_or]

theorem cover_of_isPrefix {l m : List α} (h : l <+: m) {i : Nat} {x : α}
    (hx : cover l i = some x) : cover m i = some x := by
  obtain ⟨r, rfl⟩ := h
  exact cover_append_of_some hx

/-- Every offset of a tiling is covered. -/
theorem Tiles.exists_cover {a : Nat} {l : List α} (h : Tiles a l) {i : Nat}
    (hlo : a ≤ i) (hhi : i < endFrom a l) : ∃ x, cover l i = some x := by
  induction l generalizing a with
  | nil => simp at hhi; omega
  | cons x l ih =>
      obtain ⟨hb, -, hl⟩ := h
      by_cases hi : i < stop x
      · exact ⟨x, by simp [cover, hb, hlo, hi]⟩
      · obtain ⟨y, hy⟩ := ih hl (by omega) hhi
        exact ⟨y, by simpa [cover, hi] using hy⟩

/-- The element covering an offset closes a prefix of the list. -/
theorem cover_spec {l : List α} {i : Nat} {x : α} (h : cover l i = some x) :
    ∃ p, p ++ [x] <+: l ∧ base x ≤ i ∧ i < stop x := by
  obtain ⟨hx, p, r, rfl, -⟩ := List.find?_eq_some_iff_append.1 h
  have hx' : base x ≤ i ∧ i < stop x := by simpa using hx
  exact ⟨p, ⟨r, by simp⟩, hx'⟩

/-- In a tiling the last element of a prefix is the one that covers its own
offsets. -/
theorem Tiles.cover_eq {a : Nat} {p l : List α} {x : α} {i : Nat}
    (h : Tiles a l) (hp : p ++ [x] <+: l) (hlo : base x ≤ i)
    (hhi : i < stop x) : cover l i = some x := by
  obtain ⟨hpt, hbx, -⟩ := tiles_snoc.1 (h.of_isPrefix hp)
  have hnone : ∀ y ∈ p, ¬ (base y ≤ i ∧ i < stop y) := by
    intro y hy hcon
    obtain ⟨p₁, p₂, rfl⟩ := List.append_of_mem hy
    have hle := (tiles_append.1 hpt).2.2.2.le_end
    simp only [endFrom_append, endFrom_cons] at hbx
    omega
  obtain ⟨r, rfl⟩ := hp
  rw [cover, List.append_assoc, List.find?_append,
    List.find?_eq_none.2 (by simpa using hnone)]
  simp [hlo, hhi]

/-- Two tilings that share a prefix have the same element at every offset of
that prefix. -/
theorem Tiles.cover_congr {a : Nat} {p l m : List α} (hl : Tiles a l)
    (hpl : p <+: l) (hpm : p <+: m) {i : Nat} (hlo : a ≤ i)
    (hhi : i < endFrom a p) : cover l i = cover m i := by
  obtain ⟨x, hx⟩ := (hl.of_isPrefix hpl).exists_cover hlo hhi
  obtain ⟨r, rfl⟩ := hpl
  obtain ⟨r', rfl⟩ := hpm
  rw [cover_append_of_some hx, cover_append_of_some hx]

/-- The prefix that ends with the element covering `i`. -/
theorem Tiles.exists_snoc {a : Nat} {l : List α} (h : Tiles a l) {i : Nat}
    (hlo : a ≤ i) (hhi : i < endFrom a l) :
    ∃ p x, p ++ [x] <+: l ∧ base x ≤ i ∧ i < stop x ∧ cover l i = some x := by
  obtain ⟨x, hx⟩ := h.exists_cover hlo hhi
  obtain ⟨p, hp, hb, hs⟩ := cover_spec hx
  exact ⟨p, x, hp, hb, hs, hx⟩

/-- No element covers an offset past the end of the tiling. -/
theorem Tiles.cover_none {a : Nat} {l : List α} (h : Tiles a l) {i : Nat}
    (hi : endFrom a l ≤ i) : cover l i = none := by
  cases hc : cover l i with
  | none => rfl
  | some x =>
      obtain ⟨p, hp, -, hs⟩ := cover_spec hc
      have hle := h.end_mono hp
      simp only [endFrom_append, endFrom_cons, endFrom_nil] at hle
      omega

/-- In a tiling the element covering an offset is the first that ends behind it. -/
theorem Tiles.after_eq {a : Nat} {p r : List α} {x : α} {i : Nat} (h : Tiles a (p ++ x :: r))
    (hlo : base x ≤ i) (hhi : i < stop x) : after (p ++ x :: r) i = x :: r := by
  obtain ⟨hp, hx, -⟩ := tiles_append.1 h
  have hbelow : ∀ y ∈ p, decide (stop y ≤ i) = true := by
    intro y hy
    obtain ⟨p₁, p₂, rfl⟩ := List.append_of_mem hy
    have hle := (tiles_append.1 hp).2.2.2.le_end
    simp only [endFrom_append, endFrom_cons] at hx
    simp only [decide_eq_true_eq]
    omega
  rw [after, List.dropWhile_append_of_pos hbelow]
  simp [hhi]

theorem Tiles.after_nil {a : Nat} {l : List α} (h : Tiles a l) {i : Nat}
    (hi : endFrom a l ≤ i) : after l i = [] := by
  refine List.dropWhile_eq_nil_iff.2 fun x hx => ?_
  obtain ⟨p, r, rfl⟩ := List.append_of_mem hx
  have hle := (tiles_append.1 h).2.2.2.le_end
  simp only [endFrom_append, endFrom_cons] at hi
  simp only [decide_eq_true_eq]
  omega

/-- What is behind a prefix of a tiling is what comes after its end. -/
theorem Tiles.after_end {a : Nat} {p r : List α} (h : Tiles a (p ++ r)) :
    after (p ++ r) (endFrom a p) = r := by
  cases r with
  | nil =>
      rw [List.append_nil] at h ⊢
      exact h.after_nil le_rfl
  | cons x r =>
      obtain ⟨-, hbase, hlt, -⟩ := tiles_append.1 h
      exact h.after_eq hbase.le hlt

/-- Offsets before a tiling are as good as its first one. -/
theorem Tiles.after_max {a : Nat} {l : List α} (h : Tiles a l) (i : Nat) :
    after l (max i a) = after l i := by
  rcases Nat.le_total a i with hle | hle
  · rw [Nat.max_eq_left hle]
  · rw [Nat.max_eq_right hle]
    cases l with
    | nil => rfl
    | cons x l =>
        obtain ⟨-, hlt, -⟩ := h
        have hi : i < stop x := hle.trans_lt hlt
        simp [after, hlt, hi]

/-! ## Cutting at a boundary -/

/-- Everything in a tiling begins at or after its start. -/
theorem Tiles.le_base {a : Nat} {l : List α} (h : Tiles a l) {x : α}
    (hx : x ∈ l) : a ≤ base x := by
  obtain ⟨l₁, l₂, rfl⟩ := List.append_of_mem hx
  obtain ⟨h₁, hb, -⟩ := tiles_append.1 h
  rw [hb]
  exact h₁.le_end

/-- Cutting a tiling where one of its prefixes ends gives that prefix. -/
theorem Tiles.upTo_eq {a : Nat} {p l : List α} (h : Tiles a l)
    (hp : p <+: l) : upTo l (endFrom a p) = p := by
  obtain ⟨r, rfl⟩ := hp
  obtain ⟨hpt, hr⟩ := tiles_append.1 h
  have hbelow : ∀ x ∈ p, decide (base x < endFrom a p) = true := by
    intro x hx
    obtain ⟨p₁, p₂, rfl⟩ := List.append_of_mem hx
    obtain ⟨-, hb, hlt, hp₂⟩ := tiles_append.1 hpt
    have hle := hp₂.le_end
    simp only [endFrom_append, endFrom_cons, decide_eq_true_eq]
    omega
  rw [upTo, List.takeWhile_append_of_pos hbelow]
  cases r with
  | nil => simp
  | cons x r => simp [hr.1]

theorem Tiles.upTo_nil {a : Nat} {l : List α} (h : Tiles a l) {k : Nat} (hk : k ≤ a) :
    upTo l k = [] := by
  cases l with
  | nil => rfl
  | cons x l =>
      obtain ⟨hb, -⟩ := h
      have : ¬ base x < k := by omega
      simp [upTo, this]

/-- Cutting a tiling where one of its elements begins keeps the elements before it. -/
theorem Tiles.upTo_base {a : Nat} {p l : List α} {x : α} (h : Tiles a l)
    (hp : p ++ [x] <+: l) : upTo l (base x) = p := by
  rw [(tiles_snoc.1 (h.of_isPrefix hp)).2.1]
  exact h.upTo_eq ((List.prefix_append p [x]).trans hp)

theorem upTo_isPrefix (l : List α) (k : Nat) : upTo l k <+: l := List.takeWhile_prefix _

theorem base_lt_of_mem_upTo {l : List α} {k : Nat} {x : α} (h : x ∈ upTo l k) : base x < k := by
  simpa using List.mem_takeWhile_imp h

/-- A cut behind a part of the list goes on with the rest. -/
theorem Tiles.mem_upTo {a : Nat} {l : List α} (h : Tiles a l) {k : Nat} {x : α} (hx : x ∈ l)
    (hk : base x < k) : x ∈ upTo l k := by
  induction l generalizing a with
  | nil => exact absurd hx List.not_mem_nil
  | cons y l ih =>
      have hy : base y < k := by
        obtain rfl := h.1
        exact (h.le_base hx).trans_lt hk
      rw [upTo, List.takeWhile_cons, if_pos (decide_eq_true hy)]
      rcases List.mem_cons.1 hx with rfl | hx
      · exact List.mem_cons_self
      · exact List.mem_cons_of_mem _ (ih h.2.2 hx)

theorem upTo_append_of_lt {l : List α} {k : Nat} (h : ∀ x ∈ l, base x < k) (m : List α) :
    upTo (l ++ m) k = l ++ upTo m k :=
  List.takeWhile_append_of_pos fun x hx => decide_eq_true (h x hx)

theorem upTo_of_lt {l : List α} {k : Nat} (h : ∀ x ∈ l, base x < k) : upTo l k = l :=
  List.takeWhile_eq_self_iff.2 fun x hx => decide_eq_true (h x hx)

/-- A cut before a part of the list does not see it. -/
theorem upTo_append_of_le {m : List α} {k : Nat} (h : ∀ x ∈ m, k ≤ base x) (l : List α) :
    upTo (l ++ m) k = upTo l k := by
  induction l with
  | nil =>
      cases m with
      | nil => rfl
      | cons x m =>
          have hx : ¬ base x < k := Nat.not_lt.2 (h x List.mem_cons_self)
          simp [upTo, hx]
  | cons x l ih =>
      by_cases hx : base x < k
      · simpa [upTo, hx] using ih
      · simp [upTo, hx]

/-! ## Tilings of tilings -/

/-- Each of the spans, and one behind them, begins where the one before it ends. -/
theorem Tiles.isChain_snoc {a : Nat} {l : List α} {x : α} (h : Tiles a l)
    (hx : base x = endFrom a l) : (l ++ [x]).IsChain fun y z => base z = stop y := by
  induction l generalizing a with
  | nil => exact .singleton x
  | cons y l ih =>
      obtain ⟨-, -, hrest⟩ := h
      have hchain := ih hrest hx
      cases l with
      | nil => exact .cons_cons hx (.singleton x)
      | cons z l => exact .cons_cons hrest.1 hchain

/-- A tiling whose elements are tiled in turn. -/
theorem Tiles.flatMap {β : Type*} [Extent β] {a : Nat} {l : List α} {g : α → List β}
    (h : Tiles a l) (hg : ∀ x ∈ l, Tiles (base x) (g x) ∧ endFrom (base x) (g x) = stop x) :
    Tiles a (l.flatMap g) ∧ endFrom a (l.flatMap g) = endFrom a l := by
  induction l generalizing a with
  | nil => exact ⟨trivial, rfl⟩
  | cons x l ih =>
      obtain ⟨rfl, -, hl⟩ := h
      obtain ⟨hx, hend⟩ := hg x List.mem_cons_self
      obtain ⟨hrest, hrestEnd⟩ := ih hl fun y hy => hg y (List.mem_cons_of_mem _ hy)
      rw [List.flatMap_cons, endFrom_append, hend]
      refine ⟨tiles_append.2 ⟨hx, ?_⟩, hrestEnd⟩
      rw [hend]
      exact hrest

/-! ## Maps that keep extents -/

section Map

variable {β : Type*} [Extent β] {g : α → β}

theorem endFrom_map (hstop : ∀ x, stop (g x) = stop x) (a : Nat) (l : List α) :
    endFrom a (l.map g) = endFrom a l := by
  induction l generalizing a with
  | nil => rfl
  | cons x l ih => rw [List.map_cons, endFrom_cons, endFrom_cons, hstop, ih]

theorem upTo_map (hbase : ∀ x, base (g x) = base x) (l : List α) (k : Nat) :
    upTo (l.map g) k = (upTo l k).map g := by
  unfold upTo
  rw [List.takeWhile_map]
  congr 2
  funext x
  simp [hbase]

theorem cover_map (hbase : ∀ x, base (g x) = base x) (hstop : ∀ x, stop (g x) = stop x)
    (l : List α) (i : Nat) : cover (l.map g) i = (cover l i).map g := by
  unfold cover
  rw [List.find?_map]
  congr 2
  funext x
  simp [hbase, hstop]

end Map

end LogEngine.Verified.Tiling
