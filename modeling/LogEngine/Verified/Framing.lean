import LogEngine.Verified.Tiling

/-!
# Streams of self-delimiting frames

A log file is a row of frames with something behind it: nothing, or the first part
of a frame that was never finished, or whatever else an interrupted write leaves.
This module is about such streams, for any type of frames that has

* an encoding from which the frame at the head of a stream can be told (`Delimited`),
  so that no encoding is a proper beginning of another, and
* an extent, so that a row of frames is a tiling (`Tiling.Tiles`).

`Parses a l fs` says that `fs` are the frames of stream `l` when the first is to
begin at offset `a`: they are at the head of the stream, and what is behind them
does not go on with a frame that is next in line (`Stuck`).  There is exactly one such
row (`Parses.unique`) and `parse` computes it.

* `Parses.isPrefix_of_encode`: any row at the head of the stream is part of it;
* `parse_encode_append`: a row of frames with something stuck behind it is read back;
* `stuck_of_torn`: an unfinished frame is stuck.

A `Line` is a row whose frames are where some other arithmetic puts them, one that wraps
around for instance; `exists_line` and `Line.isPrefix_of_encode` say of it that every
stream begins with a longest one.
-/

namespace LogEngine.Verified.Framing

open Tiling Tiling.Extent

/-- Frames with an encoding from which the frame at the head of a stream can be told. -/
class Delimited (α : Type*) (β : outParam Type*) where
  bytes : α → List β
  bytes_ne : ∀ x, bytes x ≠ []
  /-- The frame at the head of a stream. -/
  head : List β → Option α
  head_eq_some : ∀ l x, head l = some x ↔ bytes x <+: l

open Delimited

variable {α β : Type*} [Delimited α β]

/-- The stream that a row of frames makes. -/
def encode (fs : List α) : List β := fs.flatMap bytes

@[simp] theorem encode_nil : encode ([] : List α) = [] := rfl

@[simp] theorem encode_cons (x : α) (fs : List α) : encode (x :: fs) = bytes x ++ encode fs :=
  List.flatMap_cons

@[simp] theorem encode_append (fs gs : List α) : encode (fs ++ gs) = encode fs ++ encode gs :=
  List.flatMap_append

theorem encode_isPrefix {fs gs : List α} (h : fs <+: gs) : encode fs <+: encode gs := by
  obtain ⟨r, rfl⟩ := h
  rw [encode_append]
  exact List.prefix_append _ _

theorem bytes_pos (x : α) : 0 < (bytes x).length := List.length_pos_of_ne_nil (bytes_ne x)

theorem encode_eq_nil {fs : List α} : encode fs = [] ↔ fs = [] := by
  constructor
  · intro h
    cases fs with
    | nil => rfl
    | cons x fs =>
        rw [encode_cons, List.append_eq_nil_iff] at h
        exact absurd h.1 (bytes_ne x)
  · rintro rfl
    rfl

/-- Two frames at the head of one stream are the same. -/
theorem eq_of_isPrefix {x y : α} {l : List β} (hx : bytes x <+: l) (hy : bytes y <+: l) :
    x = y :=
  Option.some.inj (((head_eq_some l x).2 hx).symm.trans ((head_eq_some l y).2 hy))

/-- A row of frames is determined by its stream. -/
theorem encode_injective {fs gs : List α} (h : encode fs = encode gs) : fs = gs := by
  induction fs generalizing gs with
  | nil => exact (encode_eq_nil.1 h.symm).symm
  | cons x fs ih =>
      cases gs with
      | nil => exact encode_eq_nil.1 h
      | cons y gs =>
          rw [encode_cons, encode_cons] at h
          obtain rfl : x = y := by
            refine eq_of_isPrefix (List.prefix_append _ (encode fs)) ?_
            rw [h]
            exact List.prefix_append _ _
          rw [ih (List.append_cancel_left h)]

/-- Where a prefix of a row of frames ends in the stream determines it. -/
theorem isPrefix_eq_of_length {p q fs : List α} (hp : p <+: fs) (hq : q <+: fs)
    (h : (encode p).length = (encode q).length) : p = q := by
  have key : ∀ {p q : List α}, p <+: q → (encode p).length = (encode q).length → p = q := by
    rintro p _ ⟨r, rfl⟩ hlen
    rw [encode_append, List.length_append] at hlen
    have hr : encode r = [] := List.eq_nil_of_length_eq_zero (by omega)
    rw [encode_eq_nil.1 hr, List.append_nil]
  rcases List.prefix_or_prefix_of_prefix hp hq with hpq | hqp
  · exact key hpq h
  · exact (key hqp h.symm).symm

section Extents

variable [Extent α]

/-- The stream does not go on with a frame that begins at offset `a`. -/
def Stuck (α : Type*) {β : Type*} [Delimited α β] [Extent α] (a : Nat) (l : List β) : Prop :=
  ∀ x : α, base x = a → ¬ bytes x <+: l

theorem stuck_nil (a : Nat) : Stuck α a ([] : List β) := fun x _ h =>
  bytes_ne x (List.prefix_nil.1 h)

/-- A frame that is not finished is no frame. -/
theorem stuck_of_torn {x : α} {l : List β} (h : l <+: bytes x) (hne : l ≠ bytes x) (a : Nat) :
    Stuck α a l := by
  intro y _ hy
  obtain rfl := eq_of_isPrefix (hy.trans h) (List.prefix_rfl (l := bytes x))
  exact hne (h.eq_of_length_le hy.length_le)

/-- The frames of a stream that is to begin at offset `a`. -/
def Parses (a : Nat) (l : List β) (fs : List α) : Prop :=
  Tiles a fs ∧ ∃ rest, l = encode fs ++ rest ∧ Stuck α (endFrom a fs) rest

theorem parses_nil {a : Nat} {l : List β} (h : Stuck α a l) : Parses a l ([] : List α) :=
  ⟨trivial, l, rfl, h⟩

private theorem parses_encode {a : Nat} {fs : List α} (h : Tiles a fs) : Parses a (encode fs) fs :=
  ⟨h, [], (List.append_nil _).symm, stuck_nil _⟩

/-- A row of frames at the head of a stream is part of the frames of the stream. -/
theorem Parses.isPrefix_of_encode {a : Nat} {l : List β} {fs gs : List α} (h : Parses a l fs)
    (hg : Tiles a gs) (hgl : encode gs <+: l) : gs <+: fs := by
  obtain ⟨hf, rest, rfl, hstuck⟩ := h
  induction gs generalizing a fs with
  | nil => exact List.nil_prefix
  | cons y gs ih =>
      obtain ⟨hbase, hlt, hgs⟩ := hg
      have hy : bytes y <+: encode fs ++ rest :=
        (by rw [encode_cons]; exact List.prefix_append _ _ :
          bytes y <+: encode (y :: gs)).trans hgl
      cases fs with
      | nil => exact absurd hy (hstuck y hbase)
      | cons x fs =>
          obtain rfl : x = y := by
            refine eq_of_isPrefix ?_ hy
            rw [encode_cons, List.append_assoc]
            exact List.prefix_append _ _
          rw [encode_cons, encode_cons, List.append_assoc,
            List.prefix_append_right_inj] at hgl
          exact (List.prefix_cons_inj x).2 (ih hgs hf.2.2 hstuck hgl)

/-- There is one way to read a stream. -/
theorem Parses.unique {a : Nat} {l : List β} {fs gs : List α} (h : Parses a l fs)
    (h' : Parses a l gs) : fs = gs := by
  have hle : ∀ {fs gs : List α}, Parses a l fs → Parses a l gs → gs <+: fs := by
    rintro fs gs h ⟨hg, rest, rfl, -⟩
    exact h.isPrefix_of_encode hg (List.prefix_append _ _)
  exact (hle h' h).eq_of_length_le (hle h h').length_le

theorem Parses.encode_append {a : Nat} {l : List β} {fs gs : List α} (hf : Tiles a fs)
    (h : Parses (endFrom a fs) l gs) : Parses a (encode fs ++ l) (fs ++ gs) := by
  obtain ⟨hg, rest, rfl, hstuck⟩ := h
  refine ⟨tiles_append.2 ⟨hf, hg⟩, rest, ?_, ?_⟩
  · rw [Framing.encode_append, List.append_assoc]
  · rw [endFrom_append]
    exact hstuck

/-- The loop of `parse`; the stream's length is fuel enough. -/
def parseFrom : Nat → Nat → List β → List α
  | 0, _, _ => []
  | fuel + 1, a, l =>
      match (head l : Option α) with
      | none => []
      | some x =>
          if base x = a then x :: parseFrom fuel (stop x) (l.drop (bytes x).length) else []

/-- The frames of a stream. -/
def parse (a : Nat) (l : List β) : List α := parseFrom l.length a l

/-- No frame of this type is empty. -/
class Proper (α : Type*) [Extent α] : Prop where
  base_lt : ∀ x : α, base x < stop x

private theorem parses_parseFrom [Proper α] {fuel a : Nat} {l : List β} (h : l.length ≤ fuel) :
    Parses a l (parseFrom fuel a l : List α) := by
  induction fuel generalizing a l with
  | zero =>
      obtain rfl := List.eq_nil_of_length_eq_zero (Nat.le_zero.1 h)
      exact parses_nil (stuck_nil a)
  | succ fuel ih =>
      unfold parseFrom
      split
      case h_1 hnone =>
        refine parses_nil fun x _ hx => ?_
        rw [(head_eq_some l x).2 hx] at hnone
        cases hnone
      case h_2 x hx =>
        have hpre := (head_eq_some l x).1 hx
        split
        case isTrue hbase =>
          obtain ⟨rest, rfl⟩ := hpre
          have hrest : rest.length ≤ fuel := by
            have := bytes_pos x
            rw [List.length_append] at h
            omega
          rw [List.drop_left]
          obtain ⟨htiles, tail, heq, hstuck⟩ := ih (a := stop x) hrest
          refine ⟨⟨hbase, hbase ▸ Proper.base_lt x, htiles⟩, tail, ?_, hstuck⟩
          rw [encode_cons, List.append_assoc, ← heq]
        case isFalse hbase =>
          refine parses_nil fun y hy hyl => hbase ?_
          rw [eq_of_isPrefix hpre hyl]
          exact hy

theorem parses_parse [Proper α] (a : Nat) (l : List β) : Parses a l (parse a l : List α) :=
  parses_parseFrom le_rfl

theorem Parses.parse_eq [Proper α] {a : Nat} {l : List β} {fs : List α} (h : Parses a l fs) :
    parse a l = fs :=
  (parses_parse a l).unique h

theorem parse_encode [Proper α] {a : Nat} {fs : List α} (h : Tiles a fs) :
    parse a (encode fs) = fs :=
  (parses_encode h).parse_eq

end Extents

/-! ## Lines -/

section Lines

variable [Extent α] (next : α → Nat)

/-- The first frame begins at `a`, and each of the others where `next` puts it. -/
def Line : Nat → List α → Prop
  | _, [] => True
  | a, x :: l => base x = a ∧ Line (next x) l

/-- Where the frame behind the last one is to begin. -/
def lineEnd : Nat → List α → Nat
  | a, [] => a
  | _, x :: l => lineEnd (next x) l

/-- Every stream begins with a line that does not go on. -/
theorem exists_line (a : Nat) (l : List β) :
    ∃ (fs : List α) (rest : List β), l = encode fs ++ rest ∧ Line next a fs ∧
      Stuck α (lineEnd next a fs) rest := by
  induction hn : l.length using Nat.strong_induction_on generalizing a l with
  | _ n ih =>
      by_cases hstuck : Stuck α a l
      · exact ⟨[], l, rfl, trivial, hstuck⟩
      · unfold Stuck at hstuck
        push Not at hstuck
        obtain ⟨x, hbase, rest, rfl⟩ := hstuck
        have hpos := bytes_pos x
        rw [List.length_append] at hn
        obtain ⟨fs, tail, rfl, hline, htail⟩ := ih rest.length (by omega) (next x) rest rfl
        refine ⟨x :: fs, tail, ?_, ⟨hbase, hline⟩, htail⟩
        rw [encode_cons, List.append_assoc]

variable {next}

/-- A line at the head of a stream is part of the one that does not go on. -/
theorem Line.isPrefix_of_encode {a : Nat} {fs gs : List α} {rest : List β}
    (hstuck : Stuck α (lineEnd next a fs) rest) (hg : Line next a gs)
    (hgl : encode gs <+: encode fs ++ rest) : gs <+: fs := by
  induction gs generalizing a fs with
  | nil => exact List.nil_prefix
  | cons y gs ih =>
      obtain ⟨hbase, hgs⟩ := hg
      rw [encode_cons] at hgl
      have hy : bytes y <+: encode fs ++ rest := (List.prefix_append _ _).trans hgl
      cases fs with
      | nil => exact absurd hy (hstuck y hbase)
      | cons x fs =>
          obtain rfl : x = y := by
            apply eq_of_isPrefix _ hy
            rw [encode_cons, List.append_assoc]
            exact List.prefix_append _ _
          rw [encode_cons, List.append_assoc, List.prefix_append_right_inj] at hgl
          exact (List.prefix_cons_inj x).2 (ih hstuck hgs hgl)

end Lines

end LogEngine.Verified.Framing
