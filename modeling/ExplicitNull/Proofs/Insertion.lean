import ExplicitNull.Fix
import ExplicitNull.Proofs.Lossless
import Mathlib.Tactic.Conv

/-!
Putting a piece before the elements of a list at certain positions. A position of the list moves by
the elements that are put in before it, and what lies between two positions moves as a whole. Putting
tokens into a list of tokens puts their text into its text.
-/
namespace ExplicitNull

variable {α : Type}

/-- A list with `piece` before each element whose position is given; it starts at position `i`. -/
def insertAt (piece : List α) (points : List Nat) (i : Nat) : List α → List α
  | [] => []
  | x :: rest =>
    (if i ∈ points then piece else []) ++ x :: insertAt piece points (i + 1) rest

/-- Where a position goes when `k` elements are put in before each of the given positions: it moves
by those put in before an earlier one. -/
def shift (k : Nat) (points : List Nat) (q : Nat) : Nat :=
  q + k * (List.range q).countP fun p => decide (p ∈ points)

theorem shift_zero (k : Nat) (points : List Nat) : shift k points 0 = 0 := rfl

theorem shift_succ (k : Nat) (points : List Nat) (q : Nat) :
    shift k points (q + 1) = shift k points q + (if q ∈ points then k else 0) + 1 := by
  rw [shift, shift, List.range_succ, List.countP_append, Nat.mul_add]
  by_cases hq : q ∈ points <;> simp [hq] <;> omega

theorem shift_succ_of_notMem {k : Nat} {points : List Nat} {q : Nat} (h : q ∉ points) :
    shift k points (q + 1) = shift k points q + 1 := by
  rw [shift_succ, if_neg h, Nat.add_zero]

theorem shift_lt_shift (k : Nat) (points : List Nat) {q r : Nat} (h : q < r) :
    shift k points q < shift k points r := by
  induction r with
  | zero => omega
  | succ r ih =>
    rw [shift_succ]
    rcases Nat.lt_or_ge q r with hqr | hqr
    · have := ih hqr
      omega
    · obtain rfl : q = r := by omega
      omega

theorem shift_le_shift (k : Nat) (points : List Nat) {q r : Nat} (h : q ≤ r) :
    shift k points q ≤ shift k points r := by
  rcases Nat.lt_or_ge q r with hqr | hqr
  · exact Nat.le_of_lt (shift_lt_shift k points hqr)
  · exact Nat.le_of_eq (congrArg (shift k points) (Nat.le_antisymm h hqr))

/-- Positions move alike where nothing is put in between. -/
theorem shift_add_of_free {k : Nat} {points : List Nat} {q n : Nat}
    (h : ∀ j < n, q + j ∉ points) : shift k points (q + n) = shift k points q + n := by
  induction n with
  | zero => rfl
  | succ n ih =>
    rw [← Nat.add_assoc, shift_succ_of_notMem (h n (Nat.lt_succ_self n)),
      ih fun j hj => h j (Nat.lt_succ_of_lt hj), Nat.add_assoc]

theorem shift_lt_shift_iff (k : Nat) (points : List Nat) {q r : Nat} :
    shift k points q < shift k points r ↔ q < r := by
  constructor
  · intro h
    rcases Nat.lt_or_ge q r with hqr | hqr
    · exact hqr
    · have := shift_le_shift k points hqr
      omega
  · exact shift_lt_shift k points

section

variable (piece : List α) (points : List Nat)

@[simp] theorem insertAt_nil (i : Nat) : insertAt piece points i [] = [] := rfl

theorem insertAt_cons_of_mem {i : Nat} (h : i ∈ points) (x : α) (rest : List α) :
    insertAt piece points i (x :: rest) = piece ++ x :: insertAt piece points (i + 1) rest := by
  rw [insertAt, if_pos h]

theorem insertAt_cons_of_notMem {i : Nat} (h : i ∉ points) (x : α) (rest : List α) :
    insertAt piece points i (x :: rest) = x :: insertAt piece points (i + 1) rest := by
  rw [insertAt, if_neg h, List.nil_append]

theorem insertAt_append (i : Nat) (xs ys : List α) :
    insertAt piece points i (xs ++ ys) =
      insertAt piece points i xs ++ insertAt piece points (i + xs.length) ys := by
  induction xs generalizing i with
  | nil => simp
  | cons x xs ih =>
    have hlen : i + 1 + xs.length = i + (xs.length + 1) := by omega
    simp [insertAt, ih, hlen]

theorem length_insertAt (i : Nat) (xs : List α) :
    shift piece.length points i + (insertAt piece points i xs).length =
      shift piece.length points (i + xs.length) := by
  induction xs generalizing i with
  | nil => simp
  | cons x xs ih =>
    have := ih (i + 1)
    rw [shift_succ] at this
    have hlen : i + (x :: xs).length = i + 1 + xs.length := by simp only [List.length_cons]; omega
    rw [hlen, ← this, insertAt]
    split <;> simp only [List.length_append, List.length_cons, List.length_nil] <;> omega

theorem drop_insertAt {n : Nat} {xs : List α} (h : n ≤ xs.length) :
    (insertAt piece points 0 xs).drop (shift piece.length points n) =
      insertAt piece points n (xs.drop n) := by
  have hlen := length_insertAt piece points 0 (xs.take n)
  rw [shift_zero, List.length_take, Nat.min_eq_left h, Nat.zero_add, Nat.zero_add] at hlen
  conv_lhs => rw [← List.take_append_drop n xs, insertAt_append]
  rw [← hlen, List.drop_left, List.length_take, Nat.min_eq_left h, Nat.zero_add]

theorem take_insertAt (i : Nat) {n : Nat} {xs : List α} (h : n ≤ xs.length) :
    (insertAt piece points i xs).take
        (shift piece.length points (i + n) - shift piece.length points i) =
      insertAt piece points i (xs.take n) := by
  have hlen := length_insertAt piece points i (xs.take n)
  rw [List.length_take, Nat.min_eq_left h] at hlen
  have hcount : shift piece.length points (i + n) - shift piece.length points i =
      (insertAt piece points i (xs.take n)).length := by omega
  conv_lhs => rw [← List.take_append_drop n xs, insertAt_append]
  rw [hcount, List.take_left]

end

theorem insertAt_eq_self {piece : List α} {points : List Nat} {i : Nat} {xs : List α}
    (h : ∀ j < xs.length, i + j ∉ points) : insertAt piece points i xs = xs := by
  induction xs generalizing i with
  | nil => rfl
  | cons x xs ih =>
    have hi : i ∉ points := h 0 (by simp)
    rw [insertAt_cons_of_notMem _ _ hi, ih]
    intro j hj
    have := h (j + 1) (by simpa using hj)
    rwa [← Nat.add_assoc, Nat.add_right_comm] at this

theorem insertAt_of_free (piece : List α) {points : List Nat} {i n : Nat} {xs : List α}
    (hn : n ≤ xs.length) (h : ∀ j < n, i + j ∉ points) :
    insertAt piece points i xs = xs.take n ++ insertAt piece points (i + n) (xs.drop n) := by
  have hlen : (xs.take n).length = n := List.length_take_of_le hn
  conv_lhs => rw [← List.take_append_drop n xs]
  rw [insertAt_append, hlen, insertAt_eq_self (by rwa [hlen])]

/-- Putting pieces in and then more of them is putting all in at once: the later positions are those of
the other pieces, moved by the first ones. -/
theorem insertAt_insertAt (piece : List α) {points more later : List Nat}
    (hlater : ∀ r, r ∈ later ↔ ∃ q ∈ more, q ∉ points ∧ shift piece.length points q = r) (i : Nat)
    (xs : List α) :
    insertAt piece later (shift piece.length points i) (insertAt piece points i xs) =
      insertAt piece (points ++ more) i xs := by
  induction xs generalizing i with
  | nil => rfl
  | cons x xs ih =>
    have hrest := ih (i + 1)
    rw [shift_succ] at hrest
    by_cases hi : i ∈ points
    · have hfree : ∀ j ≤ piece.length, shift piece.length points i + j ∉ later := by
        intro j hj hmem
        obtain ⟨q, _, hq, heq⟩ := (hlater _).1 hmem
        rcases Nat.lt_trichotomy q i with hlt | rfl | hlt
        · have := shift_lt_shift piece.length points hlt
          omega
        · exact hq hi
        · have hle := shift_le_shift piece.length points (Nat.succ_le_of_lt hlt)
          rw [Nat.succ_eq_add_one, shift_succ, if_pos hi] at hle
          omega
      rw [if_pos hi] at hrest
      rw [insertAt_cons_of_mem _ _ hi, insertAt_cons_of_mem _ _ (List.mem_append_left _ hi),
        insertAt_append, insertAt_eq_self fun j hj => hfree j (Nat.le_of_lt hj),
        insertAt_cons_of_notMem _ _ (hfree _ (Nat.le_refl _)), hrest]
    · have hiff : shift piece.length points i ∈ later ↔ i ∈ points ++ more := by
        rw [hlater, List.mem_append, or_iff_right hi]
        refine ⟨fun ⟨q, hq, _, heq⟩ => ?_, fun hmem => ⟨i, hmem, hi, rfl⟩⟩
        rcases Nat.lt_trichotomy q i with hlt | rfl | hlt
        · exact absurd heq (Nat.ne_of_lt (shift_lt_shift _ _ hlt))
        · exact hq
        · exact absurd heq.symm (Nat.ne_of_lt (shift_lt_shift _ _ hlt))
      rw [if_neg hi, Nat.add_zero] at hrest
      rw [insertAt_cons_of_notMem _ _ hi, insertAt, insertAt, hrest]
      simp only [hiff]

theorem insertAt_congr {piece : List α} {points points' : List Nat}
    (h : ∀ p, p ∈ points ↔ p ∈ points') (i : Nat) (xs : List α) :
    insertAt piece points i xs = insertAt piece points' i xs := by
  induction xs generalizing i with
  | nil => rfl
  | cons x xs ih =>
    rw [insertAt, insertAt, ih]
    simp only [h]

def Interval.shift (k : Nat) (points : List Nat) (r : Interval) : Interval :=
  ⟨ExplicitNull.shift k points r.start, ExplicitNull.shift k points r.stop⟩

/-- What lies in an interval moves as a whole. -/
theorem slice_insertAt (piece : List α) (points : List Nat) {r : Interval} {xs : List α}
    (hle : r.start ≤ r.stop) (hstop : r.stop ≤ xs.length) :
    (r.shift piece.length points).slice (insertAt piece points 0 xs) =
      insertAt piece points r.start (r.slice xs) := by
  have hsum : r.start + (r.stop - r.start) = r.stop := by omega
  rw [Interval.slice, Interval.slice, Interval.shift]
  dsimp only
  rw [drop_insertAt piece points (by omega : r.start ≤ xs.length)]
  conv_lhs => rw [← hsum]
  rw [take_insertAt piece points r.start (by rw [List.length_drop]; omega)]

theorem source_insertAt (piece : List Token) (points : List Nat) (i : Nat) (ts : List Token) :
    Token.source (insertAt piece points i ts) =
      Fix.insertFrom (Token.source piece) points i ts := by
  induction ts generalizing i with
  | nil => rfl
  | cons t rest ih =>
    by_cases hi : i ∈ points <;> simp [insertAt, Fix.insertFrom, hi, ih]

end ExplicitNull
