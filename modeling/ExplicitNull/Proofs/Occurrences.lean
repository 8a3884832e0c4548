import ExplicitNull.Proofs.Attributes
import Mathlib.Data.List.Forall2

/-!
Which functions a source has. A function keyword counts if trivia, an `&`, a name and an opening
parenthesis follow and that parenthesis is closed. The number of open parentheses goes up and down
by one, so between an opening parenthesis and the first place where as many are closed again it
stays above its value before; hence the parentheses of one function lie apart from those of another
or inside of them.
-/
namespace ExplicitNull

namespace Signature

variable {ts : List Token}

/-- What stands between a function keyword and its parenthesis: an `&` and a name, which may both
be left out, and trivia. -/
def Heading (xs : List Token) : Prop :=
  ∃ (a b c : List Token) (reference name : Option Token),
    xs = a ++ (reference.toList ++ (b ++ (name.toList ++ c))) ∧
      (∀ t ∈ a ++ (b ++ c), t.isTrivia) ∧ (∀ t ∈ reference, t.isPunct "&") ∧
      ∀ t ∈ name, t.kind = .name

def Evens (ts : List Token) (first last : Nat) : Prop :=
  (Interval.slice ⟨first, last + 1⟩ ts).countP (·.isPunct "(") =
    (Interval.slice ⟨first, last + 1⟩ ts).countP (·.isPunct ")")

/-- A function whose keyword is at a position, by its parentheses. -/
structure Occurs (ts : List Token) (i opening closing : Nat) : Prop where
  keyword : ∃ t ∈ ts[i]?, t.kind = .keyword
  lt_opening : i < opening
  heading : Heading (Interval.slice ⟨i + 1, opening⟩ ts)
  opens : ∃ t ∈ ts[opening]?, t.isPunct "("
  lt_closing : opening < closing
  closing_lt : closing < ts.length
  evens : Evens ts opening closing
  least : ∀ p, opening < p → p < closing → ¬Evens ts opening p

/-! ### Before the parenthesis -/

theorem skipTrivia_append {a : List Token} (ha : ∀ t ∈ a, t.isTrivia) (xs : List Token) :
    skipTrivia (a ++ xs) = skipTrivia xs :=
  List.dropWhile_append_of_pos ha

theorem skipTrivia_cons {t : Token} (ht : t.isTrivia = false) (xs : List Token) :
    skipTrivia (t :: xs) = t :: xs :=
  List.dropWhile_cons_of_neg (by simp [ht])

theorem exists_skipTrivia (xs : List Token) :
    ∃ a, xs = a ++ skipTrivia xs ∧ ∀ t ∈ a, t.isTrivia :=
  ⟨xs.takeWhile Token.isTrivia, (List.takeWhile_append_dropWhile ..).symm,
    fun _ => List.mem_takeWhile_imp⟩

theorem exists_skipOptional (p : Token → Bool) (xs : List Token) :
    ∃ (o : Option Token) (b : List Token), xs = o.toList ++ (b ++ skipOptional p xs) ∧
      (∀ t ∈ o, p t) ∧ ∀ t ∈ b, t.isTrivia := by
  cases xs with
  | nil => exact ⟨none, [], rfl, by simp, by simp⟩
  | cons t rest =>
    rw [skipOptional]
    split
    · rename_i ht
      obtain ⟨b, hb, htrivia⟩ := exists_skipTrivia rest
      exact ⟨some t, b, by rw [← hb]; rfl, by simpa using ht, htrivia⟩
    · exact ⟨none, [], rfl, by simp, by simp⟩

/-- Skipping takes all that may be left out, when what follows is neither trivia nor optional. -/
theorem skipOptional_skipTrivia {p : Token → Bool} {o : Option Token} {a b xs : List Token}
    (ha : ∀ t ∈ a, t.isTrivia) (ho : ∀ t ∈ o, p t ∧ t.isTrivia = false)
    (hb : ∀ t ∈ b, t.isTrivia) (hhead : ∀ t ∈ (skipTrivia xs).head?, p t = false) :
    skipOptional p (skipTrivia (a ++ (o.toList ++ (b ++ xs)))) = skipTrivia xs := by
  rw [skipTrivia_append ha]
  cases o with
  | none =>
    rw [Option.toList_none, List.nil_append, skipTrivia_append hb]
    rcases hxs : skipTrivia xs with _ | ⟨t, rest⟩
    · rfl
    · have ht : p t = false := hhead t (by rw [hxs]; rfl)
      rw [skipOptional, if_neg (by rw [ht]; decide)]
  | some t =>
    obtain ⟨hp, htrivia⟩ := ho t rfl
    rw [Option.toList_some, List.singleton_append, skipTrivia_cons htrivia, skipOptional,
      if_pos hp, skipTrivia_append hb]

theorem isTrivia_of_isPunct {t : Token} {s : String} (h : t.isPunct s = true) :
    t.isTrivia = false := by
  simp [Token.isTrivia, (Token.isPunct_iff.1 h).1]

theorem isTrivia_of_name {t : Token} (h : t.kind = .name) : t.isTrivia = false := by
  simp [Token.isTrivia, h]

def skipHeading (ts : List Token) : List Token :=
  skipOptional (·.kind == .name) (skipOptional (·.isPunct "&") (skipTrivia ts))

theorem exists_heading (ts : List Token) :
    ∃ pre, ts = pre ++ skipHeading ts ∧ Heading pre := by
  obtain ⟨a, ha, htriviaA⟩ := exists_skipTrivia ts
  obtain ⟨reference, b, hb, hreference, htriviaB⟩ :=
    exists_skipOptional (·.isPunct "&") (skipTrivia ts)
  obtain ⟨name, c, hc, hname, htriviaC⟩ := exists_skipOptional (·.kind == .name)
    (skipOptional (·.isPunct "&") (skipTrivia ts))
  refine ⟨a ++ (reference.toList ++ (b ++ (name.toList ++ c))), ?_,
    a, b, c, reference, name, rfl, ?_, hreference, by simpa using hname⟩
  · simp only [skipHeading, List.append_assoc]
    rw [← hc, ← hb, ← ha]
  · simp only [List.mem_append]
    rintro t (ht | ht | ht)
    exacts [htriviaA t ht, htriviaB t ht, htriviaC t ht]

/-- A parenthesis ends the longest heading. -/
theorem skipHeading_append {pre : List Token} (hpre : Heading pre) {t : Token}
    (ht : t.isPunct "(") (rest : List Token) : skipHeading (pre ++ t :: rest) = t :: rest := by
  obtain ⟨a, b, c, reference, name, rfl, htrivia, hreference, hname⟩ := hpre
  have htriviaA : ∀ t ∈ a, t.isTrivia := fun t ht => htrivia t (by simp [ht])
  have htriviaB : ∀ t ∈ b, t.isTrivia := fun t ht => htrivia t (by simp [ht])
  have htriviaC : ∀ t ∈ c, t.isTrivia := fun t ht => htrivia t (by simp [ht])
  obtain ⟨hkind, htext⟩ := Token.isPunct_iff.1 ht
  have hparenthesis : t.isPunct "&" = false := by
    rw [Token.isPunct, htext, Bool.and_eq_false_imp]
    intro
    decide
  have hrest : skipTrivia (t :: rest) = t :: rest := skipTrivia_cons (isTrivia_of_isPunct ht) rest
  have hreference :=
    @skipOptional_skipTrivia (·.isPunct "&") reference a b (name.toList ++ (c ++ t :: rest))
      htriviaA
      (fun u hu => ⟨hreference u hu, isTrivia_of_isPunct (hreference u hu)⟩) htriviaB (by
        intro u hu
        rcases name with _ | n
        · rw [Option.toList_none, List.nil_append, skipTrivia_append htriviaC, hrest] at hu
          obtain rfl : t = u := Option.some.inj hu
          exact hparenthesis
        · rw [Option.toList_some, List.singleton_append,
            skipTrivia_cons (isTrivia_of_name (hname n rfl))] at hu
          obtain rfl : n = u := Option.some.inj hu
          simp [Token.isPunct, hname n rfl])
  have hname :=
    @skipOptional_skipTrivia (·.kind == .name) name [] c (t :: rest) (by simp)
      (fun u hu => ⟨by simp [hname u hu], isTrivia_of_name (hname u hu)⟩) htriviaC (by
        intro u hu
        rw [hrest] at hu
        obtain rfl : t = u := Option.some.inj hu
        simp [hkind])
  rw [List.nil_append, hrest] at hname
  simp only [skipHeading, List.append_assoc]
  rw [hreference, hname]

theorem fromOpening?_eq_some_iff {rest list : List Token} :
    fromOpening? rest = some list ↔
      ∃ pre, rest = pre ++ list ∧ Heading pre ∧ ∃ t ∈ list.head?, t.isPunct "(" := by
  have hunfold : fromOpening? rest =
      if (skipHeading rest).head?.any (·.isPunct "(") then some (skipHeading rest) else none := rfl
  rw [hunfold]
  constructor
  · intro h
    split at h
    · rename_i hopens
      obtain rfl := Option.some.inj h
      obtain ⟨pre, hpre, hheading⟩ := exists_heading rest
      exact ⟨pre, hpre, hheading, by simpa [Option.any_eq_true] using hopens⟩
    · simp at h
  · rintro ⟨pre, rfl, hheading, t, ht, hopens⟩
    obtain ⟨after, rfl⟩ := List.head?_eq_some_iff.1 ht
    rw [skipHeading_append hheading hopens, if_pos (by simpa using hopens)]

/-! ### The closing parenthesis -/

def rise (t : Token) : Int := (if t.isPunct "(" then 1 else 0) - if t.isPunct ")" then 1 else 0

def height (ts : List Token) (n : Nat) : Int :=
  (ts.take n).countP (·.isPunct "(") - (ts.take n).countP (·.isPunct ")")

theorem height_cons_succ (t : Token) (ts : List Token) (n : Nat) :
    height (t :: ts) (n + 1) = rise t + height ts n := by
  simp only [height, rise, List.take_succ_cons, List.countP_cons]
  split <;> split <;> push_cast <;> omega

theorem height_add (ts : List Token) (n k : Nat) :
    height ts (n + k) = height ts n + height (ts.drop n) k := by
  simp only [height, List.take_add, List.countP_append]
  push_cast
  omega

theorem height_succ {n : Nat} {t : Token} (h : ts[n]? = some t) :
    height ts (n + 1) = height ts n + rise t := by
  obtain ⟨hlt, rfl⟩ := List.getElem?_eq_some_iff.1 h
  rw [height_add, List.drop_eq_getElem_cons hlt, height_cons_succ]
  simp [height]

theorem evens_iff {first last : Nat} (h : first ≤ last + 1) :
    Evens ts first last ↔ height ts (last + 1) = height ts first := by
  have hsplit := height_add ts first (last + 1 - first)
  rw [Nat.add_sub_cancel' h] at hsplit
  rw [hsplit, Evens, Interval.slice, height.eq_def (ts.drop first)]
  dsimp only
  omega

theorem rise_of_opens {t : Token} (h : t.isPunct "(" = true) : rise t = 1 := by
  have hcloses : t.isPunct ")" = false := by
    rw [Token.isPunct, (Token.isPunct_iff.1 h).2, Bool.and_eq_false_imp]
    intro
    decide
  simp [rise, h, hcloses]

theorem rise_le (t : Token) : -1 ≤ rise t ∧ rise t ≤ 1 := by
  rw [rise]
  split <;> split <;> omega

theorem closingOffset?_succ (depth : Nat) (t : Token) (rest : List Token) (hdepth : 1 ≤ depth) :
    closingOffset? depth (t :: rest) =
      if depth + rise t = 0 then some 0
      else (closingOffset? (depth + rise t).toNat rest).map (· + 1) := by
  rw [closingOffset?]
  by_cases hopens : t.isPunct "(" = true
  · rw [if_pos hopens, rise_of_opens hopens, if_neg (by omega)]
    rfl
  · rw [if_neg hopens]
    by_cases hcloses : t.isPunct ")" = true
    · have hrise : rise t = -1 := by simp [rise, hopens, hcloses]
      rw [if_pos hcloses, hrise]
      by_cases hlast : depth ≤ 1
      · rw [if_pos hlast, if_pos (by omega)]
      · rw [if_neg hlast, if_neg (by omega), show ((depth : Int) + -1).toNat = depth - 1 by omega]
    · have hrise : rise t = 0 := by simp [rise, hopens, hcloses]
      rw [if_neg hcloses, hrise, if_neg (by omega), Int.add_zero, Int.toNat_natCast]

/-- The search finds the first place where all parentheses are closed. -/
theorem closingOffset?_eq_some_iff {depth n : Nat} (hdepth : 1 ≤ depth) :
    closingOffset? depth ts = some n ↔
      n < ts.length ∧ depth + height ts (n + 1) = 0 ∧
        ∀ m < n, depth + height ts (m + 1) ≠ 0 := by
  induction ts generalizing depth n with
  | nil => simp [closingOffset?]
  | cons t rest ih =>
    rw [closingOffset?_succ depth t rest hdepth]
    simp only [height_cons_succ, ← Int.add_assoc]
    have hfirst : height rest 0 = 0 := rfl
    by_cases hzero : (depth : Int) + rise t = 0
    · rw [if_pos hzero]
      constructor
      · rintro h
        obtain rfl := Option.some.inj h
        exact ⟨by simp, by omega, by simp⟩
      · rintro ⟨-, -, hleast⟩
        rcases n with _ | n
        · rfl
        · exact absurd (by omega) (hleast 0 (by omega))
    · have hrise := rise_le t
      have hnext : (((depth : Int) + rise t).toNat : Int) = depth + rise t :=
        Int.toNat_of_nonneg (by omega)
      rw [if_neg hzero, Option.map_eq_some_iff]
      constructor
      · rintro ⟨m, hm, rfl⟩
        obtain ⟨hlt, hend, hleast⟩ := (ih (by omega)).1 hm
        rw [hnext] at hend
        refine ⟨by simpa using hlt, hend, fun k hk => ?_⟩
        rcases k with _ | k
        · omega
        · have := hleast k (by omega)
          rwa [hnext] at this
      · rintro ⟨hlt, hend, hleast⟩
        rcases n with _ | n
        · omega
        · refine ⟨n, (ih (by omega)).2 ⟨by simpa using hlt, by rw [hnext]; exact hend, ?_⟩, rfl⟩
          intro m hm
          rw [hnext]
          exact hleast (m + 1) (by omega)

/-- The first position behind an opening parenthesis where as many are closed. -/
theorem closingOffset?_opening_iff {opening closing : Nat} {t : Token} {after : List Token}
    (hdrop : ts.drop opening = t :: after) (ht : t.isPunct "(") :
    (∃ n, closingOffset? 0 (t :: after) = some n ∧ closing = opening + n) ↔
      opening < closing ∧ closing < ts.length ∧ Evens ts opening closing ∧
        ∀ p, opening < p → p < closing → ¬Evens ts opening p := by
  have hlen := congrArg List.length hdrop
  rw [List.length_drop, List.length_cons] at hlen
  have hevens : ∀ m,
      Evens ts opening (opening + (m + 1)) ↔ (1 : Nat) + height after (m + 1) = 0 := by
    intro m
    rw [evens_iff (by omega), show opening + (m + 1) + 1 = opening + (m + 1 + 1) by omega,
      height_add, hdrop, height_cons_succ, rise_of_opens ht]
    omega
  rw [closingOffset?, if_pos ht]
  constructor
  · rintro ⟨n, hn, rfl⟩
    obtain ⟨m, hm, rfl⟩ := Option.map_eq_some_iff.1 hn
    obtain ⟨hlt, hend, hleast⟩ := (closingOffset?_eq_some_iff (Nat.le_refl 1)).1 hm
    refine ⟨by omega, by omega, (hevens m).2 hend, fun p hp hpm => ?_⟩
    obtain ⟨k, rfl⟩ : ∃ k, p = opening + (k + 1) := ⟨p - opening - 1, by omega⟩
    exact mt (hevens k).1 (hleast k (by omega))
  · rintro ⟨hlt, hclosing, hend, hleast⟩
    obtain ⟨m, rfl⟩ : ∃ m, closing = opening + (m + 1) := ⟨closing - opening - 1, by omega⟩
    refine ⟨m + 1, Option.map_eq_some_iff.2 ⟨m, ?_, rfl⟩, rfl⟩
    refine (closingOffset?_eq_some_iff (Nat.le_refl 1)).2 ⟨by omega, (hevens m).1 hend, ?_⟩
    intro k hk
    exact mt (hevens k).2 (hleast (opening + (k + 1)) (by omega) (by omega))

/-! ### All functions -/

theorem parentheses?_eq_some_iff {pre rest : List Token} {k : Token} {opening closing : Nat} :
    (k.kind = .keyword ∧ parentheses? pre.length rest = some (opening, closing)) ↔
      Occurs (pre ++ k :: rest) pre.length opening closing := by
  have hkeyword : (pre ++ k :: rest)[pre.length]? = some k := by simp
  have hbehind : (pre ++ k :: rest).drop (pre.length + 1) = rest := by simp
  rw [parentheses?]
  constructor
  · rintro ⟨hkind, h⟩
    rcases hlist : fromOpening? rest with _ | list
    · simp [hlist] at h
    rw [hlist] at h
    obtain ⟨n, hn, heq⟩ := Option.map_eq_some_iff.1 h
    obtain ⟨hopening, hclosing⟩ := Prod.mk.inj heq
    obtain ⟨heading, hrest, hheading, t, ht, hopens⟩ := fromOpening?_eq_some_iff.1 hlist
    obtain ⟨after, rfl⟩ := List.head?_eq_some_iff.1 ht
    have hpos : opening = pre.length + 1 + heading.length := by
      rw [← hopening, hrest, List.length_append]
      omega
    have hdrop : (pre ++ k :: rest).drop opening = t :: after := by
      rw [hpos, ← List.drop_drop, hbehind, hrest, List.drop_left]
    have hget : (pre ++ k :: rest)[opening]? = some t := by
      rw [← List.head?_drop, hdrop]
      rfl
    rw [hopening] at hclosing
    obtain ⟨hlt, hclosing, hend, hleast⟩ :=
      (closingOffset?_opening_iff hdrop hopens).1 ⟨n, hn, hclosing.symm⟩
    refine ⟨⟨k, hkeyword, hkind⟩, by omega, ?_, ⟨t, hget, hopens⟩, hlt, hclosing, hend, hleast⟩
    have hslice : Interval.slice ⟨pre.length + 1, opening⟩ (pre ++ k :: rest) = heading := by
      rw [Interval.slice, hbehind, hpos, hrest]
      simp
    rw [hslice]
    exact hheading
  · rintro ⟨⟨k', hk', hkind⟩, hlt, hheading, ⟨t, ht, hopens⟩, hbelow, hlength, hend, hleast⟩
    obtain rfl : k = k' := Option.some.inj (hkeyword.symm.trans hk')
    obtain ⟨after, hdrop⟩ : ∃ after, (pre ++ k :: rest).drop opening = t :: after := by
      rw [← List.head?_drop] at ht
      exact List.head?_eq_some_iff.1 ht
    have hrest :
        rest = Interval.slice ⟨pre.length + 1, opening⟩ (pre ++ k :: rest) ++ t :: after := by
      have hjoin := List.take_append_drop (opening - (pre.length + 1)) rest
      have hsum : pre.length + 1 + (opening - (pre.length + 1)) = opening := by omega
      rw [← hdrop, Interval.slice]
      dsimp only
      rw [hbehind, ← hsum, ← List.drop_drop, hbehind, hsum]
      exact hjoin.symm
    have hlist := fromOpening?_eq_some_iff.2 ⟨_, hrest, hheading, t, rfl, hopens⟩
    obtain ⟨n, hn, rfl⟩ :=
      (closingOffset?_opening_iff hdrop hopens).2 ⟨hbelow, hlength, hend, hleast⟩
    have hpos : pre.length + 1 + (rest.length - (t :: after).length) = opening := by
      have hlen := congrArg List.length hdrop
      have := (List.getElem?_eq_some_iff.1 ht).1
      simp only [List.length_drop, List.length_append, List.length_cons] at hlen this ⊢
      omega
    refine ⟨hkind, ?_⟩
    rw [hlist]
    dsimp only
    rw [hn, hpos]
    rfl

def occurrence? (i : Nat) (k : Token) (rest : List Token) : Option (Nat × Nat) :=
  if k.kind = .keyword then parentheses? i rest else none

theorem occurrence?_eq_some_iff {pre rest : List Token} {k : Token} {o : Nat × Nat} :
    occurrence? pre.length k rest = some o ↔ Occurs (pre ++ k :: rest) pre.length o.1 o.2 := by
  rw [← parentheses?_eq_some_iff, occurrence?, Option.ite_none_right_eq_some]

theorem occurrencesFrom_cons (i : Nat) (k : Token) (rest : List Token) :
    occurrencesFrom i (k :: rest) =
      (occurrence? i k rest).toList ++ occurrencesFrom (i + 1) rest := by
  rw [occurrencesFrom, occurrence?]
  split
  · rcases parentheses? i rest with _ | o <;> rfl
  · rfl

/-- The functions are found in the order of their keywords, each once. -/
theorem occurrencesFrom_exact (pre rest : List Token) :
    ∃ keywords : List Nat, keywords.Pairwise (· < ·) ∧
      (∀ i, i ∈ keywords ↔
        pre.length ≤ i ∧ ∃ opening closing, Occurs (pre ++ rest) i opening closing) ∧
      List.Forall₂ (fun i o => Occurs (pre ++ rest) i o.1 o.2) keywords
        (occurrencesFrom pre.length rest) := by
  induction rest generalizing pre with
  | nil =>
    refine ⟨[], List.Pairwise.nil, fun i => ⟨by simp, ?_⟩, List.Forall₂.nil⟩
    rintro ⟨hle, _, _, h⟩
    have hopening := h.lt_opening
    have hclosing := h.lt_closing
    have hlength := h.closing_lt
    rw [List.append_nil] at hlength
    omega
  | cons k rest ih =>
    obtain ⟨keywords, hsorted, hmem, hforall⟩ := ih (pre ++ [k])
    rw [List.append_assoc, List.singleton_append] at hmem hforall
    rw [List.length_append, List.length_singleton] at hmem hforall
    rw [occurrencesFrom_cons]
    rcases hhere : occurrence? pre.length k rest with _ | o
    · refine ⟨keywords, hsorted, fun i => (hmem i).trans ⟨fun h => ⟨by omega, h.2⟩, ?_⟩, hforall⟩
      rintro ⟨hle, opening, closing, h⟩
      have hne : i ≠ pre.length := by
        rintro rfl
        rw [occurrence?_eq_some_iff (o := (opening, closing)).2 h] at hhere
        exact absurd hhere (by simp)
      exact ⟨by omega, opening, closing, h⟩
    · have hoccurs := occurrence?_eq_some_iff.1 hhere
      refine ⟨pre.length :: keywords, List.pairwise_cons.2 ⟨fun i hi => ?_, hsorted⟩, fun i => ?_,
        List.Forall₂.cons hoccurs hforall⟩
      · have := ((hmem i).1 hi).1
        omega
      · rw [List.mem_cons, hmem]
        constructor
        · rintro (rfl | ⟨hle, h⟩)
          exacts [⟨Nat.le_refl _, _, _, hoccurs⟩, ⟨by omega, h⟩]
        · rintro ⟨hle, h⟩
          rcases Nat.eq_or_lt_of_le hle with heq | hlt
          exacts [.inl heq.symm, .inr ⟨hlt, h⟩]

/-! ### Where functions lie -/

namespace Occurs

variable {i j opening closing opening' closing' : Nat}

/-- No function keyword stands between another and its parenthesis. -/
theorem opening_lt_of_lt (h : Occurs ts i opening closing) (h' : Occurs ts j opening' closing')
    (hij : i < j) : opening < opening' := by
  obtain ⟨k, hk, hkind⟩ := h'.keyword
  obtain ⟨t, ht, hopens⟩ := h.opens
  have hne : j ≠ opening := by
    rintro rfl
    obtain rfl : k = t := Option.some.inj (hk.symm.trans ht)
    rw [(Token.isPunct_iff.1 hopens).1] at hkind
    exact absurd hkind (by decide)
  have hlt := h'.lt_opening
  rcases Nat.lt_or_gt_of_ne hne with hbefore | hbehind
  · obtain ⟨a, b, c, reference, name, heq, htrivia, hreference, hname⟩ := h.heading
    have hmem := Interval.mem_slice (r := ⟨i + 1, opening⟩) hij hbefore hk
    rw [heq] at hmem
    simp only [List.mem_append, Option.mem_toList] at hmem htrivia
    have hnot : k.isTrivia = false := by simp [Token.isTrivia, hkind]
    exfalso
    rcases hmem with hmem | hmem | hmem | hmem | hmem
    · exact absurd (htrivia k (.inl hmem)) (by simp [hnot])
    · exact absurd (Token.isPunct_iff.1 (hreference k hmem)).1 (by simp [hkind])
    · exact absurd (htrivia k (.inr (.inl hmem))) (by simp [hnot])
    · exact absurd (hname k hmem) (by simp [hkind])
    · exact absurd (htrivia k (.inr (.inr hmem))) (by simp [hnot])
  · omega

/-- The number of open parentheses behind the opening one of a function, while it does not come
back to the number before it, stays above that number. -/
theorem height_lt (h : Occurs ts i opening closing) {last : Nat}
    (hnot : ∀ p, opening < p → p < last → ¬Evens ts opening p) {p : Nat} (hp : opening < p)
    (hlast : p ≤ last) (hlength : p ≤ ts.length) : height ts opening < height ts p := by
  obtain ⟨t, ht, hopens⟩ := h.opens
  induction p with
  | zero => omega
  | succ p ih =>
    rcases Nat.eq_or_lt_of_le (Nat.le_of_lt_succ hp) with rfl | hlt
    · rw [height_succ ht, rise_of_opens hopens]
      omega
    · have hbelow := ih hlt (by omega) (by omega)
      have hget := List.getElem?_eq_getElem (l := ts) (i := p) (by omega)
      have hrise := rise_le ts[p]
      have hne := mt (evens_iff (by omega)).2 (hnot p hlt (by omega))
      rw [height_succ hget] at hne ⊢
      omega

/-- The parentheses of two functions lie apart, or one pair inside of the other. -/
theorem apart_or_inside (h : Occurs ts i opening closing) (h' : Occurs ts j opening' closing')
    (hlt : opening < opening') : closing < opening' ∨ closing' < closing := by
  by_contra! hboth
  obtain ⟨hreach, hstraddle⟩ := hboth
  have hlength := h.closing_lt
  have hend := (evens_iff (by have := h.lt_closing; omega)).1 h.evens
  have hend' := (evens_iff (by have := h'.lt_closing; omega)).1 h'.evens
  have hinside := h.height_lt h.least hlt hreach (by omega)
  rcases Nat.eq_or_lt_of_le hstraddle with rfl | hlater
  · omega
  · have hnot : ∀ p, opening' < p → p < closing + 1 → ¬Evens ts opening' p :=
      fun p hp hle => h'.least p hp (by omega)
    have habove := h'.height_lt hnot (p := closing + 1) (by omega) (Nat.le_refl _) hlength
    omega

end Occurs

theorem pairwise_of_forall₂ {α β : Type} {R : α → β → Prop} {below : α → α → Prop}
    {S : β → β → Prop} {xs : List α} {ys : List β} (h : List.Forall₂ R xs ys)
    (hxs : xs.Pairwise below)
    (hstep : ∀ x x' y y', R x y → R x' y' → below x x' → S y y') : ys.Pairwise S := by
  obtain ⟨hlen, hget⟩ := List.forall₂_iff_get.1 h
  refine List.pairwise_iff_getElem.2 fun i j hi hj hij => ?_
  exact hstep _ _ _ _ (hget i (by omega) hi) (hget j (by omega) hj)
    (List.pairwise_iff_getElem.1 hxs i j (by omega) (by omega) hij)

end Signature

open Signature

/-- The lists are those of the functions in the order of their keywords, numbered in that order.
Their opening parentheses come in order, two of them lie apart or the later inside of the earlier,
and the parameters of a list lie between its parentheses. -/
theorem parameterLists_exact (ts : List Token) :
    (∃ keywords : List Nat, keywords.Pairwise (· < ·) ∧
      (∀ i, i ∈ keywords ↔ ∃ opening closing, Occurs ts i opening closing) ∧
      List.Forall₂ (fun i l => Occurs ts i l.opening l.closing) keywords (parameterLists ts)) ∧
      (∀ (k : Nat) (l : ParamList), (parameterLists ts)[k]? = some l → l.functionIndex = k) ∧
      (parameterLists ts).Pairwise (fun l l' => l.opening < l'.opening ∧
        (l.closing < l'.opening ∨ l'.closing < l.closing)) ∧
      ∀ l ∈ parameterLists ts, ∀ param ∈ l.params,
        l.opening < param.start ∧ param.start ≤ param.stop ∧ param.stop ≤ l.closing := by
  obtain ⟨keywords, hsorted, hmem, hforall⟩ := occurrencesFrom_exact [] ts
  have hpairs :
      (parameterLists ts).map (fun l => (l.opening, l.closing)) = occurrencesFrom 0 ts := by
    refine List.ext_getElem? fun k => ?_
    rw [List.getElem?_map, parameterLists, List.getElem?_mapIdx]
    rcases (occurrencesFrom 0 ts)[k]? with _ | o <;> rfl
  rw [List.length_nil, ← hpairs, List.forall₂_map_right_iff] at hforall
  refine ⟨⟨keywords, hsorted, fun i => by simpa using hmem i, hforall⟩,
    fun k l => functionIndex_of_getElem?, ?_, fun l hl param hparam => ?_⟩
  · refine pairwise_of_forall₂ hforall hsorted fun i j l l' h h' hij => ?_
    have hlt := h.opening_lt_of_lt h' hij
    exact ⟨hlt, h.apart_or_inside h' hlt⟩
  · obtain ⟨t, u, hlt, -, -, hu, -, hparams⟩ := exists_parentheses_of_mem hl
    have hlength := (List.getElem?_eq_some_iff.1 hu).1
    rw [hparams] at hparam
    obtain ⟨hle, hstop, -⟩ := mem_splitFrom (Nat.le_refl _) hparam
    have hstart := start_le_of_mem_splitFrom (Nat.le_refl _) hparam
    simp only [Interval.slice, List.length_take, List.length_drop] at hstart hstop
    exact ⟨hstart, hle, by omega⟩

end ExplicitNull
