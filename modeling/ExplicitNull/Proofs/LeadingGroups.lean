import ExplicitNull.Proofs.PlainTypes
import Mathlib.Data.Nat.Find

/-!
What stands in front of the body of a parameter: trivia and groups of attributes. A group ends with
the first token at which as many square brackets are closed as were opened in it, its own `#[`
among them; one that does not end takes the rest of the parameter. This divides each parameter in
one way, and the division is told by the tokens of the parameter alone.
-/
namespace ExplicitNull

namespace Token

def opensSquare (t : Token) : Bool := t.kind == .attributeOpen || t.isPunct "["

def closesSquare (t : Token) : Bool := t.isPunct "]"

def SquaresLevel (ts : List Token) : Prop := ts.countP opensSquare = ts.countP closesSquare

instance (ts : List Token) : Decidable (SquaresLevel ts) := inferInstanceAs (Decidable (_ = _))

end Token

open Token

namespace Signature

/-- A group of attributes from its `#[` to its end. -/
structure Group (g : List Token) : Prop where
  opens : ∃ t ∈ g.head?, t.kind = .attributeOpen
  level : SquaresLevel g
  least : ∀ n, 0 < n → n < g.length → ¬SquaresLevel (g.take n)

/-- A group of attributes that does not end. -/
structure OpenGroup (g : List Token) : Prop where
  opens : ∃ t ∈ g.head?, t.kind = .attributeOpen
  never : ∀ n, 0 < n → n ≤ g.length → ¬SquaresLevel (g.take n)

inductive Leads : (leading body : List Token) → Prop
  | body {body : List Token} (h : ∀ t ∈ body.head?, t.isTrivia = false ∧ t.kind ≠ .attributeOpen) :
      Leads [] body
  | trivia {t : Token} {leading body : List Token} (ht : t.isTrivia) (h : Leads leading body) :
      Leads (t :: leading) body
  | group {g leading body : List Token} (hg : Group g) (h : Leads leading body) :
      Leads (g ++ leading) body
  | unclosed {g : List Token} (hg : OpenGroup g) : Leads g []

end Signature

/-- The parts of a parameter adjoin and make it up. -/
structure Regions.Divides (r : Regions) (ts : List Token) (param : Interval) : Prop where
  leading_start : r.leading.start = param.start
  adjoin : r.leading.stop = r.body.start
  body_stop : r.body.stop = param.stop
  start_le : param.start ≤ r.body.start
  le_stop : r.body.start ≤ param.stop
  leads : Signature.Leads (r.leading.slice ts) (r.body.slice ts)
  hasAttribute_iff : r.hasAttribute = true ↔
    ∃ t ∈ r.leading.slice ts ++ r.body.slice ts, t.kind = .attributeOpen

namespace Signature

def squares (ts : List Token) : Int := ts.countP opensSquare - ts.countP closesSquare

theorem squares_eq_zero_iff {ts : List Token} : squares ts = 0 ↔ SquaresLevel ts := by
  rw [squares, SquaresLevel]
  omega

theorem squares_cons (t : Token) (ts : List Token) :
    squares (t :: ts) =
      (if t.opensSquare then 1 else 0) - (if t.closesSquare then 1 else 0) + squares ts := by
  simp only [squares, List.countP_cons]
  split <;> split <;> push_cast <;> omega

theorem closesSquare_eq_false {t : Token} (h : t.opensSquare = true) : t.closesSquare = false := by
  rw [opensSquare, Bool.or_eq_true, beq_iff_eq, isPunct_iff] at h
  rcases h with hkind | ⟨_, htext⟩
  · exact not_isPunct_of_kind (by simp [hkind]) _
  · rw [closesSquare, isPunct, htext, Bool.and_eq_false_imp]
    intro
    decide

/-- One token of a group, by the number of square brackets open behind it. -/
theorem leadingLength_succ (depth : Nat) (t : Token) (rest : List Token) :
    ∃ next : Nat, (next : Int) = depth + 1 + squares [t] ∧
      leadingLength (depth + 1) (t :: rest) = 1 + leadingLength next rest := by
  have hopens : (t.kind = .attributeOpen ∨ t.isPunct "[") ↔ t.opensSquare = true := by
    rw [opensSquare, Bool.or_eq_true, beq_iff_eq]
  have hnil : squares [] = 0 := rfl
  rw [squares_cons, leadingLength, hnil]
  by_cases h : t.opensSquare = true
  · rw [if_pos (hopens.2 h), if_pos h, closesSquare_eq_false h, if_neg Bool.false_ne_true]
    exact ⟨depth + 2, by omega, rfl⟩
  · rw [if_neg (mt hopens.1 h), if_neg h]
    by_cases hcloses : t.isPunct "]" = true
    · rw [if_pos hcloses, if_pos (show t.closesSquare = true from hcloses)]
      exact ⟨depth, by omega, rfl⟩
    · rw [if_neg hcloses, if_neg (show ¬t.closesSquare = true from hcloses)]
      exact ⟨depth + 1, by omega, rfl⟩

theorem squares_append (ts us : List Token) : squares (ts ++ us) = squares ts + squares us := by
  simp only [squares, List.countP_append]
  push_cast
  omega

/-- A stretch is taken as long as square brackets are open before each of its tokens. -/
theorem leadingLength_append {depth : Nat} {run : List Token}
    (h : ∀ n < run.length, depth + squares (run.take n) ≠ 0) (rest : List Token) :
    ∃ next : Nat, (next : Int) = depth + squares run ∧
      leadingLength depth (run ++ rest) = run.length + leadingLength next rest := by
  induction run generalizing depth with
  | nil => exact ⟨depth, by simp [squares], by simp⟩
  | cons t run ih =>
    have hfirst : (depth : Int) + squares [] ≠ 0 := h 0 (by simp)
    rcases depth with _ | depth
    · simp [squares] at hfirst
    obtain ⟨next, hnext, hstep⟩ := leadingLength_succ depth t (run ++ rest)
    have hcons : ∀ us, squares (t :: us) = squares [t] + squares us :=
      fun us => squares_append [t] us
    have hlater : ∀ n < run.length, next + squares (run.take n) ≠ 0 := by
      intro n hn
      have := h (n + 1) (by simpa using hn)
      rw [List.take_succ_cons, hcons] at this
      push_cast at this
      omega
    obtain ⟨last, hlast, hrun⟩ := ih hlater
    refine ⟨last, ?_, ?_⟩
    · rw [hcons]
      push_cast
      omega
    · rw [List.cons_append, hstep, hrun, List.length_cons]
      omega

/-- A group is taken up to the place where it ends. -/
theorem leadingLength_of_opens {g : List Token} (hopens : ∃ t ∈ g.head?, t.kind = .attributeOpen)
    (h : ∀ n, 0 < n → n < g.length → ¬SquaresLevel (g.take n)) (rest : List Token) :
    ∃ next : Nat, (next : Int) = squares g ∧
      leadingLength 0 (g ++ rest) = g.length + leadingLength next rest := by
  obtain ⟨t, ht, hkind⟩ := hopens
  obtain ⟨run, rfl⟩ := List.head?_eq_some_iff.1 ht
  have htrivia : t.isTrivia = false := by simp [isTrivia, hkind]
  have hopens : t.opensSquare = true := by simp [opensSquare, hkind]
  have hcons : ∀ us, squares (t :: us) = 1 + squares us := by
    intro us
    rw [squares_cons, if_pos hopens, closesSquare_eq_false hopens]
    rfl
  have hrun : ∀ n < run.length, (1 : Nat) + squares (run.take n) ≠ 0 := by
    intro n hn hzero
    refine h (n + 1) (by omega) (by simpa using hn) ?_
    rw [List.take_succ_cons, ← squares_eq_zero_iff, hcons]
    exact hzero
  obtain ⟨next, hnext, htaken⟩ := leadingLength_append hrun rest
  refine ⟨next, by rw [hcons]; exact hnext, ?_⟩
  rw [List.cons_append, leadingLength, if_neg (by simp [htrivia]), if_pos hkind, htaken,
    List.length_cons]
  omega

/-- The leading part of a parameter is as long as it is said to be. -/
theorem Leads.leadingLength_eq {leading body : List Token} (h : Leads leading body) :
    leadingLength 0 (leading ++ body) = leading.length := by
  induction h with
  | @body body h =>
    rcases body with _ | ⟨t, rest⟩
    · rfl
    · obtain ⟨htrivia, hkind⟩ := h t rfl
      rw [List.nil_append, leadingLength, if_neg (by simp [htrivia]), if_neg hkind]
      rfl
  | trivia ht _ ih =>
    rw [List.cons_append, leadingLength, if_pos ht, ih, List.length_cons]
    omega
  | @group g leading body hg _ ih =>
    obtain ⟨next, hnext, htaken⟩ := leadingLength_of_opens hg.opens hg.least (leading ++ body)
    rw [squares_eq_zero_iff.2 hg.level] at hnext
    obtain rfl : next = 0 := by omega
    rw [List.append_assoc, htaken, ih, List.length_append]
  | unclosed hg =>
    obtain ⟨next, _, htaken⟩ := leadingLength_of_opens hg.opens
      (fun n hpos hlt => hg.never n hpos (by omega)) []
    rw [htaken]
    cases next <;> rfl

/-- Behind a `#[` there is the end of its group, or there is none. -/
theorem exists_group {t : Token} (ht : t.kind = .attributeOpen) (rest : List Token) :
    (∃ g more, t :: rest = g ++ more ∧ Group g) ∨ OpenGroup (t :: rest) := by
  by_cases hends : ∃ n, 0 < n ∧ n ≤ (t :: rest).length ∧ SquaresLevel ((t :: rest).take n)
  · obtain ⟨hpos, hle, hlevel⟩ := Nat.find_spec hends
    have hleast : ∀ n < Nat.find hends, 0 < n → ¬SquaresLevel ((t :: rest).take n) :=
      fun n hn hpos hlevel => Nat.find_min hends hn ⟨hpos, by omega, hlevel⟩
    generalize Nat.find hends = n at hpos hle hlevel hleast
    refine .inl ⟨(t :: rest).take n, (t :: rest).drop n, (List.take_append_drop ..).symm, ?_, hlevel,
      fun m hm hlt => ?_⟩
    · obtain ⟨n, rfl⟩ := Nat.exists_eq_succ_of_ne_zero (Nat.ne_of_gt hpos)
      exact ⟨t, rfl, ht⟩
    · rw [List.length_take] at hlt
      rw [List.take_take, Nat.min_eq_left (by omega)]
      exact hleast m (by omega) hm
  · exact .inr ⟨⟨t, rfl, ht⟩, fun n hpos hle hlevel => hends ⟨n, hpos, hle, hlevel⟩⟩

/-- Some tokens always have a leading part and a body. -/
theorem exists_leads (ts : List Token) :
    ∃ leading body, ts = leading ++ body ∧ Leads leading body := by
  rcases ts with _ | ⟨t, rest⟩
  · exact ⟨[], [], rfl, .body (by simp)⟩
  by_cases htrivia : t.isTrivia = true
  · obtain ⟨leading, body, hrest, hleads⟩ := exists_leads rest
    exact ⟨t :: leading, body, by rw [hrest, List.cons_append], .trivia htrivia hleads⟩
  by_cases hkind : t.kind = .attributeOpen
  · rcases exists_group hkind rest with ⟨g, more, hsplit, hgroup⟩ | hopen
    · obtain ⟨u, hu, _⟩ := hgroup.opens
      have hpos : 0 < g.length := List.length_pos_of_mem (List.mem_of_mem_head? hu)
      obtain ⟨leading, body, hmore, hleads⟩ := exists_leads more
      exact ⟨g ++ leading, body, by rw [hsplit, hmore, List.append_assoc], .group hgroup hleads⟩
    · exact ⟨t :: rest, [], (List.append_nil _).symm, .unclosed hopen⟩
  · refine ⟨[], t :: rest, rfl, .body fun u hu => ?_⟩
    obtain rfl : t = u := Option.some.inj hu
    exact ⟨by simpa using htrivia, hkind⟩
termination_by ts.length
decreasing_by
  · exact Nat.lt_succ_self _
  · rw [hsplit, List.length_append]
    omega

theorem leads_leadingLength (ts : List Token) :
    leadingLength 0 ts ≤ ts.length ∧
      Leads (ts.take (leadingLength 0 ts)) (ts.drop (leadingLength 0 ts)) := by
  obtain ⟨leading, body, rfl, hleads⟩ := exists_leads ts
  rw [hleads.leadingLength_eq, List.take_left, List.drop_left, List.length_append]
  exact ⟨Nat.le_add_right .., hleads⟩

end Signature

/-- Two stretches that adjoin are one. -/
theorem Interval.slice_append_slice {α : Type} {start middle stop : Nat} (hstart : start ≤ middle)
    (hstop : middle ≤ stop) (xs : List α) :
    slice ⟨start, middle⟩ xs ++ slice ⟨middle, stop⟩ xs = slice ⟨start, stop⟩ xs := by
  have hsum : stop - start = (middle - start) + (stop - middle) := by omega
  simp only [slice]
  rw [hsum, List.take_add, List.drop_drop, Nat.add_sub_cancel' hstart]

namespace Regions.Divides

variable {r : Regions} {ts : List Token} {param : Interval}

theorem eq (h : r.Divides ts param) :
    r = ⟨⟨param.start, r.body.start⟩, ⟨r.body.start, param.stop⟩, r.hasAttribute⟩ := by
  have hleading : r.leading = ⟨param.start, r.body.start⟩ := by
    rw [← h.leading_start, ← h.adjoin]
  have hbody : r.body = ⟨r.body.start, param.stop⟩ := by
    rw [← h.body_stop]
  rw [← hleading, ← hbody]

theorem slice_append (h : r.Divides ts param) :
    r.leading.slice ts ++ r.body.slice ts = param.slice ts := by
  rw [h.eq]
  exact Interval.slice_append_slice h.start_le h.le_stop ts

/-- Where the body starts, counted from the start of the parameter. -/
theorem body_start (h : r.Divides ts param) (hstop : param.stop ≤ ts.length) :
    r.body.start = param.start + Signature.leadingLength 0 (param.slice ts) := by
  have hlen : (r.leading.slice ts).length = r.body.start - param.start := by
    have := h.le_stop
    rw [Interval.slice, h.leading_start, h.adjoin, List.length_take, List.length_drop]
    omega
  have := h.start_le
  rw [← h.slice_append, h.leads.leadingLength_eq, hlen]
  omega

end Regions.Divides

open Signature

/-- A parameter is divided into its leading part, which is trivia and groups of attributes, and its
body, which is empty or starts with a token that is neither. It has no other such division, and no
token behind its end counts. -/
theorem splitLeading_exact {ts : List Token} {param : Interval} (hle : param.start ≤ param.stop)
    (hstop : param.stop ≤ ts.length) :
    (splitLeading ts param).Divides ts param ∧
      (splitLeading ts param).leading.slice ts ++ (splitLeading ts param).body.slice ts =
        param.slice ts ∧
      (∀ r : Regions, r.Divides ts param → r = splitLeading ts param) ∧
      ∀ us : List Token, us.take param.stop = ts.take param.stop →
        splitLeading us param = splitLeading ts param := by
  have hlen : (param.slice ts).length = param.stop - param.start := by
    rw [Interval.slice, List.length_take, List.length_drop]
    omega
  obtain ⟨hbound, hleads⟩ := leads_leadingLength (param.slice ts)
  have hbody := slice_body ts param
  have hadjoin := Interval.slice_append_slice
    (Nat.le_add_right param.start (leadingLength 0 (param.slice ts)))
    (show _ ≤ param.stop by omega) ts
  have hleading : (splitLeading ts param).leading.slice ts =
      (param.slice ts).take (leadingLength 0 (param.slice ts)) := by
    rw [← List.append_left_inj ((splitLeading ts param).body.slice ts), hbody,
      List.take_append_drop, ← hbody]
    exact hadjoin
  have hdivides : (splitLeading ts param).Divides ts param := by
    refine ⟨rfl, rfl, rfl, Nat.le_add_right .., ?_, ?_, ?_⟩
    · dsimp only [splitLeading]
      omega
    · rw [hleading, hbody]
      exact hleads
    · rw [hleading, hbody, List.take_append_drop]
      simp [splitLeading]
  refine ⟨hdivides, hdivides.slice_append, fun r hr => ?_, fun us hus => ?_⟩
  · have hstart := hr.body_start hstop
    have hattr : r.hasAttribute = (splitLeading ts param).hasAttribute := by
      rw [Bool.eq_iff_iff, hr.hasAttribute_iff, hdivides.hasAttribute_iff, hr.slice_append,
        hdivides.slice_append]
    rw [hr.eq, hstart, hattr]
    rfl
  · have hslice : param.slice us = param.slice ts := by
      rw [Interval.slice, Interval.slice, ← List.drop_take, ← List.drop_take, hus]
    rw [splitLeading, splitLeading, hslice]

/-- The tokens of `(/* c */ #[A([1])]#[B]Foo $a )`. -/
def groupedSample : List Token :=
  [⟨.punct, utf8 "("⟩, ⟨.comment, utf8 "/* c */"⟩, ⟨.whitespace, utf8 " "⟩,
    ⟨.attributeOpen, utf8 "#["⟩, ⟨.name, utf8 "A"⟩, ⟨.punct, utf8 "("⟩, ⟨.punct, utf8 "["⟩,
    ⟨.literal, utf8 "1"⟩, ⟨.punct, utf8 "]"⟩, ⟨.punct, utf8 ")"⟩, ⟨.punct, utf8 "]"⟩,
    ⟨.attributeOpen, utf8 "#["⟩, ⟨.name, utf8 "B"⟩, ⟨.punct, utf8 "]"⟩, ⟨.name, utf8 "Foo"⟩,
    ⟨.whitespace, utf8 " "⟩, ⟨.variableName, utf8 "$a"⟩, ⟨.whitespace, utf8 " "⟩,
    ⟨.punct, utf8 ")"⟩]

theorem splitLeading_exact_groupedSample :
    (1 ≤ 18 ∧ 18 ≤ groupedSample.length) ∧
      splitLeading groupedSample ⟨1, 18⟩ = ⟨⟨1, 14⟩, ⟨14, 18⟩, true⟩ ∧
      Leads (Interval.slice ⟨1, 14⟩ groupedSample) (Interval.slice ⟨14, 18⟩ groupedSample) := by
  have hwithin : 1 ≤ 18 ∧ 18 ≤ groupedSample.length := by decide
  have hsplit : splitLeading groupedSample ⟨1, 18⟩ = ⟨⟨1, 14⟩, ⟨14, 18⟩, true⟩ := by decide
  have hdivides := (@splitLeading_exact groupedSample ⟨1, 18⟩ hwithin.1 hwithin.2).1
  rw [hsplit] at hdivides
  exact ⟨hwithin, hsplit, hdivides.leads⟩

/-- A group that does not end takes the body. -/
example :
    splitLeading [⟨.attributeOpen, utf8 "#["⟩, ⟨.name, utf8 "A"⟩, ⟨.variableName, utf8 "$a"⟩]
      ⟨0, 3⟩ = ⟨⟨0, 3⟩, ⟨3, 3⟩, true⟩ := by
  decide

end ExplicitNull
