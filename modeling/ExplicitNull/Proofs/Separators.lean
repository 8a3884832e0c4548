import ExplicitNull.Proofs.Attributes

/-!
How a stretch of tokens is cut into parameters. The walk along the tokens keeps the number of open
brackets, which is the number of those opened so far less the number of those closed, so it cuts at
the commas that have as many brackets opened as closed before them in the stretch. Between these
commas lie the spans of the stretch, and its parameters are the spans, less the last one if that is
empty.
-/
namespace ExplicitNull

namespace Token

def opensBracket (t : Token) : Bool :=
  t.kind == .attributeOpen || t.isPunct "(" || t.isPunct "[" || t.isPunct "\x7b"

def closesBracket (t : Token) : Bool := t.isPunct ")" || t.isPunct "]" || t.isPunct "\x7d"

def Level (ts : List Token) : Prop := ts.countP opensBracket = ts.countP closesBracket

instance (ts : List Token) : Decidable (Level ts) := inferInstanceAs (Decidable (_ = _))

def comma : Token := ⟨.punct, utf8 ","⟩

theorem isPunct_comma_iff {t : Token} : t.isPunct "," = true ↔ t = comma := by
  rw [isPunct_iff]
  refine ⟨fun h => ?_, fun h => h ▸ ⟨rfl, rfl⟩⟩
  obtain ⟨kind, text⟩ := t
  obtain ⟨rfl, rfl⟩ := h
  rfl

theorem closesBracket_eq_false {t : Token} (h : t.opensBracket = true) :
    t.closesBracket = false := by
  by_contra hcloses
  rw [Bool.not_eq_false] at hcloses
  simp only [opensBracket, closesBracket, isPunct, Bool.or_eq_true, Bool.and_eq_true,
    beq_iff_eq] at h hcloses
  have hkind : t.kind = .punct := by
    rcases hcloses with (h | h) | h <;> exact h.1
  have htext : t.text = utf8 ")" ∨ t.text = utf8 "]" ∨ t.text = utf8 "\x7d" := by
    rcases hcloses with (h | h) | h
    exacts [.inl h.2, .inr (.inl h.2), .inr (.inr h.2)]
  rw [hkind] at h
  rcases htext with htext | htext | htext <;> rw [htext] at h <;> revert h <;> decide

end Token

open Token

/-- A comma of a stretch with as many brackets opened as closed before it in the stretch. -/
def Interval.Separates (inner : Interval) (ts : List Token) (p : Nat) : Prop :=
  inner.Holds p ∧ ts[p]? = some comma ∧ Level (Interval.slice ⟨inner.start, p⟩ ts)

instance (inner : Interval) (ts : List Token) (p : Nat) : Decidable (inner.Separates ts p) :=
  inferInstanceAs (Decidable (_ ∧ _))

namespace Signature

def separators (ts : List Token) (inner : Interval) : List Nat :=
  (List.range' inner.start (inner.stop - inner.start)).filter (inner.Separates ts ·)

def between (start stop : Nat) (ps : List Nat) : List Interval :=
  List.zipWith Interval.mk (start :: ps.map (· + 1)) (ps ++ [stop])

/-- The spans of a stretch, which its separators part. -/
def spans (ts : List Token) (inner : Interval) : List Interval :=
  between inner.start inner.stop (separators ts inner)

variable {ts : List Token} {inner : Interval}

theorem nesting_eq (t : Token) :
    nesting t = (if t.opensBracket then 1 else 0) - (if t.closesBracket then 1 else 0) := by
  have hcases : nesting t = if t.opensBracket then 1 else if t.closesBracket then -1 else 0 := by
    by_cases hkind : t.kind = .attributeOpen
    · simp [nesting, opensBracket, hkind]
    · simp [nesting, opensBracket, closesBracket, hkind]
  rw [hcases]
  by_cases hopens : t.opensBracket = true
  · rw [closesBracket_eq_false hopens, if_pos hopens, if_pos hopens]
    rfl
  · rw [if_neg hopens, if_neg hopens]
    split <;> rfl

def depth (ts : List Token) : Int := ts.countP opensBracket - ts.countP closesBracket

theorem depth_concat (ts : List Token) (t : Token) : depth (ts ++ [t]) = depth ts + nesting t := by
  simp only [depth, nesting_eq, List.countP_append, List.countP_singleton]
  split <;> split <;> push_cast <;> omega

theorem depth_eq_zero_iff {ts : List Token} : depth ts = 0 ↔ Level ts := by
  rw [depth, Level]
  omega

def separatorsFrom (done rest : List Token) (start : Nat) : List Nat :=
  (List.range' (start + done.length) rest.length).filter fun p =>
    (done ++ rest)[p - start]? = some comma ∧ Level ((done ++ rest).take (p - start))

theorem separatorsFrom_cons (done rest : List Token) (t : Token) (start : Nat) :
    separatorsFrom done (t :: rest) start =
      (if t = comma ∧ Level done then [start + done.length] else []) ++
        separatorsFrom (done ++ [t]) rest start := by
  have hpos : start + done.length - start = done.length := Nat.add_sub_cancel_left ..
  have hnext : start + (done ++ [t]).length = start + done.length + 1 := by
    rw [List.length_append, List.length_singleton, Nat.add_assoc]
  have hhead : ((done ++ t :: rest)[done.length]? = some comma ∧
      Level ((done ++ t :: rest).take done.length)) ↔ (t = comma ∧ Level done) := by simp
  rw [separatorsFrom, separatorsFrom, List.length_cons, List.range'_succ, List.filter_cons, hnext,
    List.append_assoc, List.singleton_append, hpos]
  by_cases hsep : t = comma ∧ Level done
  · rw [if_pos (decide_eq_true (hhead.2 hsep)), if_pos hsep]
    rfl
  · rw [if_neg (mt of_decide_eq_true (mt hhead.1 hsep)), if_neg hsep]
    rfl

/-- Cutting where the walk cuts, less an empty last span. -/
def cut (start stop : Nat) : List Nat → List Interval
  | [] => if start < stop then [⟨start, stop⟩] else []
  | p :: ps => ⟨start, p⟩ :: cut (p + 1) stop ps

theorem splitFrom_eq_cut (done rest : List Token) (start first : Nat) :
    splitFrom (depth done) start (first + done.length) rest =
      cut start (first + done.length + rest.length) (separatorsFrom done rest first) := by
  induction rest generalizing done start with
  | nil => rfl
  | cons t rest ih =>
    have hlater := fun start => ih (done ++ [t]) start
    simp only [List.length_append, List.length_singleton, depth_concat] at hlater
    have hcomma : (t.isPunct "," ∧ depth done = 0) ↔ (t = comma ∧ Level done) := by
      rw [isPunct_comma_iff, depth_eq_zero_iff]
    rw [splitFrom, separatorsFrom_cons, List.length_cons]
    by_cases hsep : t = comma ∧ Level done
    · have hnesting : nesting t = 0 := by rw [hsep.1]; decide
      have hlater := hlater (first + done.length + 1)
      rw [if_pos (hcomma.2 hsep), if_pos hsep]
      rw [hnesting, Int.add_zero, ← Nat.add_assoc] at hlater
      rw [hlater, Nat.add_right_comm _ 1, Nat.add_assoc _ _ 1]
      rfl
    · rw [if_neg (mt hcomma.1 hsep), if_neg hsep, List.nil_append, Nat.add_assoc first, hlater]
      congr 1
      omega

theorem separatorsFrom_nil (hle : inner.start ≤ inner.stop) (hstop : inner.stop ≤ ts.length) :
    separatorsFrom [] (inner.slice ts) inner.start = separators ts inner := by
  have hlen : (inner.slice ts).length = inner.stop - inner.start := by
    simp only [Interval.slice, List.length_take, List.length_drop]
    omega
  rw [separatorsFrom, separators, hlen, List.length_nil, Nat.add_zero]
  refine List.filter_congr fun p hp => ?_
  obtain ⟨hfrom, hto⟩ := List.mem_range'_1.1 hp
  have hholds : inner.Holds p := ⟨hfrom, by omega⟩
  have hlt : p - inner.start < inner.stop - inner.start := by omega
  have hget : (inner.slice ts)[p - inner.start]? = ts[p]? := by
    rw [Interval.slice, List.getElem?_take, if_pos hlt, List.getElem?_drop,
      Nat.add_sub_cancel' hfrom]
  have htake : (inner.slice ts).take (p - inner.start) = Interval.slice ⟨inner.start, p⟩ ts := by
    rw [Interval.slice, List.take_take, Nat.min_eq_left (Nat.le_of_lt hlt)]
    rfl
  rw [List.nil_append, decide_eq_decide, hget, htake, Interval.Separates]
  exact ⟨fun h => ⟨hholds, h⟩, And.right⟩

theorem splitParameters_eq_cut (hle : inner.start ≤ inner.stop) (hstop : inner.stop ≤ ts.length) :
    splitParameters ts inner = cut inner.start inner.stop (separators ts inner) := by
  have hlen : (inner.slice ts).length = inner.stop - inner.start := by
    simp only [Interval.slice, List.length_take, List.length_drop]
    omega
  have hcut := splitFrom_eq_cut [] (inner.slice ts) inner.start inner.start
  rw [hlen, separatorsFrom_nil hle hstop, List.length_nil, Nat.add_zero,
    Nat.add_sub_cancel' hle] at hcut
  exact hcut

theorem cut_eq (start stop : Nat) (ps : List Nat) :
    ∃ init last, between start stop ps = init ++ [last] ∧ init.length = ps.length ∧
      cut start stop ps = init ++ if last.start < last.stop then [last] else [] := by
  induction ps generalizing start with
  | nil => exact ⟨[], ⟨start, stop⟩, rfl, rfl, rfl⟩
  | cons p ps ih =>
    obtain ⟨init, last, hbetween, hlen, hcut⟩ := ih (p + 1)
    exact ⟨⟨start, p⟩ :: init, last, by rw [List.cons_append, ← hbetween]; rfl,
      by rw [List.length_cons, hlen, List.length_cons], by rw [cut, hcut, List.cons_append]⟩

/-- The positions lie in a stretch in order, and a comma stands at each. -/
structure Parts (ts : List Token) (start stop : Nat) (ps : List Nat) : Prop where
  sorted : ps.Pairwise (· < ·)
  lower : ∀ p ∈ ps, start ≤ p
  upper : ∀ p ∈ ps, p < stop
  comma : ∀ p ∈ ps, ts[p]? = some comma

theorem parts_separators (ts : List Token) (inner : Interval) :
    Parts ts inner.start inner.stop (separators ts inner) where
  sorted := (List.pairwise_lt_range' 1).filter _
  lower p hp := (of_decide_eq_true (List.mem_filter.1 hp).2).1.1
  upper p hp := (of_decide_eq_true (List.mem_filter.1 hp).2).1.2
  comma p hp := (of_decide_eq_true (List.mem_filter.1 hp).2).2.1

theorem Parts.tail {start stop p : Nat} {ps : List Nat} (h : Parts ts start stop (p :: ps)) :
    Parts ts (p + 1) stop ps where
  sorted := (List.pairwise_cons.1 h.sorted).2
  lower q hq := (List.pairwise_cons.1 h.sorted).1 q hq
  upper q hq := h.upper q (List.mem_cons_of_mem _ hq)
  comma q hq := h.comma q (List.mem_cons_of_mem _ hq)

theorem exists_between_eq_cons (start stop : Nat) (ps : List Nat) :
    ∃ r rs, between start stop ps = r :: rs := by
  cases ps with
  | nil => exact ⟨_, _, rfl⟩
  | cons p ps => exact ⟨_, _, rfl⟩

/-- A stretch is what lies between its commas with single commas between. -/
theorem Parts.slice_eq_intercalate {start stop : Nat} {ps : List Nat} (h : Parts ts start stop ps)
    (hle : start ≤ stop) :
    Interval.slice ⟨start, stop⟩ ts =
      [Token.comma].intercalate ((between start stop ps).map (·.slice ts)) := by
  induction ps generalizing start with
  | nil => exact List.intercalate_singleton.symm
  | cons p ps ih =>
    have hp := h.upper p List.mem_cons_self
    have hfrom := h.lower p List.mem_cons_self
    have hcomma := h.comma p List.mem_cons_self
    have hsplit : Interval.slice ⟨start, stop⟩ ts =
        Interval.slice ⟨start, p⟩ ts ++ Token.comma :: Interval.slice ⟨p + 1, stop⟩ ts := by
      have hdrop : ts.drop p = Token.comma :: ts.drop (p + 1) := by
        obtain ⟨hlt, heq⟩ := List.getElem?_eq_some_iff.1 hcomma
        rw [List.drop_eq_getElem_cons hlt, heq]
      have hlen : stop - start = (p - start) + ((stop - (p + 1)) + 1) := by omega
      simp only [Interval.slice]
      rw [hlen, List.take_add, List.drop_drop, Nat.add_sub_cancel' hfrom, hdrop,
        List.take_succ_cons]
    obtain ⟨r, rs, hrs⟩ := exists_between_eq_cons (p + 1) stop ps
    have hbetween : between start stop (p :: ps) = ⟨start, p⟩ :: between (p + 1) stop ps := rfl
    rw [hsplit, ih h.tail (by omega), hbetween, hrs, List.map_cons, List.map_cons,
      List.map_cons, List.intercalate_cons_cons, List.append_assoc, List.singleton_append]

theorem Parts.bounds {start stop : Nat} {ps : List Nat} (h : Parts ts start stop ps)
    (hle : start ≤ stop) {r : Interval} (hr : r ∈ between start stop ps) :
    start ≤ r.start ∧ r.start ≤ r.stop ∧ r.stop ≤ stop := by
  induction ps generalizing start with
  | nil =>
    obtain rfl := List.mem_singleton.1 hr
    exact ⟨Nat.le_refl _, hle, Nat.le_refl _⟩
  | cons p ps ih =>
    have hp := h.upper p List.mem_cons_self
    have hfrom := h.lower p List.mem_cons_self
    rcases List.mem_cons.1 hr with rfl | hr
    · exact ⟨Nat.le_refl _, hfrom, Nat.le_of_lt hp⟩
    · obtain ⟨hlower, hupper⟩ := ih h.tail hp hr
      exact ⟨by omega, hupper⟩

end Signature

/-- Leaving out an empty last part leaves its comma, unless it is the only part. -/
theorem intercalate_concat_nil {α : Type} (x : α) (parts : List (List α)) :
    [x].intercalate (parts ++ [[]]) = [x].intercalate parts ++ if parts = [] then [] else [x] := by
  induction parts with
  | nil => rfl
  | cons part parts ih =>
    cases parts with
    | nil => simp [List.intercalate_cons_cons]
    | cons next parts =>
      rw [List.cons_append, List.cons_append, List.intercalate_cons_cons, ← List.cons_append, ih,
        List.intercalate_cons_cons, List.append_assoc _ _ (ite _ _ _), if_neg (by simp),
        if_neg (by simp)]

open Signature

/-- The separators of a stretch are the commas outside of the brackets that open in it, its spans
are what lies between them, and its parameters are the spans in order, less an empty last one. The
stretch is its parameters with single commas between, and a last comma if there is an empty span
behind a comma at its end. -/
theorem splitParameters_partition {ts : List Token} {inner : Interval}
    (hle : inner.start ≤ inner.stop) (hstop : inner.stop ≤ ts.length) :
    (separators ts inner).Pairwise (· < ·) ∧
      (∀ p, p ∈ separators ts inner ↔ inner.Holds p ∧ ts[p]? = some comma ∧
        (Interval.slice ⟨inner.start, p⟩ ts).countP opensBracket =
          (Interval.slice ⟨inner.start, p⟩ ts).countP closesBracket) ∧
      (∃ kept last,
        spans ts inner = kept ++ [last] ∧ kept.length = (separators ts inner).length ∧
        splitParameters ts inner = kept ++ (if last.start < last.stop then [last] else []) ∧
        inner.slice ts =
          [comma].intercalate ((splitParameters ts inner).map (·.slice ts)) ++
            if kept ≠ [] ∧ last.start = last.stop then [comma] else []) ∧
      (splitParameters ts inner).Pairwise (fun r r' => r.stop < r'.start) ∧
      ∀ r ∈ splitParameters ts inner,
        inner.start ≤ r.start ∧ r.start ≤ r.stop ∧ r.stop ≤ inner.stop := by
  have hparts := parts_separators ts inner
  have hcut := splitParameters_eq_cut hle hstop
  obtain ⟨kept, last, hspans, hlen, hkept⟩ :=
    cut_eq inner.start inner.stop (separators ts inner)
  have hlast := (hparts.bounds hle (r := last) (by rw [hspans]; simp)).2.1
  have hall := hparts.slice_eq_intercalate hle
  rw [hspans, List.map_append, List.map_singleton] at hall
  refine ⟨hparts.sorted, fun p => ?_, ⟨kept, last, hspans, hlen, hcut.trans hkept, ?_⟩,
    pairwise_splitFrom _ (Nat.le_refl _), fun r hr => ?_⟩
  · rw [separators, List.mem_filter, List.mem_range'_1, decide_eq_true_iff]
    refine ⟨And.right, fun h => ⟨?_, h⟩⟩
    have := h.1.1
    have := h.1.2
    omega
  · rw [hcut, hkept]
    by_cases hempty : last.start < last.stop
    · rw [if_pos hempty, if_neg (by omega), List.append_nil, List.map_append, List.map_singleton]
      exact hall
    · have hnil : last.slice ts = [] := by
        simp [Interval.slice, show last.stop - last.start = 0 by omega]
      have heq : last.start = last.stop := by omega
      rw [hnil, intercalate_concat_nil] at hall
      rw [if_neg hempty, List.append_nil]
      simpa [heq, ite_not] using hall
  · have hmem : r ∈ kept ++ [last] := by
      rw [hcut, hkept, List.mem_append] at hr
      rw [List.mem_append]
      refine hr.imp_right fun hr => ?_
      split at hr
      exacts [hr, absurd hr List.not_mem_nil]
    exact hparts.bounds hle (hspans ▸ hmem)

/-- The tokens of `(#[A, B] $a,, $b,)`, without the blanks. -/
def separatedSample : List Token :=
  [⟨.punct, utf8 "("⟩, ⟨.attributeOpen, utf8 "#["⟩, ⟨.name, utf8 "A"⟩, comma, ⟨.name, utf8 "B"⟩,
    ⟨.punct, utf8 "]"⟩, ⟨.variableName, utf8 "$a"⟩, comma, comma, ⟨.variableName, utf8 "$b"⟩, comma,
    ⟨.punct, utf8 ")"⟩]

theorem splitParameters_partition_separatedSample :
    separators separatedSample ⟨1, 11⟩ = [7, 8, 10] ∧
      splitParameters separatedSample ⟨1, 11⟩ = [⟨1, 7⟩, ⟨8, 8⟩, ⟨9, 10⟩] ∧
      Interval.slice ⟨1, 11⟩ separatedSample =
        [comma].intercalate
          ((splitParameters separatedSample ⟨1, 11⟩).map (·.slice separatedSample)) ++ [comma] := by
  have hwithin : 1 ≤ 11 ∧ 11 ≤ separatedSample.length := by decide
  obtain ⟨-, -, ⟨kept, last, hspans, hlen, hsplit, hall⟩, -⟩ :=
    @splitParameters_partition separatedSample ⟨1, 11⟩ hwithin.1 hwithin.2
  have hseparators : separators separatedSample ⟨1, 11⟩ = [7, 8, 10] := by decide
  rw [spans, hseparators] at hspans
  obtain rfl : last = ⟨11, 11⟩ := by simpa [between] using (congrArg List.getLast? hspans).symm
  obtain rfl : kept = [⟨1, 7⟩, ⟨8, 8⟩, ⟨9, 10⟩] := by
    simpa [between] using (congrArg List.dropLast hspans).symm
  exact ⟨hseparators, hsplit, hall⟩

/-- Brackets that close before they open part nothing until they are level again. -/
example :
    splitParameters [⟨.punct, utf8 ")"⟩, comma, ⟨.punct, utf8 "["⟩, comma, ⟨.name, utf8 "A"⟩]
      ⟨0, 5⟩ = [⟨0, 3⟩, ⟨4, 5⟩] := by
  decide

end ExplicitNull
