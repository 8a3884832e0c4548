import ExplicitNull.Proofs.Settling
import Mathlib.Data.List.DropRight

/-!
Union parts and the types they are for. The end of a type is found twice: reading on from its first
token, and going back from the variable. Where only trivia, `...` and references lead from the type
to the variable both find the same end, so the part goes directly behind the last token of weight of
the type, unless a name of the type has `null` for its last segment.
-/
namespace ExplicitNull

open Candidate

namespace Candidate

def typeTokens (c : Candidate) (ts : List Token) : List Token := c.finding.type.slice (c.body ts)

def typeStop (c : Candidate) (ts : List Token) : Nat :=
  c.typeIndex + ((c.typeTokens ts).rdropWhile Token.isTrivia).length

/-- Whether the last segment of a name in the type is `null` in any case. -/
def mentionsNull (c : Candidate) (ts : List Token) : Bool := (c.typeTokens ts).any Fix.isNullName

/-- Whether only what may stand between a type and its variable is behind the type. -/
def isFollowed (c : Candidate) (ts : List Token) : Bool :=
  Fix.leadsToVariable ((c.body ts).drop c.finding.type.stop)

/-- A run cut at one of its tokens goes on behind it. -/
theorem typeRun_split {ts : List Token} {n : Nat} {w : Token} (hn : n < (typeRun ts).length)
    (hw : ts[n]? = some w) : typeRun ts = ts.take n ++ w :: typeRun (ts.drop (n + 1)) := by
  induction ts generalizing n with
  | nil => simp at hw
  | cons t rest ih =>
    rw [typeRun] at hn ⊢
    by_cases hends : endsType t rest
    · simp [hends] at hn
    · rw [if_neg hends] at hn ⊢
      cases n with
      | zero =>
        obtain rfl : t = w := Option.some.inj hw
        rfl
      | succ n =>
        rw [ih (by simpa using hn) hw]
        rfl

/-- What may stand between a type and its variable and does not end the type is trivia. -/
theorem isTrivia_of_typeRun_of_leads {ts : List Token} (h : Fix.leadsToVariable ts) :
    ∀ t ∈ typeRun ts, t.isTrivia := by
  induction ts with
  | nil => simp [typeRun]
  | cons u rest ih =>
    rw [typeRun]
    by_cases hends : endsType u rest
    · simp [hends]
    · rw [if_neg hends]
      simp only [endsType, Bool.or_eq_true, not_or, Bool.not_eq_true] at hends
      obtain ⟨⟨⟨hvar, href⟩, hdots⟩, -⟩ := hends
      simp only [Fix.leadsToVariable, Fix.isBetween, hvar, href, hdots, Bool.false_or,
        Bool.or_false, Bool.and_eq_true] at h
      intro t ht
      rcases List.mem_cons.1 ht with rfl | ht
      · exact h.1
      · exact ih h.2 t ht

/-- The tokens of a type are a run that begins with a token that can start a type. -/
structure RunsOn (c : Candidate) (ts : List Token) : Prop where
  tokens_eq : c.typeTokens ts = typeRun ((c.body ts).drop c.finding.type.start)
  start_lt : c.finding.type.start < c.finding.type.stop
  stop_eq : c.finding.type.stop = c.finding.type.start + (c.typeTokens ts).length
  begins : ∃ first ∈ c.typeTokens ts,
    (c.body ts)[c.finding.type.start]? = some first ∧ startsType first
  unsigned : ∀ t ∈ c.typeTokens ts, byte '|' ∉ t.text

theorem runsOn_of_mem {ts : List Token} {c : Candidate} (hc : c ∈ candidates ts) :
    RunsOn c ts := by
  obtain ⟨l, param, _, _, hf⟩ := mem_candidates.1 hc
  have hlocated : locateType (c.body ts) = some c.finding.type := (inspect_eq_some.1 hf).located
  obtain ⟨front, first, behind, hat, htype⟩ := exists_typeAt hlocated
  have hdrop : (c.body ts).drop c.finding.type.start = first :: behind := by
    rw [hat.body_eq, htype, List.drop_left]
  have htokens : c.typeTokens ts = typeRun (first :: behind) := by
    rw [typeTokens, Interval.slice, hdrop, htype, Nat.add_sub_cancel_left, Candidate.typeRun_eq]
  have hstop : c.finding.type.stop = c.finding.type.start + (c.typeTokens ts).length := by
    rw [htokens, length_typeRun, htype]
  refine ⟨by rw [htokens, hdrop], ?_, hstop, ⟨first, ?_, ?_, hat.starts⟩, fun t ht => ?_⟩
  · rw [hstop, htokens, hat.typeRun_eq, List.length_cons]
    omega
  · rw [htokens, hat.typeRun_eq]
    exact List.mem_cons_self ..
  · rw [hat.body_eq, htype]
    simp
  · rw [htokens, hat.typeRun_eq] at ht
    exact (Fix.free_of_signs hf hat t ht).1

end Candidate

theorem rdropWhile_append_cons {α : Type} {p : α → Bool} (xs : List α) {x : α} {ys : List α}
    (hx : ¬p x) (hys : ∀ y ∈ ys, p y) : (xs ++ x :: ys).rdropWhile p = xs ++ [x] := by
  have hreverse : ∀ y ∈ ys.reverse, p y := fun y hy => hys y (List.mem_reverse.1 hy)
  rw [List.rdropWhile, List.reverse_append, List.reverse_cons, List.append_assoc,
    List.dropWhile_append_of_pos hreverse]
  simp [hx]

namespace Fix

variable {ts : List Token} {c : Candidate} {last v : Nat}

/-- The walk back does not stop behind a type from which only what may stand in between leads to the
variable. -/
theorem EndsAt.last_lt_stop (h : EndsAt ts c last v) (hc : c ∈ candidates ts)
    (hfollowed : c.isFollowed ts) : last < c.finding.type.stop := by
  by_contra hle
  have hlt := (runsOn_of_mem hc).start_lt
  obtain ⟨t, ht, hbetween⟩ :=
    isBetween_of_drop h.variable_eq hfollowed (Nat.le_of_not_lt hle) h.last_lt
  exact h.stops (by omega) t ht hbetween

/-- The walk back stops at a token of weight. -/
theorem EndsAt.not_isTrivia (h : EndsAt ts c last v) (hc : c ∈ candidates ts) {w : Token}
    (hw : (c.body ts)[last]? = some w) : w.isTrivia = false := by
  rw [Bool.eq_false_iff]
  intro htrivia
  rcases Nat.eq_or_lt_of_le h.start_le with hstart | hlt
  · obtain ⟨first, _, hfirst, hstarts⟩ := (runsOn_of_mem hc).begins
    rw [hstart] at hfirst
    obtain rfl : first = w := Option.some.inj (hfirst.symm.trans hw)
    simp [startsType, htrivia] at hstarts
  · exact h.stops hlt w hw (by simp [isBetween, htrivia])

/-- Up to where the walk back stops a type ends with a token of weight, and behind that there are only
trivia of it. -/
theorem EndsAt.rdropWhile_typeTokens (h : EndsAt ts c last v) (hc : c ∈ candidates ts)
    (hfollowed : c.isFollowed ts) : (c.typeTokens ts).rdropWhile Token.isTrivia =
      Interval.slice ⟨c.finding.type.start, last + 1⟩ (c.body ts) := by
  have hrun := runsOn_of_mem hc
  have hlt := h.last_lt_stop hc hfollowed
  have hstop := hrun.stop_eq
  obtain ⟨n, hn⟩ := Nat.exists_eq_add_of_le h.start_le
  obtain ⟨w, hw⟩ : ∃ w, (c.body ts)[last]? = some w :=
    ⟨_, List.getElem?_eq_getElem (Nat.lt_trans h.last_lt h.lt_length)⟩
  have hweight := h.not_isTrivia hc hw
  have hcount : last + 1 - c.finding.type.start = n + 1 := by omega
  rw [hn, ← List.getElem?_drop] at hw
  rw [hrun.tokens_eq] at hstop ⊢
  rw [Interval.slice, hcount, List.take_add_one, hw, typeRun_split (by omega) hw, List.drop_drop,
    ← Nat.add_assoc, ← hn]
  exact rdropWhile_append_cons _ (by simp [hweight]) (isTrivia_of_typeRun_of_leads h.leads)

/-- A type whose trailing trivia are left out admits null just if it mentions null. -/
theorem any_admitsNull_rdropWhile (hc : c ∈ candidates ts) :
    ((c.typeTokens ts).rdropWhile Token.isTrivia).any admitsNull = c.mentionsNull ts := by
  have hunsigned := (runsOn_of_mem hc).unsigned
  have hsplit := List.rdropWhile_append_rtakeWhile (p := Token.isTrivia) (l := c.typeTokens ts)
  rw [mentionsNull, Bool.eq_iff_iff, List.any_eq_true, List.any_eq_true]
  constructor
  · rintro ⟨t, ht, hadmits⟩
    have hmem := (List.rdropWhile_prefix Token.isTrivia (c.typeTokens ts)).subset ht
    refine ⟨t, hmem, ?_⟩
    simpa [admitsNull, hunsigned t hmem] using hadmits
  · rintro ⟨t, ht, hnull⟩
    refine ⟨t, ?_, by simp [admitsNull, hnull]⟩
    rw [← hsplit, List.mem_append] at ht
    refine ht.resolve_right fun htrailing => ?_
    have htrivia := List.mem_rtakeWhile_imp htrailing
    simp only [isNullName, Bool.and_eq_true, beq_iff_eq] at hnull
    simp [Token.isTrivia, hnull.1] at htrivia

/-- The union part of a type from which only what may stand in between leads to the variable goes
behind its last token of weight, unless the type mentions null. -/
theorem insertionPoint_union_of_isFollowed (hc : c ∈ candidates ts) (hfollowed : c.isFollowed ts) :
    insertionPoint .union ts c = if c.mentionsNull ts then none else some (c.typeStop ts) := by
  obtain ⟨last, v, h⟩ := exists_endsAt hc
  have hsplit := h.rdropWhile_typeTokens hc hfollowed
  have hstop : c.typeStop ts = c.finding.regions.body.start + last + 1 := by
    have hstart := h.start_le
    have hlast := h.last_lt
    have hlen := h.lt_length
    rw [typeStop, hsplit, typeIndex, Interval.slice, List.length_take, List.length_drop]
    dsimp only
    omega
  rw [h.point_eq, ← hsplit, any_admitsNull_rdropWhile hc, hstop]

/-- The end of a type without its trailing trivia lies in the type and behind its first token. -/
theorem typeStop_bounds (hc : c ∈ candidates ts) : c.typeIndex < c.typeStop ts ∧
    c.typeStop ts ≤ c.finding.regions.body.start + c.finding.type.stop := by
  have hrun := runsOn_of_mem hc
  obtain ⟨first, hmem, _, hstarts⟩ := hrun.begins
  have hne : (c.typeTokens ts).rdropWhile Token.isTrivia ≠ [] := by
    intro hnil
    have htrivia := List.rdropWhile_eq_nil_iff.1 hnil first hmem
    simp [startsType, htrivia] at hstarts
  have hpos := List.length_pos_iff.2 hne
  have hle := (List.rdropWhile_prefix Token.isTrivia (c.typeTokens ts)).length_le
  have hstop := hrun.stop_eq
  rw [typeStop, typeIndex]
  omega

end Fix

/-- Union parts go behind the types that they are for: the fixed text is the source cut at the places of
the planned candidates, with a part at each cut. If only what may stand between a type and its variable
is behind the type, that place is the end of the type without its trailing trivia, and there is none if
and only if the type mentions null. -/
theorem fixSource_union_exact (src : Bytes) (plan : FilePlan) :
    ∃ cuts : List Nat, cuts.Pairwise (· < ·) ∧
      fixSource src plan .union =
        Bytes.joinWith (utf8 "|null") ((cutFrom 0 cuts (tokenize src)).map Token.source) ∧
      (∀ p, p ∈ cuts ↔ ∃ c ∈ Fix.planned plan (tokenize src),
        Fix.insertionPoint .union (tokenize src) c = some p) ∧
      ∀ c ∈ Fix.planned plan (tokenize src), c.isFollowed (tokenize src) →
        Fix.insertionPoint .union (tokenize src) c =
          (if c.mentionsNull (tokenize src) then none else some (c.typeStop (tokenize src))) ∧
        c.typeIndex < c.typeStop (tokenize src) ∧
        c.typeStop (tokenize src) ≤ c.finding.regions.body.start + c.finding.type.stop := by
  have hcuts := Fix.cutsAt_cuts .union plan (tokenize src)
  refine ⟨Fix.cuts .union plan (tokenize src), hcuts.sorted, Fix.insertFrom_eq_joinWith _ _ hcuts,
    fun p => ?_, fun c hc hfollowed => ?_⟩
  · rw [Fix.mem_cuts, Fix.insertionPoints, List.mem_filterMap]
  · have hmem := (List.mem_filter.1 hc).1
    exact ⟨Fix.insertionPoint_union_of_isFollowed hmem hfollowed, Fix.typeStop_bounds hmem⟩

theorem fixSource_union_exact_referenceSample :
    ∃ c ∈ Fix.planned (FilePlan.ofList [(⟨0, 0⟩, 0)]) (tokenize (Token.source referenceSample)),
      c.isFollowed (tokenize (Token.source referenceSample)) ∧
        Fix.insertionPoint .union (tokenize (Token.source referenceSample)) c = some 7 := by
  have hreads : Lexer.Reads ⟨false, false⟩ referenceSample := by decide
  have htokens : tokenize (Token.source referenceSample) = referenceSample := hreads
  obtain ⟨_, _, _, _, hplaces⟩ :=
    fixSource_union_exact (Token.source referenceSample) (FilePlan.ofList [(⟨0, 0⟩, 0)])
  rw [htokens] at hplaces ⊢
  have hplanned : ∃ c ∈ Fix.planned (FilePlan.ofList [(⟨0, 0⟩, 0)]) referenceSample,
      c.isFollowed referenceSample ∧ c.mentionsNull referenceSample = false ∧
        c.typeStop referenceSample = 7 := by
    decide
  obtain ⟨c, hc, hfollowed, hnull, hstop⟩ := hplanned
  refine ⟨c, hc, hfollowed, ?_⟩
  rw [(hplaces c hc hfollowed).1, hnull, hstop]
  rfl

/-- The tokens of `<?php function f(Foo\null $a = null);`. -/
def nullNameSample : List Token :=
  [⟨.openTag, utf8 "<?php"⟩, ⟨.whitespace, utf8 " "⟩, ⟨.keyword, utf8 "function"⟩,
    ⟨.whitespace, utf8 " "⟩, ⟨.name, utf8 "f"⟩, ⟨.punct, utf8 "("⟩, ⟨.name, utf8 "Foo\\null"⟩,
    ⟨.whitespace, utf8 " "⟩, ⟨.variableName, utf8 "$a"⟩, ⟨.whitespace, utf8 " "⟩,
    ⟨.punct, utf8 "="⟩, ⟨.whitespace, utf8 " "⟩, ⟨.name, utf8 "null"⟩, ⟨.punct, utf8 ")"⟩,
    ⟨.punct, utf8 ";"⟩]

/-- This parameter is reported and planned, and no union part is put in for it. -/
theorem fixSource_union_nullNameSample :
    (∃ c ∈ Fix.planned (FilePlan.ofList [(⟨0, 0⟩, 0)]) (tokenize (Token.source nullNameSample)),
      c.address = ⟨0, 0⟩ ∧ c.finding.typeName = utf8 "Foo\\null" ∧
        c.isFollowed (tokenize (Token.source nullNameSample))) ∧
      fixSource (Token.source nullNameSample) (FilePlan.ofList [(⟨0, 0⟩, 0)]) .union =
        Token.source nullNameSample := by
  have hreads : Lexer.Reads ⟨false, false⟩ nullNameSample := by decide
  have htokens : tokenize (Token.source nullNameSample) = nullNameSample := hreads
  rw [fixSource, htokens]
  decide

end ExplicitNull
