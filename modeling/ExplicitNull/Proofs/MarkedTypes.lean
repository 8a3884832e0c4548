import ExplicitNull.Proofs.Settling

/-!
Types that are explicitly nullable already. The nullable mark stands near the variable, while the
type of a parameter is looked for from the left. Modifiers and trivia before the mark are passed
over, so the type is found to begin with the mark and the parameter is left alone. A word of another
kind before the mark, such as the one in `private(set)`, is taken for the start of the type; the
parameter is then a candidate if the text from that word on can be fixed.
-/
namespace ExplicitNull

namespace Candidate

/-- The position of the nullable mark of the name that stands before the variable, back over trivia,
`&` and `...`. -/
def markIndex? (body : List Token) : Option Nat :=
  match variableIndex? body with
  | none => none
  | some v =>
    match (body.take v).reverse.dropWhile Token.followsType with
    | [] => none
    | name :: before =>
      match before.dropWhile Token.isTrivia with
      | [] => none
      | mark :: front =>
        if name.kind = .name ∧ mark.isPunct "?" then some front.length else none

/-- Whether the type is taken to begin before a position and can be fixed as it is taken. -/
def MisreadBefore (body : List Token) (q : Nat) : Prop :=
  ∃ type, locateType body = some type ∧ type.start < q ∧ isFixable (typeText body type) = true

theorem suffix_dropWhile_drop {α : Type} {p : α → Bool} {xs ys : List α} (h : ys <:+ xs) :
    ys.dropWhile p <:+ xs := (List.dropWhile_suffix p).trans h

/-- The mark is a token before the variable. -/
theorem markIndex?_eq_some {body : List Token} {q : Nat} (h : markIndex? body = some q) :
    ∃ v m, variableIndex? body = some v ∧ q < v ∧ body[q]? = some m ∧ m.isPunct "?" := by
  unfold markIndex? at h
  split at h
  · simp at h
  rename_i v hv
  split at h
  · simp at h
  rename_i name before hname
  split at h
  · simp at h
  rename_i mark front hmark
  split at h
  · rename_i hkinds
    obtain rfl := Option.some.inj h
    obtain ⟨t, hvar, _⟩ := variableIndex?_eq_some hv
    have hvlt := (List.getElem?_eq_some_iff.1 hvar).1
    obtain ⟨behind, hbehind⟩ : mark :: front <:+ (body.take v).reverse := by
      have hbefore : before <:+ (body.take v).reverse :=
        (List.suffix_cons name before).trans (hname ▸ List.dropWhile_suffix _)
      exact hmark ▸ suffix_dropWhile_drop hbefore
    have htake : body.take v = front.reverse ++ mark :: behind.reverse := by
      rw [← List.reverse_reverse (body.take v), ← hbehind]
      simp
    have hlen := congrArg List.length htake
    simp only [List.length_take, List.length_append, List.length_reverse,
      List.length_cons] at hlen
    refine ⟨v, mark, hv, by omega, ?_, hkinds.2⟩
    have hget : (body.take v)[front.length]? = some mark := by
      rw [htake, List.getElem?_append_right (by simp)]
      simp
    rwa [List.getElem?_take, if_pos (by omega)] at hget
  · simp at h

/-- The type is taken to begin with the mark or before it. -/
theorem exists_locateType_of_mark {body : List Token} {v q : Nat} {m : Token}
    (hv : variableIndex? body = some v) (hq : q < v) (hm : body[q]? = some m)
    (hmark : m.isPunct "?") : ∃ type, locateType body = some type ∧ type.start ≤ q := by
  obtain ⟨hkind, htext⟩ := Token.isPunct_iff.1 hmark
  have hstarts : startsType m = true := by simp [startsType, Token.isTrivia, hkind, htext]
  have hget : (body.take v)[q]? = some m := by rw [List.getElem?_take, if_pos hq, hm]
  obtain ⟨hlt, rfl⟩ := List.getElem?_eq_some_iff.1 hget
  rcases hfind : (body.take v).findIdx? startsType with _ | start
  · rw [List.findIdx?_eq_none_iff.1 hfind _ (List.getElem_mem hlt)] at hstarts
    cases hstarts
  · refine ⟨_, by rw [locateType, hv]; dsimp only; rw [hfind]; rfl, ?_⟩
    obtain ⟨_, _, hfirst⟩ := List.findIdx?_eq_some_iff_getElem.1 hfind
    by_contra hlater
    exact hfirst q (by simpa using hlater) hstarts

/-- A type that begins with the mark is not fixed. -/
theorem not_isFixable_of_mark {body : List Token} {type : Interval} {m : Token}
    (hlocate : locateType body = some type) (hm : body[type.start]? = some m)
    (hmark : m.isPunct "?") : isFixable (typeText body type) = false := by
  obtain ⟨front, first, behind, hat, rfl⟩ := exists_typeAt hlocate
  have hfirst : first = m := by
    rw [hat.body_eq, List.getElem?_append_right (Nat.le_refl _)] at hm
    simpa using hm
  subst hfirst
  obtain ⟨kind, text⟩ := first
  obtain ⟨hkind, htext⟩ := Token.isPunct_iff.1 hmark
  dsimp only at hkind htext
  subst hkind htext
  rw [typeText_of_typeAt hat, hat.typeRun_eq]
  exact not_isFixable_mark _

theorem misreadBefore_of_isFixable {body : List Token} {type : Interval} {q : Nat}
    (hmark : markIndex? body = some q) (hlocate : locateType body = some type)
    (hfix : isFixable (typeText body type) = true) : MisreadBefore body q := by
  obtain ⟨v, m, hv, hq, hm, hpunct⟩ := markIndex?_eq_some hmark
  obtain ⟨type', hlocate', hle⟩ := exists_locateType_of_mark hv hq hm hpunct
  obtain rfl : type = type' := Option.some.inj (hlocate.symm.trans hlocate')
  refine ⟨type, hlocate, Nat.lt_of_le_of_ne hle fun heq => ?_, hfix⟩
  subst heq
  simp [not_isFixable_of_mark hlocate hm hpunct] at hfix

/-- Behind modifiers and trivia alone a type is not misread. -/
theorem not_misreadBefore_of_precedesType {body : List Token} {q : Nat}
    (h : ∀ t ∈ body.take q, t.precedesType) : ¬MisreadBefore body q := by
  rintro ⟨type, hlocate, hlt, _⟩
  obtain ⟨v, t, _, _, ht, hstarts, _⟩ := locateType_eq_some hlocate
  have hmem : t ∈ body.take q := by
    refine List.mem_of_getElem? (i := type.start) ?_
    rw [List.getElem?_take, if_pos hlt, ht]
  simp [not_startsType_of_precedesType (h t hmem)] at hstarts

end Candidate

/-- Whether what a plan says about one parameter makes no difference, so that nothing is put in for
it. -/
def Fix.Untouched (src : Bytes) (style : Style) (a : Address) : Prop :=
  ∀ plan plan' : FilePlan, (∀ b, b ≠ a → plan.get? b = plan'.get? b) →
    fixSource src plan style = fixSource src plan' style

theorem Fix.untouched_of_inspect {src : Bytes} {l : ParamList} {k : Nat} {param : Interval}
    (hl : l ∈ parameterLists (tokenize src)) (hparam : l.params[k]? = some param)
    (hnone : Candidate.inspect (tokenize src) param = none) (style : Style) :
    Untouched src style ⟨l.functionIndex, k⟩ := by
  intro plan plan' hagree
  have hplanned : planned plan (tokenize src) = planned plan' (tokenize src) := by
    refine List.filter_congr fun c hc => ?_
    rw [hagree c.address]
    intro haddress
    obtain ⟨l', param', hl', hparam', hinspect⟩ := mem_candidates.1 hc
    obtain ⟨n, hn⟩ := List.getElem?_of_mem hl
    rw [haddress] at hl' hparam'
    dsimp only at hl' hparam'
    rw [functionIndex_of_getElem? hn, hn] at hl'
    obtain rfl := Option.some.inj hl'
    rw [hparam] at hparam'
    obtain rfl := Option.some.inj hparam'
    simp [hnone] at hinspect
  simp only [fixSource, insertionPoints, hplanned]

/-- A parameter whose type has a nullable mark already is left alone, in both styles and whatever is
planned for it, if and only if it fails another check or its type is not misread. -/
theorem untouched_marked_iff (src : Bytes) {l : ParamList} {k q : Nat} {param : Interval}
    (hl : l ∈ parameterLists (tokenize src)) (hparam : l.params[k]? = some param)
    (hmark : Candidate.markIndex?
      ((Signature.splitLeading (tokenize src) param).body.slice (tokenize src)) = some q) :
    (Candidate.inspect (tokenize src) param = none ∧
      ∀ style, Fix.Untouched src style ⟨l.functionIndex, k⟩) ↔
    ((Signature.splitLeading (tokenize src) param).hasAttribute = true ∨
      Candidate.hasNullDefault
        ((Signature.splitLeading (tokenize src) param).body.slice (tokenize src)) = false ∨
      ¬Candidate.MisreadBefore
        ((Signature.splitLeading (tokenize src) param).body.slice (tokenize src)) q) := by
  constructor
  · rintro ⟨hnone, _⟩
    by_contra hchecks
    simp only [not_or, Bool.not_eq_true, Bool.not_eq_false, not_not] at hchecks
    obtain ⟨hattr, hnull, type, hlocate, _, hfix⟩ := hchecks
    have haccepts : Candidate.Accepts (tokenize src) param ⟨_, type, _⟩ :=
      ⟨rfl, hattr, hnull, hlocate, rfl, hfix⟩
    have hsome := Candidate.inspect_eq_some.2 haccepts
    simp [hnone] at hsome
  · intro hchecks
    have hnone : Candidate.inspect (tokenize src) param = none := by
      rcases hinspect : Candidate.inspect (tokenize src) param with _ | f
      · rfl
      obtain ⟨hregions, hattr, hnull, hlocate, hname, hfix⟩ := Candidate.inspect_eq_some.1 hinspect
      rw [hregions] at hattr hnull hlocate hname
      rw [hname] at hfix
      have hmisread := Candidate.misreadBefore_of_isFixable hmark hlocate hfix
      simp [hattr, hnull, hmisread] at hchecks
    exact ⟨hnone, Fix.untouched_of_inspect hl hparam hnone⟩

/-- The tokens of `<?php function f(public readonly ?Foo $a = null);`. -/
def promotedSample : List Token :=
  [⟨.openTag, utf8 "<?php"⟩, ⟨.whitespace, utf8 " "⟩, ⟨.keyword, utf8 "function"⟩,
    ⟨.whitespace, utf8 " "⟩, ⟨.name, utf8 "f"⟩, ⟨.punct, utf8 "("⟩, ⟨.modifier, utf8 "public"⟩,
    ⟨.whitespace, utf8 " "⟩, ⟨.modifier, utf8 "readonly"⟩, ⟨.whitespace, utf8 " "⟩,
    ⟨.punct, utf8 "?"⟩, ⟨.name, utf8 "Foo"⟩, ⟨.whitespace, utf8 " "⟩, ⟨.variableName, utf8 "$a"⟩,
    ⟨.whitespace, utf8 " "⟩, ⟨.punct, utf8 "="⟩, ⟨.whitespace, utf8 " "⟩, ⟨.name, utf8 "null"⟩,
    ⟨.punct, utf8 ")"⟩, ⟨.punct, utf8 ";"⟩]

theorem untouched_promotedSample :
    (⟨0, 5, 18, [⟨6, 18⟩]⟩ : ParamList) ∈ parameterLists (tokenize (Token.source promotedSample)) ∧
      Candidate.inspect (tokenize (Token.source promotedSample)) ⟨6, 18⟩ = none ∧
      ∀ style, Fix.Untouched (Token.source promotedSample) style ⟨0, 0⟩ := by
  have hreads : Lexer.Reads ⟨false, false⟩ promotedSample := by decide
  have htokens : tokenize (Token.source promotedSample) = promotedSample := hreads
  have hlist : (⟨0, 5, 18, [⟨6, 18⟩]⟩ : ParamList) ∈
      parameterLists (tokenize (Token.source promotedSample)) := by
    rw [htokens]
    decide
  refine ⟨hlist, (untouched_marked_iff (k := 0) (q := 4) _ hlist rfl ?_).2 (.inr (.inr ?_))⟩
  · rw [htokens]
    decide
  · rw [htokens]
    exact Candidate.not_misreadBefore_of_precedesType (by decide)

/-- The tokens of `<?php function f(public private(set) ?Foo $a = null);`. -/
def setVisibilitySample : List Token :=
  [⟨.openTag, utf8 "<?php"⟩, ⟨.whitespace, utf8 " "⟩, ⟨.keyword, utf8 "function"⟩,
    ⟨.whitespace, utf8 " "⟩, ⟨.name, utf8 "f"⟩, ⟨.punct, utf8 "("⟩, ⟨.modifier, utf8 "public"⟩,
    ⟨.whitespace, utf8 " "⟩, ⟨.modifier, utf8 "private"⟩, ⟨.punct, utf8 "("⟩, ⟨.name, utf8 "set"⟩,
    ⟨.punct, utf8 ")"⟩, ⟨.whitespace, utf8 " "⟩, ⟨.punct, utf8 "?"⟩, ⟨.name, utf8 "Foo"⟩,
    ⟨.whitespace, utf8 " "⟩, ⟨.variableName, utf8 "$a"⟩, ⟨.whitespace, utf8 " "⟩,
    ⟨.punct, utf8 "="⟩, ⟨.whitespace, utf8 " "⟩, ⟨.name, utf8 "null"⟩, ⟨.punct, utf8 ")"⟩,
    ⟨.punct, utf8 ";"⟩]

/-- The type of this parameter has a mark, and another one is put in before the `set`. -/
theorem fixSource_setVisibilitySample :
    (⟨0, 5, 21, [⟨6, 21⟩]⟩ : ParamList) ∈
        parameterLists (tokenize (Token.source setVisibilitySample)) ∧
      Candidate.markIndex? (Interval.slice ⟨6, 21⟩ (tokenize (Token.source setVisibilitySample))) =
        some 7 ∧
      Candidate.inspect (tokenize (Token.source setVisibilitySample)) ⟨6, 21⟩ ≠ none ∧
      fixSource (Token.source setVisibilitySample) (FilePlan.ofList [(⟨0, 0⟩, 4)]) .mark =
        utf8 "<?php function f(public private(?set) ?Foo $a = null);" := by
  have hreads : Lexer.Reads ⟨false, false⟩ setVisibilitySample := by decide
  have htokens : tokenize (Token.source setVisibilitySample) = setVisibilitySample := hreads
  rw [fixSource, htokens]
  decide

end ExplicitNull
