import ExplicitNull.Proofs.ExactPatch
import ExplicitNull.Proofs.Relexing

/-!
Parameters that carry an attribute. The parameters of a list lie apart, and the piece of a candidate
goes into its own parameter, so nothing is put into a parameter with an attribute on behalf of its
own list: its text is copied, the arguments of the attribute and the default included. Only the
parameter of another function can lie there with its piece, as that of a closure among the
arguments of the attribute does.
-/
namespace ExplicitNull

namespace Signature

theorem start_le_of_mem_splitFrom {depth : Int} {start i : Nat} {xs : List Token} {r : Interval}
    (hstart : start ≤ i) (h : r ∈ splitFrom depth start i xs) : start ≤ r.start := by
  obtain ⟨_, _, hfrom, _⟩ := mem_splitFrom hstart h
  rcases hfrom with hfrom | ⟨k, t, hfrom, _⟩ <;> omega

/-- Between two parameters there is a comma. -/
theorem pairwise_splitFrom {depth : Int} {start i : Nat} (xs : List Token) (hstart : start ≤ i) :
    (splitFrom depth start i xs).Pairwise fun r r' => r.stop < r'.start := by
  induction xs generalizing depth start i with
  | nil =>
    rw [splitFrom]
    split
    · exact List.pairwise_singleton _ _
    · exact List.Pairwise.nil
  | cons t rest ih =>
    rw [splitFrom]
    split
    · refine List.pairwise_cons.2 ⟨fun r hr => ?_, ih (Nat.le_refl _)⟩
      exact start_le_of_mem_splitFrom (Nat.le_refl _) hr
    · exact ih (by omega)

end Signature

def Interval.Holds (r : Interval) (p : Nat) : Prop := r.start ≤ p ∧ p < r.stop

instance (r : Interval) (p : Nat) : Decidable (r.Holds p) := inferInstanceAs (Decidable (_ ∧ _))

theorem pairwise_params {ts : List Token} {l : ParamList} (hl : l ∈ parameterLists ts) :
    l.params.Pairwise fun r r' => r.stop < r'.start := by
  obtain ⟨_, _, _, _, _, _, _, hparams⟩ := exists_parentheses_of_mem hl
  rw [hparams]
  exact Signature.pairwise_splitFrom _ (Nat.le_refl _)

/-- No two parameters of a list hold the same position. -/
theorem paramIndex_unique {ts : List Token} {l : ParamList} {i j p : Nat} {r r' : Interval}
    (hl : l ∈ parameterLists ts) (hi : l.params[i]? = some r) (hj : l.params[j]? = some r')
    (hp : r.Holds p) (hp' : r'.Holds p) : i = j := by
  obtain ⟨hilt, rfl⟩ := List.getElem?_eq_some_iff.1 hi
  obtain ⟨hjlt, rfl⟩ := List.getElem?_eq_some_iff.1 hj
  have hapart := List.pairwise_iff_getElem.1 (pairwise_params hl)
  rcases Nat.lt_trichotomy i j with hlt | heq | hlt
  · have := hapart i j hilt hjlt hlt
    have := hp.2
    have := hp'.1
    omega
  · exact heq
  · have := hapart j i hjlt hilt hlt
    have := hp.1
    have := hp'.2
    omega

namespace Fix

variable {style : Style} {plan : FilePlan} {ts : List Token}

/-- The piece of a candidate goes into the parameter of its address. -/
theorem exists_param_of_insertionPoint {c : Candidate} {p : Nat} (hc : c ∈ candidates ts)
    (hp : insertionPoint style ts c = some p) :
    ∃ l param, (parameterLists ts)[c.address.functionIndex]? = some l ∧
      l.params[c.address.paramIndex]? = some param ∧
      Candidate.Accepts ts param c.finding ∧ param.Holds p := by
  obtain ⟨l, param, hl, hparam, hinspect⟩ := mem_candidates.1 hc
  have haccepts := Candidate.inspect_eq_some.1 hinspect
  obtain ⟨v, _, hv, hbefore, _⟩ := Candidate.locateType_eq_some haccepts.located
  obtain ⟨_, hvar, _⟩ := Candidate.variableIndex?_eq_some hv
  have hstop := (Interval.getElem?_slice hvar).1
  have hstart : param.start ≤ c.finding.regions.body.start := by
    rw [haccepts.regions_eq]
    exact Nat.le_add_right _ _
  have hend : c.finding.regions.body.stop = param.stop := by rw [haccepts.regions_eq]; rfl
  refine ⟨l, param, hl, hparam, haccepts, ?_⟩
  have hbody : c.body ts = c.finding.regions.body.slice ts := rfl
  cases style with
  | mark =>
    obtain rfl : c.typeIndex = p := Option.some.inj hp
    simp only [Interval.Holds, Candidate.typeIndex]
    omega
  | union =>
    have hlast := typeEnd_bounds (c.body ts) hbefore
    simp only [insertionPoint, hbody, hv] at hp
    rw [hbody] at hlast
    split at hp
    · simp at hp
    · obtain rfl := Option.some.inj hp
      simp only [Interval.Holds]
      omega

/-- Whether the piece of a planned candidate of another list goes into a parameter. -/
def Intrudes (style : Style) (plan : FilePlan) (ts : List Token) (l : ParamList)
    (param : Interval) : Prop :=
  ∃ c ∈ planned plan ts, c.address.functionIndex ≠ l.functionIndex ∧
    ∃ p ∈ insertionPoint style ts c, param.Holds p

instance (style : Style) (plan : FilePlan) (ts : List Token) (l : ParamList) (param : Interval) :
    Decidable (Intrudes style plan ts l param) :=
  inferInstanceAs (Decidable (∃ c ∈ planned plan ts, _ ∧ ∃ p ∈ insertionPoint style ts c, _))

/-- What is put into a parameter with an attribute belongs to another list. -/
theorem intrudes_of_mem {l : ParamList} {param : Interval} {p : Nat}
    (hl : l ∈ parameterLists ts) (hparam : param ∈ l.params)
    (hattr : (param.slice ts).any (·.kind == .attributeOpen) = true)
    (hmem : p ∈ insertionPoints style plan ts) (hp : param.Holds p) :
    Intrudes style plan ts l param := by
  obtain ⟨c, hplanned, hpoint⟩ := List.mem_filterMap.1 hmem
  refine ⟨c, hplanned, fun hsame => ?_, p, hpoint, hp⟩
  obtain ⟨l', param', hl', hparam', haccepts, hp'⟩ :=
    exists_param_of_insertionPoint (List.mem_filter.1 hplanned).1 hpoint
  obtain ⟨n, hn⟩ := List.getElem?_of_mem hl
  obtain ⟨k, hk⟩ := List.getElem?_of_mem hparam
  rw [hsame, functionIndex_of_getElem? hn, hn] at hl'
  obtain rfl := Option.some.inj hl'
  rw [← paramIndex_unique hl hk hparam' hp hp', hk] at hparam'
  obtain rfl := Option.some.inj hparam'
  have hnone := haccepts.noAttribute
  rw [haccepts.regions_eq] at hnone
  simp [Signature.splitLeading, hattr] at hnone

theorem insertFrom_append (piece : Bytes) (points : List Nat) (i : Nat) (ts us : List Token) :
    insertFrom piece points i (ts ++ us) =
      insertFrom piece points i ts ++ insertFrom piece points (i + ts.length) us := by
  induction ts generalizing i with
  | nil => rfl
  | cons t rest ih =>
    have hlen : i + 1 + rest.length = i + (rest.length + 1) := by omega
    rw [List.cons_append, insertFrom, insertFrom, ih, List.length_cons, hlen]
    simp only [List.append_assoc]

theorem insertFrom_eq_source {piece : Bytes} {points : List Nat} {i : Nat} {ts : List Token}
    (h : ∀ j < ts.length, i + j ∉ points) : insertFrom piece points i ts = Token.source ts := by
  induction ts generalizing i with
  | nil => rfl
  | cons t rest ih =>
    have hi : i ∉ points := h 0 (by simp)
    rw [insertFrom, if_neg hi, List.nil_append, Token.source_cons, ih]
    intro j hj
    have := h (j + 1) (by simpa using hj)
    rwa [← Nat.add_assoc, Nat.add_right_comm] at this

/-- A stretch of the source that no piece goes into is copied as it is. -/
theorem insertFrom_eq_of_free {piece : Bytes} {points : List Nat} {r : Interval}
    (hle : r.start ≤ r.stop) (hstop : r.stop ≤ ts.length) (hfree : ∀ p ∈ points, ¬r.Holds p) :
    insertFrom piece points 0 ts =
      insertFrom piece points 0 (ts.take r.start) ++ Token.source (r.slice ts) ++
        insertFrom piece points r.stop (ts.drop r.stop) := by
  have hfront : (ts.take r.start).length = r.start := by
    rw [List.length_take]
    omega
  have hslice : (r.slice ts).length = r.stop - r.start := by
    rw [Interval.slice, List.length_take, List.length_drop]
    omega
  have hbehind : r.start + (r.stop - r.start) = r.stop := by omega
  have hsource : insertFrom piece points r.start (r.slice ts) = Token.source (r.slice ts) := by
    refine insertFrom_eq_source fun j hj hmem => hfree _ hmem ⟨by omega, ?_⟩
    rw [hslice] at hj
    omega
  conv_lhs => rw [Interval.eq_take_slice_drop hle ts]
  rw [insertFrom_append, insertFrom_append, Nat.zero_add, hfront, hslice, hbehind, hsource,
    List.append_assoc]

end Fix

/-- A parameter with an attribute is copied as it is, in either style and whatever is planned, if
and only if no planned candidate of another list has its place in it. -/
theorem attributed_verbatim_iff (src : Bytes) (plan : FilePlan) (style : Style) {l : ParamList}
    {param : Interval} (hl : l ∈ parameterLists (tokenize src)) (hparam : param ∈ l.params)
    (hattr : (param.slice (tokenize src)).any (·.kind == .attributeOpen) = true) :
    ((∀ p ∈ Fix.insertionPoints style plan (tokenize src), ¬param.Holds p) ∧
      fixSource src plan style =
        Fix.insertFrom style.piece (Fix.insertionPoints style plan (tokenize src)) 0
            ((tokenize src).take param.start) ++
          Token.source (param.slice (tokenize src)) ++
          Fix.insertFrom style.piece (Fix.insertionPoints style plan (tokenize src)) param.stop
            ((tokenize src).drop param.stop)) ↔
      ¬Fix.Intrudes style plan (tokenize src) l param := by
  obtain ⟨_, _, u, _, hle, _, _, hu, _⟩ := exists_around_of_mem hl hparam
  have hstop := (List.getElem?_eq_some_iff.1 hu).1
  constructor
  · rintro ⟨hfree, _⟩ ⟨c, hc, _, p, hpoint, hp⟩
    exact hfree p (List.mem_filterMap.2 ⟨c, hc, hpoint⟩) hp
  · intro hnone
    have hfree : ∀ p ∈ Fix.insertionPoints style plan (tokenize src), ¬param.Holds p :=
      fun p hmem hp => hnone (Fix.intrudes_of_mem hl hparam hattr hmem hp)
    exact ⟨hfree, Fix.insertFrom_eq_of_free hle (by omega) hfree⟩

/-- The tokens of `<?php function f(#[A(1)] Foo $a = null, Bar $b = null);`. -/
def attributedSample : List Token :=
  [⟨.openTag, utf8 "<?php"⟩, ⟨.whitespace, utf8 " "⟩, ⟨.keyword, utf8 "function"⟩,
    ⟨.whitespace, utf8 " "⟩, ⟨.name, utf8 "f"⟩, ⟨.punct, utf8 "("⟩, ⟨.attributeOpen, utf8 "#["⟩,
    ⟨.name, utf8 "A"⟩, ⟨.punct, utf8 "("⟩, ⟨.literal, utf8 "1"⟩, ⟨.punct, utf8 ")"⟩,
    ⟨.punct, utf8 "]"⟩, ⟨.whitespace, utf8 " "⟩, ⟨.name, utf8 "Foo"⟩, ⟨.whitespace, utf8 " "⟩,
    ⟨.variableName, utf8 "$a"⟩, ⟨.whitespace, utf8 " "⟩, ⟨.punct, utf8 "="⟩,
    ⟨.whitespace, utf8 " "⟩, ⟨.name, utf8 "null"⟩, ⟨.punct, utf8 ","⟩, ⟨.whitespace, utf8 " "⟩,
    ⟨.name, utf8 "Bar"⟩, ⟨.whitespace, utf8 " "⟩, ⟨.variableName, utf8 "$b"⟩,
    ⟨.whitespace, utf8 " "⟩, ⟨.punct, utf8 "="⟩, ⟨.whitespace, utf8 " "⟩, ⟨.name, utf8 "null"⟩,
    ⟨.punct, utf8 ")"⟩, ⟨.punct, utf8 ";"⟩]

/-- Both parameters are planned, and only the one without an attribute is changed. -/
theorem attributedSample_verbatim :
    (⟨0, 5, 29, [⟨6, 20⟩, ⟨21, 29⟩]⟩ : ParamList) ∈
        parameterLists (tokenize (Token.source attributedSample)) ∧
      fixSource (Token.source attributedSample) (FilePlan.ofList [(⟨0, 0⟩, 0), (⟨0, 1⟩, 0)]) .mark =
        utf8 "<?php function f(" ++ utf8 "#[A(1)] Foo $a = null" ++ utf8 ", ?Bar $b = null);" := by
  have hreads : Lexer.Reads ⟨false, false⟩ attributedSample := by decide
  have htokens : tokenize (Token.source attributedSample) = attributedSample := hreads
  have hlist : (⟨0, 5, 29, [⟨6, 20⟩, ⟨21, 29⟩]⟩ : ParamList) ∈
      parameterLists (tokenize (Token.source attributedSample)) := by
    rw [htokens]
    decide
  refine ⟨hlist, ?_⟩
  have hparam : (⟨6, 20⟩ : Interval) ∈ ([⟨6, 20⟩, ⟨21, 29⟩] : List Interval) := by simp
  have hverbatim := (attributed_verbatim_iff (Token.source attributedSample)
    (FilePlan.ofList [(⟨0, 0⟩, 0), (⟨0, 1⟩, 0)]) .mark hlist hparam (by
      rw [htokens]
      decide)).2 (by
      rw [htokens]
      decide)
  rw [hverbatim.2, htokens]
  decide

/-- The tokens of `<?php function f(#[A(static fn(Foo $x = null) => 1)] $p);`. -/
def closureSample : List Token :=
  [⟨.openTag, utf8 "<?php"⟩, ⟨.whitespace, utf8 " "⟩, ⟨.keyword, utf8 "function"⟩,
    ⟨.whitespace, utf8 " "⟩, ⟨.name, utf8 "f"⟩, ⟨.punct, utf8 "("⟩, ⟨.attributeOpen, utf8 "#["⟩,
    ⟨.name, utf8 "A"⟩, ⟨.punct, utf8 "("⟩, ⟨.modifier, utf8 "static"⟩, ⟨.whitespace, utf8 " "⟩,
    ⟨.keyword, utf8 "fn"⟩, ⟨.punct, utf8 "("⟩, ⟨.name, utf8 "Foo"⟩, ⟨.whitespace, utf8 " "⟩,
    ⟨.variableName, utf8 "$x"⟩, ⟨.whitespace, utf8 " "⟩, ⟨.punct, utf8 "="⟩,
    ⟨.whitespace, utf8 " "⟩, ⟨.name, utf8 "null"⟩, ⟨.punct, utf8 ")"⟩, ⟨.whitespace, utf8 " "⟩,
    ⟨.punct, utf8 "=>"⟩, ⟨.whitespace, utf8 " "⟩, ⟨.literal, utf8 "1"⟩, ⟨.punct, utf8 ")"⟩,
    ⟨.punct, utf8 "]"⟩, ⟨.whitespace, utf8 " "⟩, ⟨.variableName, utf8 "$p"⟩, ⟨.punct, utf8 ")"⟩,
    ⟨.punct, utf8 ";"⟩]

/-- A mark is put into the arguments of an attribute. -/
theorem fixSource_closureSample :
    (⟨0, 5, 29, [⟨6, 29⟩]⟩ : ParamList) ∈ parameterLists (tokenize (Token.source closureSample)) ∧
      (Interval.slice ⟨6, 29⟩ (tokenize (Token.source closureSample))).any
        (·.kind == .attributeOpen) = true ∧
      (∃ p ∈ Fix.insertionPoints .mark (FilePlan.ofList [(⟨1, 0⟩, 0)])
        (tokenize (Token.source closureSample)), Interval.Holds ⟨6, 29⟩ p) ∧
      fixSource (Token.source closureSample) (FilePlan.ofList [(⟨1, 0⟩, 0)]) .mark =
        utf8 "<?php function f(#[A(static fn(?Foo $x = null) => 1)] $p);" := by
  have hreads : Lexer.Reads ⟨false, false⟩ closureSample := by decide
  have htokens : tokenize (Token.source closureSample) = closureSample := hreads
  rw [fixSource, htokens]
  decide

end ExplicitNull
