import ExplicitNull.Proofs.ExactPatch
import ExplicitNull.Proofs.Reinspection

/-!
Fixing what was fixed. A fixed parameter is no candidate any more and no other becomes one, so once
all issues of a plainly typed source are fixed nothing is left to do, in either style and with any
plan. With union parts this holds unless a `&` stands behind a type that is no reference: the part
then goes behind that `&`, and the type is reported again.
-/
namespace ExplicitNull

open Candidate

namespace Candidate

/-- Whether the last segment of the name that a type begins with is `null` in any case. -/
def namesNull (c : Candidate) (ts : List Token) : Bool :=
  (c.body ts)[c.finding.type.start]?.any Fix.isNullName

/-- A byte of a type that cannot belong to its text without making it one that is not looked for. -/
theorem isFixable_iff {text : Bytes} : isFixable text = true ↔
    text ≠ [] ∧ text.head? ≠ some (byte '?') ∧ byte '|' ∉ text ∧ byte '&' ∉ text ∧
      Bytes.eqIgnoringCase text (utf8 "mixed") = false ∧ isNullWord text = false := by
  simp [isFixable, and_assoc]

theorem mem_source_of_sublist {ts us : List Token} (h : ts.Sublist us) {b : UInt8}
    (hb : b ∈ Token.source ts) : b ∈ Token.source us := by
  obtain ⟨t, ht, hbt⟩ := List.mem_flatMap.1 hb
  exact List.mem_flatMap.2 ⟨t, h.subset ht, hbt⟩

/-- The word `mixed` and the word `null` have neither parentheses nor commas. -/
theorem not_word_of_bar {c : UInt8} (hc : Bars c) {text : Bytes} (h : c ∈ text) :
    Bytes.eqIgnoringCase text (utf8 "mixed") = false ∧ isNullWord text = false := by
  have hwords : ∀ word ∈ [utf8 "mixed", utf8 "null"], Ascii.toLower c ∉ Bytes.toLower word := by
    rcases hc with rfl | rfl <;> decide
  have hne : ∀ text' word, word ∈ [utf8 "mixed", utf8 "null"] → c ∈ text' →
      Bytes.eqIgnoringCase text' word = false := by
    intro text' word hword hmem
    rw [Bytes.eqIgnoringCase, beq_eq_false_iff_ne]
    intro heq
    exact hwords word hword (heq ▸ List.mem_map.2 ⟨c, hmem, rfl⟩)
  refine ⟨hne text _ (by simp) h, ?_⟩
  rw [isNullWord]
  refine hne _ _ (by simp) ?_
  split
  · rename_i hslash
    obtain ⟨rest, rfl⟩ := List.head?_eq_some_iff.1 hslash
    rcases List.mem_cons.1 h with rfl | hmem
    · exact absurd hc (by decide)
    · exact hmem
  · exact h

/-- What comes into a text of a type behind a parenthesis or comma does not make it fixable. -/
theorem isFixable_of_bar {before behind behind' : List Token} {opener : Token}
    (hopens : opener.opensParameter) (hsub : behind.Sublist behind')
    (h : isFixable (Blank.trim (Token.source (before ++ opener :: behind')))) :
    isFixable (Blank.trim (Token.source (before ++ opener :: behind))) := by
  obtain ⟨c, hc, htext⟩ : ∃ c, Bars c ∧ opener.text = [c] := by
    simp only [Token.opensParameter, Bool.or_eq_true, Token.isPunct_iff] at hopens
    rcases hopens with ⟨_, htext⟩ | ⟨_, htext⟩
    · exact ⟨byte '(', .inl rfl, htext⟩
    · exact ⟨byte ',', .inr rfl, htext⟩
  have hvisible : Blank.IsVisible c := by rcases hc with rfl | rfl <;> decide
  have hsource : ∀ behind, Token.source (before ++ opener :: behind) =
      Token.source before ++ c :: Token.source behind := by
    intro behind
    simp [htext]
  have hmem : ∀ b, Blank.IsVisible b →
      b ∈ Blank.trim (Token.source (before ++ opener :: behind)) →
        b ∈ Blank.trim (Token.source (before ++ opener :: behind')) := by
    intro b hb hin
    refine Blank.mem_trim_of_mem hb (mem_source_of_sublist ?_ (Blank.mem_of_mem_trim hin))
    exact (hsub.cons_cons opener).append_left before
  obtain ⟨y, hy⟩ := Blank.trim_append hvisible (Token.source before)
  obtain ⟨w, hw⟩ := hy (Token.source behind)
  obtain ⟨w', hw'⟩ := hy (Token.source behind')
  obtain ⟨_, hhead, hbar, hand, _, _⟩ := isFixable_iff.1 h
  have hin : c ∈ Blank.trim (Token.source (before ++ opener :: behind)) := by
    rw [hsource, hw]
    simp
  refine isFixable_iff.2 ⟨List.ne_nil_of_mem hin, ?_, fun hb => hbar (hmem _ (by decide) hb),
    fun hb => hand (hmem _ (by decide) hb), not_word_of_bar hc hin⟩
  rw [hsource, hw'] at hhead
  rwa [hsource, hw, head?_append_bar c y w w']

theorem not_isFixable_mark (ts : List Token) :
    isFixable (Blank.trim (Token.source (⟨.punct, utf8 "?"⟩ :: ts))) = false := by
  have hvisible : Blank.IsVisible (byte '?') := by decide
  obtain ⟨y, hy⟩ := Blank.trim_append hvisible []
  obtain ⟨w, hw⟩ := hy []
  obtain ⟨w', hw'⟩ := hy (Token.source ts)
  have hshort : Blank.trim (byte '?' :: []) = byte '?' :: [] := by decide
  have hnil : y = [] := by
    have hlen := congrArg List.length (hshort.symm.trans hw)
    rw [← List.length_eq_zero_iff]
    simp only [List.length_append, List.length_cons, List.length_nil] at hlen
    omega
  subst hnil
  rw [Bool.eq_false_iff]
  intro hfix
  have hhead := (isFixable_iff.1 hfix).2.1
  have hsource : Token.source (⟨.punct, utf8 "?"⟩ :: ts) = [] ++ byte '?' :: Token.source ts := rfl
  rw [hsource, hw'] at hhead
  exact hhead rfl

theorem not_isFixable_of_mem {ts : List Token} (h : ⟨.punct, utf8 "|"⟩ ∈ ts) :
    isFixable (Blank.trim (Token.source ts)) = false := by
  rw [Bool.eq_false_iff]
  intro hfix
  refine (isFixable_iff.1 hfix).2.2.1 (Blank.mem_trim_of_mem (by decide) ?_)
  exact List.mem_flatMap.2 ⟨_, h, by decide⟩

/-- The first token of a type does not end it. -/
theorem TypeAt.not_endsType {body front behind : List Token} {first : Token}
    (h : TypeAt body front first behind) (rest : List Token) : endsType first rest = false := by
  have hstarts := h.starts
  have hsigns : ∀ s ∈ ["&", "..."], first.isPunct s = false := by
    intro s hs
    rw [Bool.eq_false_iff]
    intro hp
    obtain ⟨hkind, htext⟩ := Token.isPunct_iff.1 hp
    have hnot : ∀ s ∈ ["&", "..."], utf8 s ≠ utf8 "?" ∧ isPlainWord (utf8 s) = false := by decide
    simp [startsType, hkind, htext, hnot s hs] at hstarts
  have hmodifier : first.kind ≠ .modifier := by
    intro hk
    simp [startsType, hk] at hstarts
  simp [endsType, isReference, h.first_kind, hmodifier, hsigns]

theorem TypeAt.not_precedesType {body front behind : List Token} {first : Token}
    (h : TypeAt body front first behind) : first.precedesType = false := by
  rw [Bool.eq_false_iff]
  intro hprecedes
  have hstarts := h.starts
  simp [not_startsType_of_precedesType hprecedes] at hstarts

theorem TypeAt.not_opensParameter {body front behind : List Token} {first : Token}
    (h : TypeAt body front first behind) : first.opensParameter = false := by
  rw [Bool.eq_false_iff]
  intro hopens
  have hstarts := h.starts
  simp only [Token.opensParameter, Bool.or_eq_true, Token.isPunct_iff] at hopens
  rcases hopens with ⟨hkind, htext⟩ | ⟨hkind, htext⟩ <;>
    simp +decide [startsType, hkind, htext] at hstarts

theorem TypeAt.typeRun_eq {body front behind : List Token} {first : Token}
    (h : TypeAt body front first behind) (rest : List Token) :
    typeRun (first :: rest) = first :: typeRun rest := by
  rw [typeRun, if_neg (by simp [h.not_endsType rest])]

end Candidate

namespace Fix

variable {style : Style} {points : List Nat} {done : List Token} {i : Nat} {tokens : List Token}

theorem any_attributeOpen_insertAt (style : Style) (points : List Nat) (i : Nat)
    (tokens : List Token) :
    (insertAt style.tokens points i tokens).any (·.kind == .attributeOpen) =
      tokens.any (·.kind == .attributeOpen) := by
  have hpiece : ∀ u ∈ style.tokens, u.kind ≠ .attributeOpen := by cases style <;> decide
  rw [Bool.eq_iff_iff, List.any_eq_true, List.any_eq_true]
  constructor
  · rintro ⟨t, ht, hk⟩
    rcases mem_insertAt ht with hmem | hmem
    · exact absurd (eq_of_beq hk) (hpiece t hmem)
    · exact ⟨t, hmem, hk⟩
  · rintro ⟨t, ht, hk⟩
    exact ⟨t, (sublist_insertAt _ _ _ _).subset ht, hk⟩

/-- A parameter does not pass with a mark put in if, when it passes without, the mark is put before
its type. -/
theorem not_passes_insertAt_mark (hunnamed : Unnamed done)
    (h : Sited .mark points done i tokens)
    (hplanned : ∀ front first behind, Passes tokens →
      TypeAt (tokens.dropWhile Token.isTrivia) front first behind →
      i + (tokens.takeWhile Token.isTrivia).length + front.length ∈ points) :
    ¬Passes (insertAt Style.mark.tokens points i tokens) := by
  rintro ⟨hattr, hnull, front', first', behind', hat, hfix⟩
  obtain ⟨done', hbody, hsited, hunnamed'⟩ := dropWhile_trivia_insertAt hunnamed h
  rw [hbody] at hnull hat
  rw [any_attributeOpen_insertAt] at hattr
  rw [hasNullDefault_insertAt hsited] at hnull
  obtain ⟨front, first, behind, done'', hat', hsited', hcase⟩ := typeAt_insertAt hunnamed' hsited hat
  rcases hcase with ⟨_, _, rfl⟩ | ⟨hfree, rfl, rfl⟩
  · rw [hat.typeRun_eq, not_isFixable_mark] at hfix
    cases hfix
  · refine hfree (hplanned front first' behind ⟨hattr, hnull, front, first', behind, hat', ?_⟩ hat')
    have hopened : opened (first' :: done'') = false := by
      simp [opened, hat'.not_opensParameter, hat'.not_precedesType]
    rw [hat'.typeRun_eq] at hfix ⊢
    rcases typeRun_insertAt_mark hsited' hopened with heq |
      ⟨before, opener, more, more', hopens, hrun, hrun', hsub⟩
    · rwa [heq] at hfix
    · rw [hrun', ← List.cons_append] at hfix
      rw [hrun, ← List.cons_append]
      exact isFixable_of_bar hopens hsub hfix

/-- A parameter does not pass with a union part put in if, when it passes without, the part is put
behind the first token of its type. -/
theorem not_passes_insertAt_union (hunnamed : Unnamed done)
    (h : Sited .union points done i tokens)
    (hplanned : ∀ front first behind, Passes tokens →
      TypeAt (tokens.dropWhile Token.isTrivia) front first behind →
      i + (tokens.takeWhile Token.isTrivia).length + front.length + 1 ∈ points) :
    ¬Passes (insertAt Style.union.tokens points i tokens) := by
  rintro ⟨hattr, hnull, front', first', behind', hat, hfix⟩
  obtain ⟨done', hbody, hsited, hunnamed'⟩ := dropWhile_trivia_insertAt hunnamed h
  rw [hbody] at hnull hat
  rw [any_attributeOpen_insertAt] at hattr
  rw [hasNullDefault_insertAt hsited] at hnull
  obtain ⟨front, first, behind, done'', hat', hsited', hcase⟩ := typeAt_insertAt hunnamed' hsited hat
  rcases hcase with ⟨hstyle, _⟩ | ⟨_, rfl, rfl⟩
  · cases hstyle
  have hsign : ⟨.punct, utf8 "|"⟩ ∉
      typeRun (insertAt Style.union.tokens points
        (i + (tokens.takeWhile Token.isTrivia).length + front.length + 1) behind) := by
    intro hmem
    rw [hat.typeRun_eq, not_isFixable_of_mem (List.mem_cons_of_mem _ hmem)] at hfix
    cases hfix
  have heq := (typeRun_insertAt_union hsited').resolve_right hsign
  have hpasses : Passes tokens := by
    refine ⟨hattr, hnull, front, first', behind, hat', ?_⟩
    rwa [hat'.typeRun_eq, heq, ← hat'.typeRun_eq] at hfix
  have hmem := hplanned front first' behind hpasses hat'
  obtain ⟨t, ht, _⟩ := hat'.variable_behind
  obtain ⟨t, rest, rfl⟩ := List.exists_cons_of_ne_nil (List.ne_nil_of_mem ht)
  rw [typeRun_insertAt_cons hsited', if_pos hmem] at hsign
  exact hsign (List.mem_append_left _ (by decide))

/-- A parameter that passes still does with union parts put in if none is put into its type. -/
theorem passes_insertAt_union {front behind : List Token} {first : Token}
    (hunnamed : Unnamed done) (h : Sited .union points done i tokens) (hpasses : Passes tokens)
    (hat : TypeAt (tokens.dropWhile Token.isTrivia) front first behind)
    (hfree : ∀ k ≤ (typeRun behind).length,
      i + (tokens.takeWhile Token.isTrivia).length + front.length + 1 + k ∉ points) :
    Passes (insertAt Style.union.tokens points i tokens) := by
  obtain ⟨hattr, hnull, front', first', behind', hat', hfix⟩ := hpasses
  obtain ⟨rfl, rfl, rfl⟩ : front' = front ∧ first' = first ∧ behind' = behind := by
    have hfront := hat'.dropWhile_eq.1.symm.trans hat.dropWhile_eq.1
    have hcons := hat'.dropWhile_eq.2.symm.trans hat.dropWhile_eq.2
    exact ⟨hfront, List.cons.inj hcons⟩
  obtain ⟨done', hbody, hsited, hunnamed'⟩ := dropWhile_trivia_insertAt hunnamed h
  have hkinds : ∀ t ∈ front', t.kind ≠ .name := by
    intro t ht hk
    have := (hat.front_not t ht).1
    simp [startsType, Token.isTrivia, hk] at this
  rw [hat.body_eq] at hbody hsited hnull
  obtain ⟨hins, hsited', hunnamed''⟩ := insertAt_front hkinds hunnamed' hsited
  have hfirst : i + (tokens.takeWhile Token.isTrivia).length + front'.length ∉ points := by
    intro hmem
    have := (hsited'.1 hmem).1
    simp [hunnamed''.named] at this
  rw [insertAt_cons_of_notMem _ _ hfirst] at hins
  refine ⟨?_, ?_, front', first', _, ⟨hbody.trans hins, hat.front_not, hat.starts, hat.first_kind,
    ?_⟩, ?_⟩
  · rw [any_attributeOpen_insertAt]
    exact hattr
  · rw [hbody, hasNullDefault_insertAt hsited]
    exact hnull
  · obtain ⟨t, ht, hk⟩ := hat.variable_behind
    exact ⟨t, (sublist_insertAt _ _ _ _).subset ht, hk⟩
  · rw [hat.typeRun_eq, typeRun_insertAt_eq_self hsited'.2 hfree, ← hat.typeRun_eq]
    exact hfix

/-- What stands around a parameter lets its pieces be told from its own tokens. -/
theorem sited_param {ts : List Token} {l : ParamList} {param : Interval}
    (h : Sited style points [] 0 ts) (hl : l ∈ parameterLists ts) (hparam : param ∈ l.params) :
    ∃ done, Sited style points done param.start (param.slice ts) ∧ Unnamed done ∧
      param.start ≤ param.stop ∧ param.stop ≤ ts.length := by
  obtain ⟨pre, t, u, post, hts, hstart, hstop, hopens, hcloses⟩ := exists_split_of_mem hl hparam
  have hlen := congrArg List.length hts
  simp only [List.length_append, List.length_cons] at hlen
  rw [hts, ← List.singleton_append, ← List.append_assoc] at h
  have hdrop := h.drop.closed hcloses
  simp only [List.length_append, List.length_singleton, List.reverse_append, List.append_nil,
    List.reverse_singleton, Nat.zero_add, ← hstart] at hdrop
  exact ⟨t :: pre.reverse, hdrop, ⟨[], t, pre.reverse, rfl, hopens, by simp⟩, by omega, by omega⟩

theorem slice_param_insertAt (h : Sited style points [] 0 ts) {l : ParamList} {param : Interval}
    (hl : l ∈ parameterLists ts) (hparam : param ∈ l.params) :
    (param.shift style.tokens.length points).slice (insertAt style.tokens points 0 ts) =
      insertAt style.tokens points param.start (param.slice ts) := by
  obtain ⟨_, _, _, hle, hstop⟩ := sited_param h hl hparam
  exact slice_insertAt _ _ hle hstop

theorem candidates_insertAt_eq_nil_iff {ts : List Token} (h : Sited style points [] 0 ts) :
    candidates (insertAt style.tokens points 0 ts) = [] ↔
      ∀ l ∈ parameterLists ts, ∀ param ∈ l.params,
        ¬Passes (insertAt style.tokens points param.start (param.slice ts)) := by
  rw [candidates_eq_nil_iff, parameterLists_insertAt h]
  constructor
  · intro hnone l hl param hparam
    rw [← slice_param_insertAt h hl hparam]
    exact hnone _ (List.mem_map_of_mem hl) _ (List.mem_map_of_mem hparam)
  · intro hnone l' hl' param' hparam'
    obtain ⟨l, hl, rfl⟩ := List.mem_map.1 hl'
    obtain ⟨param, hparam, rfl⟩ := List.mem_map.1 hparam'
    rw [slice_param_insertAt h hl hparam]
    exact hnone l hl param hparam

/-- Where the body of a parameter and its type lie that the inspection found. -/
theorem cut_of_inspect {ts front behind : List Token} {first : Token} {param : Interval}
    {f : Finding} (hf : inspect ts param = some f)
    (hat : TypeAt ((param.slice ts).dropWhile Token.isTrivia) front first behind) :
    f.regions.body.slice ts = (param.slice ts).dropWhile Token.isTrivia ∧
      f.regions.body.start =
        param.start + ((param.slice ts).takeWhile Token.isTrivia).length ∧
      f.type.start = front.length := by
  have hattr := (exists_inspect_iff.1 ⟨f, hf⟩).1
  obtain ⟨hregions, _, _, hlocated, _, _⟩ := inspect_eq_some.1 hf
  have hbody := Signature.slice_body_of_noAttribute hattr
  rw [hregions, hbody, hat.locateType] at hlocated
  refine ⟨by rw [hregions, hbody], ?_, by rw [← Option.some.inj hlocated]⟩
  rw [hregions, ← Signature.leadingLength_of_noAttribute hattr]
  rfl

/-- A parameter that passes is a candidate. -/
theorem exists_candidate {ts : List Token} {l : ParamList} {param : Interval}
    (hl : l ∈ parameterLists ts) (hparam : param ∈ l.params) (hpasses : Passes (param.slice ts)) :
    ∃ c ∈ candidates ts, inspect ts param = some c.finding := by
  obtain ⟨f, hf⟩ := exists_inspect_iff.2 hpasses
  obtain ⟨n, hn⟩ := List.getElem?_of_mem hl
  obtain ⟨k, hk⟩ := List.getElem?_of_mem hparam
  exact ⟨⟨⟨n, k⟩, f⟩, mem_candidates.2 ⟨l, param, hn, hk, hf⟩, hf⟩

theorem isBetween_of_leadsToVariable {ts : List Token} {j : Nat} {t : Token}
    (h : leadsToVariable ts) (ht : ts[j]? = some t)
    (hbefore : ∀ k ≤ j, ∀ u, ts[k]? = some u → u.kind ≠ .variableName) :
    isBetween t (ts.drop (j + 1)) := by
  induction ts generalizing j with
  | nil => simp at ht
  | cons u rest ih =>
    have hu := hbefore 0 (Nat.zero_le _) u rfl
    simp only [leadsToVariable, Bool.or_eq_true, Bool.and_eq_true, beq_iff_eq, hu,
      false_or] at h
    cases j with
    | zero =>
      obtain rfl : u = t := Option.some.inj ht
      exact h.1
    | succ j => exact ih h.2 ht fun k hk v hv => hbefore (k + 1) (by omega) v hv

/-- No token of a type that is fixed has a union sign or an intersection sign in it. -/
theorem free_of_signs {ts front behind : List Token} {first : Token} {param : Interval}
    {f : Finding} (hf : inspect ts param = some f)
    (hat : TypeAt (f.regions.body.slice ts) front first behind) :
    ∀ t ∈ first :: typeRun behind, byte '|' ∉ t.text ∧ byte '&' ∉ t.text := by
  obtain ⟨_, _, _, hlocated, hname, hfix⟩ := inspect_eq_some.1 hf
  rw [hat.locateType] at hlocated
  rw [hname, ← Option.some.inj hlocated, typeText_of_typeAt hat, hat.typeRun_eq] at hfix
  obtain ⟨_, _, hbar, hand, _⟩ := isFixable_iff.1 hfix
  intro t ht
  have hsource : ∀ b ∈ t.text, b ∈ Token.source (first :: typeRun behind) :=
    fun b hb => List.mem_flatMap.2 ⟨t, ht, hb⟩
  constructor
  · exact fun hb => hbar (Blank.mem_trim_of_mem (by decide) (hsource _ hb))
  · exact fun hb => hand (Blank.mem_trim_of_mem (by decide) (hsource _ hb))

/-- Where only what may stand in between leads to the variable, each token before it may. -/
theorem isBetween_of_drop {body : List Token} {v i j : Nat} (hv : variableIndex? body = some v)
    (h : leadsToVariable (body.drop i)) (hij : i ≤ j) (hjv : j < v) :
    ∃ t, body[j]? = some t ∧ isBetween t (body.drop (j + 1)) := by
  obtain ⟨hvlt, _, hbefore⟩ := List.findIdx?_eq_some_iff_getElem.1 hv
  obtain ⟨n, rfl⟩ := Nat.exists_eq_add_of_le hij
  have hget : body[i + n]? = some body[i + n] := List.getElem?_eq_getElem (by omega)
  have hnot : ∀ k ≤ n, ∀ u, (body.drop i)[k]? = some u → u.kind ≠ .variableName := by
    intro k hk u hu
    rw [List.getElem?_drop, List.getElem?_eq_getElem (by omega)] at hu
    rw [← Option.some.inj hu]
    simpa using hbefore (i + k) (by omega)
  have hbetween := isBetween_of_leadsToVariable h (by rw [List.getElem?_drop, hget]) hnot
  rw [List.drop_drop, ← Nat.add_assoc] at hbetween
  exact ⟨_, hget, hbetween⟩

/-- The walk back from the variable ends at the first token of a type if that alone is not passed. -/
theorem typeEnd_eq_start {body : List Token} {start v : Nat} (h : start < v)
    (hv : variableIndex? body = some v) (hleads : leadsToVariable (body.drop (start + 1))) :
    typeEnd body start v = start := by
  obtain ⟨hvlt, _, _⟩ := List.findIdx?_eq_some_iff_getElem.1 hv
  have hbounds := typeEnd_bounds body h
  obtain ⟨_, hstop⟩ := typeEnd_spec h (Nat.le_of_lt hvlt)
  refine Nat.le_antisymm (Nat.le_of_not_lt fun hbeyond => ?_) hbounds.1
  obtain ⟨t, ht, hbetween⟩ := isBetween_of_drop hv hleads hbeyond hbounds.2
  exact hstop hbeyond t ht hbetween

/-- Where no stray `&` stands behind a type, its union part goes directly behind the first token. -/
theorem insertionPoint_union_of_leads {ts : List Token} {c : Candidate} (hc : c ∈ candidates ts)
    (hleads : leadsToVariable ((c.body ts).drop (c.finding.type.start + 1)))
    (hnull : c.namesNull ts = false) :
    insertionPoint .union ts c = some (c.typeIndex + 1) := by
  obtain ⟨l, param, _, _, hf⟩ := mem_candidates.1 hc
  obtain ⟨_, _, _, hlocated, _, _⟩ := inspect_eq_some.1 hf
  have hlocated' : locateType (c.body ts) = some c.finding.type := hlocated
  obtain ⟨v, t, hv, hlt, ht, _, _⟩ := locateType_eq_some hlocated'
  obtain ⟨front, first, behind, hat, htype⟩ := exists_typeAt hlocated'
  have hlast := typeEnd_eq_start hlt hv hleads
  have hslice : Interval.slice ⟨c.finding.type.start, c.finding.type.start + 1⟩ (c.body ts) =
      [t] := by
    rw [Interval.slice]
    dsimp only
    obtain ⟨hslt, rfl⟩ := List.getElem?_eq_some_iff.1 ht
    rw [Nat.add_sub_cancel_left, List.drop_eq_getElem_cons hslt, List.take_succ_cons,
      List.take_zero]
  have hbar : t.text.contains (byte '|') = false := by
    obtain rfl : first = t := by
      rw [hat.body_eq, htype] at ht
      simpa using ht
    simpa using (free_of_signs hf hat first (List.mem_cons_self ..)).1
  have hadmits : admitsNull t = false := by
    rw [Candidate.namesNull, ht, Option.any_some] at hnull
    rw [admitsNull, hbar, hnull]
    rfl
  simp only [insertionPoint, hv, hlast, hslice, List.any_cons, hadmits, List.any_nil]
  rw [if_neg (by simp)]
  rfl

/-- Without a `&` only trivia belong to a plain type behind its name. -/
theorem isTrivia_of_mem_typeRun {between rest : List Token} {var : Token}
    (hbetween : ∀ t ∈ between, t.followsType) (hvar : var.kind = .variableName)
    (hand : ∀ t ∈ typeRun (between ++ var :: rest), t.isPunct "&" = false) :
    ∀ t ∈ typeRun (between ++ var :: rest), t.isTrivia := by
  induction between with
  | nil => simp [typeRun, endsType, hvar]
  | cons u between ih =>
    rw [List.cons_append, typeRun] at hand ⊢
    by_cases hends : endsType u (between ++ var :: rest)
    · simp [hends]
    · rw [if_neg hends] at hand ⊢
      have hu : u.isTrivia := by
        have hfollows := hbetween u (List.mem_cons_self ..)
        have hnot := hand u (List.mem_cons_self ..)
        simp only [endsType, Bool.or_eq_true, not_or] at hends
        simpa [Token.followsType, hnot, hends.1.2] using hfollows
      intro t ht
      rcases List.mem_cons.1 ht with rfl | ht
      · exact hu
      · exact ih (fun w hw => hbetween w (List.mem_cons_of_mem _ hw))
          (fun w hw => hand w (List.mem_cons_of_mem _ hw)) t ht

theorem leadsToVariable_drop_trivia {ts : List Token} {k : Nat}
    (h : ∀ t ∈ ts.take k, t.isTrivia) : leadsToVariable (ts.drop k) = leadsToVariable ts := by
  induction ts generalizing k with
  | nil => simp
  | cons t rest ih =>
    cases k with
    | zero => rfl
    | succ k =>
      have ht : t.isTrivia := h t (by simp)
      have hkind : (t.kind == .variableName) = false := by
        rw [beq_eq_false_iff_ne]
        intro hk
        simp [Token.isTrivia, hk] at ht
      rw [List.drop_succ_cons, leadsToVariable, isBetween, ht, hkind,
        ih fun u hu => h u (by simp [hu])]
      simp

/-- The parts of a plain body around the first token of its type. -/
theorem exists_plainParts_of_typeAt {body front behind : List Token} {first : Token}
    {type : Interval} (hlocated : locateType body = some type) (hplain : hasPlainType body)
    (hbody : body = front ++ first :: behind) (htype : type.start = front.length) :
    ∃ between var rest, PlainParts front first between var ∧ behind = between ++ var :: rest := by
  obtain ⟨v, _, hv, _⟩ := locateType_eq_some hlocated
  obtain ⟨front', name, between, var, rest, hparts, hsplit⟩ := exists_plainParts hv hplain
  rw [hsplit] at hlocated
  have hfront := hparts.type_start hlocated
  obtain ⟨heq, hcons⟩ := List.append_inj (hbody.symm.trans hsplit) (by omega)
  obtain ⟨heq', hbehind⟩ := List.cons.inj hcons
  subst heq heq'
  exact ⟨between, var, rest, hparts, hbehind⟩

/-- No union part is put behind trivia from where a stray `&` comes before the variable. -/
theorem notMem_of_not_leads {done : List Token} {i k : Nat} {ts : List Token}
    (h : Sited .union points done i ts) (hk : k < ts.length)
    (htrivia : ∀ t ∈ ts.take k, t.isTrivia) (hleads : ¬leadsToVariable ts) : i + k ∉ points := by
  intro hmem
  have hsite := h.site (List.getElem?_eq_getElem hk) hmem
  have hlater := hsite.2.1
  rw [← List.drop_eq_getElem_cons hk, leadsToVariable_drop_trivia htrivia] at hlater
  exact hleads hlater

/-- Where a stray `&` stands behind a plain type, no union part is put into the type. -/
theorem free_of_not_leads {ts front behind : List Token} {first : Token} {c : Candidate}
    {l : ParamList} {param : Interval} (h : Sited .union points [] 0 ts)
    (hl : l ∈ parameterLists ts) (hparam : param ∈ l.params)
    (hf : inspect ts param = some c.finding) (hplain : hasPlainType (c.body ts))
    (hat : TypeAt ((param.slice ts).dropWhile Token.isTrivia) front first behind)
    (hleads : ¬leadsToVariable ((c.body ts).drop (c.finding.type.start + 1))) :
    ∀ k ≤ (typeRun behind).length,
      param.start + ((param.slice ts).takeWhile Token.isTrivia).length + front.length + 1 + k ∉
        points := by
  obtain ⟨hbody, _, htype⟩ := cut_of_inspect hf hat
  have hbody' : c.body ts = front ++ first :: behind := hbody.trans hat.body_eq
  obtain ⟨_, _, _, hlocated, _, _⟩ := inspect_eq_some.1 hf
  have hlocated' : locateType (c.body ts) = some c.finding.type := hlocated
  obtain ⟨between, var, rest, hparts, hbehind⟩ :=
    exists_plainParts_of_typeAt hlocated' hplain hbody' htype
  have hdrop : (c.body ts).drop (c.finding.type.start + 1) = behind := by
    rw [hbody', htype, ← List.drop_drop, List.drop_left]
    rfl
  rw [hdrop] at hleads
  obtain ⟨done, hsited, _⟩ := sited_param h hl hparam
  rw [← List.takeWhile_append_dropWhile (p := Token.isTrivia) (l := param.slice ts),
    hat.body_eq] at hsited
  have hsited' := hsited.drop.drop.2
  have hand : ∀ t ∈ typeRun behind, t.isPunct "&" = false := by
    intro t ht
    rw [Bool.eq_false_iff]
    intro hp
    apply (free_of_signs hf (hbody ▸ hat) t (List.mem_cons_of_mem _ ht)).2
    rw [(Token.isPunct_iff.1 hp).2]
    decide
  subst hbehind
  have htrivia := isTrivia_of_mem_typeRun hparts.behind_follows hparts.var_kind hand
  obtain ⟨more, hmore⟩ := typeRun_prefix (between ++ var :: rest)
  intro k hk
  have htake : ∀ t ∈ (between ++ var :: rest).take k, t.isTrivia := by
    intro t ht
    rw [← hmore, List.take_append_of_le_length hk] at ht
    exact htrivia t (List.mem_of_mem_take ht)
  have hlt : k < (between ++ var :: rest).length := by
    refine Nat.lt_of_not_le fun hle => ?_
    have hin := htake var (by rw [List.take_of_length_le hle]; simp)
    simp [Token.isTrivia, hparts.var_kind] at hin
  exact notMem_of_not_leads hsited' hlt htake hleads

end Fix

def issuePlan (file : Path) (src : Bytes) : FilePlan :=
  FilePlan.ofList ((scanSource file src).map Issue.target)

def fixAll (file : Path) (src : Bytes) (style : Style) : Bytes :=
  fixSource src (issuePlan file src) style

/-- Fixing all issues again and again: what each step reports and the text it leaves. -/
def fixChain (file : Path) (src : Bytes) : List Style → List (List Issue × Bytes)
  | [] => []
  | style :: styles =>
    (scanSource file src, fixAll file src style) :: fixChain file (fixAll file src style) styles

theorem consistent_targets (file : Path) (src : Bytes) :
    FilePlan.Consistent ((scanSource file src).map Issue.target) := by
  intro a t u ht hu
  simp only [scanSource, List.map_map, List.mem_map] at ht hu
  obtain ⟨c, hc, hct⟩ := ht
  obtain ⟨d, hd, hdu⟩ := hu
  obtain ⟨rfl, rfl⟩ := Prod.mk.inj hct
  obtain ⟨haddress, rfl⟩ := Prod.mk.inj hdu
  rw [candidate_eq_of_address hc hd haddress.symm]

/-- The plan of all issues has every candidate. -/
theorem planned_issuePlan (file : Path) (src : Bytes) :
    Fix.planned (issuePlan file src) (tokenize src) = candidates (tokenize src) := by
  refine List.filter_eq_self.2 fun c hc => ?_
  rw [beq_iff_eq, issuePlan, FilePlan.get?_ofList (consistent_targets file src)]
  exact List.mem_map.2 ⟨_, List.mem_map.2 ⟨c, hc, rfl⟩, rfl⟩

/-- Without candidates a source stays as it is. -/
theorem fixSource_of_no_candidates {src : Bytes} (h : candidates (tokenize src) = [])
    (plan : FilePlan) (style : Style) : fixSource src plan style = src := by
  have hpoints : Fix.insertionPoints style plan (tokenize src) = [] := by
    rw [Fix.insertionPoints, Fix.planned, h]
    rfl
  have hself : insertAt style.tokens [] 0 (tokenize src) = tokenize src :=
    insertAt_eq_self fun _ _ => List.not_mem_nil
  rw [fixSource, hpoints, ← Style.source_tokens, ← source_insertAt, hself, source_tokenize]

theorem scanSource_eq_nil_iff {file : Path} {src : Bytes} :
    scanSource file src = [] ↔ candidates (tokenize src) = [] := by
  rw [scanSource, List.map_eq_nil_iff]

theorem eq_of_mem_fixChain {file : Path} {src : Bytes} (h : scanSource file src = [])
    (styles : List Style) : ∀ step ∈ fixChain file src styles, step = ([], src) := by
  induction styles with
  | nil => simp [fixChain]
  | cons style styles ih =>
    have hstep : fixAll file src style = src :=
      fixSource_of_no_candidates (scanSource_eq_nil_iff.1 h) _ style
    intro step hmem
    rw [fixChain, hstep, h] at hmem
    rcases List.mem_cons.1 hmem with rfl | hmem
    · rfl
    · exact ih step hmem

/-- With all issues planned each candidate gets its piece. -/
theorem mem_insertionPoints_issuePlan (file : Path) {src : Bytes} {style : Style} {c : Candidate}
    {p : Nat} (hc : c ∈ candidates (tokenize src))
    (hp : Fix.insertionPoint style (tokenize src) c = some p) :
    p ∈ Fix.insertionPoints style (issuePlan file src) (tokenize src) := by
  rw [Fix.insertionPoints, planned_issuePlan]
  exact List.mem_filterMap.2 ⟨c, hc, hp⟩

/-- When nothing is left to report after a plainly typed source was fixed. -/
theorem scanSource_fixAll_eq_nil_iff (file : Path) {src : Bytes} (style : Style)
    (hplain : PlainlyTyped (tokenize src))
    (hnull : ∀ c ∈ candidates (tokenize src), c.namesNull (tokenize src) = false) :
    scanSource file (fixAll file src style) = [] ↔
      style = .mark ∨ ∀ c ∈ candidates (tokenize src),
        Fix.leadsToVariable ((c.body (tokenize src)).drop (c.finding.type.start + 1)) := by
  have hsited := Fix.sited_insertionPoints style (issuePlan file src) hplain
  rw [scanSource_eq_nil_iff, fixAll, (tokenize_fixSource _ style hplain).1,
    Fix.candidates_insertAt_eq_nil_iff hsited]
  cases style with
  | mark =>
    refine iff_of_true (fun l hl param hparam => ?_) (.inl rfl)
    obtain ⟨done, hsited', hunnamed, _⟩ := Fix.sited_param hsited hl hparam
    refine Fix.not_passes_insertAt_mark hunnamed hsited' fun front first behind hpasses hat => ?_
    obtain ⟨c, hc, hf⟩ := Fix.exists_candidate hl hparam hpasses
    obtain ⟨_, hstart, htype⟩ := Fix.cut_of_inspect hf hat
    rw [← hstart, ← htype]
    exact mem_insertionPoints_issuePlan file hc rfl
  | union =>
    constructor
    · intro hnone
      refine .inr fun c hc => ?_
      obtain ⟨l, param, hl, hparam, hf⟩ := mem_candidates.1 hc
      have hl' := List.mem_of_getElem? hl
      have hparam' := List.mem_of_getElem? hparam
      have hpasses := exists_inspect_iff.1 ⟨_, hf⟩
      obtain ⟨front, first, behind, hat, _⟩ := hpasses.2.2
      obtain ⟨done, hsited', hunnamed, _⟩ := Fix.sited_param hsited hl' hparam'
      by_contra hleads
      exact hnone l hl' param hparam' (Fix.passes_insertAt_union hunnamed hsited' hpasses hat
        (Fix.free_of_not_leads hsited hl' hparam' hf (hplain c hc) hat hleads))
    · intro h l hl param hparam
      have hleads := h.resolve_left (by simp)
      obtain ⟨done, hsited', hunnamed, _⟩ := Fix.sited_param hsited hl hparam
      refine Fix.not_passes_insertAt_union hunnamed hsited' fun front first behind hpasses hat => ?_
      obtain ⟨c, hc, hf⟩ := Fix.exists_candidate hl hparam hpasses
      obtain ⟨_, hstart, htype⟩ := Fix.cut_of_inspect hf hat
      rw [← hstart, ← htype]
      exact mem_insertionPoints_issuePlan file hc
        (Fix.insertionPoint_union_of_leads hc (hleads c hc) (hnull c hc))

/-- The tokens of `<?php function f(Foo ... & & $a = null);`. -/
def straySample : List Token :=
  [⟨.openTag, utf8 "<?php"⟩, ⟨.whitespace, utf8 " "⟩, ⟨.keyword, utf8 "function"⟩,
    ⟨.whitespace, utf8 " "⟩, ⟨.name, utf8 "f"⟩, ⟨.punct, utf8 "("⟩, ⟨.name, utf8 "Foo"⟩,
    ⟨.whitespace, utf8 " "⟩, ⟨.punct, utf8 "..."⟩, ⟨.whitespace, utf8 " "⟩, ⟨.punct, utf8 "&"⟩,
    ⟨.whitespace, utf8 " "⟩, ⟨.punct, utf8 "&"⟩, ⟨.whitespace, utf8 " "⟩,
    ⟨.variableName, utf8 "$a"⟩, ⟨.whitespace, utf8 " "⟩, ⟨.punct, utf8 "="⟩,
    ⟨.whitespace, utf8 " "⟩, ⟨.name, utf8 "null"⟩, ⟨.punct, utf8 ")"⟩, ⟨.punct, utf8 ";"⟩]

/-- The type of this parameter is reported again after a union part was put in for it. -/
theorem scanSource_fixAll_straySample :
    PlainlyTyped (tokenize (Token.source straySample)) ∧
      (∀ c ∈ candidates (tokenize (Token.source straySample)),
        c.namesNull (tokenize (Token.source straySample)) = false) ∧
      scanSource ⟨utf8 "a.php"⟩ (fixAll ⟨utf8 "a.php"⟩ (Token.source straySample) .union) ≠ [] := by
  have hreads : Lexer.Reads ⟨false, false⟩ straySample := by decide
  have htokens : tokenize (Token.source straySample) = straySample := hreads
  have hplain : PlainlyTyped (tokenize (Token.source straySample)) := by
    rw [htokens]
    decide
  have hnull : ∀ c ∈ candidates (tokenize (Token.source straySample)),
      c.namesNull (tokenize (Token.source straySample)) = false := by
    rw [htokens]
    decide
  refine ⟨hplain, hnull, fun hnone => ?_⟩
  have hleads := (scanSource_fixAll_eq_nil_iff _ .union hplain hnull).1 hnone
  rw [htokens] at hleads
  revert hleads
  decide

/-- A plainly typed source is settled by one fix of all its issues if and only if the style is the
mark or no `&` that is no reference stands behind the type of a candidate. -/
theorem fixAll_settles_iff (file : Path) {src : Bytes} (style : Style)
    (hplain : PlainlyTyped (tokenize src))
    (hnull : ∀ c ∈ candidates (tokenize src), c.namesNull (tokenize src) = false) :
    (scanSource file (fixAll file src style) = [] ∧
      (∀ styles, ∀ step ∈ fixChain file (fixAll file src style) styles,
        step = ([], fixAll file src style)) ∧
      ∀ style', fixSource (fixAll file src style) (issuePlan file src) style' =
        fixAll file src style) ↔
    (style = .mark ∨ ∀ c ∈ candidates (tokenize src),
      Fix.leadsToVariable ((c.body (tokenize src)).drop (c.finding.type.start + 1))) := by
  rw [← scanSource_fixAll_eq_nil_iff file style hplain hnull]
  refine and_iff_left_of_imp fun h => ⟨eq_of_mem_fixChain h, fun style' => ?_⟩
  exact fixSource_of_no_candidates (scanSource_eq_nil_iff.1 h) _ style'

theorem fixAll_settles_referenceSample :
    PlainlyTyped (tokenize (Token.source referenceSample)) ∧
      scanSource ⟨utf8 "a.php"⟩ (Token.source referenceSample) ≠ [] ∧
      scanSource ⟨utf8 "a.php"⟩
        (fixAll ⟨utf8 "a.php"⟩ (Token.source referenceSample) .union) = [] := by
  have hreads : Lexer.Reads ⟨false, false⟩ referenceSample := by decide
  have htokens : tokenize (Token.source referenceSample) = referenceSample := hreads
  have hplain : PlainlyTyped (tokenize (Token.source referenceSample)) := by
    rw [htokens]
    decide
  have hnull : ∀ c ∈ candidates (tokenize (Token.source referenceSample)),
      c.namesNull (tokenize (Token.source referenceSample)) = false := by
    rw [htokens]
    decide
  refine ⟨hplain, ?_, ((fixAll_settles_iff _ .union hplain hnull).2 (.inr ?_)).1⟩
  · rw [ne_eq, scanSource_eq_nil_iff, htokens]
    decide
  · rw [htokens]
    decide

end ExplicitNull
