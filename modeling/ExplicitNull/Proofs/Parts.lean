import ExplicitNull.Proofs.Prefixes

/-!
Fixing in parts. Pieces that are put in for other candidates leave a candidate with a plain type
where it is: its address and the start of its type are as before and its own place has moved with the
tokens around it. A candidate whose own place has a piece gets no other. So two plans one after the
other do what they do together, in either order.
-/
namespace ExplicitNull

open Candidate

namespace Fix

section

variable {style : Style} {points : List Nat} {ts : List Token} {c : Candidate} {last v p : Nat}

/-- The body of a candidate in its parameter, in a source whose pieces go to sites. -/
structure Housed (style : Style) (points : List Nat) (ts : List Token) (c : Candidate)
    (param : Interval) (lead done : List Token) : Prop where
  slice_eq : param.slice ts = lead ++ c.body ts
  lead_trivia : ∀ t ∈ lead, t.isTrivia
  start_eq : c.finding.regions.body.start = param.start + lead.length
  lead_free : ∀ j < lead.length, param.start + j ∉ points
  sited : Sited style points done c.finding.regions.body.start (c.body ts)
  unnamed : Unnamed done

theorem exists_housed {l : ParamList} {param : Interval} (h : Sited style points [] 0 ts)
    (hl : l ∈ parameterLists ts) (hparam : param ∈ l.params)
    (hf : inspect ts param = some c.finding) :
    ∃ lead done, Housed style points ts c param lead done := by
  obtain ⟨done, hsited, hunnamed, _⟩ := sited_param h hl hparam
  obtain ⟨front, first, behind, hat, _⟩ := (exists_inspect_iff.1 ⟨_, hf⟩).2.2
  obtain ⟨hbody, hstart, -⟩ := cut_of_inspect hf hat
  have hbody' : c.body ts = (param.slice ts).dropWhile Token.isTrivia := hbody
  have hlead : ∀ t ∈ (param.slice ts).takeWhile Token.isTrivia, t.isTrivia :=
    fun t ht => List.all_eq_true.1 List.all_takeWhile t ht
  have hkinds : ∀ t ∈ (param.slice ts).takeWhile Token.isTrivia, t.kind ≠ .name := by
    intro t ht hk
    have := hlead t ht
    simp [Token.isTrivia, hk] at this
  have hsplit : param.slice ts = (param.slice ts).takeWhile Token.isTrivia ++ c.body ts := by
    rw [hbody', List.takeWhile_append_dropWhile]
  rw [hsplit] at hsited
  refine ⟨_, _, hsplit, hlead, hstart, hunnamed.notMem_front hsited hkinds, ?_,
    hunnamed.append hkinds⟩
  rw [hstart]
  exact hsited.drop

theorem kind_ne_name_of_precedesType {t : Token} (h : t.precedesType) : t.kind ≠ .name := by
  intro hk
  simp [Token.precedesType, Token.isTrivia, hk] at h

theorem kind_ne_name_of_followsType {t : Token} (h : t.followsType) : t.kind ≠ .name := by
  intro hk
  simp [Token.followsType, Token.isTrivia, Token.isPunct, hk] at h

/-- Up to the variable, a plain type has one name. -/
theorem eq_start_of_name (hc : c ∈ candidates ts) (hplain : hasPlainType (c.body ts))
    (hv : variableIndex? (c.body ts) = some v) {i : Nat} (hi : i ≤ v) {t : Token}
    (ht : (c.body ts)[i]? = some t) (hname : t.kind = .name) : i = c.finding.type.start := by
  obtain ⟨front, name, behind, var, rest, hparts, hbody⟩ := exists_plainParts hv hplain
  obtain ⟨_, _, _, _, haccepts⟩ := exists_accepts_of_mem hc
  have hlocated : locateType (c.body ts) = some c.finding.type := haccepts.located
  rw [hbody] at hlocated hv ht
  have hindex := Option.some.inj (hparts.variableIndex?.symm.trans hv)
  rw [hparts.type_start hlocated]
  rcases Nat.lt_trichotomy i front.length with hlt | heq | hlt
  · rw [List.getElem?_append_left hlt] at ht
    exact absurd hname (kind_ne_name_of_precedesType (hparts.front_precedes t (List.mem_of_getElem? ht)))
  · exact heq
  · obtain ⟨n, rfl⟩ := Nat.exists_eq_add_of_le (Nat.succ_le_of_lt hlt)
    have hn : front.length.succ + n - front.length = n + 1 := by omega
    rw [List.getElem?_append_right (by omega), hn, List.getElem?_cons_succ] at ht
    rcases Nat.lt_or_ge n behind.length with hn | hn
    · rw [List.getElem?_append_left hn] at ht
      exact absurd hname (kind_ne_name_of_followsType (hparts.behind_follows t (List.mem_of_getElem? ht)))
    · obtain rfl : n = behind.length := by omega
      rw [List.getElem?_append_right (Nat.le_refl _), Nat.sub_self] at ht
      obtain rfl : var = t := Option.some.inj ht
      simp [hparts.var_kind] at hname

/-- Between the start of a body and its variable the only place for a piece is that of the
candidate. -/
theorem Housed.eq_place {param : Interval} {lead done : List Token}
    (h : Housed style points ts c param lead done) (hc : c ∈ candidates ts)
    (hplain : hasPlainType (c.body ts)) (hv : variableIndex? (c.body ts) = some v) {i : Nat}
    (hi : i ≤ v) (hmem : c.finding.regions.body.start + i ∈ points) :
    c.finding.regions.body.start + i = place style ts c := by
  obtain ⟨hvlt, _, _⟩ := List.findIdx?_eq_some_iff_getElem.1 hv
  have hget : (c.body ts)[i]? = some (c.body ts)[i] := List.getElem?_eq_getElem (by omega)
  have hsite := h.sited.site hget hmem
  cases style with
  | mark => rw [eq_start_of_name hc hplain hv hi hget hsite.2, place, typeIndex]
  | union =>
    obtain ⟨hnamed, hleads, hstop⟩ := hsite
    obtain ⟨last, v', hends⟩ := exists_endsAt hc
    obtain rfl : v' = v := Option.some.inj (hends.variable_eq.symm.trans hv)
    have hstart : c.finding.type.start < i := by
      by_contra hle
      have hfront : ∀ t ∈ (c.body ts).take i, t.kind ≠ .name := by
        intro t ht hname
        obtain ⟨j, hj, heq⟩ := List.mem_iff_getElem.1 ht
        rw [List.length_take] at hj
        rw [List.getElem_take] at heq
        have := eq_start_of_name hc hplain hv (by omega) (List.getElem?_eq_some_iff.2 ⟨_, heq⟩) hname
        omega
      have := (h.unnamed.append hfront).named
      simp [hnamed] at this
    obtain ⟨n, rfl⟩ : ∃ n, i = n + 1 := ⟨i - 1, by omega⟩
    rw [← List.drop_eq_getElem_cons] at hleads hstop
    have hprev : (c.body ts)[n]? = some (c.body ts)[n] := List.getElem?_eq_getElem (by omega)
    have hnot : ¬isBetween (c.body ts)[n] ((c.body ts).drop (n + 1)) := by
      refine hstop _ ?_
      rw [List.take_add_one, hprev, Option.toList_some, List.reverse_append]
      rfl
    have hlast : n = last := by
      rcases Nat.lt_trichotomy n last with hlt | heq | hlt
      · obtain ⟨t, ht, hbetween⟩ := isBetween_of_drop hv hleads hlt hends.last_lt
        exact absurd hbetween (hends.stops (by omega) t ht)
      · exact heq
      · obtain ⟨t, ht, hbetween⟩ := isBetween_of_drop hv hends.leads hlt hi
        obtain rfl := Option.some.inj (hprev.symm.trans ht)
        exact absurd hbetween hnot
    rw [hends.place_eq, hlast, Nat.add_assoc]

/-- The candidates of a source with pieces put in are found among the same parameters. -/
theorem mem_candidates_insertAt (h : Sited style points [] 0 ts) {c' : Candidate} :
    c' ∈ candidates (insertAt style.tokens points 0 ts) ↔
      ∃ l param, (parameterLists ts)[c'.address.functionIndex]? = some l ∧
        l.params[c'.address.paramIndex]? = some param ∧
        inspect (insertAt style.tokens points 0 ts) (param.shift style.tokens.length points) =
          some c'.finding := by
  rw [mem_candidates, parameterLists_insertAt h]
  simp only [List.getElem?_map, Option.map_eq_some_iff]
  constructor
  · rintro ⟨_, _, ⟨l, hl, rfl⟩, hparam, hf⟩
    rw [ParamList.shift, List.getElem?_map, Option.map_eq_some_iff] at hparam
    obtain ⟨param, hparam, rfl⟩ := hparam
    exact ⟨l, param, hl, hparam, hf⟩
  · rintro ⟨l, param, hl, hparam, hf⟩
    refine ⟨_, _, ⟨l, hl, rfl⟩, ?_, hf⟩
    rw [ParamList.shift, List.getElem?_map, hparam]
    rfl

theorem Housed.free {param : Interval} {lead done : List Token}
    (h : Housed style points ts c param lead done) (hc : c ∈ candidates ts)
    (hplain : hasPlainType (c.body ts)) (hv : variableIndex? (c.body ts) = some v)
    (hfree : place style ts c ∉ points) : ∀ j < v + 1, c.finding.regions.body.start + j ∉ points :=
  fun _ hj hmem => hfree (h.eq_place hc hplain hv (Nat.le_of_lt_succ hj) hmem ▸ hmem)

/-- Up to its variable a parameter stays as it is if nothing is put in at the place of its candidate. -/
theorem Housed.insertAt_eq {param : Interval} {lead done : List Token}
    (h : Housed style points ts c param lead done) (hv : variableIndex? (c.body ts) = some v)
    (hfree : ∀ j < v + 1, c.finding.regions.body.start + j ∉ points) :
    insertAt style.tokens points c.finding.regions.body.start (c.body ts) =
        (c.body ts).take (v + 1) ++
          insertAt style.tokens points (c.finding.regions.body.start + (v + 1))
            ((c.body ts).drop (v + 1)) ∧
      insertAt style.tokens points param.start (param.slice ts) =
        lead ++ insertAt style.tokens points c.finding.regions.body.start (c.body ts) := by
  obtain ⟨hvlt, _, _⟩ := List.findIdx?_eq_some_iff_getElem.1 hv
  refine ⟨insertAt_of_free _ hvlt hfree, ?_⟩
  rw [h.slice_eq, insertAt_append, insertAt_eq_self h.lead_free, ← h.start_eq]

theorem hasVariable_take {body : List Token} (hv : variableIndex? body = some v) :
    HasVariable (body.take (v + 1)) := by
  obtain ⟨var, hvar, hkind⟩ := variableIndex?_eq_some hv
  refine ⟨var, List.mem_of_getElem? (i := v) ?_, hkind⟩
  rw [List.getElem?_take_of_lt (Nat.lt_succ_self v), hvar]

/-- The parameter of a candidate to whose place nothing was put in passes its inspection again, with
the same type in a body that is the same up to the variable. -/
theorem Housed.inspect_moved {l : ParamList} {param : Interval} {lead done : List Token}
    (hh : Housed style points ts c param lead done) (h : Sited style points [] 0 ts)
    (hl : l ∈ parameterLists ts) (hparam : param ∈ l.params)
    (hf : inspect ts param = some c.finding) (hv : variableIndex? (c.body ts) = some v)
    (hfree : ∀ j < v + 1, c.finding.regions.body.start + j ∉ points) :
    ∃ f' rest', inspect (insertAt style.tokens points 0 ts)
        (param.shift style.tokens.length points) = some f' ∧
      f'.type = c.finding.type ∧
      f'.regions.body.start = shift style.tokens.length points c.finding.regions.body.start ∧
      f'.regions.body.slice (insertAt style.tokens points 0 ts) =
        (c.body ts).take (v + 1) ++ rest' := by
  obtain ⟨hbody, hparamTokens⟩ := hh.insertAt_eq hv hfree
  have hmove := slice_param_insertAt h hl hparam
  have hvariable : HasVariable (lead ++ (c.body ts).take (v + 1)) := by
    obtain ⟨var, hvar, hkind⟩ := hasVariable_take hv
    exact ⟨var, List.mem_append_right _ hvar, hkind⟩
  have hslice : param.slice ts = (lead ++ (c.body ts).take (v + 1)) ++ (c.body ts).drop (v + 1) := by
    rw [List.append_assoc, List.take_append_drop, hh.slice_eq]
  have hslice' := hmove.trans hparamTokens
  rw [hbody, ← List.append_assoc] at hslice'
  have hattr : ((param.shift style.tokens.length points).slice
      (insertAt style.tokens points 0 ts)).any (·.kind == .attributeOpen) =
        (param.slice ts).any (·.kind == .attributeOpen) := by
    rw [hmove, any_attributeOpen_insertAt]
  have hattr₀ := (exists_inspect_iff.1 ⟨_, hf⟩).1
  obtain ⟨hcut, hstart⟩ := body_of_prefix hslice hvariable hattr₀
  obtain ⟨hcut', hstart'⟩ := body_of_prefix hslice' hvariable (hattr.trans hattr₀)
  rw [← (inspect_eq_some.1 hf).regions_eq] at hcut hstart
  have hpre : (lead ++ (c.body ts).take (v + 1)).dropWhile Token.isTrivia =
      (c.body ts).take (v + 1) := by
    refine List.append_cancel_right (hcut.symm.trans ?_)
    exact (List.take_append_drop (v + 1) (c.body ts)).symm
  have hnull : hasNullDefault ((c.body ts).take (v + 1) ++
      insertAt style.tokens points (c.finding.regions.body.start + (v + 1))
        ((c.body ts).drop (v + 1))) =
      hasNullDefault ((c.body ts).take (v + 1) ++ (c.body ts).drop (v + 1)) := by
    rw [← hbody, List.take_append_drop, hasNullDefault_insertAt hh.sited]
  have hlead : ((lead ++ (c.body ts).take (v + 1)).takeWhile Token.isTrivia).length =
      lead.length := by
    have := hh.start_eq
    omega
  refine ⟨_, _, inspect_of_prefix hslice hslice' hvariable hattr (by rw [hpre, hnull]) hf, rfl, ?_,
    hpre ▸ hcut'⟩
  rw [hstart', hlead, hh.start_eq, shift_add_of_free hh.lead_free]
  rfl

/-- A candidate to whose place nothing was put in is found again with its type, and its place has moved
with it. -/
theorem exists_moved (h : Sited style points [] 0 ts) (hc : c ∈ candidates ts)
    (hplain : hasPlainType (c.body ts)) (hfree : place style ts c ∉ points) :
    ∃ c' ∈ candidates (insertAt style.tokens points 0 ts), c'.address = c.address ∧
      c'.finding.type = c.finding.type ∧
      insertionPoint style (insertAt style.tokens points 0 ts) c' =
        (insertionPoint style ts c).map (shift style.tokens.length points) := by
  obtain ⟨l, param, hl, hparam, hf⟩ := mem_candidates.1 hc
  have hl' := List.mem_of_getElem? hl
  have hparam' := List.mem_of_getElem? hparam
  obtain ⟨lead, done, hh⟩ := exists_housed h hl' hparam' hf
  obtain ⟨v, _, hv, hlt, _, _, _⟩ := locateType_eq_some (inspect_eq_some.1 hf).located
  have hv' : variableIndex? (c.body ts) = some v := hv
  have hfree' := hh.free hc hplain hv' hfree
  obtain ⟨f', rest', hf', htype, hstart, hbody⟩ := hh.inspect_moved h hl' hparam' hf hv' hfree'
  refine ⟨⟨c.address, f'⟩, (mem_candidates_insertAt h).2 ⟨l, param, hl, hparam, hf'⟩, rfl, htype, ?_⟩
  have hoffset : insertionOffset style
      (Candidate.body ⟨c.address, f'⟩ (insertAt style.tokens points 0 ts)) f'.type.start =
        insertionOffset style (c.body ts) c.finding.type.start := by
    have hvariable := hasVariable_take hv'
    rw [Candidate.body, hbody, htype, insertionOffset_append style hvariable,
      ← insertionOffset_append style hvariable ((c.body ts).drop (v + 1)), List.take_append_drop]
  rw [insertionPoint_eq, insertionPoint_eq, hoffset, Option.map_map]
  refine Option.map_congr fun o ho => ?_
  have hle := insertionOffset_le hv' hlt ho
  rw [Function.comp_apply, shift_add_of_free fun j hj => hfree' j (by omega), hstart]

/-- The body of a parameter that is accepted with and without pieces is the body with the pieces. -/
theorem body_insertAt (h : Sited style points [] 0 ts) {l : ParamList} {param : Interval}
    (hl : l ∈ parameterLists ts) (hparam : param ∈ l.params)
    (hf : inspect ts param = some c.finding) {c' : Candidate}
    (hf' : inspect (insertAt style.tokens points 0 ts) (param.shift style.tokens.length points) =
      some c'.finding) :
    c'.body (insertAt style.tokens points 0 ts) =
      insertAt style.tokens points c.finding.regions.body.start (c.body ts) := by
  obtain ⟨done, hsited, hunnamed, _⟩ := sited_param h hl hparam
  obtain ⟨_, hdrop, _⟩ := dropWhile_trivia_insertAt hunnamed hsited
  obtain ⟨front, first, behind, hat, _⟩ := (exists_inspect_iff.1 ⟨_, hf⟩).2.2
  obtain ⟨hbody, hstart, -⟩ := cut_of_inspect hf hat
  obtain ⟨front', first', behind', hat', _⟩ := (exists_inspect_iff.1 ⟨_, hf'⟩).2.2
  obtain ⟨hbody', -, -⟩ := cut_of_inspect hf' hat'
  rw [Candidate.body, hbody', slice_param_insertAt h hl hparam, hdrop, ← hstart, ← hbody]
  rfl

/-- Behind a union part no other is put in: the walk back from the variable comes upon the name `null`
of it, and the type up to there has its union sign. -/
theorem insertionPoint_eq_none_of_part {c' : Candidate} {before after : List Token}
    (hc' : c' ∈ candidates ts)
    (hbody : c'.body ts = before ++ (Style.union.tokens ++ after))
    (hbefore : ∀ t ∈ before, t.kind ≠ .variableName) (hstart : c'.finding.type.start < before.length) :
    insertionPoint .union ts c' = none := by
  obtain ⟨last, v, hends⟩ := exists_endsAt hc'
  obtain ⟨var, hvar, hkind⟩ := variableIndex?_eq_some hends.variable_eq
  have hsign : (c'.body ts)[before.length]? = some ⟨.punct, utf8 "|"⟩ := by
    rw [hbody, List.getElem?_append_right (Nat.le_refl _), Nat.sub_self]
    rfl
  have hnull : (c'.body ts)[before.length + 1]? = some ⟨.name, utf8 "null"⟩ := by
    rw [hbody, List.getElem?_append_right (by omega), Nat.add_sub_cancel_left]
    rfl
  have hv : before.length + 1 < v := by
    by_contra hle
    rcases Nat.lt_or_ge v before.length with hlt | hge
    · rw [hbody, List.getElem?_append_left hlt] at hvar
      exact hbefore var (List.mem_of_getElem? hvar) hkind
    · obtain rfl | rfl : v = before.length ∨ v = before.length + 1 := by omega
      · rw [Option.some.inj (hvar.symm.trans hsign)] at hkind
        cases hkind
      · rw [Option.some.inj (hvar.symm.trans hnull)] at hkind
        cases hkind
  have hlast : before.length + 1 ≤ last := by
    by_contra hlt
    obtain ⟨t, ht, hbetween⟩ :=
      isBetween_of_drop hends.variable_eq hends.leads (by omega : last + 1 ≤ before.length + 1) hv
    obtain rfl := Option.some.inj (hnull.symm.trans ht)
    exact not_isBetween_of_kind rfl _ hbetween
  rw [hends.point_eq, if_pos]
  have hmem := Interval.mem_slice (r := ⟨c'.finding.type.start, last + 1⟩)
    (Nat.le_of_lt hstart) (by dsimp only; omega) hsign
  exact List.any_eq_true.2 ⟨_, hmem, by decide⟩

/-- A candidate that got its piece gets no other. -/
theorem insertionPoint_of_fixed (h : Sited style points [] 0 ts) (hc : c ∈ candidates ts)
    (hplain : hasPlainType (c.body ts)) (hmem : place style ts c ∈ points) {c' : Candidate}
    (hc' : c' ∈ candidates (insertAt style.tokens points 0 ts)) (haddress : c'.address = c.address)
    (hstart : c'.finding.type.start = c.finding.type.start) :
    insertionPoint style (insertAt style.tokens points 0 ts) c' = none := by
  obtain ⟨l, param, hl, hparam, hf⟩ := mem_candidates.1 hc
  obtain ⟨l', param', hl₀, hparam₀, hf'⟩ := (mem_candidates_insertAt h).1 hc'
  rw [haddress] at hl₀ hparam₀
  obtain rfl := Option.some.inj (hl.symm.trans hl₀)
  obtain rfl := Option.some.inj (hparam.symm.trans hparam₀)
  have hl' := List.mem_of_getElem? hl
  have hparam' := List.mem_of_getElem? hparam
  cases style with
  | mark =>
    obtain ⟨done, hsited, hunnamed, _⟩ := sited_param h hl' hparam'
    have hpasses := exists_inspect_iff.1 ⟨_, hf'⟩
    rw [slice_param_insertAt h hl' hparam'] at hpasses
    refine absurd hpasses (not_passes_insertAt_mark hunnamed hsited fun front first behind _ hat => ?_)
    obtain ⟨_, hbody, htype⟩ := cut_of_inspect hf hat
    rw [← hbody, ← htype]
    exact hmem
  | union =>
    obtain ⟨lead, done, hh⟩ := exists_housed h hl' hparam' hf
    obtain ⟨last, v, hends⟩ := exists_endsAt hc
    rw [hends.place_eq] at hmem
    obtain ⟨hvlt, _, hbefore⟩ := List.findIdx?_eq_some_iff_getElem.1 hends.variable_eq
    have hlast := hends.last_lt
    have hlen : ((c.body ts).take (last + 1)).length = last + 1 := List.length_take_of_le (by omega)
    have hnext : last + 1 < (c.body ts).length := by omega
    have hfree : ∀ j < last + 1, c.finding.regions.body.start + j ∉ points := by
      intro j hj hpoint
      have heq := hh.eq_place hc hplain hends.variable_eq (by omega) hpoint
      rw [hends.place_eq] at heq
      omega
    have hbody := body_insertAt h hl' hparam' hf hf'
    rw [insertAt_of_free _ (Nat.le_of_lt hnext) hfree, List.drop_eq_getElem_cons hnext,
      insertAt_cons_of_mem _ _ (by rwa [← Nat.add_assoc])] at hbody
    refine insertionPoint_eq_none_of_part hc' hbody (fun t ht => ?_) ?_
    · obtain ⟨j, hj, rfl⟩ := List.mem_iff_getElem.1 ht
      rw [List.getElem_take]
      rw [hlen] at hj
      simpa using hbefore j (by omega)
    · rw [hlen, hstart]
      exact Nat.lt_succ_of_le hends.start_le

/-- Of two candidates with one place neither has the name of its type behind that of the other. -/
theorem typeIndex_le_of_place {d : Candidate} (hc : c ∈ candidates ts) (hd : d ∈ candidates ts)
    (hplain : hasPlainType (c.body ts)) (hplain' : hasPlainType (d.body ts))
    (heq : place .union ts c = place .union ts d) : d.typeIndex ≤ c.typeIndex := by
  by_contra hlt
  obtain ⟨last, v, hends⟩ := exists_endsAt hc
  obtain ⟨last', v', hends'⟩ := exists_endsAt hd
  have hplace := hends.place_eq.symm.trans (heq.trans hends'.place_eq)
  have hle := hends'.start_le
  have hlast := hends.last_lt
  have hlen := hends.lt_length
  obtain ⟨before, t, after, hts, hlength, -, hname⟩ := siteAt_mark hd hplain'
  rw [typeIndex] at hlength
  rw [typeIndex, typeIndex] at hlt
  obtain ⟨i, hi⟩ := Nat.exists_eq_add_of_le (by omega :
    c.finding.regions.body.start ≤ d.finding.regions.body.start + d.finding.type.start)
  have hget : (c.body ts)[i]? = some (c.body ts)[i] := List.getElem?_eq_getElem (by omega)
  have hget' : ts[c.finding.regions.body.start + i]? = some t := by
    rw [← hi, ← hlength, hts, List.getElem?_append_right (Nat.le_refl _), Nat.sub_self]
    rfl
  obtain rfl := Option.some.inj ((Interval.getElem?_slice hget).2.symm.trans hget')
  have := eq_start_of_name hc hplain hends.variable_eq (by omega) hget hname
  omega

theorem insertionPoint_union_eq (hc : c ∈ candidates ts) : insertionPoint .union ts c =
    if (Interval.slice ⟨c.typeIndex, place .union ts c⟩ ts).any admitsNull then none
    else some (place .union ts c) := by
  obtain ⟨last, v, hends⟩ := exists_endsAt hc
  have hlast := hends.last_lt
  have hlen := hends.lt_length
  have hslice : Interval.slice ⟨c.finding.type.start, last + 1⟩ (c.body ts) =
      Interval.slice ⟨c.typeIndex, place .union ts c⟩ ts := by
    rw [hends.place_eq, typeIndex, Nat.add_assoc]
    exact Interval.slice_slice (by dsimp only; exact Nat.le_of_lt (Nat.lt_of_le_of_lt hlast hlen))
  rw [hends.point_eq, hslice, hends.place_eq]

/-- Candidates with one place get their pieces together. -/
theorem insertionPoint_eq_of_place {d : Candidate} (hc : c ∈ candidates ts) (hd : d ∈ candidates ts)
    (hplain : hasPlainType (c.body ts)) (hplain' : hasPlainType (d.body ts))
    (heq : place style ts c = place style ts d) :
    insertionPoint style ts c = insertionPoint style ts d := by
  cases style with
  | mark => exact congrArg some heq
  | union =>
    have htype := Nat.le_antisymm (typeIndex_le_of_place hd hc hplain' hplain heq.symm)
      (typeIndex_le_of_place hc hd hplain hplain' heq)
    rw [insertionPoint_union_eq hc, insertionPoint_union_eq hd, htype, heq]

end

def target (c : Candidate) : Address × Nat := (c.address, c.finding.type.start)

def PlansOnly (plan : FilePlan) (ts : List Token) : Prop :=
  ∀ entry ∈ plan, ∃ c ∈ candidates ts, target c = entry

variable {style : Style} {points : List Nat} {ts : List Token} {plan : FilePlan}

theorem PlansOnly.consistent (h : PlansOnly plan ts) : FilePlan.Consistent plan := by
  intro a t u ht hu
  obtain ⟨c, hc, hct⟩ := h _ ht
  obtain ⟨d, hd, hdu⟩ := h _ hu
  obtain ⟨rfl, rfl⟩ := Prod.mk.inj hct
  obtain ⟨haddress, rfl⟩ := Prod.mk.inj hdu
  rw [candidate_eq_of_address hc hd haddress.symm]

theorem mem_insertionPoints (h : FilePlan.Consistent plan) {p : Nat} :
    p ∈ insertionPoints style plan ts ↔
      ∃ c ∈ candidates ts, target c ∈ plan ∧ insertionPoint style ts c = some p := by
  simp only [insertionPoints, planned, List.mem_filterMap, List.mem_filter, beq_iff_eq,
    FilePlan.get?_of_consistent h, target, and_assoc]

theorem mem_insertionPoints_append {plan' : FilePlan} (h : PlansOnly (plan ++ plan') ts) {p : Nat} :
    p ∈ insertionPoints style (FilePlan.ofList (plan ++ plan')) ts ↔
      p ∈ insertionPoints style plan ts ++ insertionPoints style plan' ts := by
  have hplan : PlansOnly plan ts := fun entry hentry => h entry (List.mem_append_left _ hentry)
  have hplan' : PlansOnly plan' ts := fun entry hentry => h entry (List.mem_append_right _ hentry)
  have heq : insertionPoints style (FilePlan.ofList (plan ++ plan')) ts =
      insertionPoints style (plan ++ plan') ts := by
    simp only [insertionPoints, planned, FilePlan.get?_ofList_self h.consistent]
  rw [heq, List.mem_append, mem_insertionPoints h.consistent, mem_insertionPoints hplan.consistent,
    mem_insertionPoints hplan'.consistent]
  simp only [List.mem_append, or_and_right, and_or_left, exists_or]

/-- The places for a plan in a source with pieces put in: those for it in the source that got no piece,
each moved with the tokens around it. -/
theorem mem_insertionPoints_insertAt (h : Sited style points [] 0 ts) (hplain : PlainlyTyped ts)
    (hplan : PlansOnly plan ts) {r : Nat} :
    r ∈ insertionPoints style plan (insertAt style.tokens points 0 ts) ↔
      ∃ q ∈ insertionPoints style plan ts, q ∉ points ∧ shift style.tokens.length points q = r := by
  rw [mem_insertionPoints hplan.consistent]
  constructor
  · rintro ⟨c', hc', htarget, hr⟩
    obtain ⟨c, hc, heq⟩ := hplan _ htarget
    obtain ⟨haddress, hstart⟩ := Prod.mk.inj heq
    by_cases hplace : place style ts c ∈ points
    · rw [insertionPoint_of_fixed h hc (hplain c hc) hplace hc' haddress.symm hstart.symm] at hr
      cases hr
    · obtain ⟨c'', hc'', haddress', _, hmoved⟩ := exists_moved h hc (hplain c hc) hplace
      obtain rfl := candidate_eq_of_address hc' hc'' (haddress.symm.trans haddress'.symm)
      rw [hmoved, Option.map_eq_some_iff] at hr
      obtain ⟨q, hq, hqr⟩ := hr
      refine ⟨q, (mem_insertionPoints hplan.consistent).2 ⟨c, hc, heq ▸ htarget, hq⟩, ?_, hqr⟩
      rwa [eq_place_of_insertionPoint hc hq]
  · rintro ⟨q, hq, hfree, hqr⟩
    obtain ⟨c, hc, htarget, hcq⟩ := (mem_insertionPoints hplan.consistent).1 hq
    rw [eq_place_of_insertionPoint hc hcq] at hfree
    obtain ⟨c', hc', haddress, htype, hmoved⟩ := exists_moved h hc (hplain c hc) hfree
    refine ⟨c', hc', ?_, ?_⟩
    · rwa [target, haddress, htype]
    · rw [hmoved, hcq, Option.map_some, hqr]

/-- A candidate that a plan does not fix keeps its place free. -/
theorem place_notMem (hplain : PlainlyTyped ts) {c : Candidate} (hc : c ∈ candidates ts)
    (hfree : ∀ p, insertionPoint style ts c = some p → p ∉ insertionPoints style plan ts) :
    place style ts c ∉ insertionPoints style plan ts := by
  intro hmem
  obtain ⟨d, hd, hdp⟩ := List.mem_filterMap.1 hmem
  have hd' := (List.mem_filter.1 hd).1
  have heq := insertionPoint_eq_of_place hc hd' (hplain c hc) (hplain d hd')
    (eq_place_of_insertionPoint hd' hdp)
  exact hfree _ (heq.trans hdp) hmem

end Fix

theorem fixSource_eq_source (src : Bytes) (plan : FilePlan) (style : Style) :
    fixSource src plan style = Token.source (insertAt style.tokens
      (Fix.insertionPoints style plan (tokenize src)) 0 (tokenize src)) := by
  rw [source_insertAt, Style.source_tokens]
  rfl

theorem plansOnly_of_subset {file : Path} {src : Bytes} {plan : FilePlan}
    (h : plan ⊆ (scanSource file src).map Issue.target) : Fix.PlansOnly plan (tokenize src) := by
  intro entry hentry
  obtain ⟨i, hi, rfl⟩ := List.mem_map.1 (h hentry)
  obtain ⟨c, hc, rfl⟩ := List.mem_map.1 hi
  exact ⟨c, hc, rfl⟩

/-- One plan after another puts in what both ask for. -/
theorem fixSource_fixSource {src : Bytes} (style : Style) {P Q : FilePlan}
    (hplain : PlainlyTyped (tokenize src)) (hQ : Fix.PlansOnly Q (tokenize src)) :
    fixSource (fixSource src P style) Q style = Token.source (insertAt style.tokens
      (Fix.insertionPoints style P (tokenize src) ++ Fix.insertionPoints style Q (tokenize src)) 0
      (tokenize src)) := by
  have hsited := Fix.sited_insertionPoints style P hplain
  have hlater := insertAt_insertAt style.tokens
    (fun _ => Fix.mem_insertionPoints_insertAt hsited hplain hQ) 0 (tokenize src)
  rw [shift_zero] at hlater
  rw [fixSource_eq_source (fixSource src P style), (tokenize_fixSource P style hplain).1, hlater]

/-- Fixing in parts is fixing at once. Of a plainly typed source, let two plans name only candidates: then
one after the other, in either order, does what their union does; and a candidate that the first did not
fix is reported at the same coordinates afterwards. -/
theorem fixSource_parts (file : Path) {src : Bytes} (style : Style) {P Q : FilePlan}
    (hplain : PlainlyTyped (tokenize src))
    (hP : P ⊆ (scanSource file src).map Issue.target)
    (hQ : Q ⊆ (scanSource file src).map Issue.target) :
    fixSource (fixSource src P style) Q style = fixSource src (FilePlan.ofList (P ++ Q)) style ∧
      fixSource (fixSource src Q style) P style = fixSource src (FilePlan.ofList (P ++ Q)) style ∧
      ∀ c ∈ candidates (tokenize src),
        (∀ p, Fix.insertionPoint style (tokenize src) c = some p →
          p ∉ Fix.insertionPoints style P (tokenize src)) →
        (c.address, c.finding.type.start) ∈
          (scanSource file (fixSource src P style)).map Issue.target := by
  have hP' := plansOnly_of_subset hP
  have hQ' := plansOnly_of_subset hQ
  have hboth : Fix.PlansOnly (P ++ Q) (tokenize src) := fun entry hentry =>
    (List.mem_append.1 hentry).elim (hP' entry) (hQ' entry)
  have hunion : ∀ p, p ∈ Fix.insertionPoints style (FilePlan.ofList (P ++ Q)) (tokenize src) ↔
      p ∈ Fix.insertionPoints style P (tokenize src) ++
        Fix.insertionPoints style Q (tokenize src) :=
    fun _ => Fix.mem_insertionPoints_append hboth
  refine ⟨?_, ?_, fun c hc hfree => ?_⟩
  · rw [fixSource_fixSource style hplain hQ', fixSource_eq_source, insertAt_congr hunion]
  · rw [fixSource_fixSource style hplain hP', fixSource_eq_source, insertAt_congr hunion]
    refine congrArg Token.source (insertAt_congr (fun p => ?_) 0 (tokenize src))
    rw [List.mem_append, List.mem_append, or_comm]
  · obtain ⟨c', hc', haddress, htype, -⟩ :=
      Fix.exists_moved (Fix.sited_insertionPoints style P hplain) hc (hplain c hc)
        (Fix.place_notMem hplain hc hfree)
    rw [← (tokenize_fixSource P style hplain).1] at hc'
    rw [← haddress, ← htype]
    exact List.mem_map.2 ⟨_, List.mem_map.2 ⟨c', hc', rfl⟩, rfl⟩

/-- The tokens of `<?php fn($g = fn(B $b = null) => 1, A $a = null) => 2;`. -/
def nestedSample : List Token :=
  [⟨.openTag, utf8 "<?php"⟩, ⟨.whitespace, utf8 " "⟩, ⟨.keyword, utf8 "fn"⟩, ⟨.punct, utf8 "("⟩,
    ⟨.variableName, utf8 "$g"⟩, ⟨.whitespace, utf8 " "⟩, ⟨.punct, utf8 "="⟩,
    ⟨.whitespace, utf8 " "⟩, ⟨.keyword, utf8 "fn"⟩, ⟨.punct, utf8 "("⟩, ⟨.name, utf8 "B"⟩,
    ⟨.whitespace, utf8 " "⟩, ⟨.variableName, utf8 "$b"⟩, ⟨.whitespace, utf8 " "⟩,
    ⟨.punct, utf8 "="⟩, ⟨.whitespace, utf8 " "⟩, ⟨.name, utf8 "null"⟩, ⟨.punct, utf8 ")"⟩,
    ⟨.whitespace, utf8 " "⟩, ⟨.punct, utf8 "=>"⟩, ⟨.whitespace, utf8 " "⟩, ⟨.literal, utf8 "1"⟩,
    ⟨.punct, utf8 ","⟩, ⟨.whitespace, utf8 " "⟩, ⟨.name, utf8 "A"⟩, ⟨.whitespace, utf8 " "⟩,
    ⟨.variableName, utf8 "$a"⟩, ⟨.whitespace, utf8 " "⟩, ⟨.punct, utf8 "="⟩,
    ⟨.whitespace, utf8 " "⟩, ⟨.name, utf8 "null"⟩, ⟨.punct, utf8 ")"⟩, ⟨.whitespace, utf8 " "⟩,
    ⟨.punct, utf8 "=>"⟩, ⟨.whitespace, utf8 " "⟩, ⟨.literal, utf8 "2"⟩, ⟨.punct, utf8 ";"⟩]

theorem fixSource_parts_nestedSample :
    PlainlyTyped (tokenize (Token.source nestedSample)) ∧
      (scanSource ⟨utf8 "a.php"⟩ (Token.source nestedSample)).map Issue.target =
        [(⟨0, 1⟩, 0), (⟨1, 0⟩, 0)] ∧
      fixSource (fixSource (Token.source nestedSample) [(⟨1, 0⟩, 0)] .union) [(⟨0, 1⟩, 0)] .union =
        utf8 "<?php fn($g = fn(B|null $b = null) => 1, A|null $a = null) => 2;" ∧
      ((⟨0, 1⟩, 0) : Address × Nat) ∈ (scanSource ⟨utf8 "a.php"⟩
        (fixSource (Token.source nestedSample) [(⟨1, 0⟩, 0)] .union)).map Issue.target := by
  have hreads : Lexer.Reads ⟨false, false⟩ nestedSample := by decide
  have htokens : tokenize (Token.source nestedSample) = nestedSample := hreads
  have hplain : PlainlyTyped (tokenize (Token.source nestedSample)) := by
    rw [htokens]
    decide
  have htargets : (scanSource ⟨utf8 "a.php"⟩ (Token.source nestedSample)).map Issue.target =
      [(⟨0, 1⟩, 0), (⟨1, 0⟩, 0)] := by
    rw [scanSource, htokens]
    decide
  obtain ⟨hparts, -, hkept⟩ := fixSource_parts ⟨utf8 "a.php"⟩ .union (P := [(⟨1, 0⟩, 0)])
    (Q := [(⟨0, 1⟩, 0)]) hplain (by rw [htargets]; decide) (by rw [htargets]; decide)
  refine ⟨hplain, htargets, ?_, ?_⟩
  · rw [hparts, fixSource, htokens]
    decide
  · rw [htokens] at hkept
    have hunfixed : ∃ c ∈ candidates nestedSample, (c.address, c.finding.type.start) = (⟨0, 1⟩, 0) ∧
        Fix.insertionPoint .union nestedSample c = some 25 ∧
          25 ∉ Fix.insertionPoints .union [(⟨1, 0⟩, 0)] nestedSample := by
      decide
    obtain ⟨c, hc, heq, hpoint, hfree⟩ := hunfixed
    refine heq ▸ hkept c hc fun p hp => ?_
    rwa [← Option.some.inj (hpoint.symm.trans hp)]

end ExplicitNull
