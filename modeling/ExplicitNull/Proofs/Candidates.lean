import ExplicitNull.Fix

/-!
Where candidates come from and where their pieces go. A candidate is a parameter that passes its
inspection, found again by its address. The piece of a candidate goes before the first token of its
type or between that token and the variable, which is a place in the body of the parameter.
-/
namespace ExplicitNull

theorem Interval.getElem?_slice {α : Type} {r : Interval} {xs : List α} {k : Nat} {x : α}
    (h : (r.slice xs)[k]? = some x) : r.start + k < r.stop ∧ xs[r.start + k]? = some x := by
  rw [slice, List.getElem?_take] at h
  split at h
  · rw [List.getElem?_drop] at h
    exact ⟨by omega, h⟩
  · simp at h

theorem Interval.mem_slice {α : Type} {r : Interval} {xs : List α} {k : Nat} {x : α}
    (hstart : r.start ≤ k) (hstop : k < r.stop) (h : xs[k]? = some x) : x ∈ r.slice xs := by
  refine List.mem_of_getElem? (i := k - r.start) ?_
  rw [slice, List.getElem?_take_of_lt (by omega), List.getElem?_drop, Nat.add_sub_cancel' hstart, h]

theorem Interval.slice_slice {α : Type} {r s : Interval} {xs : List α}
    (h : s.stop ≤ (r.slice xs).length) :
    s.slice (r.slice xs) = Interval.slice ⟨r.start + s.start, r.start + s.stop⟩ xs := by
  rw [slice, List.length_take] at h
  rw [slice, slice, slice, List.drop_take, List.take_take, List.drop_drop]
  congr 1
  dsimp only
  omega

theorem functionIndex_of_getElem? {ts : List Token} {k : Nat} {l : ParamList}
    (h : (parameterLists ts)[k]? = some l) : l.functionIndex = k := by
  rw [parameterLists, List.getElem?_mapIdx] at h
  obtain ⟨o, _, rfl⟩ := Option.map_eq_some_iff.1 h
  rfl

namespace Candidate

/-- What an accepted parameter is accepted for. -/
structure Accepts (ts : List Token) (param : Interval) (f : Finding) : Prop where
  regions_eq : f.regions = Signature.splitLeading ts param
  noAttribute : f.regions.hasAttribute = false
  nullDefault : hasNullDefault (f.regions.body.slice ts) = true
  located : locateType (f.regions.body.slice ts) = some f.type
  typeName_eq : f.typeName = typeText (f.regions.body.slice ts) f.type
  fixable : isFixable f.typeName = true

theorem inspect_eq_some {ts : List Token} {param : Interval} {f : Finding} :
    inspect ts param = some f ↔ Accepts ts param f := by
  unfold inspect
  extract_lets regions body
  constructor
  · intro h
    split at h
    · simp at h
    · rename_i hchecks
      simp only [Bool.or_eq_true, Bool.not_eq_true', not_or, Bool.not_eq_false] at hchecks
      split at h
      · simp at h
      · rename_i type htype
        dsimp only at h
        split at h
        · rename_i hfix
          obtain rfl := Option.some.inj h
          exact ⟨rfl, by simpa using hchecks.1, by simpa using hchecks.2, htype, rfl, hfix⟩
        · simp at h
  · rintro ⟨hregions, hattr, hnull, htype, hname, hfix⟩
    obtain ⟨regions', type, typeName⟩ := f
    dsimp only at hregions hattr hnull htype hname hfix
    subst hregions hname
    simp [regions, body, hattr, hnull, htype, hfix]

theorem mem_ofList {ts : List Token} {l : ParamList} {c : Candidate} :
    c ∈ ofList ts l ↔ c.address.functionIndex = l.functionIndex ∧
      ∃ param, l.params[c.address.paramIndex]? = some param ∧
        inspect ts param = some c.finding := by
  obtain ⟨⟨functionIndex, paramIndex⟩, finding⟩ := c
  simp only [ofList, List.mem_filterMap, List.mem_mapIdx, id_eq]
  constructor
  · rintro ⟨_, ⟨k, hk, rfl⟩, hsome⟩
    obtain ⟨f, hf, heq⟩ := Option.map_eq_some_iff.1 hsome
    obtain ⟨⟨rfl, rfl⟩, rfl⟩ := by simpa using heq
    exact ⟨rfl, l.params[k], List.getElem?_eq_getElem hk, hf⟩
  · rintro ⟨rfl, param, hparam, hf⟩
    obtain ⟨hk, rfl⟩ := List.getElem?_eq_some_iff.1 hparam
    exact ⟨_, ⟨paramIndex, hk, rfl⟩, by simp [hf]⟩

end Candidate

theorem mem_candidates {ts : List Token} {c : Candidate} :
    c ∈ candidates ts ↔
      ∃ l param, (parameterLists ts)[c.address.functionIndex]? = some l ∧
        l.params[c.address.paramIndex]? = some param ∧
        Candidate.inspect ts param = some c.finding := by
  simp only [candidates, List.mem_flatMap, Candidate.mem_ofList]
  constructor
  · rintro ⟨l, hl, haddress, param, hparam, hf⟩
    obtain ⟨k, hk⟩ := List.getElem?_of_mem hl
    rw [functionIndex_of_getElem? hk] at haddress
    exact ⟨l, param, haddress ▸ hk, hparam, hf⟩
  · rintro ⟨l, param, hl, hparam, hf⟩
    exact ⟨l, List.mem_of_getElem? hl, (functionIndex_of_getElem? hl).symm, param, hparam, hf⟩

theorem candidate_eq_of_address {ts : List Token} {c d : Candidate} (hc : c ∈ candidates ts)
    (hd : d ∈ candidates ts) (h : c.address = d.address) : c = d := by
  obtain ⟨l, param, hl, hparam, hf⟩ := mem_candidates.1 hc
  obtain ⟨l', param', hl', hparam', hf'⟩ := mem_candidates.1 hd
  rw [← h] at hl' hparam'
  obtain rfl : l = l' := Option.some.inj (hl.symm.trans hl')
  obtain rfl : param = param' := Option.some.inj (hparam.symm.trans hparam')
  obtain ⟨_, finding⟩ := c
  obtain ⟨_, finding'⟩ := d
  obtain rfl : finding = finding' := Option.some.inj (hf.symm.trans hf')
  exact congrArg (Candidate.mk · finding) h

/-- The inspection that a candidate has passed. -/
theorem exists_accepts_of_mem {ts : List Token} {c : Candidate} (h : c ∈ candidates ts) :
    ∃ l ∈ parameterLists ts, ∃ param ∈ l.params, Candidate.Accepts ts param c.finding := by
  obtain ⟨l, param, hl, hparam, hf⟩ := mem_candidates.1 h
  exact ⟨l, List.mem_of_getElem? hl, param, List.mem_of_getElem? hparam,
    Candidate.inspect_eq_some.1 hf⟩

namespace Candidate

theorem variableIndex?_eq_some {body : List Token} {v : Nat} (h : variableIndex? body = some v) :
    ∃ t, body[v]? = some t ∧ t.kind = .variableName := by
  obtain ⟨hv, hkind, _⟩ := List.findIdx?_eq_some_iff_getElem.1 h
  exact ⟨body[v], List.getElem?_eq_getElem hv, by simpa using hkind⟩

/-- The type of an accepted parameter starts before its variable, with a token that can. -/
theorem locateType_eq_some {body : List Token} {type : Interval} (h : locateType body = some type) :
    ∃ v t, variableIndex? body = some v ∧ type.start < v ∧ body[type.start]? = some t ∧
      startsType t ∧ type.stop = type.start + typeLength (body.drop type.start) := by
  unfold locateType at h
  split at h
  · simp at h
  · rename_i v hv
    obtain ⟨start, hstart, rfl⟩ := Option.map_eq_some_iff.1 h
    obtain ⟨hlt, ht, _⟩ := List.findIdx?_eq_some_iff_getElem.1 hstart
    have hbefore : start < v := by
      rw [List.length_take] at hlt
      omega
    refine ⟨v, (body.take v)[start], hv, hbefore, ?_, ht, rfl⟩
    rw [← List.getElem?_eq_getElem hlt, List.getElem?_take, if_pos hbefore]

end Candidate

namespace Fix

/-- The walk back from the variable stays between the first token of the type and the variable. -/
theorem typeEnd_bounds (body : List Token) {start i : Nat} (h : start < i) :
    start ≤ typeEnd body start i ∧ typeEnd body start i < i := by
  induction i with
  | zero => omega
  | succ i ih =>
    rw [typeEnd]
    split
    · rename_i hback
      have := ih hback.1
      omega
    · omega

end Fix

end ExplicitNull
