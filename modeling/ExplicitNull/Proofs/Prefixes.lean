import ExplicitNull.Proofs.Settling

/-!
A parameter is read up to its variable. Where its body starts, where its type lies and how its text
reads is told by the tokens up to the first variable, and so is the place of its piece, counted from
the start of the body. What is behind the variable counts only for the default and for attributes.
-/
namespace ExplicitNull

open Candidate

theorem Interval.slice_append {α : Type} {r : Interval} {xs : List α} (h : r.stop ≤ xs.length)
    (ys : List α) : r.slice (xs ++ ys) = r.slice xs := by
  rcases Nat.le_total r.start r.stop with hle | hle
  · have hlen : r.stop - r.start ≤ (xs.drop r.start).length := by
      rw [List.length_drop]
      omega
    rw [slice, slice, List.drop_append_of_le_length (by omega), List.take_append_of_le_length hlen]
  · rw [slice, slice, Nat.sub_eq_zero_of_le hle, List.take_zero, List.take_zero]

def HasVariable (ts : List Token) : Prop := ∃ t ∈ ts, t.kind = .variableName

theorem HasVariable.exists_weight {ts : List Token} (h : HasVariable ts) :
    ∃ t ∈ ts, ¬t.isTrivia := by
  obtain ⟨t, ht, hkind⟩ := h
  exact ⟨t, ht, by simp [Token.isTrivia, hkind]⟩

theorem HasVariable.of_cons {t : Token} {ts : List Token} (h : HasVariable (t :: ts))
    (ht : t.kind ≠ .variableName) : HasVariable ts := by
  obtain ⟨u, hu, hkind⟩ := h
  rcases List.mem_cons.1 hu with rfl | hu
  · exact absurd hkind ht
  · exact ⟨u, hu, hkind⟩

namespace Candidate

variable {pre : List Token}

theorem variableIndex?_append (h : HasVariable pre) (more : List Token) :
    variableIndex? (pre ++ more) = variableIndex? pre := by
  obtain ⟨t, ht, hkind⟩ := h
  rcases hv : pre.findIdx? (·.kind == .variableName) with _ | v
  · have := List.findIdx?_eq_none_iff.1 hv t ht
    simp [hkind] at this
  · rw [variableIndex?, variableIndex?, List.findIdx?_append, hv]
    rfl

theorem exists_variableIndex? (h : HasVariable pre) : ∃ v, variableIndex? pre = some v := by
  obtain ⟨t, ht, hkind⟩ := h
  refine Option.ne_none_iff_exists'.1 fun hnone => ?_
  have := List.findIdx?_eq_none_iff.1 hnone t ht
  simp [hkind] at this

theorem endsType_append {t : Token} {ts : List Token} (h : HasVariable ts) (more : List Token) :
    endsType t (ts ++ more) = endsType t ts := by
  rw [endsType, endsType, Fix.isReference_append h.exists_weight]

theorem typeRun_append (h : HasVariable pre) (more : List Token) :
    typeRun (pre ++ more) = typeRun pre := by
  induction pre with
  | nil => simp [HasVariable] at h
  | cons t rest ih =>
    rw [List.cons_append, typeRun, typeRun]
    by_cases hkind : t.kind = .variableName
    · simp [endsType, hkind]
    · have hrest := h.of_cons hkind
      rw [endsType_append hrest, ih hrest]

theorem HasVariable.drop {v : Nat} (hv : variableIndex? pre = some v) {i : Nat} (hi : i ≤ v) :
    HasVariable (pre.drop i) := by
  obtain ⟨t, ht, hkind⟩ := variableIndex?_eq_some hv
  obtain ⟨n, rfl⟩ := Nat.exists_eq_add_of_le hi
  rw [← List.getElem?_drop] at ht
  exact ⟨t, List.mem_of_getElem? ht, hkind⟩

theorem locateType_append (h : HasVariable pre) (more : List Token) :
    locateType (pre ++ more) = locateType pre := by
  obtain ⟨v, hv⟩ := exists_variableIndex? h
  obtain ⟨hvlt, _, _⟩ := List.findIdx?_eq_some_iff_getElem.1 hv
  rw [locateType, locateType, variableIndex?_append h, hv]
  dsimp only
  rw [List.take_append_of_le_length (Nat.le_of_lt hvlt)]
  refine Option.map_congr fun start hstart => ?_
  obtain ⟨hlt, _, _⟩ := List.findIdx?_eq_some_iff_getElem.1 hstart
  rw [List.length_take] at hlt
  rw [List.drop_append_of_le_length (by omega), ← length_typeRun, ← length_typeRun,
    typeRun_append (HasVariable.drop hv (by omega))]

theorem stop_le_of_locateType {body : List Token} {type : Interval}
    (h : locateType body = some type) : type.stop ≤ body.length := by
  obtain ⟨v, _, hv, hlt, _, _, hstop⟩ := locateType_eq_some h
  obtain ⟨hvlt, _, _⟩ := List.findIdx?_eq_some_iff_getElem.1 hv
  have hrun := typeRun_prefix (body.drop type.start)
  have hle := hrun.length_le
  rw [length_typeRun, List.length_drop] at hle
  omega

end Candidate

namespace Fix

variable {pre : List Token}

theorem typeEnd_append {v : Nat} (hv : variableIndex? pre = some v) (more : List Token) (start : Nat)
    {i : Nat} (hi : i ≤ v) : typeEnd (pre ++ more) start i = typeEnd pre start i := by
  induction i with
  | zero => rfl
  | succ i ih =>
    obtain ⟨hvlt, _, _⟩ := List.findIdx?_eq_some_iff_getElem.1 hv
    have hweight := (HasVariable.drop hv hi).exists_weight
    rw [typeEnd, typeEnd, ih (by omega), List.getElem?_append_left (by omega),
      List.drop_append_of_le_length (by omega)]
    simp only [isBetween_append hweight]

theorem typeEnd_le (body : List Token) (start i : Nat) : typeEnd body start i ≤ i := by
  induction i with
  | zero => exact Nat.le_refl _
  | succ i ih =>
    rw [typeEnd]
    split <;> omega

def insertionOffset (style : Style) (body : List Token) (start : Nat) : Option Nat :=
  match style with
  | .mark => some start
  | .union =>
    (variableIndex? body).bind fun v =>
      let last := typeEnd body start v
      if last < start ∨ (Interval.slice ⟨start, last + 1⟩ body).any admitsNull then none
      else some (last + 1)

theorem insertionPoint_eq (style : Style) (ts : List Token) (c : Candidate) :
    insertionPoint style ts c = (insertionOffset style (c.body ts) c.finding.type.start).map
      (c.finding.regions.body.start + ·) := by
  cases style with
  | mark => rfl
  | union =>
    rw [insertionPoint, insertionOffset]
    dsimp only
    rcases variableIndex? (c.body ts) with _ | v
    · rfl
    · dsimp only [Option.bind_some]
      split
      · rfl
      · rfl

theorem insertionOffset_le {style : Style} {body : List Token} {start v o : Nat}
    (hv : variableIndex? body = some v) (hstart : start < v)
    (ho : insertionOffset style body start = some o) : o ≤ v := by
  cases style with
  | mark =>
    obtain rfl : start = o := Option.some.inj ho
    exact Nat.le_of_lt hstart
  | union =>
    have hbounds := typeEnd_bounds body hstart
    rw [insertionOffset, hv] at ho
    dsimp only [Option.bind_some] at ho
    split at ho
    · cases ho
    · rw [← Option.some.inj ho]
      exact hbounds.2

theorem insertionOffset_append (style : Style) (h : HasVariable pre) (more : List Token)
    (start : Nat) : insertionOffset style (pre ++ more) start = insertionOffset style pre start := by
  cases style with
  | mark => rfl
  | union =>
    obtain ⟨v, hv⟩ := exists_variableIndex? h
    rw [insertionOffset, insertionOffset, variableIndex?_append h, hv]
    dsimp only [Option.bind_some]
    obtain ⟨hvlt, _, _⟩ := List.findIdx?_eq_some_iff_getElem.1 hv
    have hle := typeEnd_le pre start v
    rw [typeEnd_append hv more start (Nat.le_refl v),
      Interval.slice_append (by dsimp only; omega)]

end Fix

namespace Candidate

variable {ts ts' pre rest rest' : List Token} {param param' : Interval}

theorem HasVariable.dropWhile (h : HasVariable pre) : HasVariable (pre.dropWhile Token.isTrivia) := by
  obtain ⟨t, ht, hkind⟩ := h
  rw [← List.takeWhile_append_dropWhile (p := Token.isTrivia) (l := pre), List.mem_append] at ht
  refine ⟨t, ht.resolve_left fun hlead => ?_, hkind⟩
  have htrivia := List.all_eq_true.1 List.all_takeWhile t hlead
  simp [Token.isTrivia, hkind] at htrivia

/-- Where the body of a parameter starts that has a variable. -/
theorem body_of_prefix (hslice : param.slice ts = pre ++ rest) (h : HasVariable pre)
    (hattr : (param.slice ts).any (·.kind == .attributeOpen) = false) :
    (Signature.splitLeading ts param).body.slice ts = pre.dropWhile Token.isTrivia ++ rest ∧
      (Signature.splitLeading ts param).body.start =
        param.start + (pre.takeWhile Token.isTrivia).length := by
  obtain ⟨t, body, hbody⟩ : ∃ t body, pre.dropWhile Token.isTrivia = t :: body := by
    obtain ⟨t, ht, _⟩ := HasVariable.dropWhile h
    exact List.exists_cons_of_ne_nil (List.ne_nil_of_mem ht)
  have hlead : ∀ t ∈ pre.takeWhile Token.isTrivia, t.isTrivia :=
    fun t ht => List.all_eq_true.1 List.all_takeWhile t ht
  have hweight : t.isTrivia = false := by
    have := List.head?_dropWhile_not Token.isTrivia pre
    simpa [hbody] using this
  have hsplit : param.slice ts = pre.takeWhile Token.isTrivia ++ t :: (body ++ rest) := by
    rw [hslice, ← List.cons_append, ← hbody, ← List.append_assoc, List.takeWhile_append_dropWhile]
  constructor
  · rw [Signature.slice_body_of_noAttribute hattr, hsplit, List.dropWhile_append_of_pos hlead,
      List.dropWhile_cons_of_neg (by simp [hweight]), hbody, List.cons_append]
  · change param.start + Signature.leadingLength 0 (param.slice ts) = _
    rw [Signature.leadingLength_of_noAttribute hattr, hsplit, List.takeWhile_append_of_pos hlead,
      List.takeWhile_cons_of_neg (by simp [hweight]), List.append_nil]

/-- Two parameters that agree up to a variable are inspected alike. -/
theorem inspect_of_prefix {f : Finding} (hslice : param.slice ts = pre ++ rest)
    (hslice' : param'.slice ts' = pre ++ rest') (h : HasVariable pre)
    (hattr : (param'.slice ts').any (·.kind == .attributeOpen) =
      (param.slice ts).any (·.kind == .attributeOpen))
    (hnull : hasNullDefault (pre.dropWhile Token.isTrivia ++ rest') =
      hasNullDefault (pre.dropWhile Token.isTrivia ++ rest))
    (hf : inspect ts param = some f) :
    inspect ts' param' = some ⟨Signature.splitLeading ts' param', f.type, f.typeName⟩ := by
  obtain ⟨hregions, hattr₀, hnull₀, hlocated, hname, hfix⟩ := inspect_eq_some.1 hf
  rw [hregions] at hattr₀ hnull₀ hlocated hname
  obtain ⟨hbody, -⟩ := body_of_prefix hslice h hattr₀
  obtain ⟨hbody', -⟩ := body_of_prefix hslice' h (hattr.trans hattr₀)
  have hvar := HasVariable.dropWhile h
  rw [hbody] at hnull₀ hlocated hname
  rw [locateType_append hvar] at hlocated
  refine inspect_eq_some.2 ⟨rfl, hattr.trans hattr₀, ?_, ?_, ?_, hfix⟩
  · rw [hbody', hnull, hnull₀]
  · rw [hbody', locateType_append hvar, hlocated]
  · have hstop := stop_le_of_locateType hlocated
    rw [hname, hbody', typeText, typeText, Interval.slice_append hstop, Interval.slice_append hstop]

end Candidate

end ExplicitNull
