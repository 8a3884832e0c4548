import ExplicitNull.Proofs.Blanks
import ExplicitNull.Proofs.PlainTypes

/-!
The inspection of a parameter as a matter of its tokens alone. A type is a run of tokens: it begins
with the first token before the variable that can start a type and goes on to the first that ends
one. Whether a parameter passes is told by that run and by the default behind the variable.
-/
namespace ExplicitNull

namespace Candidate

def endsType (t : Token) (rest : List Token) : Bool :=
  t.kind == .variableName || isReference t rest || t.isPunct "..." || t.kind == .modifier

def typeRun : List Token → List Token
  | [] => []
  | t :: rest => if endsType t rest then [] else t :: typeRun rest

theorem typeRun_eq (ts : List Token) : ts.take (typeLength ts) = typeRun ts := by
  induction ts with
  | nil => rfl
  | cons t rest ih =>
    rw [typeLength, typeRun]
    by_cases hends : endsType t rest
    · rw [if_pos hends, if_pos (by simpa [endsType, or_assoc] using hends), List.take_zero]
    · rw [if_neg hends, if_neg (by simpa [endsType, or_assoc] using hends), Nat.add_comm,
        List.take_succ_cons, ih]

theorem length_typeRun (ts : List Token) : (typeRun ts).length = typeLength ts := by
  induction ts with
  | nil => rfl
  | cons t rest ih =>
    rw [typeRun, typeLength]
    by_cases hends : endsType t rest
    · rw [if_pos hends, if_pos (by simpa [endsType, or_assoc] using hends), List.length_nil]
    · rw [if_neg hends, if_neg (by simpa [endsType, or_assoc] using hends), List.length_cons, ih,
        Nat.add_comm]

theorem typeRun_prefix (ts : List Token) : typeRun ts <+: ts := by
  rw [← typeRun_eq]
  exact List.take_prefix _ _

/-- A body cut before the first token of its type and behind it. -/
structure TypeAt (body front : List Token) (first : Token) (behind : List Token) : Prop where
  body_eq : body = front ++ first :: behind
  front_not : ∀ t ∈ front, startsType t = false ∧ t.kind ≠ .variableName
  starts : startsType first = true
  first_kind : first.kind ≠ .variableName
  variable_behind : ∃ t ∈ behind, t.kind = .variableName

theorem TypeAt.locateType {body front behind : List Token} {first : Token}
    (h : TypeAt body front first behind) :
    locateType body = some ⟨front.length, front.length + typeLength (first :: behind)⟩ := by
  obtain ⟨rfl, hfront, hstarts, hkind, u, hu, hvar⟩ := h
  have hnotVar : ∀ t ∈ front, (t.kind == .variableName) = false := by
    intro t ht
    simpa using (hfront t ht).2
  have hnotStart : ∀ t ∈ front, startsType t = false := fun t ht => (hfront t ht).1
  obtain ⟨v, hv⟩ : ∃ v, behind.findIdx? (·.kind == .variableName) = some v := by
    refine Option.ne_none_iff_exists'.1 fun hnone => ?_
    have := List.findIdx?_eq_none_iff.1 hnone u hu
    simp [hvar] at this
  have hindex : variableIndex? (front ++ first :: behind) = some (front.length + (v + 1)) := by
    rw [variableIndex?, List.findIdx?_append, List.findIdx?_eq_none_iff.2 hnotVar,
      List.findIdx?_cons, hv]
    simp [hkind]
    omega
  have htake : (front ++ first :: behind).take (front.length + (v + 1)) =
      front ++ first :: behind.take v := by
    rw [List.take_append, List.take_of_length_le (by omega), Nat.add_sub_cancel_left,
      List.take_succ_cons]
  rw [Candidate.locateType, hindex]
  dsimp only
  rw [htake, List.findIdx?_append, List.findIdx?_eq_none_iff.2 hnotStart, List.findIdx?_cons,
    hstarts]
  simp

/-- Where a type is located, the body can be cut around its first token. -/
theorem exists_typeAt {body : List Token} {type : Interval} (h : locateType body = some type) :
    ∃ front first behind, TypeAt body front first behind ∧
      type = ⟨front.length, front.length + typeLength (first :: behind)⟩ := by
  unfold Candidate.locateType at h
  split at h
  · simp at h
  rename_i v hv
  obtain ⟨hvlt, hvar, hbefore⟩ := List.findIdx?_eq_some_iff_getElem.1 hv
  obtain ⟨start, hstart, rfl⟩ := Option.map_eq_some_iff.1 h
  obtain ⟨hslt, hstarts, hfirst⟩ := List.findIdx?_eq_some_iff_getElem.1 hstart
  rw [List.length_take] at hslt
  rw [List.getElem_take] at hstarts
  have hdrop : body.drop start = body[start] :: body.drop (start + 1) :=
    List.drop_eq_getElem_cons (by omega)
  have hlen : (body.take start).length = start := by
    rw [List.length_take]
    omega
  refine ⟨body.take start, body[start], body.drop (start + 1), ⟨?_, ?_, hstarts, ?_, ?_⟩, ?_⟩
  · rw [← hdrop, List.take_append_drop]
  · intro u hu
    obtain ⟨j, hj, rfl⟩ := List.mem_iff_getElem.1 hu
    rw [hlen] at hj
    have hnot := hfirst j hj
    rw [List.getElem_take] at hnot ⊢
    exact ⟨by simpa using hnot, by simpa using hbefore j (by omega)⟩
  · simpa using hbefore start (by omega)
  · refine ⟨body[v], List.mem_iff_getElem?.2 ⟨v - (start + 1), ?_⟩, by simpa using hvar⟩
    have hsum : start + 1 + (v - (start + 1)) = v := by omega
    rw [List.getElem?_drop, hsum, List.getElem?_eq_getElem hvlt]
  · rw [hlen, ← hdrop]

theorem typeText_of_typeAt {body front behind : List Token} {first : Token}
    (h : TypeAt body front first behind) :
    typeText body ⟨front.length, front.length + typeLength (first :: behind)⟩ =
      Blank.trim (Token.source (typeRun (first :: behind))) := by
  rw [typeText, Interval.slice, h.body_eq]
  dsimp only
  rw [Nat.add_sub_cancel_left, List.drop_left, typeRun_eq]

def Passes (tokens : List Token) : Prop :=
  tokens.any (·.kind == .attributeOpen) = false ∧
    hasNullDefault (tokens.dropWhile Token.isTrivia) = true ∧
    ∃ front first behind, TypeAt (tokens.dropWhile Token.isTrivia) front first behind ∧
      isFixable (Blank.trim (Token.source (typeRun (first :: behind)))) = true

theorem exists_inspect_iff {ts : List Token} {param : Interval} :
    (∃ f, inspect ts param = some f) ↔ Passes (param.slice ts) := by
  constructor
  · rintro ⟨f, hf⟩
    obtain ⟨hregions, hattr, hnull, htype, hname, hfix⟩ := inspect_eq_some.1 hf
    rw [hregions] at hattr hnull htype hname
    have hbody := Signature.slice_body_of_noAttribute hattr
    rw [hbody] at hnull htype hname
    obtain ⟨front, first, behind, hat, htypeEq⟩ := exists_typeAt htype
    refine ⟨hattr, hnull, front, first, behind, hat, ?_⟩
    rw [← typeText_of_typeAt hat, ← htypeEq, ← hname]
    exact hfix
  · rintro ⟨hattr, hnull, front, first, behind, hat, hfix⟩
    have hbody := Signature.slice_body_of_noAttribute hattr
    let type : Interval := ⟨front.length, front.length + typeLength (first :: behind)⟩
    let name := typeText ((param.slice ts).dropWhile Token.isTrivia) type
    refine ⟨⟨Signature.splitLeading ts param, type, name⟩, inspect_eq_some.2
      ⟨rfl, hattr, ?_, ?_, ?_, ?_⟩⟩
    · rw [hbody]
      exact hnull
    · rw [hbody]
      exact hat.locateType
    · rw [hbody]
    · dsimp only [name, type]
      rw [typeText_of_typeAt hat]
      exact hfix

end Candidate

/-- A source has no candidates if no parameter of it passes. -/
theorem candidates_eq_nil_iff {ts : List Token} :
    candidates ts = [] ↔
      ∀ l ∈ parameterLists ts, ∀ param ∈ l.params, ¬Candidate.Passes (param.slice ts) := by
  constructor
  · intro h l hl param hparam hpasses
    obtain ⟨f, hf⟩ := Candidate.exists_inspect_iff.2 hpasses
    obtain ⟨n, hn⟩ := List.getElem?_of_mem hl
    obtain ⟨k, hk⟩ := List.getElem?_of_mem hparam
    have hmem : (⟨⟨n, k⟩, f⟩ : Candidate) ∈ candidates ts := mem_candidates.2 ⟨l, param, hn, hk, hf⟩
    simp [h] at hmem
  · intro h
    refine List.eq_nil_iff_forall_not_mem.2 fun c hc => ?_
    obtain ⟨l, param, hl, hparam, hf⟩ := mem_candidates.1 hc
    exact h l (List.mem_of_getElem? hl) param (List.mem_of_getElem? hparam)
      (Candidate.exists_inspect_iff.1 ⟨_, hf⟩)

end ExplicitNull
