import ExplicitNull.Proofs.Candidates
import ExplicitNull.Proofs.Signatures
import Mathlib.Data.List.TakeWhile

/-!
Plainly typed parameters: before the variable there are only trivia and modifiers, then one name,
then only trivia, `&` and `...`. Where a piece goes into such a parameter is told by the tokens read
up to there, back to the token that opens the parameter, and by those up to the variable.
-/
namespace ExplicitNull

namespace Token

def precedesType (t : Token) : Bool := t.isTrivia || t.kind == .modifier

def followsType (t : Token) : Bool := t.isTrivia || t.isPunct "&" || t.isPunct "..."

/-- What a parameter with a plain type begins with, the token that opens it included. -/
def isPlain (t : Token) : Bool :=
  t.opensParameter || t.precedesType || t.kind == .name || t.followsType

end Token

namespace Candidate

/-- Whether one name and what may stand around it is all that is before the variable. -/
def hasPlainType (body : List Token) : Bool :=
  match (body.takeWhile (·.kind != .variableName)).dropWhile Token.precedesType with
  | [] => false
  | t :: behind => t.kind == .name && behind.all Token.followsType

end Candidate

def PlainlyTyped (ts : List Token) : Prop := ∀ c ∈ candidates ts, Candidate.hasPlainType (c.body ts)

instance (ts : List Token) : Decidable (PlainlyTyped ts) :=
  inferInstanceAs (Decidable (∀ c ∈ candidates ts, Candidate.hasPlainType (c.body ts)))

namespace Fix

/-- Whether the tokens read so far, the last one first, end with the start of a parameter whose
type has not begun. -/
def opened : List Token → Bool
  | [] => false
  | t :: done => t.opensParameter || (t.precedesType && opened done)

/-- Whether the tokens read so far, the last one first, end with a parameter up to the name of its
type or behind it. -/
def named : List Token → Bool
  | [] => false
  | t :: done => (t.kind == .name && opened done) || (t.followsType && named done)

/-- Whether only what may stand between a type and its variable is before the first variable. -/
def leadsToVariable : List Token → Bool
  | [] => false
  | t :: rest => t.kind == .variableName || (isBetween t rest && leadsToVariable rest)

/-- Whether the piece of a style may go between the tokens read so far and the others, which are a
first one and `rest`. -/
def Site (style : Style) (done : List Token) (t : Token) (rest : List Token) : Prop :=
  match style with
  | .mark => opened done ∧ t.kind = .name
  | .union => named done ∧ leadsToVariable (t :: rest) ∧ ∀ u ∈ done.head?, ¬isBetween u (t :: rest)

def SiteAt (style : Style) (ts : List Token) (p : Nat) : Prop :=
  ∃ before t after, ts = before ++ t :: after ∧ before.length = p ∧ Site style before.reverse t after

def Sited (style : Style) (points : List Nat) (done : List Token) (i : Nat) : List Token → Prop
  | [] => True
  | t :: rest =>
    (i ∈ points → Site style done t rest) ∧ Sited style points (t :: done) (i + 1) rest

end Fix

theorem Token.not_isPunct_of_kind {t : Token} (h : t.kind ≠ .punct) (s : String) :
    t.isPunct s = false := by
  simp [isPunct, h]

theorem drop_length_takeWhile {α : Type} (p : α → Bool) (xs : List α) :
    xs.drop (xs.takeWhile p).length = xs.dropWhile p := by
  induction xs with
  | nil => rfl
  | cons x xs ih => by_cases hx : p x <;> simp [hx, ih]

namespace Signature

/-- Without attributes only trivia are in front of the body. -/
theorem leadingLength_of_noAttribute {tokens : List Token}
    (h : tokens.any (·.kind == .attributeOpen) = false) :
    leadingLength 0 tokens = (tokens.takeWhile Token.isTrivia).length := by
  induction tokens with
  | nil => rfl
  | cons t rest ih =>
    obtain ⟨hkind, hrest⟩ := by simpa using h
    have hrest' : rest.any (·.kind == .attributeOpen) = false := by simpa using hrest
    rw [leadingLength, List.takeWhile_cons]
    by_cases ht : t.isTrivia
    · rw [if_pos ht, if_pos ht, ih hrest', List.length_cons, Nat.add_comm]
    · rw [if_neg ht, if_neg ht, if_neg hkind]
      rfl

theorem slice_body (ts : List Token) (param : Interval) :
    (splitLeading ts param).body.slice ts =
      (param.slice ts).drop (leadingLength 0 (param.slice ts)) := by
  simp only [splitLeading, Interval.slice, List.drop_take, List.drop_drop]
  congr 1
  omega

theorem slice_body_of_noAttribute {ts : List Token} {param : Interval}
    (h : (param.slice ts).any (·.kind == .attributeOpen) = false) :
    (splitLeading ts param).body.slice ts = (param.slice ts).dropWhile Token.isTrivia := by
  rw [slice_body, leadingLength_of_noAttribute h, drop_length_takeWhile]

end Signature

namespace Candidate

structure PlainParts (front : List Token) (name : Token) (behind : List Token)
    (var : Token) : Prop where
  front_precedes : ∀ t ∈ front, t.precedesType
  name_kind : name.kind = .name
  behind_follows : ∀ t ∈ behind, t.followsType
  var_kind : var.kind = .variableName

theorem exists_plainParts {body : List Token} {v : Nat} (hv : variableIndex? body = some v)
    (h : hasPlainType body) :
    ∃ front name behind var rest, PlainParts front name behind var ∧
      body = front ++ name :: (behind ++ var :: rest) := by
  unfold hasPlainType at h
  split at h
  · simp at h
  · rename_i name behind hdrop
    obtain ⟨hname, hbehind⟩ := by simpa using h
    obtain ⟨t, ht, hkind⟩ := variableIndex?_eq_some hv
    have hmem : t ∈ body := List.mem_of_getElem? ht
    have hsplit := List.takeWhile_append_dropWhile (l := body) (p := (·.kind != .variableName))
    rcases hrest : body.dropWhile (·.kind != .variableName) with _ | ⟨var, rest⟩
    · have hall := List.dropWhile_eq_nil_iff.1 hrest _ hmem
      simp [hkind] at hall
    · have hvar : var.kind = .variableName := by
        have hhead := List.head?_dropWhile_not (fun u : Token => u.kind != .variableName) body
        simpa [hrest] using hhead
      have hbefore := List.takeWhile_append_dropWhile (p := Token.precedesType)
        (l := body.takeWhile (·.kind != .variableName))
      refine ⟨(body.takeWhile (·.kind != .variableName)).takeWhile Token.precedesType, name,
        behind, var, rest, ⟨?_, hname, hbehind, hvar⟩, ?_⟩
      · exact fun u hu => List.all_eq_true.1 List.all_takeWhile u hu
      · rw [hdrop] at hbefore
        conv_lhs => rw [← hsplit, ← hbefore, hrest]
        simp

variable {front behind rest : List Token} {name var : Token}

theorem PlainParts.variableIndex? (h : PlainParts front name behind var) :
    variableIndex? (front ++ name :: (behind ++ var :: rest)) =
      some (front.length + 1 + behind.length) := by
  have hfront : ∀ t ∈ front, (t.kind == .variableName) = false := by
    intro t ht
    have := h.front_precedes t ht
    grind [Token.precedesType, Token.isTrivia]
  have hbehind : ∀ t ∈ behind, (t.kind == .variableName) = false := by
    intro t ht
    have := h.behind_follows t ht
    grind [Token.followsType, Token.isTrivia, Token.isPunct]
  rw [Candidate.variableIndex?, List.findIdx?_append, List.findIdx?_eq_none_iff.2 hfront,
    List.findIdx?_cons, h.name_kind, List.findIdx?_append, List.findIdx?_eq_none_iff.2 hbehind,
    List.findIdx?_cons, h.var_kind]
  simp
  omega

theorem not_startsType_of_precedesType {t : Token} (h : t.precedesType) : startsType t = false := by
  grind [Token.precedesType, startsType]

theorem PlainParts.type_start (h : PlainParts front name behind var) {type : Interval}
    (ht : locateType (front ++ name :: (behind ++ var :: rest)) = some type) :
    type.start = front.length := by
  have hfront : ∀ t ∈ front, startsType t = false :=
    fun t ht => not_startsType_of_precedesType (h.front_precedes t ht)
  have hname : startsType name = true := by
    simp [startsType, Token.isTrivia, h.name_kind]
  have htake : (front ++ name :: (behind ++ var :: rest)).take
      (front.length + 1 + behind.length) = front ++ name :: behind := by
    rw [List.take_append, List.take_of_length_le (by omega)]
    have hlen : front.length + 1 + behind.length - front.length = behind.length + 1 := by omega
    rw [hlen, List.take_succ_cons, List.take_left]
  rw [locateType, h.variableIndex?] at ht
  dsimp only at ht
  rw [htake, List.findIdx?_append, List.findIdx?_eq_none_iff.2 hfront, List.findIdx?_cons,
    hname] at ht
  simp only [if_true, Option.map_some, Option.none_or, Nat.zero_add] at ht
  rw [← Option.some.inj ht]

/-- Where the body of a candidate lies: behind trivia and the token that opens the parameter. -/
theorem exists_around {ts : List Token} {c : Candidate} (h : c ∈ candidates ts) :
    ∃ pre o lead post, ts = pre ++ o :: (lead ++ (c.body ts ++ post)) ∧ o.opensParameter ∧
      (∀ t ∈ lead, t.isTrivia) ∧
      c.finding.regions.body.start = pre.length + 1 + lead.length := by
  obtain ⟨l, hl, param, hparam, haccepts⟩ := exists_accepts_of_mem h
  obtain ⟨pre, o, u, post, hts, hstart, _, hopens, _⟩ := exists_split_of_mem hl hparam
  have hattr : (param.slice ts).any (·.kind == .attributeOpen) = false := by
    have := haccepts.noAttribute
    rwa [haccepts.regions_eq] at this
  have hlead := Signature.leadingLength_of_noAttribute hattr
  have hbody : c.body ts = (param.slice ts).dropWhile Token.isTrivia := by
    rw [Candidate.body, haccepts.regions_eq, Signature.slice_body_of_noAttribute hattr]
  refine ⟨pre, o, (param.slice ts).takeWhile Token.isTrivia, u :: post, ?_, hopens,
    fun t ht => List.all_eq_true.1 List.all_takeWhile t ht, ?_⟩
  · rw [hbody, ← List.append_assoc, List.takeWhile_append_dropWhile]
    exact hts
  · rw [haccepts.regions_eq, ← hlead, ← hstart]
    rfl

end Candidate

namespace Fix

theorem opened_append {front done : List Token} (hfront : ∀ t ∈ front, t.precedesType)
    (h : opened done) : opened (front.reverse ++ done) := by
  induction front generalizing done with
  | nil => exact h
  | cons t front ih =>
    rw [List.reverse_cons, List.append_assoc]
    refine ih (fun u hu => hfront u (List.mem_cons_of_mem _ hu)) ?_
    simp [opened, hfront t (List.mem_cons_self ..), h]

theorem named_append {behind done : List Token} (hbehind : ∀ t ∈ behind, t.followsType)
    (h : named done) : named (behind.reverse ++ done) := by
  induction behind generalizing done with
  | nil => exact h
  | cons t behind ih =>
    rw [List.reverse_cons, List.append_assoc]
    refine ih (fun u hu => hbehind u (List.mem_cons_of_mem _ hu)) ?_
    simp [named, hbehind t (List.mem_cons_self ..), h]

/-- Whether a token is a reference is told by the first token of weight behind it. -/
theorem isReference_append {rest : List Token} (h : ∃ t ∈ rest, ¬t.isTrivia) (u : Token)
    (more : List Token) :
    Candidate.isReference u (rest ++ more) = Candidate.isReference u rest := by
  obtain ⟨t, ht, hweight⟩ := h
  rcases hfind : rest.find? (!·.isTrivia) with _ | w
  · have := List.find?_eq_none.1 hfind t ht
    simp [hweight] at this
  · simp [Candidate.isReference, List.find?_append, hfind]

theorem isBetween_append {rest : List Token} (h : ∃ t ∈ rest, ¬t.isTrivia) (u : Token)
    (more : List Token) : isBetween u (rest ++ more) = isBetween u rest := by
  rw [isBetween, isBetween, isReference_append h]

theorem exists_weight_of_leadsToVariable {ts : List Token} (h : leadsToVariable ts) :
    ∃ t ∈ ts, ¬t.isTrivia := by
  induction ts with
  | nil => simp [leadsToVariable] at h
  | cons t rest ih =>
    rw [leadsToVariable, Bool.or_eq_true, Bool.and_eq_true] at h
    rcases h with hkind | ⟨_, hrest⟩
    · exact ⟨t, List.mem_cons_self .., by simp [Token.isTrivia, eq_of_beq hkind]⟩
    · obtain ⟨u, hu, hweight⟩ := ih hrest
      exact ⟨u, List.mem_cons_of_mem _ hu, hweight⟩

theorem leadsToVariable_append {ts : List Token} (h : leadsToVariable ts) (more : List Token) :
    leadsToVariable (ts ++ more) := by
  induction ts with
  | nil => simp [leadsToVariable] at h
  | cons t rest ih =>
    rw [leadsToVariable, Bool.or_eq_true, Bool.and_eq_true] at h
    rw [List.cons_append, leadsToVariable, Bool.or_eq_true, Bool.and_eq_true]
    refine h.imp_right fun ⟨hbetween, hrest⟩ => ?_
    rw [isBetween_append (exists_weight_of_leadsToVariable hrest)]
    exact ⟨hbetween, ih hrest⟩

theorem leadsToVariable_drop {body : List Token} {v i : Nat} {var : Token} (hi : i ≤ v)
    (hv : body[v]? = some var) (hvar : var.kind = .variableName)
    (h : ∀ j, i ≤ j → j < v → ∃ t, body[j]? = some t ∧ isBetween t (body.drop (j + 1))) :
    leadsToVariable (body.drop i) := by
  obtain ⟨n, rfl⟩ := Nat.exists_eq_add_of_le hi
  induction n generalizing i with
  | zero =>
    rw [Nat.add_zero] at hv
    obtain ⟨hlt, rfl⟩ := List.getElem?_eq_some_iff.1 hv
    rw [List.drop_eq_getElem_cons hlt, leadsToVariable]
    simp [hvar]
  | succ n ih =>
    obtain ⟨t, ht, hbetween⟩ := h i (Nat.le_refl _) (by omega)
    obtain ⟨hlt, rfl⟩ := List.getElem?_eq_some_iff.1 ht
    have hsum : i + (n + 1) = i + 1 + n := by omega
    have hrest := ih (i := i + 1) (by omega) (hsum ▸ hv) fun j hj hjv => h j (by omega) (by omega)
    rw [List.drop_eq_getElem_cons hlt, leadsToVariable, hbetween, hrest]
    simp

/-- The walk back from the variable passes what may stand in between, and no more. -/
theorem typeEnd_spec {body : List Token} {start i : Nat} (h : start < i) (hi : i ≤ body.length) :
    (∀ j, typeEnd body start i < j → j < i →
      ∃ t, body[j]? = some t ∧ isBetween t (body.drop (j + 1))) ∧
    (start < typeEnd body start i → ∀ t, body[typeEnd body start i]? = some t →
      ¬isBetween t (body.drop (typeEnd body start i + 1))) := by
  induction i with
  | zero => omega
  | succ i ih =>
    rw [typeEnd]
    have hget : body[i]? = some body[i] := List.getElem?_eq_getElem (by omega)
    by_cases hback : start < i ∧ body[i]?.any fun t => isBetween t (body.drop (i + 1))
    · rw [if_pos hback]
      obtain ⟨hbetween, hstop⟩ := ih hback.1 (by omega)
      refine ⟨fun j hj hji => ?_, hstop⟩
      rcases Nat.lt_or_ge j i with hlt | hge
      · exact hbetween j hj hlt
      · obtain rfl : j = i := by omega
        exact ⟨body[j], hget, by simpa [hget] using hback.2⟩
    · rw [if_neg hback]
      refine ⟨fun j hj hji => by omega, fun hstart t ht hbetween => hback ⟨hstart, ?_⟩⟩
      rw [ht, Option.any_some]
      exact hbetween

/-- A candidate with a plain type in its source: what is before its body, which opens a parameter,
and the parts of the body. -/
structure PlainPlace (ts : List Token) (c : Candidate) (before front : List Token) (name : Token)
    (behind : List Token) (var : Token) (rest post : List Token) : Prop where
  parts : Candidate.PlainParts front name behind var
  body_eq : c.body ts = front ++ name :: (behind ++ var :: rest)
  source_eq : ts = before ++ (c.body ts ++ post)
  body_start : c.finding.regions.body.start = before.length
  type_start : c.finding.type.start = front.length
  opened : opened (front.reverse ++ before.reverse)

theorem exists_plainPlace {ts : List Token} {c : Candidate} (hc : c ∈ candidates ts)
    (hplain : Candidate.hasPlainType (c.body ts)) :
    ∃ before front name behind var rest post,
      PlainPlace ts c before front name behind var rest post := by
  obtain ⟨_, _, _, _, haccepts⟩ := exists_accepts_of_mem hc
  have hlocated : Candidate.locateType (c.body ts) = some c.finding.type := haccepts.located
  obtain ⟨v, _, hv, _⟩ := Candidate.locateType_eq_some hlocated
  obtain ⟨front, name, behind, var, rest, hparts, hbody⟩ := Candidate.exists_plainParts hv hplain
  obtain ⟨pre, o, lead, post, hts, hopens, hlead, hstart⟩ := Candidate.exists_around hc
  refine ⟨pre ++ o :: lead, front, name, behind, var, rest, post, hparts, hbody, ?_, ?_, ?_, ?_⟩
  · rw [List.append_assoc, List.cons_append]
    exact hts
  · rw [hstart, List.length_append, List.length_cons]
    omega
  · rw [hbody] at hlocated
    exact hparts.type_start hlocated
  · rw [List.reverse_append, List.reverse_cons, List.append_assoc]
    refine opened_append hparts.front_precedes (opened_append (fun t ht => ?_) ?_)
    · simp [Token.precedesType, hlead t ht]
    · simp [Fix.opened, hopens]

variable {ts before front behind rest post : List Token} {c : Candidate} {name var : Token}

/-- Behind the name of a plain type and some of what follows it. -/
theorem PlainPlace.named (h : PlainPlace ts c before front name behind var rest post) (n : Nat) :
    named ((behind.take n).reverse ++ name :: (front.reverse ++ before.reverse)) := by
  refine named_append (fun t ht => h.parts.behind_follows t (List.mem_of_mem_take ht)) ?_
  simp [Fix.named, h.parts.name_kind, h.opened]

/-- The mark of a candidate with a plain type goes to a site. -/
theorem siteAt_mark (hc : c ∈ candidates ts) (hplain : Candidate.hasPlainType (c.body ts)) :
    SiteAt .mark ts c.typeIndex := by
  obtain ⟨before, front, name, behind, var, rest, post, h⟩ := exists_plainPlace hc hplain
  refine ⟨before ++ front, name, behind ++ var :: (rest ++ post), ?_, ?_, ?_, h.parts.name_kind⟩
  · have hsource := h.source_eq
    rw [h.body_eq] at hsource
    rw [hsource]
    simp
  · rw [Candidate.typeIndex, h.body_start, h.type_start, List.length_append]
  · rw [List.reverse_append]
    exact h.opened

/-- The place of a candidate: before the first token of its type, or behind the token at which the
walk back from its variable stops. -/
def place (style : Style) (ts : List Token) (c : Candidate) : Nat :=
  match style with
  | .mark => c.typeIndex
  | .union =>
    c.finding.regions.body.start + typeEnd (c.body ts) c.finding.type.start
      ((Candidate.variableIndex? (c.body ts)).getD 0) + 1

/-- The last token of a type in the body of its candidate, and the variable: only what may stand in
between leads from the one to the other, and the union part goes behind the one, if anywhere. -/
structure EndsAt (ts : List Token) (c : Candidate) (last v : Nat) : Prop where
  variable_eq : Candidate.variableIndex? (c.body ts) = some v
  start_le : c.finding.type.start ≤ last
  last_lt : last < v
  lt_length : v < (c.body ts).length
  leads : leadsToVariable ((c.body ts).drop (last + 1))
  stops : c.finding.type.start < last → ∀ w, (c.body ts)[last]? = some w →
    ¬isBetween w ((c.body ts).drop (last + 1))
  point_eq : insertionPoint .union ts c =
    if (Interval.slice ⟨c.finding.type.start, last + 1⟩ (c.body ts)).any admitsNull then none
    else some (c.finding.regions.body.start + last + 1)
  place_eq : place .union ts c = c.finding.regions.body.start + last + 1

theorem exists_endsAt (hc : c ∈ candidates ts) : ∃ last v, EndsAt ts c last v := by
  obtain ⟨_, _, _, _, haccepts⟩ := exists_accepts_of_mem hc
  have hlocated : Candidate.locateType (c.body ts) = some c.finding.type := haccepts.located
  obtain ⟨v, _, hv, hbefore, _⟩ := Candidate.locateType_eq_some hlocated
  obtain ⟨u, hu, hvar⟩ := Candidate.variableIndex?_eq_some hv
  have hlen := (List.getElem?_eq_some_iff.1 hu).1
  obtain ⟨hstart, hlast⟩ := typeEnd_bounds (c.body ts) hbefore
  obtain ⟨hbetween, hstop⟩ := typeEnd_spec hbefore (Nat.le_of_lt hlen)
  have hleads : leadsToVariable ((c.body ts).drop (typeEnd (c.body ts) c.finding.type.start v + 1)) :=
    leadsToVariable_drop hlast hu hvar fun j hj hjv => hbetween j hj hjv
  refine ⟨_, v, hv, hstart, hlast, hlen, hleads, hstop, ?_, by rw [place, hv, Option.getD_some]⟩
  simp only [insertionPoint, hv, Nat.not_lt.2 hstart, false_or]

theorem eq_place_of_insertionPoint {style : Style} {p : Nat} (hc : c ∈ candidates ts)
    (hp : insertionPoint style ts c = some p) : p = place style ts c := by
  cases style with
  | mark => exact (Option.some.inj hp).symm
  | union =>
    obtain ⟨last, v, h⟩ := exists_endsAt hc
    rw [h.point_eq] at hp
    split at hp
    · cases hp
    · rw [h.place_eq, Option.some.inj hp]

theorem PlainPlace.variable_eq (h : PlainPlace ts c before front name behind var rest post) {v : Nat}
    (hv : Candidate.variableIndex? (c.body ts) = some v) :
    v = front.length + 1 + behind.length := by
  rw [h.body_eq, h.parts.variableIndex?] at hv
  exact (Option.some.inj hv).symm

theorem PlainPlace.take_body (h : PlainPlace ts c before front name behind var rest post) {n : Nat}
    (hn : n ≤ behind.length) :
    (c.body ts).take (front.length + n + 1) = front ++ name :: behind.take n := by
  have hsub : front.length + n + 1 - front.length = n + 1 := by omega
  have hnone : n - behind.length = 0 := by omega
  rw [h.body_eq, List.take_append, List.take_of_length_le (by omega), hsub, List.take_succ_cons,
    List.take_append, hnone, List.take_zero, List.append_nil]

theorem PlainPlace.getElem?_name (h : PlainPlace ts c before front name behind var rest post) :
    (c.body ts)[front.length]? = some name := by
  rw [h.body_eq, List.getElem?_append_right (Nat.le_refl _), Nat.sub_self]
  rfl

theorem not_isBetween_of_kind {t : Token} (ht : t.kind = .name) (ts : List Token) :
    ¬isBetween t ts := by
  simp [isBetween, Candidate.isReference, Token.isTrivia, Token.isPunct, ht]

/-- Behind the last token of a plain type there is a site. -/
theorem EndsAt.siteAt {last v : Nat} (hends : EndsAt ts c last v) (hc : c ∈ candidates ts)
    (hplain : Candidate.hasPlainType (c.body ts)) :
    SiteAt .union ts (c.finding.regions.body.start + last + 1) := by
  obtain ⟨before, front, name, behind, var, rest, post, h⟩ := exists_plainPlace hc hplain
  obtain ⟨hv, hstart, hlast, hlen, hleads, hstop, -, -⟩ := hends
  have hv' := h.variable_eq hv
  rw [h.type_start] at hstart hstop
  obtain ⟨n, hn⟩ := Nat.exists_eq_add_of_le hstart
  subst hn
  obtain ⟨w, hw⟩ : ∃ w, (c.body ts)[front.length + n]? = some w :=
    ⟨_, List.getElem?_eq_getElem (by omega)⟩
  have hstop' : ¬isBetween w ((c.body ts).drop (front.length + n + 1) ++ post) := by
    rw [isBetween_append (exists_weight_of_leadsToVariable hleads)]
    cases n with
    | zero =>
      have hname := h.getElem?_name.symm.trans hw
      rw [← Option.some.inj hname]
      exact not_isBetween_of_kind h.parts.name_kind _
    | succ n => exact hstop (by omega) w hw
  rcases hafter : (c.body ts).drop (front.length + n + 1) ++ post with _ | ⟨t, after⟩
  · rw [List.append_eq_nil_iff.1 hafter |>.1] at hleads
    simp [leadsToVariable] at hleads
  rw [hafter] at hstop'
  refine ⟨before ++ (c.body ts).take (front.length + n + 1), t, after, ?_, ?_, ?_, ?_, ?_⟩
  · rw [← hafter, List.append_assoc,
      ← List.append_assoc ((c.body ts).take (front.length + n + 1)), List.take_append_drop]
    exact h.source_eq
  · rw [List.length_append, List.length_take, h.body_start]
    omega
  · rw [h.take_body (by omega)]
    simpa using h.named n
  · rw [← hafter]
    exact leadsToVariable_append hleads post
  · have hhead : (before ++ (c.body ts).take (front.length + n + 1)).reverse.head? = some w := by
      rw [List.take_add_one, hw]
      simp
    rw [hhead]
    rintro _ ⟨⟩
    exact hstop'

theorem sited_of_forall {style : Style} {points : List Nat} {ts : List Token}
    (h : ∀ p ∈ points, SiteAt style ts p) : Sited style points [] 0 ts := by
  suffices hall : ∀ rest done : List Token, ts = done.reverse ++ rest →
      Sited style points done done.length rest from hall ts [] rfl
  intro rest
  induction rest with
  | nil => exact fun _ _ => trivial
  | cons t rest ih =>
    intro done hts
    refine ⟨fun hmem => ?_, ih (t :: done) (by rw [hts]; simp)⟩
    obtain ⟨before, u, after, hsplit, hlen, hsite⟩ := h _ hmem
    obtain ⟨rfl, hrest⟩ := List.append_inj (hsplit.symm.trans hts) (by simpa using hlen)
    obtain ⟨rfl, rfl⟩ := List.cons.inj hrest
    rwa [List.reverse_reverse] at hsite

/-- The piece of a candidate with a plain type goes to a site. -/
theorem siteAt_of_insertionPoint {style : Style} {p : Nat} (hc : c ∈ candidates ts)
    (hplain : Candidate.hasPlainType (c.body ts)) (hp : insertionPoint style ts c = some p) :
    SiteAt style ts p := by
  cases style with
  | mark =>
    obtain rfl : c.typeIndex = p := Option.some.inj hp
    exact siteAt_mark hc hplain
  | union =>
    obtain ⟨last, v, hends⟩ := exists_endsAt hc
    rw [hends.point_eq] at hp
    split at hp
    · cases hp
    · rw [← Option.some.inj hp]
      exact hends.siteAt hc hplain

/-- The pieces of a plan go to sites where types are plain. -/
theorem sited_insertionPoints (style : Style) (plan : FilePlan) {ts : List Token}
    (h : PlainlyTyped ts) : Sited style (insertionPoints style plan ts) [] 0 ts := by
  refine sited_of_forall fun p hp => ?_
  obtain ⟨c, hc, hcp⟩ := List.mem_filterMap.1 hp
  have hmem := (List.mem_filter.1 hc).1
  exact siteAt_of_insertionPoint hmem (h c hmem) hcp

end Fix

end ExplicitNull
