import ExplicitNull.Proofs.Settling

/-!
Between which tokens a piece goes, whatever the type. A mark goes before a token that can start a
type and is no mark itself, and behind none. A union part goes behind a token of weight that is no
union sign, and before the variable or what may stand between it and the type.
-/
namespace ExplicitNull

namespace Fix

def Takes (style : Style) (before : Option Token) (t : Token) : Prop :=
  match style with
  | .mark =>
    Candidate.startsType t ∧ t.text ≠ utf8 "?" ∧ ∀ u, before = some u → ¬u.isPunct "?"
  | .union =>
    (t.followsType ∨ t.kind = .variableName) ∧
      ∃ u, before = some u ∧ ¬u.isTrivia ∧ ¬u.isPunct "|"

def TakesAt (style : Style) (ts : List Token) (p : Nat) : Prop :=
  ∃ done t rest, ts = done ++ t :: rest ∧ done.length = p ∧ Takes style done.getLast? t

/-- Whether the piece of a style may go to each of the given positions; the tokens start at position
`i` behind a given one. -/
def TakesAll (style : Style) (points : List Nat) (before : Option Token) (i : Nat) :
    List Token → Prop
  | [] => True
  | t :: rest => (i ∈ points → Takes style before t) ∧ TakesAll style points (some t) (i + 1) rest

theorem takesAll_of_forall {style : Style} {points : List Nat} {ts : List Token}
    (h : ∀ p ∈ points, TakesAt style ts p) : TakesAll style points none 0 ts := by
  suffices hall : ∀ rest done : List Token, ts = done ++ rest →
      TakesAll style points done.getLast? done.length rest from hall ts [] rfl
  intro rest
  induction rest with
  | nil => exact fun _ _ => trivial
  | cons t rest ih =>
    intro done hts
    refine ⟨fun hmem => ?_, ?_⟩
    · obtain ⟨before, u, after, hsplit, hlen, htakes⟩ := h _ hmem
      obtain ⟨rfl, hrest⟩ := List.append_inj (hsplit.symm.trans hts) hlen
      obtain ⟨rfl, rfl⟩ := List.cons.inj hrest
      exact htakes
    · have hlater := ih (done ++ [t]) (by rw [hts]; simp)
      rwa [List.getLast?_concat, List.length_append, List.length_singleton] at hlater

variable {ts : List Token} {c : Candidate}

/-- A type that begins like the mark is not fixed. -/
theorem text_ne_mark {body front behind : List Token} {first : Token}
    (h : Candidate.TypeAt body front first behind)
    (hfix : Candidate.isFixable (Blank.trim (Token.source (Candidate.typeRun (first :: behind))))) :
    first.text ≠ utf8 "?" := by
  intro htext
  have hmark := Candidate.not_isFixable_mark (Candidate.typeRun behind)
  rw [h.typeRun_eq, Token.source_cons, htext] at hfix
  rw [Token.source_cons, hfix] at hmark
  cases hmark

theorem takesAt_mark (hc : c ∈ candidates ts) : TakesAt .mark ts c.typeIndex := by
  obtain ⟨pre, o, lead, post, hts, hopens, hlead, hstart⟩ := Candidate.exists_around hc
  obtain ⟨_, _, _, _, haccepts⟩ := exists_accepts_of_mem hc
  have hlocated : Candidate.locateType (c.body ts) = some c.finding.type := haccepts.located
  obtain ⟨front, first, behind, hat, htype⟩ := Candidate.exists_typeAt hlocated
  have hname : c.finding.typeName =
      Blank.trim (Token.source (Candidate.typeRun (first :: behind))) := by
    rw [haccepts.typeName_eq, ← Candidate.typeText_of_typeAt hat, htype]
    rfl
  have hfix := haccepts.fixable
  rw [hname] at hfix
  refine ⟨pre ++ o :: (lead ++ front), first, behind ++ post, ?_, ?_, hat.starts,
    text_ne_mark hat hfix, fun u hu => ?_⟩
  · conv_lhs => rw [hts, hat.body_eq]
    simp
  · rw [Candidate.typeIndex, hstart, htype]
    simp only [List.length_append, List.length_cons]
    omega
  · have hlast : (o :: (lead ++ front)).getLast? = some u := by simpa using hu
    rcases List.mem_cons.1 (List.mem_of_getLast? hlast) with rfl | hmem
    · intro hmark
      simp only [Token.opensParameter, Bool.or_eq_true, Token.isPunct_iff] at hopens hmark
      rcases hopens with h | h <;> rw [h.2] at hmark <;> exact absurd hmark.2 (by decide)
    · rcases List.mem_append.1 hmem with hmem | hmem
      · have := hlead u hmem
        grind [Token.isTrivia, Token.isPunct]
      · intro hmark
        obtain ⟨hkind, htext⟩ := Token.isPunct_iff.1 hmark
        have hnot := (hat.front_not u hmem).1
        simp [Candidate.startsType, Token.isTrivia, hkind, htext] at hnot

theorem takesAt_union {p : Nat} (hc : c ∈ candidates ts)
    (hp : insertionPoint .union ts c = some p) : TakesAt .union ts p := by
  obtain ⟨pre, o, lead, post, hts, hopens, hlead, hstart⟩ := Candidate.exists_around hc
  obtain ⟨_, _, _, _, haccepts⟩ := exists_accepts_of_mem hc
  have hlocated : Candidate.locateType (c.body ts) = some c.finding.type := haccepts.located
  obtain ⟨last, v, hends⟩ := exists_endsAt hc
  have hlast := hends.last_lt
  have hlen := hends.lt_length
  have hpoint := hends.point_eq
  rw [hp] at hpoint
  split at hpoint
  · cases hpoint
  rename_i hadmits
  have hw : (c.body ts)[last]? = some (c.body ts)[last] := List.getElem?_eq_getElem (by omega)
  generalize (c.body ts)[last] = w at hw
  have hdrop : (c.body ts).drop (last + 1) = (c.body ts)[last + 1] ::
      (c.body ts).drop (last + 2) := List.drop_eq_getElem_cons (by omega)
  generalize (c.body ts)[last + 1] = t at hdrop
  have hleads := hends.leads
  rw [hdrop, leadsToVariable, Bool.or_eq_true, Bool.and_eq_true, beq_iff_eq] at hleads
  refine ⟨pre ++ o :: (lead ++ (c.body ts).take (last + 1)), t,
    (c.body ts).drop (last + 2) ++ post, ?_, ?_, ?_, w, ?_, ?_, ?_⟩
  · have hbody := List.take_append_drop (last + 1) (c.body ts)
    rw [hdrop] at hbody
    conv_lhs => rw [hts, ← hbody]
    simp
  · rw [Option.some.inj hpoint, hstart]
    simp only [List.length_append, List.length_cons, List.length_take]
    omega
  · exact hleads.symm.imp_left fun h => Lexer.followsType_of_isBetween h.1
  · rw [List.take_add_one, hw, Option.toList_some, ← List.append_assoc lead, ← List.cons_append,
      ← List.append_assoc, List.getLast?_concat]
  · intro htrivia
    rcases Nat.lt_or_ge c.finding.type.start last with hlt | hge
    · refine hends.stops hlt w hw ?_
      simp [isBetween, htrivia]
    · obtain ⟨front, first, behind, hat, htype⟩ := Candidate.exists_typeAt hlocated
      have hfirst : (c.body ts)[last]? = some first := by
        have hlast : last = front.length := by
          have := hends.start_le
          rw [htype] at this hge
          exact Nat.le_antisymm hge this
        rw [hat.body_eq, hlast]
        simp
      obtain rfl : w = first := Option.some.inj (hw.symm.trans hfirst)
      have hstarts := hat.starts
      simp [Candidate.startsType, htrivia] at hstarts
  · intro hbar
    obtain ⟨-, htext⟩ := Token.isPunct_iff.1 hbar
    have hmem : w ∈ Interval.slice ⟨c.finding.type.start, last + 1⟩ (c.body ts) :=
      Interval.mem_slice hends.start_le (Nat.lt_succ_self last) hw
    refine hadmits (List.any_eq_true.2 ⟨w, hmem, ?_⟩)
    rw [admitsNull, htext]
    rfl

/-- The piece of a candidate goes where its style takes one. -/
theorem takesAt_of_insertionPoint {style : Style} {p : Nat} (hc : c ∈ candidates ts)
    (hp : insertionPoint style ts c = some p) : TakesAt style ts p := by
  cases style with
  | mark =>
    obtain rfl : c.typeIndex = p := Option.some.inj hp
    exact takesAt_mark hc
  | union => exact takesAt_union hc hp

theorem takesAll_insertionPoints (style : Style) (plan : FilePlan) (ts : List Token) :
    TakesAll style (insertionPoints style plan ts) none 0 ts := by
  refine takesAll_of_forall fun p hp => ?_
  obtain ⟨c, hc, hcp⟩ := List.mem_filterMap.1 hp
  exact takesAt_of_insertionPoint (List.mem_filter.1 hc).1 hcp

end Fix

end ExplicitNull
