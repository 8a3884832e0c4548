import ExplicitNull.Proofs.Stability
import ExplicitNull.Proofs.TypeRuns

/-!
The inspection of a parameter that pieces were put into. Its default is found as before and so is
the first token of its type, unless a mark was put before it. The run of its type is as before too,
or a union part was put into it, or a mark behind an opening parenthesis or a comma of it.
-/
namespace ExplicitNull

open Candidate

theorem sublist_insertAt {α : Type} (piece : List α) (points : List Nat) (i : Nat) (xs : List α) :
    xs.Sublist (insertAt piece points i xs) := by
  induction xs generalizing i with
  | nil => exact List.Sublist.slnil
  | cons x xs ih =>
    rw [insertAt]
    exact ((ih (i + 1)).cons_cons x).trans (List.sublist_append_right _ _)

theorem mem_insertAt {α : Type} {piece : List α} {points : List Nat} {i : Nat} {xs : List α} {x : α}
    (h : x ∈ insertAt piece points i xs) : x ∈ piece ∨ x ∈ xs := by
  induction xs generalizing i with
  | nil => simp at h
  | cons y xs ih =>
    rw [insertAt, List.mem_append, List.mem_cons] at h
    rcases h with h | rfl | h
    · split at h
      · exact .inl h
      · simp at h
    · exact .inr (List.mem_cons_self ..)
    · exact (ih h).imp_right (List.mem_cons_of_mem _)

namespace Fix

variable {style : Style} {points : List Nat} {done : List Token}

theorem Sited.drop {i : Nat} {xs ys : List Token} (h : Sited style points done i (xs ++ ys)) :
    Sited style points (xs.reverse ++ done) (i + xs.length) ys := by
  induction xs generalizing done i with
  | nil => exact h
  | cons x xs ih =>
    have := ih h.2
    rw [List.reverse_cons, List.append_assoc, List.singleton_append, List.length_cons]
    rwa [Nat.add_right_comm] at this

theorem not_between_of_closesParameter {u : Token} (hu : u.closesParameter) :
    u.kind = .punct ∧ u.isTrivia = false ∧ u.isPunct "..." = false ∧ u.isPunct "&" = false := by
  simp only [Token.closesParameter, Bool.or_eq_true, Token.isPunct_iff] at hu
  rcases hu with ⟨hkind, htext⟩ | ⟨hkind, htext⟩ <;>
    refine ⟨hkind, by simp [Token.isTrivia, hkind], ?_, ?_⟩ <;>
    simp +decide [Token.isPunct, htext]

/-- The token that closes a parameter is seen from within as the end of the tokens. -/
theorem isReference_closed {u : Token} (hu : u.closesParameter) (t : Token)
    (rest post : List Token) : isReference t (rest ++ u :: post) = isReference t rest := by
  obtain ⟨hkind, hweight, hdots, _⟩ := not_between_of_closesParameter hu
  rw [isReference, isReference, List.find?_append]
  cases hfind : rest.find? (!·.isTrivia) with
  | none => simp [hweight, hdots, hkind]
  | some w => simp

theorem leadsToVariable_closed {u : Token} (hu : u.closesParameter) (rest post : List Token) :
    leadsToVariable (rest ++ u :: post) = leadsToVariable rest := by
  induction rest with
  | nil =>
    obtain ⟨hkind, hweight, hdots, hand⟩ := not_between_of_closesParameter hu
    simp [leadsToVariable, isBetween, isReference, hkind, hweight, hdots, hand]
  | cons t rest ih =>
    rw [List.cons_append, leadsToVariable, leadsToVariable, ih, isBetween, isBetween,
      isReference_closed hu]

theorem Sited.closed {u : Token} (hu : u.closesParameter) {i : Nat} {rest post : List Token}
    (h : Sited style points done i (rest ++ u :: post)) : Sited style points done i rest := by
  induction rest generalizing done i with
  | nil => trivial
  | cons t rest ih =>
    rw [List.cons_append] at h
    refine ⟨fun hi => ?_, ih h.2⟩
    have hsite := h.1 hi
    cases style with
    | mark => exact hsite
    | union =>
      obtain ⟨hnamed, hleads, hbetween⟩ := hsite
      rw [← List.cons_append, leadsToVariable_closed hu] at hleads
      refine ⟨hnamed, hleads, fun v hv => ?_⟩
      have := hbetween v hv
      rwa [isBetween, ← List.cons_append, isReference_closed hu] at this

theorem opened_trivia {trivia : List Token} (h : ∀ u ∈ trivia, u.isTrivia) (done : List Token) :
    opened (trivia ++ done) = opened done := by
  induction trivia with
  | nil => rfl
  | cons u trivia ih =>
    have hu := h u (List.mem_cons_self ..)
    rw [List.cons_append, opened, Signature.not_opensParameter_of_isTrivia hu, Token.precedesType,
      hu, ih fun w hw => h w (List.mem_cons_of_mem _ hw)]
    simp

theorem named_trivia {trivia : List Token} (h : ∀ u ∈ trivia, u.isTrivia) (done : List Token) :
    named (trivia ++ done) = named done := by
  induction trivia with
  | nil => rfl
  | cons u trivia ih =>
    have hu := h u (List.mem_cons_self ..)
    have hname : (u.kind == .name) = false := by
      rw [beq_eq_false_iff_ne]
      intro hk
      simp [Token.isTrivia, hk] at hu
    rw [List.cons_append, named, hname, Token.followsType, hu,
      ih fun w hw => h w (List.mem_cons_of_mem _ hw)]
    simp

/-- Whether no site comes before the next token of weight. -/
def Barred (style : Style) (done : List Token) : Prop :=
  ∀ trivia t rest, (∀ u ∈ trivia, u.isTrivia) → ¬Site style (trivia ++ done) t rest

theorem barred_of_not_started (h : started done = false) : Barred style done := by
  intro trivia t rest htrivia hsite
  have hstarted := hsite.started
  rw [started, opened_trivia htrivia, named_trivia htrivia] at hstarted
  rw [started] at h
  simp [h] at hstarted

theorem barred_mark_of_not_opened (h : opened done = false) : Barred .mark done := by
  intro trivia t rest htrivia hsite
  have hopened := hsite.1
  rw [opened_trivia htrivia] at hopened
  simp [h] at hopened

theorem barred_union_of_isTrivia {t : Token} (h : t.isTrivia) : Barred .union (t :: done) := by
  intro trivia u rest htrivia hsite
  cases trivia with
  | nil => exact hsite.2.2 t rfl (by simp [isBetween, h])
  | cons w trivia => exact hsite.2.2 w rfl (by simp [isBetween, htrivia w (List.mem_cons_self ..)])

theorem find?_insertAt_of_barred (hbarred : Barred style done) {i : Nat} {ts : List Token}
    (h : Sited style points done i ts) :
    (insertAt style.tokens points i ts).find? (!·.isTrivia) = ts.find? (!·.isTrivia) := by
  induction ts generalizing done i with
  | nil => rfl
  | cons t rest ih =>
    have hi : i ∉ points := fun hi => hbarred [] t rest (by simp) (h.1 hi)
    rw [insertAt_cons_of_notMem _ _ hi, List.find?_cons, List.find?_cons]
    by_cases ht : t.isTrivia
    · have hlater : Barred style (t :: done) := by
        intro trivia u more htrivia
        have := hbarred (trivia ++ [t]) u more (by
          intro w hw
          rcases List.mem_append.1 hw with hw | hw
          · exact htrivia w hw
          · rw [List.mem_singleton.1 hw]
            exact ht)
        rwa [List.append_assoc] at this
      simp only [ht, Bool.not_true]
      exact ih hlater h.2
    · simp [ht]

/-- Putting pieces in does not change whether a token is a reference. -/
theorem isReference_insertAt {i : Nat} {t : Token} {rest : List Token}
    (h : Sited style points (t :: done) i rest) :
    isReference t (insertAt style.tokens points i rest) = isReference t rest := by
  by_cases ht : t.isPunct "&"
  · cases style with
    | mark =>
      have hopened : opened (t :: done) = false := by
        obtain ⟨hkind, htext⟩ := Token.isPunct_iff.1 ht
        simp +decide [opened, Token.opensParameter, Token.precedesType, Token.isTrivia,
          Token.isPunct, hkind, htext]
      rw [isReference, isReference,
        find?_insertAt_of_barred (barred_mark_of_not_opened hopened) h]
    | union =>
      cases rest with
      | nil => rfl
      | cons r rest =>
        by_cases hi : i ∈ points
        · have hbetween := (h.1 hi).2.2 t rfl
          have hnot : isReference t (r :: rest) = false := by
            simp only [isBetween, Bool.or_eq_true, not_or, Bool.not_eq_true] at hbetween
            exact hbetween.2
          rw [hnot, insertAt_cons_of_mem _ _ hi]
          simp +decide [isReference, Style.tokens, Token.isTrivia, Token.isPunct]
        · rw [insertAt_cons_of_notMem _ _ hi, isReference, isReference, List.find?_cons,
            List.find?_cons]
          by_cases hr : r.isTrivia
          · simp only [hr, Bool.not_true]
            rw [find?_insertAt_of_barred (barred_union_of_isTrivia hr) h.2]
          · simp [hr]
  · simp [isReference, ht]

theorem endsType_insertAt {i : Nat} {t : Token} {rest : List Token}
    (h : Sited style points (t :: done) i rest) :
    endsType t (insertAt style.tokens points i rest) = endsType t rest := by
  rw [endsType, endsType, isReference_insertAt h]

/-- Reading on to the first token that is not passed goes to the same token. -/
theorem dropWhile_insertAt {p : Token → Bool} (hp : ∀ u ∈ style.tokens, p u) {i : Nat}
    {ts : List Token} (h : Sited style points done i ts) :
    (ts.dropWhile p = [] ∧ (insertAt style.tokens points i ts).dropWhile p = []) ∨
      ∃ t rest done' j, ts.dropWhile p = t :: rest ∧
        (insertAt style.tokens points i ts).dropWhile p =
          t :: insertAt style.tokens points j rest ∧ Sited style points (t :: done') j rest := by
  induction ts generalizing done i with
  | nil => exact .inl ⟨rfl, rfl⟩
  | cons t rest ih =>
    have hskip : (insertAt style.tokens points i (t :: rest)).dropWhile p =
        (t :: insertAt style.tokens points (i + 1) rest).dropWhile p := by
      rw [insertAt]
      split
      · exact List.dropWhile_append_of_pos hp
      · rfl
    rw [hskip, List.dropWhile_cons, List.dropWhile_cons]
    by_cases ht : p t
    · rw [if_pos ht, if_pos ht]
      exact ih h.2
    · rw [if_neg ht, if_neg ht]
      exact .inr ⟨t, rest, done, i + 1, rfl, rfl, h.2⟩

/-- Putting pieces in does not change whether the default is null. -/
theorem hasNullDefault_insertAt {i : Nat} {body : List Token}
    (h : Sited style points done i body) :
    hasNullDefault (insertAt style.tokens points i body) = hasNullDefault body := by
  have hvar : ∀ u ∈ style.tokens, (u.kind != .variableName) = true := by
    cases style <;> decide
  have hequals : ∀ u ∈ style.tokens, (!u.isPunct "=") = true := by
    cases style <;> decide
  rw [hasNullDefault, hasNullDefault]
  rcases dropWhile_insertAt hvar h with ⟨hbody, hfixed⟩ | ⟨t, rest, done', j, hbody, hfixed, hrest⟩
  · rw [hbody, hfixed]
  rw [hbody, hfixed, List.drop_succ_cons, List.drop_succ_cons, List.drop_zero, List.drop_zero]
  rcases dropWhile_insertAt hequals hrest with ⟨hbody, hfixed⟩ |
    ⟨u, rest', done'', k, hbody, hfixed, hrest'⟩
  · rw [hbody, hfixed]
  have hu : u.isPunct "=" := by
    have := List.head?_dropWhile_not (fun u : Token => !u.isPunct "=") rest
    simpa [hbody] using this
  have hstarted : started (u :: done'') = false := by
    obtain ⟨hkind, htext⟩ := Token.isPunct_iff.1 hu
    simp +decide [started, opened, named, Token.opensParameter, Token.precedesType,
      Token.followsType, Token.isTrivia, Token.isPunct, hkind, htext]
  rw [hbody, hfixed, List.drop_succ_cons, List.drop_succ_cons, List.drop_zero, List.drop_zero,
    find?_insertAt_of_barred (barred_of_not_started hstarted) hrest']

/-- A piece does not end a type. -/
theorem typeRun_append_tokens (style : Style) (ts : List Token) :
    typeRun (style.tokens ++ ts) = style.tokens ++ typeRun ts := by
  cases style <;>
    simp +decide [Style.tokens, typeRun, endsType, isReference, Token.isPunct]

theorem typeRun_insertAt_cons {i : Nat} {t : Token} {rest : List Token}
    (h : Sited style points done i (t :: rest)) :
    typeRun (insertAt style.tokens points i (t :: rest)) =
      (if i ∈ points then style.tokens else []) ++
        if endsType t rest then []
        else t :: typeRun (insertAt style.tokens points (i + 1) rest) := by
  rw [insertAt]
  by_cases hi : i ∈ points
  · rw [if_pos hi, typeRun_append_tokens, typeRun, endsType_insertAt h.2]
  · rw [if_neg hi, List.nil_append, List.nil_append, typeRun, endsType_insertAt h.2]

/-- A type keeps its tokens. -/
theorem typeRun_sublist {i : Nat} {ts : List Token} (h : Sited style points done i ts) :
    (typeRun ts).Sublist (typeRun (insertAt style.tokens points i ts)) := by
  induction ts generalizing done i with
  | nil => exact List.Sublist.refl _
  | cons t rest ih =>
    rw [typeRun_insertAt_cons h, typeRun]
    refine List.Sublist.trans ?_ (List.sublist_append_right _ _)
    by_cases hends : endsType t rest
    · simp only [if_pos hends, List.Sublist.refl]
    · rw [if_neg hends, if_neg hends]
      exact (ih h.2).cons_cons t

theorem typeRun_insertAt_eq_self {i : Nat} {ts : List Token} (h : Sited style points done i ts)
    (hfree : ∀ k ≤ (typeRun ts).length, i + k ∉ points) :
    typeRun (insertAt style.tokens points i ts) = typeRun ts := by
  induction ts generalizing done i with
  | nil => rfl
  | cons t rest ih =>
    have hi : i ∉ points := hfree 0 (Nat.zero_le _)
    rw [typeRun_insertAt_cons h, if_neg hi, List.nil_append, typeRun]
    rw [typeRun] at hfree
    by_cases hends : endsType t rest
    · rw [if_pos hends, if_pos hends]
    · rw [if_neg hends] at hfree
      rw [if_neg hends, if_neg hends, ih h.2 fun k hk => ?_]
      have := hfree (k + 1) (by simpa using hk)
      rwa [← Nat.add_assoc, Nat.add_right_comm] at this

/-- A mark put into a type stands behind a token of it that opens a parameter. -/
theorem typeRun_insertAt_mark {i : Nat} {ts : List Token} (h : Sited .mark points done i ts)
    (hopened : opened done = false) :
    typeRun (insertAt Style.mark.tokens points i ts) = typeRun ts ∨
      ∃ before opener behind behind', opener.opensParameter ∧
        typeRun ts = before ++ opener :: behind ∧
        typeRun (insertAt Style.mark.tokens points i ts) = before ++ opener :: behind' ∧
        behind.Sublist behind' := by
  induction ts generalizing done i with
  | nil => exact .inl rfl
  | cons t rest ih =>
    have hi : i ∉ points := by
      intro hi
      have := (h.1 hi).1
      simp [hopened] at this
    rw [typeRun_insertAt_cons h, if_neg hi, List.nil_append, typeRun]
    by_cases hends : endsType t rest
    · rw [if_pos hends, if_pos hends]
      exact .inl rfl
    rw [if_neg hends, if_neg hends]
    by_cases ht : t.opensParameter
    · exact .inr ⟨[], t, _, _, ht, rfl, rfl, typeRun_sublist h.2⟩
    · have hlater : opened (t :: done) = false := by simp [opened, ht, hopened]
      rcases ih h.2 hlater with heq | ⟨before, opener, behind, behind', hop, hrun, hrun', hsub⟩
      · exact .inl (by rw [heq])
      · exact .inr ⟨t :: before, opener, behind, behind', hop, by rw [hrun]; rfl,
          by rw [hrun']; rfl, hsub⟩

/-- A union part put into a type brings a union sign with it. -/
theorem typeRun_insertAt_union {i : Nat} {ts : List Token} (h : Sited .union points done i ts) :
    typeRun (insertAt Style.union.tokens points i ts) = typeRun ts ∨
      ⟨.punct, utf8 "|"⟩ ∈ typeRun (insertAt Style.union.tokens points i ts) := by
  induction ts generalizing done i with
  | nil => exact .inl rfl
  | cons t rest ih =>
    rw [typeRun_insertAt_cons h]
    by_cases hi : i ∈ points
    · refine .inr ?_
      rw [if_pos hi]
      exact List.mem_append_left _ (by decide)
    rw [if_neg hi, List.nil_append, typeRun]
    by_cases hends : endsType t rest
    · rw [if_pos hends, if_pos hends]
      exact .inl rfl
    · rw [if_neg hends, if_neg hends]
      rcases ih h.2 with heq | hmem
      · exact .inl (by rw [heq])
      · exact .inr (List.mem_cons_of_mem _ hmem)

/-- Whether no name stands between the tokens to come and the token that opens their parameter. -/
def Unnamed (done : List Token) : Prop :=
  ∃ before opener pre, done = before ++ opener :: pre ∧ opener.opensParameter ∧
    ∀ t ∈ before, t.kind ≠ .name

theorem Unnamed.named (h : Unnamed done) : named done = false := by
  obtain ⟨before, opener, pre, rfl, hopens, hbefore⟩ := h
  induction before with
  | nil =>
    simp only [Token.opensParameter, Bool.or_eq_true, Token.isPunct_iff] at hopens
    rcases hopens with ⟨hkind, htext⟩ | ⟨hkind, htext⟩ <;>
      simp +decide [Fix.named, Token.followsType, Token.isTrivia, Token.isPunct, hkind, htext]
  | cons t before ih =>
    have ht := hbefore t (List.mem_cons_self ..)
    rw [List.cons_append, Fix.named, ih fun u hu => hbefore u (List.mem_cons_of_mem _ hu)]
    simp [ht]

theorem Unnamed.append {front : List Token} (h : Unnamed done) (hfront : ∀ t ∈ front, t.kind ≠ .name) :
    Unnamed (front.reverse ++ done) := by
  obtain ⟨before, opener, pre, rfl, hopens, hbefore⟩ := h
  refine ⟨front.reverse ++ before, opener, pre, by simp, hopens, fun t ht => ?_⟩
  rcases List.mem_append.1 ht with ht | ht
  · exact hfront t (List.mem_reverse.1 ht)
  · exact hbefore t ht

/-- Before the first name of a parameter nothing is put in. -/
theorem Unnamed.notMem {i : Nat} {t : Token} {rest : List Token} (hunnamed : Unnamed done)
    (h : Sited style points done i (t :: rest)) (ht : style = .mark → t.kind ≠ .name) :
    i ∉ points := by
  intro hi
  have hsite := h.1 hi
  cases style with
  | mark => exact ht rfl hsite.2
  | union =>
    have := hsite.1
    simp [hunnamed.named] at this

theorem Unnamed.notMem_front {i : Nat} {front rest : List Token} (hunnamed : Unnamed done)
    (h : Sited style points done i (front ++ rest)) (hfront : ∀ t ∈ front, t.kind ≠ .name) :
    ∀ j < front.length, i + j ∉ points := by
  intro j hj
  rw [← List.take_append_drop j front, List.append_assoc] at h
  have hlen : (front.take j).length = j := List.length_take_of_le (Nat.le_of_lt hj)
  have hsited := h.drop
  rw [hlen, List.drop_eq_getElem_cons hj, List.cons_append] at hsited
  have htake : ∀ t ∈ front.take j, t.kind ≠ .name := fun t ht => hfront t (List.mem_of_mem_take ht)
  exact (hunnamed.append htake).notMem hsited fun _ => hfront _ (List.getElem_mem hj)

theorem insertAt_front {i : Nat} {front rest : List Token} (hfront : ∀ t ∈ front, t.kind ≠ .name)
    (hunnamed : Unnamed done) (h : Sited style points done i (front ++ rest)) :
    insertAt style.tokens points i (front ++ rest) =
        front ++ insertAt style.tokens points (i + front.length) rest ∧
      Sited style points (front.reverse ++ done) (i + front.length) rest ∧
      Unnamed (front.reverse ++ done) := by
  refine ⟨?_, h.drop, hunnamed.append hfront⟩
  rw [insertAt_append, insertAt_eq_self (hunnamed.notMem_front h hfront)]

/-- The body of a parameter is found behind the same trivia. -/
theorem dropWhile_trivia_insertAt {i : Nat} {tokens : List Token} (hunnamed : Unnamed done)
    (h : Sited style points done i tokens) :
    ∃ done', (insertAt style.tokens points i tokens).dropWhile Token.isTrivia =
        insertAt style.tokens points (i + (tokens.takeWhile Token.isTrivia).length)
          (tokens.dropWhile Token.isTrivia) ∧
      Sited style points done' (i + (tokens.takeWhile Token.isTrivia).length)
          (tokens.dropWhile Token.isTrivia) ∧ Unnamed done' := by
  have hsplit := List.takeWhile_append_dropWhile (p := Token.isTrivia) (l := tokens)
  have hlead : ∀ t ∈ tokens.takeWhile Token.isTrivia, t.isTrivia :=
    fun t ht => List.all_eq_true.1 List.all_takeWhile t ht
  have hkinds : ∀ t ∈ tokens.takeWhile Token.isTrivia, t.kind ≠ .name := by
    intro t ht hk
    have := hlead t ht
    simp [Token.isTrivia, hk] at this
  rw [← hsplit] at h
  obtain ⟨hins, hsited, hunnamed'⟩ := insertAt_front hkinds hunnamed h
  refine ⟨_, ?_, hsited, hunnamed'⟩
  rw [hsplit] at hins
  rw [hins, List.dropWhile_append_of_pos hlead]
  rcases hbody : tokens.dropWhile Token.isTrivia with _ | ⟨t, body⟩
  · rfl
  · have ht : t.isTrivia = false := by
      have := List.head?_dropWhile_not Token.isTrivia tokens
      simpa [hbody] using this
    rw [insertAt]
    split
    · cases style <;> rfl
    · rw [List.nil_append, List.dropWhile_cons_of_neg (by simp [ht])]

end Fix

namespace Candidate

def beforeType (t : Token) : Bool := !startsType t && t.kind != .variableName

theorem TypeAt.dropWhile_eq {body front behind : List Token} {first : Token}
    (h : TypeAt body front first behind) :
    body.takeWhile beforeType = front ∧ body.dropWhile beforeType = first :: behind := by
  have hfront : ∀ t ∈ front, beforeType t := by
    intro t ht
    simp [beforeType, h.front_not t ht]
  have hfirst : beforeType first = false := by simp [beforeType, h.starts]
  rw [h.body_eq, List.takeWhile_append_of_pos hfront, List.dropWhile_append_of_pos hfront,
    List.takeWhile_cons, List.dropWhile_cons, hfirst]
  simp

theorem typeAt_of_dropWhile_eq {body behind : List Token} {first : Token}
    (h : body.dropWhile beforeType = first :: behind) (hkind : first.kind ≠ .variableName)
    (hvar : ∃ t ∈ behind, t.kind = .variableName) :
    TypeAt body (body.takeWhile beforeType) first behind where
  body_eq := by rw [← h, List.takeWhile_append_dropWhile]
  front_not := by
    intro t ht
    have := List.all_eq_true.1 List.all_takeWhile t ht
    simpa [beforeType] using this
  starts := by
    have := List.head?_dropWhile_not beforeType body
    simpa [h, beforeType, hkind] using this
  first_kind := hkind
  variable_behind := hvar

end Candidate

namespace Fix

variable {style : Style} {points : List Nat} {done : List Token}

/-- The first token of a type is found again, unless a mark was put before it. -/
theorem typeAt_insertAt {i : Nat} {body front' behind' : List Token} {first' : Token}
    (hunnamed : Unnamed done) (h : Sited style points done i body)
    (hat : TypeAt (insertAt style.tokens points i body) front' first' behind') :
    ∃ front first behind done', TypeAt body front first behind ∧
      Sited style points (first :: done') (i + front.length + 1) behind ∧
      (style = .mark ∧ i + front.length ∈ points ∧ first' = ⟨.punct, utf8 "?"⟩ ∨
        i + front.length ∉ points ∧ first' = first ∧
          behind' = insertAt style.tokens points (i + front.length + 1) behind) := by
  have hkinds : ∀ t ∈ body.takeWhile beforeType, t.kind ≠ .name := by
    intro t ht hk
    have := List.all_eq_true.1 List.all_takeWhile t ht
    simp [beforeType, startsType, Token.isTrivia, hk] at this
  have hbefore : ∀ t ∈ body.takeWhile beforeType, beforeType t :=
    fun t ht => List.all_eq_true.1 List.all_takeWhile t ht
  rw [← List.takeWhile_append_dropWhile (p := beforeType) (l := body)] at h hat
  obtain ⟨hins, hsited, hunnamed'⟩ := insertAt_front hkinds hunnamed h
  rw [hins] at hat
  have hdrop := hat.dropWhile_eq.2
  rw [List.dropWhile_append_of_pos hbefore] at hdrop
  rcases hbody : body.dropWhile beforeType with _ | ⟨first, behind⟩
  · simp [hbody] at hdrop
  rw [hbody] at hdrop hsited
  have hfirst : beforeType first = false := by
    have := List.head?_dropWhile_not beforeType body
    simpa [hbody] using this
  have hvar : ∀ {j}, (∃ t ∈ insertAt style.tokens points j behind, t.kind = .variableName) →
      ∃ t ∈ behind, t.kind = .variableName := by
    rintro j ⟨t, ht, hk⟩
    rcases mem_insertAt ht with hpiece | hmem
    · have hnone : ∀ u ∈ style.tokens, u.kind ≠ .variableName := by cases style <;> decide
      exact absurd hk (hnone t hpiece)
    · exact ⟨t, hmem, hk⟩
  by_cases hi : i + (body.takeWhile beforeType).length ∈ points
  · have hsite := hsited.1 hi
    cases style with
    | union =>
      have := hsite.1
      simp [hunnamed'.named] at this
    | mark =>
      have hmark : beforeType ⟨.punct, utf8 "?"⟩ = false := by decide
      rw [insertAt_cons_of_mem _ _ hi, Style.tokens, List.singleton_append,
        List.dropWhile_cons_of_neg (by simp [hmark])] at hdrop
      obtain ⟨rfl, rfl⟩ := List.cons.inj hdrop
      have hname : first.kind = .name := hsite.2
      have hbehind : ∃ t ∈ behind, t.kind = .variableName := by
        obtain ⟨t, ht, hk⟩ := hat.variable_behind
        rcases List.mem_cons.1 ht with rfl | ht
        · simp [hname] at hk
        · exact hvar ⟨t, ht, hk⟩
      exact ⟨_, first, behind, _, typeAt_of_dropWhile_eq hbody (by simp [hname]) hbehind, hsited.2,
        .inl ⟨rfl, hi, rfl⟩⟩
  · rw [insertAt_cons_of_notMem _ _ hi, List.dropWhile_cons_of_neg (by simp [hfirst])] at hdrop
    obtain ⟨rfl, rfl⟩ := List.cons.inj hdrop
    exact ⟨_, first, behind, _,
      typeAt_of_dropWhile_eq hbody hat.first_kind (hvar hat.variable_behind), hsited.2,
      .inr ⟨hi, rfl, rfl⟩⟩

end Fix

end ExplicitNull
