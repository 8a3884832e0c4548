import ExplicitNull.Proofs.TypeWords

/-!
What comments and white space do to a report. All that a report depends on is found behind trivia,
so two sources that differ in trivia alone have the same parameters with a type and the default
null, at the same addresses. They are reported alike if and only if the types in which a comment
decides whether they can be fixed are at the same addresses too; there is none if no comment stands
inside of a type.
-/
namespace ExplicitNull

open Token

theorem Interval.slice_isInfix {α : Type} (r : Interval) (xs : List α) : r.slice xs <:+: xs :=
  (List.take_prefix _ _).isInfix.trans (List.drop_suffix _ _).isInfix

theorem Seamed.of_isInfix {ts us : List Token} (h : Seamed ts) (hus : us <:+: ts) : Seamed us := by
  obtain ⟨a, b, rfl⟩ := hus
  exact h.of_append_left.of_append_right

namespace Candidate

/-- A parameter that has a type, the default null and no attribute. -/
structure Typed where
  parameter : Bytes
  /-- The tokens of the type. -/
  type : List Token
  deriving DecidableEq

def parameterName (body : List Token) : Bytes :=
  ((body.find? (·.kind == .variableName)).map Token.text).getD []

/-- A parameter as all checks but that of the text of its type see it. -/
def typed? (tokens : List Token) : Option Typed :=
  let body := tokens.dropWhile Token.isTrivia
  if tokens.any (·.kind == .attributeOpen) || !hasNullDefault body then none
  else (locateType body).map fun type => ⟨parameterName body, type.slice body⟩

def Typed.significant (x : Typed) : Typed := { x with type := Token.significant x.type }

theorem hasNullDefault_significant (body : List Token) :
    hasNullDefault (significant body) = hasNullDefault body := by
  have hvar : ∀ t : Token, t.isTrivia → (t.kind != .variableName) = true := fun t ht => by
    simpa using kind_ne_of_isTrivia ht rfl
  have hequals : ∀ t : Token, t.isTrivia → (!t.isPunct "=") = true := fun t ht => by
    simp [isPunct_of_isTrivia ht]
  rw [hasNullDefault, hasNullDefault, tail_dropWhile_significant hvar,
    tail_dropWhile_significant hequals,
    find?_significant _ _ fun t ht => by simpa using ht]

theorem isReference_significant (t : Token) (rest : List Token) :
    isReference t (significant rest) = isReference t rest := by
  rw [isReference, isReference, find?_significant _ _ fun t ht => by simpa using ht]

theorem typeRun_significant (ts : List Token) :
    typeRun (significant ts) = significant (typeRun ts) := by
  induction ts with
  | nil => rfl
  | cons t rest ih =>
    rw [typeRun]
    by_cases ht : t.isTrivia
    · have hends : endsType t rest = false := by
        have hvar : t.kind ≠ .variableName := kind_ne_of_isTrivia ht rfl
        have hmodifier : t.kind ≠ .modifier := kind_ne_of_isTrivia ht rfl
        simp [endsType, isReference, isPunct_of_isTrivia ht, hvar, hmodifier]
      rw [significant_cons_of_isTrivia ht, ih, hends, if_neg (by simp),
        significant_cons_of_isTrivia ht]
    · rw [Bool.not_eq_true] at ht
      rw [significant_cons ht, typeRun, endsType, isReference_significant, ← endsType, ih]
      split
      · rfl
      · rw [significant_cons ht]

/-- The tokens of a type, given the tokens from the first one on that is not passed before it. -/
def typeFrom? : List Token → Option (List Token)
  | [] => none
  | first :: behind =>
    if first.kind ≠ .variableName ∧ behind.any (·.kind == .variableName) then
      some (typeRun (first :: behind))
    else none

theorem slice_locateType (body : List Token) :
    (locateType body).map (·.slice body) = typeFrom? (body.dropWhile beforeType) := by
  rcases hlocate : locateType body with _ | type
  · rcases hdrop : body.dropWhile beforeType with _ | ⟨first, behind⟩
    · rfl
    rw [typeFrom?, if_neg]
    · rfl
    · rintro ⟨hkind, hvar⟩
      have hat := typeAt_of_dropWhile_eq hdrop hkind (by simpa using hvar)
      simp [hat.locateType] at hlocate
  · obtain ⟨front, first, behind, hat, rfl⟩ := exists_typeAt hlocate
    have hvar := hat.variable_behind
    rw [hat.dropWhile_eq.2, typeFrom?, if_pos ⟨hat.first_kind, by simpa using hvar⟩,
      Option.map_some, Interval.slice]
    dsimp only
    rw [Nat.add_sub_cancel_left, hat.body_eq, List.drop_left, typeRun_eq]

theorem typeFrom?_significant (body : List Token) :
    typeFrom? ((significant body).dropWhile beforeType) =
      (typeFrom? (body.dropWhile beforeType)).map significant := by
  have hpassed : ∀ t : Token, t.isTrivia → beforeType t := fun t ht => by
    have hvar : t.kind ≠ .variableName := kind_ne_of_isTrivia ht rfl
    simp [beforeType, startsType, ht, hvar]
  have hnot := List.head?_dropWhile_not beforeType body
  rw [dropWhile_significant hpassed]
  generalize body.dropWhile beforeType = ts at hnot ⊢
  rcases ts with _ | ⟨first, behind⟩
  · rfl
  have hfirst : first.isTrivia = false := by
    rw [Bool.eq_false_iff]
    intro htrivia
    rw [List.head?_cons] at hnot
    simp [hpassed first htrivia] at hnot
  have hany : (significant behind).any (·.kind == .variableName) =
      behind.any (·.kind == .variableName) := by
    refine any_significant _ _ fun t ht => ?_
    simp [isTrivia, eq_of_beq ht]
  rw [significant_cons hfirst, typeFrom?, typeFrom?, hany, ← significant_cons hfirst,
    typeRun_significant]
  split <;> rfl

/-- What matters of a parameter is the same without its trivia. -/
theorem typed?_significant (tokens : List Token) :
    typed? (significant tokens) = (typed? tokens).map Typed.significant := by
  have hbody : (significant tokens).dropWhile Token.isTrivia =
      significant (tokens.dropWhile Token.isTrivia) :=
    dropWhile_significant (fun _ ht => ht) tokens
  have hattr : (significant tokens).any (·.kind == .attributeOpen) =
      tokens.any (·.kind == .attributeOpen) := by
    refine any_significant _ _ fun t ht => ?_
    simp [isTrivia, eq_of_beq ht]
  have hname : ∀ body, parameterName (significant body) = parameterName body := by
    intro body
    rw [parameterName, parameterName, find?_significant]
    intro t ht
    simp [isTrivia, eq_of_beq ht]
  have hlocate : ∀ body name,
      (locateType body).map (fun type => (⟨name, type.slice body⟩ : Typed)) =
        (typeFrom? (body.dropWhile beforeType)).map (Typed.mk name) := by
    intro body name
    rw [← slice_locateType, Option.map_map]
    rfl
  rw [typed?, typed?, hbody, hattr, hasNullDefault_significant]
  split
  · rfl
  · rw [hlocate, hlocate, hname, typeFrom?_significant, Option.map_map, Option.map_map]
    rfl

theorem Typed.type_isInfix {tokens : List Token} {x : Typed} (h : typed? tokens = some x) :
    x.type <:+: tokens := by
  rw [typed?] at h
  split at h
  · simp at h
  · obtain ⟨type, -, rfl⟩ := Option.map_eq_some_iff.1 h
    exact (Interval.slice_isInfix _ _).trans (List.dropWhile_suffix _).isInfix

/-- What is left for the inspection of a parameter is the check of the text of its type. -/
theorem map_inspect (ts : List Token) (param : Interval) :
    (inspect ts param).map (fun f => parameterName (f.regions.body.slice ts)) =
      ((typed? (param.slice ts)).filter fun x => isFixable (textOf x.type)).map
        Typed.parameter := by
  have hattr : (Signature.splitLeading ts param).hasAttribute =
      (param.slice ts).any (·.kind == .attributeOpen) := rfl
  rw [inspect, typed?, hattr]
  cases hany : (param.slice ts).any (·.kind == .attributeOpen) with
  | true => rfl
  | false =>
    rw [Signature.slice_body_of_noAttribute hany, Bool.false_or]
    split
    · rfl
    · rcases locateType ((param.slice ts).dropWhile Token.isTrivia) with _ | type
      · rfl
      · have htext : typeText ((param.slice ts).dropWhile Token.isTrivia) type =
            textOf (type.slice ((param.slice ts).dropWhile Token.isTrivia)) := rfl
        rw [Option.map_some, Option.filter_some, ← htext]
        dsimp only
        split
        · rw [Option.map_some, Signature.slice_body_of_noAttribute hany]
          rfl
        · rfl

/-- The addresses of the parameters whose types are fixed or not for the sake of their comments. -/
def cloudedTypes (ts : List Token) : List Address :=
  ((entries typed? ts).filter fun x => clouded x.2.type).map Prod.fst

/-- Comments that stand outside of the types decide nothing. -/
theorem cloudedTypes_eq_nil {ts : List Token}
    (h : ∀ x ∈ entries typed? ts, x.2.type.any Token.isComment = false) : cloudedTypes ts = [] := by
  rw [cloudedTypes, List.map_eq_nil_iff, List.filter_eq_nil_iff]
  intro x hx
  simp [clouded, h x hx]

end Candidate

open Candidate

/-- The issues of a source are the typed parameters that pass the check of their type. -/
theorem map_scanSource (file : Path) (src : Bytes) :
    (scanSource file src).map (fun i => (i.address, i.parameter)) =
      ((entries typed? (tokenize src)).filter fun x => isFixable (textOf x.2.type)).map
        fun x => (x.1, x.2.parameter) := by
  rw [scanSource, List.map_map, candidates, entries, List.map_flatMap, List.filter_flatMap,
    List.map_flatMap]
  refine List.flatMap_congr fun l _ => ?_
  rw [ofList, List.mapIdx_eq_zipIdx_map, List.filterMap_map, List.map_filterMap,
    List.filter_filterMap, List.map_filterMap]
  refine List.filterMap_congr fun x _ => ?_
  obtain ⟨param, k⟩ := x
  have hinspect := congrArg (Option.map (Prod.mk (⟨l.functionIndex, k⟩ : Address)))
    (map_inspect (tokenize src) param)
  rw [Option.map_map, Option.map_map] at hinspect
  rw [Function.comp_apply, id_eq, Option.map_map, Option.filter_map, Option.map_map]
  exact hinspect

section

variable {α β γ : Type} {g : α → β} {k : α → γ} {p : α → Bool} {xs ys : List α}

/-- Where an element is told by what is seen of it, it is seen behind a filter if it passes. -/
theorem mem_map_filter_iff (hxs : ∀ x ∈ xs, ∀ x' ∈ xs, k x = k x' → x = x') {x : α} (hx : x ∈ xs) :
    k x ∈ (xs.filter p).map k ↔ p x = true := by
  constructor
  · intro hmem
    obtain ⟨x', hx', heq⟩ := List.mem_map.1 hmem
    obtain ⟨hx', hp⟩ := List.mem_filter.1 hx'
    rwa [← hxs x' hx' x hx heq]
  · exact fun hp => List.mem_map_of_mem (List.mem_filter.2 ⟨hx, hp⟩)

/-- Two lists that look alike are filtered alike if and only if the test agrees on what looks
alike. -/
theorem map_filter_eq_iff (h : xs.map g = ys.map g) (hk : ∀ x y, g x = g y → k x = k y)
    (hxs : ∀ x ∈ xs, ∀ x' ∈ xs, k x = k x' → x = x')
    (hys : ∀ y ∈ ys, ∀ y' ∈ ys, k y = k y' → y = y') :
    (xs.filter p).map k = (ys.filter p).map k ↔ ∀ x ∈ xs, ∀ y ∈ ys, g x = g y → p x = p y := by
  constructor
  · intro heq x hx y hy hxy
    rw [Bool.eq_iff_iff, ← mem_map_filter_iff hxs hx, ← mem_map_filter_iff hys hy, heq, hk x y hxy]
  · intro hp
    clear hxs hys
    induction xs generalizing ys with
    | nil =>
      obtain rfl := List.map_eq_nil_iff.1 h.symm
      rfl
    | cons x xs ih =>
      obtain ⟨y, ys, rfl, hxy, hrest⟩ := List.map_eq_cons_iff.1 h.symm
      have htail := ih hrest.symm fun x hx y hy =>
        hp x (List.mem_cons_of_mem _ hx) y (List.mem_cons_of_mem _ hy)
      rw [List.filter_cons, List.filter_cons,
        hp x (List.mem_cons_self ..) y (List.mem_cons_self ..) hxy.symm]
      split
      · rw [List.map_cons, List.map_cons, htail, hk x y hxy.symm]
      · exact htail

end

theorem seamed_type {src : Bytes} {x : Address × Typed} (h : x ∈ entries typed? (tokenize src)) :
    Seamed x.2.type := by
  obtain ⟨l, param, -, -, hx⟩ := mem_entries.1 h
  exact (reads_tokenize src).seamed.of_isInfix
    ((Typed.type_isInfix hx).trans (Interval.slice_isInfix _ _))

/-- Two sources that differ in white space and comments alone are reported alike if and only if the
types in which comments decide are at the same addresses. -/
theorem scanSource_eq_iff_of_significant (file file' : Path) {src src' : Bytes}
    (h : significant (tokenize src) = significant (tokenize src')) :
    (scanSource file src).map (fun i => (i.address, i.parameter)) =
        (scanSource file' src').map (fun i => (i.address, i.parameter)) ↔
      cloudedTypes (tokenize src) = cloudedTypes (tokenize src') := by
  let look : Address × Typed → Address × Typed := Prod.map id Typed.significant
  have hlook : (entries typed? (tokenize src)).map look =
      (entries typed? (tokenize src')).map look := by
    rw [← entries_significant rfl typed?_significant, h,
      entries_significant rfl typed?_significant]
  have hunique : ∀ src, ∀ x ∈ entries typed? (tokenize src), ∀ y ∈ entries typed? (tokenize src),
      x.1 = y.1 → x = y := fun src x hx y hy => entries_unique hx hy
  have hreports : ∀ src, ∀ x ∈ entries typed? (tokenize src),
      ∀ y ∈ entries typed? (tokenize src), (x.1, x.2.parameter) = (y.1, y.2.parameter) → x = y :=
    fun src x hx y hy heq => hunique src x hx y hy (Prod.mk.inj heq).1
  have hsame : ∀ x y, look x = look y →
      x.1 = y.1 ∧ x.2.parameter = y.2.parameter ∧ significant x.2.type = significant y.2.type := by
    rintro ⟨a, u⟩ ⟨b, v⟩ hxy
    obtain ⟨haddress, hrest⟩ := Prod.mk.inj hxy
    obtain ⟨hname, htype⟩ := Typed.mk.inj hrest
    exact ⟨haddress, hname, htype⟩
  rw [map_scanSource, map_scanSource, cloudedTypes, cloudedTypes,
    map_filter_eq_iff hlook (fun x y hxy => by rw [(hsame x y hxy).1, (hsame x y hxy).2.1])
      (hreports src) (hreports src'),
    map_filter_eq_iff hlook (fun x y hxy => (hsame x y hxy).1) (hunique src) (hunique src')]
  -- the words of two such types are the same, so the checks differ where the comments decide
  refine forall₂_congr fun x hx => forall₂_congr fun y hy => forall_congr' fun hxy => ?_
  have hwords : spaced x.2.type = spaced y.2.type := by rw [spaced, spaced, (hsame x y hxy).2.2]
  rw [isFixable_textOf (seamed_type hx), isFixable_textOf (seamed_type hy), hwords,
    Bool.xor_right_inj]

def plainSample : List Token :=
  [⟨.openTag, utf8 "<?php"⟩, ⟨.whitespace, utf8 " "⟩, ⟨.keyword, utf8 "function"⟩,
    ⟨.whitespace, utf8 " "⟩, ⟨.name, utf8 "f"⟩, ⟨.punct, utf8 "("⟩, ⟨.name, utf8 "Foo"⟩,
    ⟨.whitespace, utf8 " "⟩, ⟨.variableName, utf8 "$a"⟩, ⟨.whitespace, utf8 " "⟩,
    ⟨.punct, utf8 "="⟩, ⟨.whitespace, utf8 " "⟩, ⟨.name, utf8 "null"⟩, ⟨.punct, utf8 ","⟩,
    ⟨.whitespace, utf8 " "⟩, ⟨.name, utf8 "mixed"⟩, ⟨.whitespace, utf8 " "⟩,
    ⟨.variableName, utf8 "$b"⟩, ⟨.whitespace, utf8 " "⟩, ⟨.punct, utf8 "="⟩,
    ⟨.whitespace, utf8 " "⟩, ⟨.name, utf8 "null"⟩, ⟨.punct, utf8 ")"⟩, ⟨.punct, utf8 ";"⟩]

/-- The same with two comments, of which one stands in a type, and with other white space. -/
def commentedSample : List Token :=
  [⟨.openTag, utf8 "<?php"⟩, ⟨.whitespace, utf8 " "⟩, ⟨.keyword, utf8 "function"⟩,
    ⟨.whitespace, utf8 " "⟩, ⟨.name, utf8 "f"⟩, ⟨.punct, utf8 "("⟩, ⟨.name, utf8 "Foo"⟩,
    ⟨.whitespace, utf8 " "⟩, ⟨.comment, utf8 "/* one */"⟩, ⟨.whitespace, utf8 " "⟩,
    ⟨.variableName, utf8 "$a"⟩, ⟨.whitespace, utf8 " "⟩, ⟨.punct, utf8 "="⟩,
    ⟨.whitespace, utf8 " "⟩, ⟨.name, utf8 "null"⟩, ⟨.punct, utf8 ","⟩, ⟨.whitespace, utf8 " "⟩,
    ⟨.comment, utf8 "// two"⟩, ⟨.whitespace, utf8 "\n  "⟩, ⟨.name, utf8 "mixed"⟩,
    ⟨.whitespace, utf8 " "⟩, ⟨.variableName, utf8 "$b"⟩, ⟨.punct, utf8 "="⟩, ⟨.name, utf8 "null"⟩,
    ⟨.punct, utf8 ")"⟩, ⟨.punct, utf8 ";"⟩]

theorem scanSource_commentedSample :
    significant (tokenize (Token.source plainSample)) =
        significant (tokenize (Token.source commentedSample)) ∧
      (scanSource ⟨utf8 "plain.php"⟩ (Token.source plainSample)).map
          (fun i => (i.address, i.parameter)) = [(⟨0, 0⟩, utf8 "$a")] ∧
      (scanSource ⟨utf8 "plain.php"⟩ (Token.source plainSample)).map
          (fun i => (i.address, i.parameter)) =
        (scanSource ⟨utf8 "commented.php"⟩ (Token.source commentedSample)).map
          (fun i => (i.address, i.parameter)) := by
  have hplain : tokenize (Token.source plainSample) = plainSample :=
    show Lexer.Reads ⟨false, false⟩ plainSample by decide
  have hcommented : tokenize (Token.source commentedSample) = commentedSample :=
    show Lexer.Reads ⟨false, false⟩ commentedSample by decide
  have hsig : significant (tokenize (Token.source plainSample)) =
      significant (tokenize (Token.source commentedSample)) := by
    rw [hplain, hcommented]
    decide
  refine ⟨hsig, ?_, (scanSource_eq_iff_of_significant _ _ hsig).2 ?_⟩
  · rw [scanSource, hplain]
    decide
  · rw [hplain, hcommented]
    decide

/-- The same with a sign in the comment of one type and with a comment behind the word of the
other. -/
def cloudedSample : List Token :=
  [⟨.openTag, utf8 "<?php"⟩, ⟨.whitespace, utf8 " "⟩, ⟨.keyword, utf8 "function"⟩,
    ⟨.whitespace, utf8 " "⟩, ⟨.name, utf8 "f"⟩, ⟨.punct, utf8 "("⟩, ⟨.name, utf8 "Foo"⟩,
    ⟨.whitespace, utf8 " "⟩, ⟨.comment, utf8 "/* a|b */"⟩, ⟨.whitespace, utf8 " "⟩,
    ⟨.variableName, utf8 "$a"⟩, ⟨.whitespace, utf8 " "⟩, ⟨.punct, utf8 "="⟩,
    ⟨.whitespace, utf8 " "⟩, ⟨.name, utf8 "null"⟩, ⟨.punct, utf8 ","⟩, ⟨.whitespace, utf8 " "⟩,
    ⟨.name, utf8 "mixed"⟩, ⟨.whitespace, utf8 " "⟩, ⟨.comment, utf8 "/* any */"⟩,
    ⟨.whitespace, utf8 " "⟩, ⟨.variableName, utf8 "$b"⟩, ⟨.whitespace, utf8 " "⟩,
    ⟨.punct, utf8 "="⟩, ⟨.whitespace, utf8 " "⟩, ⟨.name, utf8 "null"⟩, ⟨.punct, utf8 ")"⟩,
    ⟨.punct, utf8 ";"⟩]

/-- Comments alone keep one parameter from being reported and bring up the other. -/
theorem scanSource_cloudedSample :
    significant (tokenize (Token.source plainSample)) =
        significant (tokenize (Token.source cloudedSample)) ∧
      (scanSource ⟨utf8 "plain.php"⟩ (Token.source plainSample)).map
          (fun i => (i.address, i.parameter)) = [(⟨0, 0⟩, utf8 "$a")] ∧
      (scanSource ⟨utf8 "clouded.php"⟩ (Token.source cloudedSample)).map
          (fun i => (i.address, i.parameter)) = [(⟨0, 1⟩, utf8 "$b")] := by
  have hplain : tokenize (Token.source plainSample) = plainSample :=
    show Lexer.Reads ⟨false, false⟩ plainSample by decide
  have hclouded : tokenize (Token.source cloudedSample) = cloudedSample :=
    show Lexer.Reads ⟨false, false⟩ cloudedSample by decide
  rw [scanSource, scanSource, hplain, hclouded]
  decide

end ExplicitNull
