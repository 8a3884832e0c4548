import ExplicitNull.Proofs.InertTokens
import ExplicitNull.Proofs.Relocation

/-!
Functions that return a reference. Their `&` stands between the keyword and the name, so the name
is not read as the word behind a function keyword: one that spells a modifier is a modifier there,
and the function is not found. Nothing else depends on the `&`.
-/
namespace ExplicitNull

namespace Word

structure IsIdentifier (w : Bytes) : Prop where
  starts : ∃ b ∈ w.head?, startsIdentifier b
  continues : ∀ b ∈ w, continuesIdentifier b

variable {w : Bytes}

theorem not_isModifier_of_isIntroducer (h : isIntroducer w) : isModifier w = false := by
  have hapart : ∀ s ∈ introducers, ∀ m ∈ modifiers, Bytes.toLower s ≠ Bytes.toLower m := by decide
  obtain ⟨s, hs, hsame⟩ := List.any_eq_true.1 h
  rw [Bool.eq_false_iff]
  intro hmodifier
  obtain ⟨m, hm, hsame'⟩ := List.any_eq_true.1 hmodifier
  exact hapart s hs m hm ((eq_of_beq hsame).symm.trans (eq_of_beq hsame'))

namespace IsIdentifier

theorem exists_cons (h : IsIdentifier w) : ∃ b x, w = b :: x ∧ startsIdentifier b := by
  obtain ⟨b, hb, hstarts⟩ := h.starts
  obtain ⟨x, rfl⟩ := List.head?_eq_some_iff.1 hb
  exact ⟨b, x, rfl, hstarts⟩

theorem notMem (h : IsIdentifier w) {c : UInt8} (hc : continuesIdentifier c = false) : c ∉ w := by
  intro hmem
  exact absurd (h.continues c hmem) (by simp [hc])

/-- A word in no special place is read as a modifier if it spells one. -/
theorem classify_eq_modifier_iff (h : IsIdentifier w) :
    classify false w = .modifier ↔ isModifier w := by
  have hslash : w.contains (byte '\\') = false :=
    Bool.eq_false_iff.2 fun hmem => h.notMem (by decide) (List.contains_iff_mem.1 hmem)
  rw [classify, hslash, if_neg (by decide)]
  by_cases hintroducer : isIntroducer w
  · simp [hintroducer, not_isModifier_of_isIntroducer hintroducer]
  · by_cases hmodifier : isModifier w <;> simp [hintroducer, hmodifier]

end IsIdentifier

end Word

/-- A source with one function, which has a name, the text of a parameter list, and an `&` in front
of the name if it returns a reference. -/
def declaration (reference : Bool) (w list : Bytes) : Bytes :=
  utf8 "<?php function " ++
    ((if reference then utf8 "&" else []) ++ (w ++ (utf8 "(" ++ (list ++ utf8 ") \x7b\x7d"))))

namespace Lexer

variable {w : Bytes}

def opener : List Token := [⟨.openTag, utf8 "<?php"⟩, ⟨.whitespace, utf8 " "⟩]

def function : Token := ⟨.keyword, utf8 "function"⟩

def blank : Token := ⟨.whitespace, utf8 " "⟩

def ampersand : Token := ⟨.punct, utf8 "&"⟩

def parenthesis : Token := ⟨.punct, utf8 "("⟩

def listTokens (list : Bytes) : List Token :=
  parenthesis :: tokensFrom ⟨true, false⟩ (list ++ utf8 ") \x7b\x7d")

theorem Yields.step {s s' : State} {t : Token} {tail : Bytes} (h : Yields s t tail)
    (hafter : s.after t = s') : tokensFrom s (t.text ++ tail) = t :: tokensFrom s' tail := by
  rw [tokensFrom_of_yields h, hafter]

theorem tokensFrom_opener {tail : Bytes} (htail : tail.head?.any Word.isSpace = false) :
    tokensFrom ⟨false, false⟩ (utf8 "<?php function " ++ tail) =
      opener ++ function :: blank :: tokensFrom ⟨true, true⟩ tail := by
  have htag : ∀ more, tokensFrom ⟨false, false⟩ (utf8 "<?php" ++ (utf8 " " ++ more)) =
      ⟨.openTag, utf8 "<?php"⟩ :: tokensFrom ⟨true, false⟩ (utf8 " " ++ more) := fun _ =>
    @Yields.step _ _ ⟨.openTag, utf8 "<?php"⟩ _ ⟨_, _, rfl, rfl⟩ rfl
  have hfirst : ∀ more, tokensFrom ⟨true, false⟩ (utf8 " " ++ (utf8 "function" ++ more)) =
      blank :: tokensFrom ⟨true, false⟩ (utf8 "function" ++ more) := fun _ =>
    @Yields.step _ _ blank _ ⟨_, _, rfl, rfl⟩ rfl
  have hword : ∀ more, tokensFrom ⟨true, false⟩ (utf8 "function" ++ (utf8 " " ++ more)) =
      function :: tokensFrom ⟨true, true⟩ (utf8 " " ++ more) := fun _ =>
    @Yields.step _ _ function _ ⟨_, _, rfl, rfl⟩ (by decide)
  have hlast : tokensFrom ⟨true, true⟩ (utf8 " " ++ tail) =
      blank :: tokensFrom ⟨true, true⟩ tail := by
    refine @Yields.step _ _ blank _ (PlainRule.yields (.space (by decide) ?_)) rfl
    cases tail with
    | nil => rfl
    | cons b tail =>
      have hb : Word.isSpace b = false := htail
      simp [hb]
  have hsplit : utf8 "<?php function " ++ tail =
      utf8 "<?php" ++ (utf8 " " ++ (utf8 "function" ++ (utf8 " " ++ tail))) := rfl
  rw [hsplit, htag, hfirst, hword, hlast]
  rfl

theorem tokensFrom_parenthesis (nameNext : Bool) (tail : Bytes) :
    tokensFrom ⟨true, nameNext⟩ (utf8 "(" ++ tail) = parenthesis :: tokensFrom ⟨true, false⟩ tail := by
  have hsign : Yields ⟨true, nameNext⟩ parenthesis tail :=
    PlainRule.yields (.sign (by decide) fun h => absurd h (by decide))
  exact tokensFrom_of_yields hsign

theorem tokensFrom_name (hw : Word.IsIdentifier w) (declared : Bool) (list : Bytes) :
    tokensFrom ⟨true, declared⟩ (w ++ (utf8 "(" ++ (list ++ utf8 ") \x7b\x7d"))) =
      ⟨Word.classify declared w, w⟩ :: listTokens list := by
  obtain ⟨b, x, rfl, hstarts⟩ := hw.exists_cons
  have hword : Yields ⟨true, declared⟩ ⟨Word.classify declared (b :: x), b :: x⟩
      (utf8 "(" ++ (list ++ utf8 ") \x7b\x7d")) := by
    refine PlainRule.yields (.word (.inl hstarts) (nameLength_of_continues ?_ rfl))
    exact fun c hc => hw.continues c (List.mem_cons_of_mem _ hc)
  -- a parenthesis is read alike whether or not the name asks for another one
  have hafter : ∀ s : State, s.inCode = true →
      tokensFrom s (utf8 "(" ++ (list ++ utf8 ") \x7b\x7d")) = listTokens list := by
    rintro ⟨_, nameNext⟩ rfl
    exact tokensFrom_parenthesis nameNext _
  rw [tokensFrom_of_yields hword, hafter _ after_inCode_of_classify]

/-- The name is a name behind the keyword, and a word like any other behind the `&`. -/
theorem tokenize_declaration (hw : Word.IsIdentifier w) (list : Bytes) :
    tokenize (declaration false w list) =
        opener ++ function :: ([blank, ⟨.name, w⟩] ++ listTokens list) ∧
      tokenize (declaration true w list) =
        opener ++ function :: ([blank, ampersand, ⟨Word.classify false w, w⟩] ++ listTokens list) := by
  obtain ⟨b, x, hx, hstarts⟩ := hw.exists_cons
  have hspace : Word.isSpace b = false := by
    rw [Bool.eq_false_iff]
    intro hblank
    exact absurd (Word.continuesIdentifier_of_startsIdentifier hstarts)
      (by simp [Word.not_continuesIdentifier_of_isSpace hblank])
  constructor
  · rw [tokenize, declaration, tokensFrom_opener (by simp [hx, hspace])]
    exact congrArg (opener ++ function :: blank :: ·) (tokensFrom_name hw true list)
  · have hand : Yields ⟨true, true⟩ ampersand (w ++ (utf8 "(" ++ (list ++ utf8 ") \x7b\x7d"))) := by
      refine PlainRule.yields (.sign (by decide) fun _ => ?_)
      rw [hx]
      exact ⟨fun h => Word.ne_of_startsIdentifier hstarts (by decide) (Option.some.inj h),
        fun h => Word.ne_of_startsIdentifier hstarts (by decide) (Option.some.inj h)⟩
    rw [tokenize, declaration, tokensFrom_opener rfl]
    refine congrArg (opener ++ function :: blank :: ·) ((tokensFrom_of_yields hand).trans ?_)
    exact congrArg (List.cons _) (tokensFrom_name hw false list)

end Lexer

open Lexer

namespace Signature

/-- The functions of tokens that start at an opening parenthesis, with the one that it belongs to.
-/
def functionsAt (ts : List Token) : List (Nat × Nat) :=
  ((closingOffset? 0 ts).map fun n => (0, n)).toList ++ occurrencesFrom 0 ts

theorem parentheses?_heading {pre : List Token} (hpre : Heading pre) {t : Token}
    (ht : t.isPunct "(") (i : Nat) (tail : List Token) :
    parentheses? i (pre ++ t :: tail) = ((closingOffset? 0 (t :: tail)).map fun n => (0, n)).map
      (movePair (i + 1 + pre.length)) := by
  have hopening : fromOpening? (pre ++ t :: tail) = some (t :: tail) :=
    fromOpening?_eq_some_iff.2 ⟨pre, rfl, hpre, t, rfl, ht⟩
  rw [parentheses?, hopening, Option.map_map]
  simp only [List.length_append, Nat.add_sub_cancel_right]
  rfl

/-- A function keyword and a heading make a function of the parenthesis behind them. -/
theorem occurrencesFrom_heading {pre : List Token} (hpre : Heading pre)
    (hkeyword : ∀ u ∈ pre, u.kind ≠ .keyword) {k t : Token} (hk : k.kind = .keyword)
    (ht : t.isPunct "(") (i : Nat) (tail : List Token) :
    occurrencesFrom i (k :: (pre ++ t :: tail)) =
      (functionsAt (t :: tail)).map (movePair (i + 1 + pre.length)) := by
  have hbehind := occurrencesFrom_move (i + 1 + pre.length) 0 (t :: tail)
  rw [occurrencesFrom_cons, occurrence?, if_pos hk, parentheses?_heading hpre ht,
    occurrencesFrom_append hkeyword, functionsAt, List.map_append, ← hbehind]
  rcases closingOffset? 0 (t :: tail) with _ | n <;> rfl

/-- Behind an `&` a function is found only if a name follows. -/
theorem fromOpening?_reference {u : Token} (hname : u.kind ≠ .name) (hpunct : u.kind ≠ .punct)
    (htrivia : u.isTrivia = false) (tail : List Token) :
    fromOpening? (blank :: ampersand :: u :: tail) = none := by
  have hreference : skipTrivia (blank :: ampersand :: u :: tail) = ampersand :: u :: tail := rfl
  have hskip : skipHeading (blank :: ampersand :: u :: tail) = u :: tail := by
    rw [skipHeading, hreference, skipOptional, if_pos (by decide), skipTrivia_cons htrivia,
      skipOptional, if_neg (by simpa using hname)]
  have hunfold : fromOpening? (blank :: ampersand :: u :: tail) =
      if (skipHeading (blank :: ampersand :: u :: tail)).head?.any (·.isPunct "(") then
        some (skipHeading (blank :: ampersand :: u :: tail)) else none := rfl
  rw [hunfold, hskip]
  exact if_neg (by simp [Token.not_isPunct_of_kind hpunct])

theorem heading_name (w : Bytes) : Heading [blank, ⟨.name, w⟩] :=
  ⟨[blank], [], [], none, some ⟨.name, w⟩, rfl, by simp [blank, Token.isTrivia], by simp, by simp⟩

theorem heading_reference (w : Bytes) : Heading [blank, ampersand, ⟨.name, w⟩] :=
  ⟨[blank], [], [], some ampersand, some ⟨.name, w⟩, rfl, by simp [blank, Token.isTrivia],
    by simp [ampersand, Token.isPunct], by simp⟩

theorem heading_nil : Heading [] := ⟨[], [], [], none, none, rfl, by simp, by simp, by simp⟩

theorem occurrencesFrom_declaration (w list : Bytes) :
    occurrencesFrom 0 (opener ++ function :: ([blank, ⟨.name, w⟩] ++ listTokens list)) =
      (functionsAt (listTokens list)).map (movePair 5) := by
  rw [occurrencesFrom_append (by simp [opener])]
  exact occurrencesFrom_heading (heading_name w) (by simp [blank]) rfl rfl 2 _

/-- The name of a function that returns a reference hides it if it is read as a modifier. One that
is read as a keyword makes a function of its own in its place. -/
theorem occurrencesFrom_declaration_reference {kind : Kind}
    (hkind : kind = .name ∨ kind = .keyword ∨ kind = .modifier) (w list : Bytes) :
    occurrencesFrom 0 (opener ++ function :: ([blank, ampersand, ⟨kind, w⟩] ++ listTokens list)) =
      (if kind = .modifier then occurrencesFrom 0 (listTokens list)
      else functionsAt (listTokens list)).map (movePair 6) := by
  rw [occurrencesFrom_append (by simp [opener])]
  rcases hkind with rfl | hkind
  · rw [if_neg (by decide)]
    exact occurrencesFrom_heading (heading_reference w) (by simp [blank, ampersand]) rfl rfl 2 _
  have hnone : fromOpening? ([blank, ampersand, ⟨kind, w⟩] ++ listTokens list) = none := by
    refine fromOpening?_reference ?_ ?_ ?_ _ <;> rcases hkind with rfl | rfl <;> simp [Token.isTrivia]
  have hskip : occurrencesFrom 2 (function :: ([blank, ampersand, ⟨kind, w⟩] ++ listTokens list)) =
      occurrencesFrom 3 ([blank, ampersand, ⟨kind, w⟩] ++ listTokens list) := by
    rw [occurrencesFrom, if_pos (by decide), parentheses?, hnone]
  refine hskip.trans ?_
  -- the keyword of the function has none, so it is left to the name to be a keyword
  rcases hkind with rfl | rfl
  · rw [if_neg (by decide)]
    exact (@occurrencesFrom_append [blank, ampersand] (by simp [blank, ampersand]) 3 _).trans
      (occurrencesFrom_heading heading_nil (by simp) rfl rfl 5 _)
  · rw [occurrencesFrom_append (by simp [blank, ampersand]), if_pos rfl]
    exact occurrencesFrom_move 6 0 _

end Signature

open Signature

section

variable (file : Path) {w : Bytes} (hw : Word.IsIdentifier w) (list : Bytes)

include hw

/-- Without an `&` the function is found. -/
theorem scanSource_declaration : scanSource file (declaration false w list) =
    issuesIn file (listTokens list) (functionsAt (listTokens list)) := by
  have hfixed : ∀ t ∈ opener ++ [function, blank], byte '\n' ∉ t.text := by decide
  have hline : ∀ t ∈ opener ++ [function, blank] ++ [⟨.name, w⟩], byte '\n' ∉ t.text :=
    List.forall_mem_append.2 ⟨hfixed, by simpa using hw.notMem (by decide)⟩
  rw [scanSource_eq_issuesIn, (tokenize_declaration hw list).1, occurrencesFrom_declaration]
  exact issuesIn_move file hline _

/-- With an `&` the function is found unless its name spells a modifier. -/
theorem scanSource_declaration_reference : scanSource file (declaration true w list) =
    issuesIn file (listTokens list)
      (if Word.isModifier w then occurrencesFrom 0 (listTokens list)
      else functionsAt (listTokens list)) := by
  have hfixed : ∀ t ∈ opener ++ [function, blank, ampersand], byte '\n' ∉ t.text := by decide
  have hline : ∀ t ∈ opener ++ [function, blank, ampersand] ++ [⟨Word.classify false w, w⟩],
      byte '\n' ∉ t.text :=
    List.forall_mem_append.2 ⟨hfixed, by simpa using hw.notMem (by decide)⟩
  rw [scanSource_eq_issuesIn, (tokenize_declaration hw list).2,
    occurrencesFrom_declaration_reference (classify_cases ..)]
  simp only [hw.classify_eq_modifier_iff]
  exact issuesIn_move file hline _

/-- The function of the source without an `&` is one if its parenthesis is closed. -/
theorem occurs_declaration_iff :
    (∃ opening closing, Occurs (tokenize (declaration false w list)) 2 opening closing) ↔
      ∃ n, closingOffset? 0 (listTokens list) = some n := by
  have hpair : occurrence? 2 function ([blank, ⟨.name, w⟩] ++ listTokens list) =
      ((closingOffset? 0 (listTokens list)).map fun n => (0, n)).map (movePair 5) := by
    rw [occurrence?, if_pos (by decide), listTokens, parentheses?_heading (heading_name w) rfl]
    rfl
  have hoccurs : ∀ o, occurrence? 2 function ([blank, ⟨.name, w⟩] ++ listTokens list) = some o ↔
      Occurs (tokenize (declaration false w list)) 2 o.1 o.2 := by
    rw [(tokenize_declaration hw list).1]
    exact fun _ => @occurrence?_eq_some_iff opener _ _ _
  rw [hpair] at hoccurs
  constructor
  · rintro ⟨opening, closing, h⟩
    obtain ⟨_, hn, _⟩ := Option.map_eq_some_iff.1 ((hoccurs (opening, closing)).2 h)
    obtain ⟨n, hn, _⟩ := Option.map_eq_some_iff.1 hn
    exact ⟨n, hn⟩
  · rintro ⟨n, hn⟩
    exact ⟨_, _, (hoccurs _).1 (by rw [hn]; rfl)⟩

/-- What is lost with a function that its name hides. The functions behind it are numbered as if it
were not there. -/
theorem scanSource_hidden (hmodifier : Word.isModifier w)
    (hoccurs : ∃ opening closing, Occurs (tokenize (declaration false w list)) 2 opening closing) :
    ∃ own : List Issue, (∀ i ∈ own, i.address.functionIndex = 0) ∧
      scanSource file (declaration false w list) =
        own ++ (scanSource file (declaration true w list)).map Issue.next := by
  obtain ⟨n, hn⟩ := (occurs_declaration_iff hw list).1 hoccurs
  refine ⟨issuesIn file (listTokens list) [(0, n)], ?_, ?_⟩
  · intro i hi
    obtain ⟨c, hc, rfl⟩ := List.mem_map.1 hi
    obtain ⟨l, hl, hc⟩ := List.mem_flatMap.1 hc
    obtain rfl := List.mem_singleton.1 hl
    exact (Candidate.mem_ofList.1 hc).1
  · rw [scanSource_declaration file hw, scanSource_declaration_reference file hw, if_pos hmodifier,
      functionsAt, hn]
    exact issuesIn_cons file _ _ _

end

/-- No issue is the same with a function more in front of it. -/
theorem eq_nil_of_map_next {issues : List Issue} (h : issues = issues.map Issue.next) :
    issues = [] := by
  cases issues with
  | nil => rfl
  | cons i issues =>
    have hindex := congrArg (·.address.functionIndex) (List.cons.inj h).1
    simp [Issue.next, Address.next] at hindex

/-- An `&` changes nothing about the issues, unless the name spells a modifier, the function is one
without the `&`, and there is an issue at all. -/
theorem scanSource_reference_iff (file : Path) {w : Bytes} (hw : Word.IsIdentifier w)
    (list : Bytes) :
    scanSource file (declaration true w list) = scanSource file (declaration false w list) ↔
      Word.isModifier w = false ∨ scanSource file (declaration false w list) = [] ∨
        ¬∃ opening closing, Occurs (tokenize (declaration false w list)) 2 opening closing := by
  by_cases hmodifier : Word.isModifier w = true
  · by_cases hoccurs : ∃ opening closing,
        Occurs (tokenize (declaration false w list)) 2 opening closing
    · obtain ⟨own, -, hplain⟩ := scanSource_hidden file hw list hmodifier hoccurs
      simp only [hmodifier, Bool.true_eq_false, hoccurs, not_true, or_false, false_or]
      constructor
      -- as many issues on both sides leave none to the hidden function, and the others differ
      · intro hsame
        rw [hsame] at hplain
        have hlen := congrArg List.length hplain
        rw [List.length_append, List.length_map] at hlen
        obtain rfl : own = [] := List.eq_nil_of_length_eq_zero (by omega)
        exact eq_nil_of_map_next hplain
      · intro hnil
        rw [hnil, List.nil_eq_append_iff, List.map_eq_nil_iff] at hplain
        rw [hnil, hplain.2]
    · refine iff_of_true ?_ (.inr (.inr hoccurs))
      have hopen : closingOffset? 0 (listTokens list) = none := by
        rw [Option.eq_none_iff_forall_ne_some]
        exact fun n hn => hoccurs ((occurs_declaration_iff hw list).2 ⟨n, hn⟩)
      rw [scanSource_declaration file hw, scanSource_declaration_reference file hw,
        if_pos hmodifier, functionsAt, hopen]
      rfl
  · refine iff_of_true ?_ (.inl (Bool.eq_false_iff.2 hmodifier))
    rw [scanSource_declaration file hw, scanSource_declaration_reference file hw,
      if_neg hmodifier]

def listSample : List Token :=
  [⟨.name, utf8 "Foo"⟩, blank, ⟨.variableName, utf8 "$a"⟩, blank, ⟨.punct, utf8 "="⟩, blank,
    ⟨.name, utf8 "null"⟩, ⟨.punct, utf8 ")"⟩, blank, ⟨.punct, utf8 "\x7b"⟩, ⟨.punct, utf8 "\x7d"⟩]

theorem listTokens_listSample : listTokens (utf8 "Foo $a = null") = parenthesis :: listSample := by
  have hreads : Reads ⟨true, false⟩ listSample := by decide
  exact congrArg (List.cons _) hreads

theorem scanSource_declaration_listSample {w : Bytes} (hw : Word.IsIdentifier w) :
    scanSource ⟨utf8 "a.php"⟩ (declaration false w (utf8 "Foo $a = null")) =
      [⟨⟨utf8 "a.php"⟩, ⟨0, 0⟩, 0, 1, utf8 "$a", utf8 "Foo"⟩] := by
  rw [scanSource_declaration _ hw, listTokens_listSample]
  decide

theorem scanSource_reference_fnSample :
    scanSource ⟨utf8 "a.php"⟩ (declaration true (utf8 "Fn") (utf8 "Foo $a = null")) =
      [⟨⟨utf8 "a.php"⟩, ⟨0, 0⟩, 0, 1, utf8 "$a", utf8 "Foo"⟩] := by
  have hw : Word.IsIdentifier (utf8 "Fn") :=
    ⟨⟨byte 'F', rfl, by decide⟩, List.all_eq_true.1 (by decide)⟩
  have hsame := (scanSource_reference_iff ⟨utf8 "a.php"⟩ hw (utf8 "Foo $a = null")).2
    (.inl (by decide))
  exact hsame.trans (scanSource_declaration_listSample hw)

/-- A function that returns a reference and is named `static` is hidden with its issue. -/
theorem scanSource_reference_staticSample :
    Word.IsIdentifier (utf8 "static") ∧
      scanSource ⟨utf8 "a.php"⟩ (declaration true (utf8 "static") (utf8 "Foo $a = null")) = [] ∧
      scanSource ⟨utf8 "a.php"⟩ (declaration false (utf8 "static") (utf8 "Foo $a = null")) =
        [⟨⟨utf8 "a.php"⟩, ⟨0, 0⟩, 0, 1, utf8 "$a", utf8 "Foo"⟩] := by
  have hw : Word.IsIdentifier (utf8 "static") :=
    ⟨⟨byte 's', rfl, by decide⟩, List.all_eq_true.1 (by decide)⟩
  refine ⟨hw, ?_, scanSource_declaration_listSample hw⟩
  rw [scanSource_declaration_reference _ hw, if_pos (by decide), listTokens_listSample]
  decide

end ExplicitNull
