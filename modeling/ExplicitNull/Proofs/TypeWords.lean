import ExplicitNull.Proofs.Seams
import ExplicitNull.Proofs.Settling
import ExplicitNull.Proofs.Significance

/-!
The words of a type. A word of letters is not parted by a seam between tokens, so where the text of
a type is a single word it is the text of a single token, with nothing but blanks around it. How
much white space stands between the tokens of a type then makes no difference to the checks of its
text. Comments do make one: a comment is no blank and may contain any sign.
-/
namespace ExplicitNull

def Token.isComment (t : Token) : Bool := t.kind == .comment || t.kind == .docComment

theorem Token.kind_of_uncommented {t : Token} (h : t.isTrivia) (hcomment : t.isComment = false) :
    t.kind = .whitespace := by
  rw [isTrivia, Bool.or_assoc, ← isComment, hcomment, Bool.or_false] at h
  exact eq_of_beq h

structure Token.Shaped (t : Token) : Prop where
  whitespace : t.kind = .whitespace → ∀ b ∈ t.text, Word.isSpace b
  comment : t.isComment → t.text.head? = some (byte '#') ∨ t.text.head? = some (byte '/')

def Seamed : List Token → Prop
  | [] => True
  | t :: rest => t.Shaped ∧ Seam t.text (Token.source rest) ∧ Seamed rest

namespace Lexer

/-- What trivia begins with. -/
theorem CodeRule.trivia {nameNext : Bool} {b : UInt8} {rest : Bytes} {l : Lexeme}
    (h : CodeRule nameNext b rest l) :
    (l.kind = .whitespace → Word.isSpace b ∧ l.extra = (rest.takeWhile Word.isSpace).length) ∧
      (Token.isComment ⟨l.kind, []⟩ → b = byte '#' ∨ b = byte '/') := by
  cases h with
  | space h => exact ⟨fun _ => ⟨h, rfl⟩, by simp [Token.isComment]⟩
  | lineComment h => exact ⟨by simp, fun _ => h.imp And.left And.left⟩
  | blockComment h =>
    refine ⟨fun hkind => ?_, fun _ => .inr h⟩
    rw [Lexer.blockComment] at hkind
    dsimp only at hkind
    split at hkind <;> simp at hkind
  | word =>
    rw [Lexer.word]
    dsimp only
    rcases classify_cases nameNext (b :: rest.take (Word.nameLength rest)) with
      hkind | hkind | hkind <;> simp [hkind, Token.isComment]
  | closeTag | attributeOpen | variableName | number | quoted | heredoc | operator | other =>
    simp [Token.isComment, Lexer.number, Lexer.operator]

theorem htmlLexeme_kind (b : UInt8) (rest : Bytes) :
    Token.isTrivia ⟨(htmlLexeme b rest).kind, []⟩ = false := by
  unfold htmlLexeme
  split <;> rfl

theorem Yields.shaped {s : State} {t : Token} {tail : Bytes} (h : Yields s t tail) : t.Shaped := by
  obtain ⟨kind, text⟩ := t
  obtain ⟨b, x, rfl, hlex⟩ := h
  unfold lexeme at hlex
  split at hlex
  · obtain ⟨hspace, hcomment⟩ := (codeLexeme_rule s.nameNext b (x ++ tail)).trivia
    rw [hlex] at hspace hcomment
    refine ⟨fun hkind => ?_, fun hkind => by simpa using hcomment hkind⟩
    obtain ⟨hb, hlen⟩ := hspace hkind
    have htake := List.prefix_iff_eq_take.1 (List.takeWhile_prefix (l := x ++ tail) Word.isSpace)
    rw [← hlen, List.take_left] at htake
    rw [List.forall_mem_cons]
    exact ⟨hb, fun c hc => List.mem_takeWhile_imp (htake ▸ hc)⟩
  · have hkind := htmlLexeme_kind b (x ++ tail)
    rw [hlex] at hkind
    simp only [Token.isTrivia, Bool.or_eq_false_iff, beq_eq_false_iff_ne] at hkind
    obtain ⟨⟨hspace, hcomment⟩, hdoc⟩ := hkind
    exact ⟨fun h => absurd h hspace, fun h => by simp [Token.isComment, hcomment, hdoc] at h⟩

theorem Reads.seamed {s : State} {ts : List Token} (h : Reads s ts) : Seamed ts := by
  induction ts generalizing s with
  | nil => trivial
  | cons t rest ih =>
    obtain ⟨hyields, hrest⟩ := reads_cons.1 h
    exact ⟨hyields.shaped, hyields.seam, ih hrest⟩

end Lexer

theorem Seamed.of_append_left {a b : List Token} (h : Seamed (a ++ b)) : Seamed a := by
  induction a with
  | nil => trivial
  | cons t a ih =>
    rw [List.cons_append] at h
    obtain ⟨hshaped, hseam, hrest⟩ := h
    rw [Token.source_append] at hseam
    exact ⟨hshaped, hseam.of_append_right, ih hrest⟩

theorem Seamed.of_append_right {a b : List Token} (h : Seamed (a ++ b)) : Seamed b := by
  induction a with
  | nil => exact h
  | cons t a ih => exact ih h.2.2

theorem Seamed.shaped {ts : List Token} (h : Seamed ts) : ∀ t ∈ ts, t.Shaped := by
  induction ts with
  | nil => simp
  | cons t rest ih => exact List.forall_mem_cons.2 ⟨h.1, ih h.2.2⟩

def Unbroken (w : Bytes) : Prop := ∀ x y, w = x ++ y → x ≠ [] → y ≠ [] → ¬Seam x y

theorem unbroken_singleton (b : UInt8) : Unbroken [b] := by
  intro x y h hx hy
  rcases List.append_eq_singleton_iff.1 h.symm with ⟨hnil, _⟩ | ⟨_, hnil⟩
  · exact absurd hnil hx
  · exact absurd hnil hy

theorem unbroken_of_high {w : Bytes} (h : ∀ b ∈ w, 0x80 ≤ b) : Unbroken w := by
  rintro x y rfl hx hy hseam
  obtain ⟨d, y, rfl⟩ := List.exists_cons_of_ne_nil hy
  have hlast := h _ (List.mem_append_left _ (List.getLast_mem hx))
  have hhead := h d (by simp)
  rcases (hseam _ (List.getLast?_eq_some_getLast hx) d rfl).ascii with hc | hd
  · exact UInt8.not_lt.2 hlast hc
  · exact UInt8.not_lt.2 hhead hd

/-- An unbroken text is before a seam or behind it. -/
theorem Unbroken.not_parted {w rest x y : Bytes} (hw : Unbroken w) (hseam : Seam x y)
    (h : w ++ rest = x ++ y) : x = [] ∨ ∃ x', x = w ++ x' ∧ rest = x' ++ y := by
  rcases List.append_eq_append_iff.1 h with ⟨x', rfl, hrest⟩ | ⟨z, hword, rfl⟩
  · exact .inr ⟨x', rfl, hrest⟩
  by_cases hx : x = []
  · exact .inl hx
  by_cases hz : z = []
  · subst hz
    exact .inr ⟨[], by simpa using hword.symm, rfl⟩
  · exact absurd hseam.of_append_right (hw x z hword hx hz)

namespace Blank

/-- The blank that a text begins with is before a seam or behind it. -/
theorem allBlank_of_unbroken {w rest x y : Bytes} (hw : Unbroken w) (h : w ++ rest = x ++ y)
    (hseam : Seam x y) (hall : AllBlank (w ++ rest))
    (hblank : ∀ x', AllBlank x' → AllBlank (w ++ x'))
    (hrest : ∀ x', Seam x' y → x' ++ y = rest → AllBlank x' ∧ AllBlank y) :
    AllBlank x ∧ AllBlank y := by
  rcases hw.not_parted hseam h with rfl | ⟨x', rfl, heq⟩
  · rw [List.nil_append] at h
    exact ⟨.nil, h ▸ hall⟩
  · obtain ⟨hx, hy⟩ := hrest x' hseam.of_append_left heq.symm
    exact ⟨hblank x' hx, hy⟩

/-- A text of blanks is not cut through a blank at a seam. -/
theorem allBlank_of_seam {x y : Bytes} (hseam : Seam x y) (h : AllBlank (x ++ y)) :
    AllBlank x ∧ AllBlank y := by
  generalize hbs : x ++ y = bs at h
  induction h generalizing x with
  | nil =>
    obtain ⟨rfl, rfl⟩ := List.append_eq_nil_iff.1 hbs
    exact ⟨.nil, .nil⟩
  | @one b rest h hrest ih =>
    exact allBlank_of_unbroken (unbroken_singleton b) hbs.symm hseam (.one h hrest)
      (fun _ => .one h) fun _ => ih
  | @two b c rest h hrest ih =>
    have hhigh : ∀ d ∈ [b, c], 0x80 ≤ d := by
      simp only [List.mem_cons, List.not_mem_nil, or_false]
      grind [isBlank2]
    exact allBlank_of_unbroken (unbroken_of_high hhigh) hbs.symm hseam (.two h hrest)
      (fun _ => .two h) fun _ => ih
  | @three b c d rest h hrest ih =>
    have hhigh : ∀ e ∈ [b, c, d], 0x80 ≤ e := by
      simp only [List.mem_cons, List.not_mem_nil, or_false]
      grind [isBlank3]
    exact allBlank_of_unbroken (unbroken_of_high hhigh) hbs.symm hseam (.three h hrest)
      (fun _ => .three h) fun _ => ih

theorem allBlank_source {ts : List Token} (h : ∀ t ∈ ts, AllBlank t.text) :
    AllBlank (Token.source ts) := by
  induction ts with
  | nil => exact .nil
  | cons t rest ih =>
    rw [List.forall_mem_cons] at h
    rw [Token.source_cons]
    exact h.1.append (ih h.2)

theorem allBlank_of_source {ts : List Token} (hts : Seamed ts) (h : AllBlank (Token.source ts)) :
    ∀ t ∈ ts, AllBlank t.text := by
  induction ts with
  | nil => simp
  | cons t rest ih =>
    rw [Token.source_cons] at h
    obtain ⟨ht, hrest⟩ := allBlank_of_seam hts.2.1 h
    exact List.forall_mem_cons.2 ⟨ht, ih hts.2.2 hrest⟩

/-- What is blank is so without its trivia, and with other blank trivia. -/
theorem allBlank_of_significant {ts us : List Token} (hts : Seamed ts)
    (hus : ∀ u ∈ us, u.isTrivia → AllBlank u.text)
    (hsig : Token.significant us = Token.significant ts) (h : AllBlank (Token.source ts)) :
    AllBlank (Token.source us) := by
  refine allBlank_source fun u hu => ?_
  by_cases htrivia : u.isTrivia
  · exact hus u hu htrivia
  · have hmem : u ∈ Token.significant us := List.mem_filter.2 ⟨hu, by simpa using htrivia⟩
    rw [hsig] at hmem
    exact allBlank_of_source hts h u (List.mem_of_mem_filter hmem)

end Blank

/-- Whether a byte begins neither white space nor a comment. -/
structure BeginsWord (c : UInt8) : Prop where
  visible : Blank.IsVisible c
  not_hash : c ≠ byte '#'
  not_slash : c ≠ byte '/'

theorem Blank.isVisible_not_isSpace {c : UInt8} (h : IsVisible c) : Word.isSpace c = false := by
  have hspace : byte ' ' = 0x20 := by decide
  grind [IsVisible, Word.isSpace]

/-- A token with a visible character behind blanks at its start is no trivia. -/
theorem Token.Shaped.not_isTrivia {t : Token} (ht : t.Shaped) {x y : Bytes} {c : UInt8}
    (hx : Blank.AllBlank x) (hc : BeginsWord c) (htext : t.text = x ++ c :: y) :
    t.isTrivia = false := by
  rw [Bool.eq_false_iff]
  intro htrivia
  have hcomment : t.isComment := by
    by_contra hcomment
    have hkind := Token.kind_of_uncommented htrivia (by simpa using hcomment)
    have hspace := ht.whitespace hkind c (by simp [htext])
    simp [Blank.isVisible_not_isSpace hc.visible] at hspace
  -- a comment begins with its sign, which is no blank
  have hsign := ht.comment hcomment
  rw [htext] at hsign
  rcases x with _ | ⟨b, x⟩
  · simp [hc.not_hash, hc.not_slash] at hsign
  · have hb := hx.not_isVisible
    rcases hsign with hsign | hsign <;> obtain rfl := Option.some.inj hsign <;>
      exact hb (by decide)

/-- Tokens cut around one that is no trivia and has a word in it, with blanks before the word. -/
structure WordAt (ts : List Token) (w y : Bytes) (before : List Token) (t : Token)
    (behind : List Token) (p q : Bytes) : Prop where
  tokens_eq : ts = before ++ t :: behind
  not_trivia : t.isTrivia = false
  text_eq : t.text = p ++ (w ++ q)
  blank_in : Blank.AllBlank p
  blank_before : Blank.AllBlank (Token.source before)
  behind_eq : y = q ++ Token.source behind
  seam : Seam q (Token.source behind)

/-- A word is not parted by the seams of the tokens around it. -/
theorem Seamed.exists_wordAt {ts : List Token} (hts : Seamed ts) {x w y : Bytes} {c : UInt8}
    (hw : Unbroken w) (hhead : w.head? = some c) (hc : BeginsWord c) (hx : Blank.AllBlank x)
    (h : Token.source ts = x ++ (w ++ y)) :
    ∃ before t behind p q, WordAt ts w y before t behind p q := by
  obtain ⟨w', rfl⟩ := List.head?_eq_some_iff.1 hhead
  induction ts generalizing x with
  | nil =>
    have hlen := congrArg List.length h
    simp at hlen
  | cons t rest ih =>
    obtain ⟨hshaped, hseam, hrest⟩ := hts
    have hlater : ∀ x', Blank.AllBlank t.text → Blank.AllBlank x' →
        Token.source rest = x' ++ ((c :: w') ++ y) →
        ∃ before u behind p q, WordAt (t :: rest) (c :: w') y before u behind p q := by
      intro x' ht hx' hsource
      obtain ⟨before, u, behind, p, q, rfl, hu, htext, hp, hbefore, hy, hq⟩ := ih hrest hx' hsource
      refine ⟨t :: before, u, behind, p, q, rfl, hu, htext, hp, ?_, hy, hq⟩
      rw [Token.source_cons]
      exact ht.append hbefore
    rw [Token.source_cons] at h
    rcases List.append_eq_append_iff.1 h with ⟨x', rfl, hsource⟩ | ⟨more, htext, hsource⟩
    · rw [hsource] at hseam
      obtain ⟨ht, hx'⟩ := Blank.allBlank_of_seam hseam.of_append_right hx
      exact hlater x' ht hx' hsource
    rw [htext] at hseam
    rcases hw.not_parted hseam.of_append_left hsource with rfl | ⟨q, rfl, hy⟩
    · rw [List.append_nil] at htext
      exact hlater [] (htext ▸ hx) .nil hsource.symm
    · exact ⟨[], t, rest, x, q, rfl, hshaped.not_isTrivia hx hc htext, htext, hx, .nil, hy,
        hseam.of_append_left.of_append_left⟩

/-- The same word stands in other tokens that differ in blank trivia alone. -/
theorem WordAt.transfer {ts us before behind : List Token} {t : Token} {w y p q : Bytes}
    (hts : Seamed ts)
    (hus : ∀ u ∈ us, u.isTrivia → Blank.AllBlank u.text)
    (hsig : Token.significant us = Token.significant ts) (h : WordAt ts w y before t behind p q) :
    ∃ x' y', Token.source us = x' ++ (w ++ y') ∧ Blank.AllBlank x' ∧
      (Blank.AllBlank y → Blank.AllBlank y') := by
  obtain ⟨rfl, ht, htext, hp, hbefore, rfl, hseam⟩ := h
  rw [Token.significant_append, Token.significant_cons ht] at hsig
  obtain ⟨us₁, us₂, rfl, hsig₁, hsig₂⟩ := List.filter_eq_append_iff.1 hsig
  obtain ⟨gap, after, rfl, hgap, -, hafter⟩ := List.filter_eq_cons_iff.1 hsig₂
  have hsigGap : Token.significant (us₁ ++ gap) = Token.significant before := by
    have hnone : Token.significant gap = [] := List.filter_eq_nil_iff.2 hgap
    rw [Token.significant_append, hnone, List.append_nil]
    exact hsig₁
  have hblank₁ : Blank.AllBlank (Token.source (us₁ ++ gap)) := by
    refine Blank.allBlank_of_significant hts.of_append_left (fun u hu => hus u ?_) hsigGap hbefore
    simp only [List.mem_append, List.mem_cons] at hu ⊢
    tauto
  refine ⟨Token.source (us₁ ++ gap) ++ p, q ++ Token.source after, ?_, hblank₁.append hp, ?_⟩
  · simp [htext]
  · intro hy
    obtain ⟨hq, hbehind⟩ := Blank.allBlank_of_seam hseam hy
    refine hq.append (Blank.allBlank_of_significant hts.of_append_right.2.2
      (fun u hu => hus u ?_) hafter hbehind)
    simp [hu]

def IsWord (w : Bytes) : Prop :=
  ∃ c rest, w = c :: rest ∧ (Ascii.isAlpha c ∨ c = byte '\\') ∧ ∀ d ∈ rest, Ascii.isAlpha d

theorem IsWord.unbroken {w : Bytes} (h : IsWord w) : Unbroken w := by
  obtain ⟨c, rest, rfl, hc, hrest⟩ := h
  intro x y hxy hx hy hseam
  obtain ⟨a, x, rfl⟩ := List.exists_cons_of_ne_nil hx
  obtain ⟨d, y, rfl⟩ := List.exists_cons_of_ne_nil hy
  obtain ⟨rfl, rfl⟩ := List.cons.inj hxy
  have hlast := List.getLast?_eq_some_getLast (List.cons_ne_nil c x)
  refine (hseam _ hlast d rfl).word ⟨?_, hrest d (by simp)⟩
  rcases List.mem_cons.1 (List.getLast_mem (List.cons_ne_nil c x)) with heq | hmem
  · rw [heq]
    exact hc
  · exact .inl (hrest _ (List.mem_append_left _ hmem))

theorem beginsWord_of_isAlpha {c : UInt8} (h : Ascii.isAlpha c ∨ c = byte '\\') : BeginsWord c := by
  have hlower : byte 'a' = 97 ∧ byte 'z' = 122 := by decide
  have hupper : byte 'A' = 65 ∧ byte 'Z' = 90 := by decide
  have hsigns : byte '#' = 35 ∧ byte '/' = 47 ∧ byte '\\' = 92 := by decide
  constructor <;>
    grind [Blank.IsVisible, Ascii.isAlpha, Ascii.isUpper, Ascii.isLower]

theorem IsWord.isVisible {w : Bytes} (h : IsWord w) : ∀ c ∈ w, Blank.IsVisible c := by
  obtain ⟨c, rest, rfl, hc, hrest⟩ := h
  rw [List.forall_mem_cons]
  exact ⟨(beginsWord_of_isAlpha hc).visible,
    fun d hd => (beginsWord_of_isAlpha (.inl (hrest d hd))).visible⟩

theorem isAlpha_of_eqIgnoringCase {w word : Bytes}
    (hword : (Bytes.toLower word).all Ascii.isLower = true)
    (h : Bytes.eqIgnoringCase w word = true) : ∀ c ∈ w, Ascii.isAlpha c := by
  intro c hc
  rw [Bytes.eqIgnoringCase, beq_iff_eq] at h
  have hmem : Ascii.toLower c ∈ Bytes.toLower w := List.mem_map_of_mem hc
  have hlower := List.all_eq_true.1 hword _ (h ▸ hmem)
  rw [Ascii.toLower] at hlower
  rw [Ascii.isAlpha, Bool.or_eq_true]
  by_cases hupper : Ascii.isUpper c
  · exact .inl hupper
  · rw [if_neg hupper] at hlower
    exact .inr hlower

theorem ne_nil_of_eqIgnoringCase {w word : Bytes} (hword : word ≠ [])
    (h : Bytes.eqIgnoringCase w word = true) : w ≠ [] := by
  rintro rfl
  rw [Bytes.eqIgnoringCase, beq_iff_eq] at h
  exact hword (List.map_eq_nil_iff.1 h.symm)

theorem isWord_of_eqIgnoringCase {w word : Bytes}
    (hword : (Bytes.toLower word).all Ascii.isLower = true) (hne : word ≠ [])
    (h : Bytes.eqIgnoringCase w word = true) : IsWord w := by
  have halpha := isAlpha_of_eqIgnoringCase hword h
  obtain ⟨c, rest, rfl⟩ := List.exists_cons_of_ne_nil (ne_nil_of_eqIgnoringCase hne h)
  rw [List.forall_mem_cons] at halpha
  exact ⟨c, rest, rfl, .inl halpha.1, halpha.2⟩

namespace Candidate

theorem isWord_of_isNullWord {w : Bytes} (h : isNullWord w = true) : IsWord w := by
  have hnull : (Bytes.toLower (utf8 "null")).all Ascii.isLower = true := by decide
  rw [isNullWord] at h
  split at h
  · rename_i hslash
    obtain ⟨rest, rfl⟩ := List.head?_eq_some_iff.1 hslash
    exact ⟨_, rest, rfl, .inr rfl, isAlpha_of_eqIgnoringCase hnull h⟩
  · exact isWord_of_eqIgnoringCase hnull (by decide) h

def textOf (type : List Token) : Bytes := Blank.trim (Token.source type)

/-- A type that is left alone for what it spells: nothing at all, a mark in front, or a word that
admits null. -/
def LeftAlone (text : Bytes) : Prop :=
  text = [] ∨ text.head? = some (byte '?') ∨ Bytes.eqIgnoringCase text (utf8 "mixed") = true ∨
    isNullWord text = true

/-- A sign that makes a type one of several parts. -/
def hasSign (text : Bytes) : Bool := text.contains (byte '|') || text.contains (byte '&')

theorem isFixable_iff_leftAlone {text : Bytes} :
    isFixable text = true ↔ ¬LeftAlone text ∧ hasSign text = false := by
  rw [isFixable_iff, LeftAlone, hasSign]
  simp only [not_or, Bool.not_eq_true, Bool.or_eq_false_iff, List.contains_eq_mem,
    decide_eq_false_iff_not]
  tauto

/-- What a type is left alone for is seen whatever blanks stand between its tokens, and without its
comments. -/
theorem leftAlone_of_significant {type other : List Token} (htype : Seamed type)
    (hother : ∀ u ∈ other, u.isTrivia → Blank.AllBlank u.text)
    (hsig : Token.significant other = Token.significant type) (h : LeftAlone (textOf type)) :
    LeftAlone (textOf other) := by
  obtain ⟨x, y, hx, hy, hsource⟩ := Blank.exists_eq_trim (Token.source type)
  rw [← textOf] at hsource
  have hword : IsWord (textOf type) → textOf other = textOf type := by
    intro hw
    obtain ⟨c, rest, hcons, hc, -⟩ := id hw
    obtain ⟨_, _, _, _, _, hat⟩ := htype.exists_wordAt hw.unbroken (by rw [hcons]; rfl)
      (beginsWord_of_isAlpha hc) hx hsource
    obtain ⟨x', y', hsource', hx', hy'⟩ := hat.transfer htype hother hsig
    have hvisible := hw.isVisible
    rw [textOf, hsource', Blank.trim_eq hx' (hy' hy)
      (fun c hc => hvisible c (List.mem_of_head? hc))
      (fun c hc => hvisible c (List.mem_of_getLast? hc)) (by simp [hcons])]
  rcases h with hnil | hmark | hmixed | hnull
  · rw [hnil, List.nil_append] at hsource
    have hblank := Blank.allBlank_of_significant htype hother hsig (hsource ▸ hx.append hy)
    exact .inl (Blank.trim_of_allBlank hblank)
  · obtain ⟨rest, hrest⟩ := List.head?_eq_some_iff.1 hmark
    have hsource' : Token.source type = x ++ ([byte '?'] ++ (rest ++ y)) := by
      rw [hsource, hrest]
      rfl
    obtain ⟨_, _, _, _, _, hat⟩ := htype.exists_wordAt (unbroken_singleton _) rfl
      ⟨by decide, by decide, by decide⟩ hx hsource'
    obtain ⟨x', y', hother', hx', _⟩ := hat.transfer htype hother hsig
    refine .inr (.inl ?_)
    rw [textOf, hother']
    exact Blank.head?_trim hx' (by decide)
  · rw [hword (isWord_of_eqIgnoringCase (by decide) (by decide) hmixed)]
    exact .inr (.inr (.inl hmixed))
  · rw [hword (isWord_of_isNullWord hnull)]
    exact .inr (.inr (.inr hnull))

/-- The tokens of a type without its comments and with a blank behind each. -/
def spaced (type : List Token) : List Token :=
  (Token.significant type).flatMap fun t => [t, ⟨.whitespace, utf8 " "⟩]

/-- Whether the comments in a type decide if it can be fixed. A sign in one of them keeps a type
from being fixed that is fixed without it, and next to a comment a word is no more seen to admit
null. -/
def clouded (type : List Token) : Bool :=
  type.any Token.isComment &&
    if isFixable (textOf (spaced type)) then type.any fun t => t.isComment && hasSign t.text
    else !hasSign (textOf type) && (textOf type).head? != some (byte '?')

theorem significant_spaced (type : List Token) :
    Token.significant (spaced type) = Token.significant type := by
  have hall : ∀ t ∈ Token.significant type, t.isTrivia = false := fun t ht => by
    simpa using (List.mem_filter.1 ht).2
  rw [spaced]
  generalize Token.significant type = ts at hall
  induction ts with
  | nil => rfl
  | cons t ts ih =>
    rw [List.forall_mem_cons] at hall
    rw [List.flatMap_cons, Token.significant_append, Token.significant_cons hall.1, ih hall.2]
    rfl

theorem mem_spaced {type : List Token} {u : Token} (h : u ∈ spaced type) :
    u ∈ Token.significant type ∨ u = ⟨.whitespace, utf8 " "⟩ := by
  obtain ⟨t, ht, hu⟩ := List.mem_flatMap.1 h
  simp only [List.mem_cons, List.not_mem_nil, or_false] at hu
  rcases hu with rfl | rfl
  · exact .inl ht
  · exact .inr rfl

theorem seamed_spaced {type : List Token} (h : Seamed type) : Seamed (spaced type) := by
  have hall : ∀ t ∈ Token.significant type, t.Shaped := fun t ht =>
    h.shaped t (List.mem_of_mem_filter ht)
  rw [spaced]
  generalize Token.significant type = ts at hall
  induction ts with
  | nil => trivial
  | cons t ts ih =>
    rw [List.forall_mem_cons] at hall
    refine ⟨hall.1, seam_of_stops ?_, ⟨fun _ b hb => ?_, by decide⟩,
      seam_concat (by decide) [] _, ih hall.2⟩
    · rintro d ⟨⟩
      decide
    · obtain rfl : b = byte ' ' := List.mem_singleton.1 hb
      decide

theorem allBlank_of_mem_spaced {type : List Token} :
    ∀ u ∈ spaced type, u.isTrivia → Blank.AllBlank u.text := by
  intro u hu htrivia
  rcases mem_spaced hu with hmem | rfl
  · have := (List.mem_filter.1 hmem).2
    simp [htrivia] at this
  · exact .one (by decide) .nil

theorem allBlank_of_uncommented {type : List Token} (htype : Seamed type)
    (h : type.any Token.isComment = false) : ∀ u ∈ type, u.isTrivia → Blank.AllBlank u.text := by
  intro u hu htrivia
  have hkind := Token.kind_of_uncommented htrivia (by simpa using List.any_eq_false.1 h u hu)
  have hspace := (htype.shaped u hu).whitespace hkind
  generalize u.text = text at hspace
  induction text with
  | nil => exact .nil
  | cons b rest ih =>
    rw [List.forall_mem_cons] at hspace
    exact .one hspace.1 (ih hspace.2)

/-- A sign in the text of a type comes from a comment or from a token that is no trivia. -/
theorem mem_source_iff {type : List Token} (htype : Seamed type) {b : UInt8}
    (hb : Word.isSpace b = false) : b ∈ Token.source type ↔
      b ∈ Token.source (spaced type) ∨ ∃ t ∈ type, t.isComment ∧ b ∈ t.text := by
  simp only [Token.source, List.mem_flatMap]
  constructor
  · rintro ⟨t, ht, hbt⟩
    by_cases htrivia : t.isTrivia
    · by_cases hcomment : t.isComment
      · exact .inr ⟨t, ht, hcomment, hbt⟩
      · have hkind := Token.kind_of_uncommented htrivia (by simpa using hcomment)
        rw [(htype.shaped t ht).whitespace hkind b hbt] at hb
        cases hb
    · exact .inl ⟨t, List.mem_flatMap.2 ⟨t, List.mem_filter.2 ⟨ht, by simpa using htrivia⟩,
        by simp⟩, hbt⟩
  · rintro (⟨t, ht, hbt⟩ | ⟨t, ht, _, hbt⟩)
    · rcases mem_spaced ht with hmem | rfl
      · exact ⟨t, List.mem_of_mem_filter hmem, hbt⟩
      · simp only [List.mem_singleton, show utf8 " " = [byte ' '] from rfl] at hbt
        subst hbt
        cases hb
    · exact ⟨t, ht, hbt⟩

theorem hasSign_textOf {type : List Token} (h : Seamed type) :
    hasSign (textOf type) =
      (hasSign (textOf (spaced type)) || type.any fun t => t.isComment && hasSign t.text) := by
  have hsign : ∀ b, Blank.IsVisible b → (b ∈ textOf type ↔
      b ∈ textOf (spaced type) ∨ ∃ t ∈ type, t.isComment ∧ b ∈ t.text) := by
    intro b hb
    have htrim : ∀ ts, b ∈ textOf ts ↔ b ∈ Token.source ts := fun ts =>
      ⟨Blank.mem_of_mem_trim, Blank.mem_trim_of_mem hb⟩
    rw [htrim, htrim, mem_source_iff h (Blank.isVisible_not_isSpace hb)]
  have hbar := hsign (byte '|') (by decide)
  have hand := hsign (byte '&') (by decide)
  rw [Bool.eq_iff_iff]
  simp only [hasSign, Bool.or_eq_true, List.contains_eq_mem, decide_eq_true_eq, List.any_eq_true,
    Bool.and_eq_true, hbar, hand]
  constructor
  · rintro ((h | ⟨t, ht, hc, hb⟩) | (h | ⟨t, ht, hc, hb⟩))
    · exact .inl (.inl h)
    · exact .inr ⟨t, ht, hc, .inl hb⟩
    · exact .inl (.inr h)
    · exact .inr ⟨t, ht, hc, .inr hb⟩
  · rintro ((h | h) | ⟨t, ht, hc, hb | hb⟩)
    · exact .inl (.inl h)
    · exact .inr (.inl h)
    · exact .inl (.inr ⟨t, ht, hc, hb⟩)
    · exact .inr (.inr ⟨t, ht, hc, hb⟩)

/-- A type with a comment in it is neither nothing nor a word. -/
theorem isFixable_of_comment {type : List Token} (h : Seamed type)
    (hcomment : type.any Token.isComment = true) : isFixable (textOf type) =
      (!hasSign (textOf type) && (textOf type).head? != some (byte '?')) := by
  obtain ⟨t, ht, hcomment⟩ := List.any_eq_true.1 hcomment
  obtain ⟨c, hc, hmem⟩ : ∃ c, (c = byte '#' ∨ c = byte '/') ∧ c ∈ textOf type := by
    have htext : ∀ c, t.text.head? = some c → Blank.IsVisible c → c ∈ textOf type := by
      intro c hhead hvisible
      refine Blank.mem_trim_of_mem hvisible (List.mem_flatMap.2 ⟨t, ht, List.mem_of_head? hhead⟩)
    rcases (h.shaped t ht).comment hcomment with hhead | hhead
    · exact ⟨_, .inl rfl, htext _ hhead (by decide)⟩
    · exact ⟨_, .inr rfl, htext _ hhead (by decide)⟩
  have hword : ¬IsWord (textOf type) := by
    rintro ⟨d, rest, heq, hd, hrest⟩
    have halpha : Ascii.isAlpha c ∨ c = byte '\\' := by
      rw [heq] at hmem
      rcases List.mem_cons.1 hmem with rfl | hmem
      · exact hd
      · exact .inl (hrest c hmem)
    have hbegins := beginsWord_of_isAlpha halpha
    exact hc.elim hbegins.not_hash hbegins.not_slash
  have hleft : LeftAlone (textOf type) ↔ (textOf type).head? = some (byte '?') := by
    constructor
    · rintro (hnil | hmark | hmixed | hnull)
      · simp [hnil] at hmem
      · exact hmark
      · exact absurd (isWord_of_eqIgnoringCase (by decide) (by decide) hmixed) hword
      · exact absurd (isWord_of_isNullWord hnull) hword
    · exact fun hmark => .inr (.inl hmark)
  rw [Bool.eq_iff_iff, isFixable_iff_leftAlone, hleft]
  simp [and_comm]

/-- Only the comments of a type make a difference to what its words say. -/
theorem isFixable_textOf {type : List Token} (h : Seamed type) :
    isFixable (textOf type) = (isFixable (textOf (spaced type)) ^^ clouded type) := by
  have hwords : LeftAlone (textOf type) → LeftAlone (textOf (spaced type)) :=
    leftAlone_of_significant h allBlank_of_mem_spaced (significant_spaced type)
  have hsigns := hasSign_textOf h
  rw [clouded]
  cases hcomment : type.any Token.isComment with
  | false =>
    -- without comments there is white space alone between the words
    have htext : LeftAlone (textOf (spaced type)) → LeftAlone (textOf type) :=
      leftAlone_of_significant (seamed_spaced h) (allBlank_of_uncommented h hcomment)
        (significant_spaced type).symm
    have hnone : (type.any fun t => t.isComment && hasSign t.text) = false := by
      rw [List.any_eq_false] at hcomment ⊢
      intro t ht
      simp [hcomment t ht]
    rw [hnone, Bool.or_false] at hsigns
    rw [Bool.false_and, Bool.xor_false, Bool.eq_iff_iff, isFixable_iff_leftAlone,
      isFixable_iff_leftAlone, hsigns, not_congr ⟨hwords, htext⟩]
  | true =>
    rw [Bool.true_and]
    cases hfix : isFixable (textOf (spaced type)) with
    | false => rw [if_neg (by simp), Bool.false_xor, isFixable_of_comment h hcomment]
    | true =>
      obtain ⟨hleft, hplain⟩ := isFixable_iff_leftAlone.1 hfix
      rw [hplain, Bool.false_or] at hsigns
      rw [if_pos rfl, Bool.true_xor, Bool.eq_iff_iff, isFixable_iff_leftAlone, hsigns]
      simp [mt hwords hleft]

end Candidate

end ExplicitNull
