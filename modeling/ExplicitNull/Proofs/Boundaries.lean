import ExplicitNull.Proofs.Lossless
import ExplicitNull.Proofs.PlainTypes
import Mathlib.Tactic.ByContra

/-!
Where the tokens of a plainly typed parameter end. Each of them is read up to a byte that cannot
belong to it, so it is read in the same way before any text that begins with such a byte, be it a
piece that makes the type explicit.
-/
namespace ExplicitNull

theorem Word.ne_of_startsIdentifier {b c : UInt8} (h : startsIdentifier b)
    (hc : startsIdentifier c = false) : b ≠ c := by
  rintro rfl
  simp [hc] at h

theorem Word.continuesIdentifier_of_startsIdentifier {b : UInt8} (h : startsIdentifier b) :
    continuesIdentifier b := by
  grind [startsIdentifier, continuesIdentifier, Ascii.isAlphanum]

theorem Word.not_continuesIdentifier_of_isSpace {b : UInt8} (h : isSpace b) :
    continuesIdentifier b = false := by
  have hupper : byte 'A' = 65 := by decide
  have hlower : byte 'a' = 97 := by decide
  have hdigit : byte '0' = 48 := by decide
  have hunder : byte '_' = 95 := by decide
  have hblank : byte ' ' = 32 := by decide
  grind [continuesIdentifier, isSpace, Ascii.isAlphanum, Ascii.isAlpha, Ascii.isUpper,
    Ascii.isLower, Ascii.isDigit]

/-- A name that a segment begins behind its first byte has more bytes. -/
theorem Word.ne_nil_of_startsIdentifier {x tail : Bytes} (h : nameLength (x ++ tail) = x.length)
    (hstarts : (x ++ tail).head?.any startsIdentifier) : x ≠ [] := by
  rintro rfl
  cases tail with
  | nil => simp at hstarts
  | cons c tail =>
    rw [List.nil_append, nameLength, if_pos (continuesIdentifier_of_startsIdentifier hstarts),
      List.length_nil] at h
    omega

/-- How a name ends depends on the text behind it only by whether a name goes on there. -/
theorem Word.nameLength_append {x tail : Bytes} (h : nameLength (x ++ tail) = x.length) :
    nameLength tail = 0 ∧
      ∀ tail', nameLength tail' = 0 → nameLength (x ++ tail') = x.length := by
  induction x with
  | nil => exact ⟨h, fun _ h' => h'⟩
  | cons b x ih =>
    rw [List.cons_append, nameLength, List.length_cons] at h
    by_cases hb : continuesIdentifier b
    · rw [if_pos hb] at h
      obtain ⟨htail, hall⟩ := ih (by omega)
      refine ⟨htail, fun tail' h' => ?_⟩
      rw [List.cons_append, nameLength, if_pos hb, hall tail' h', List.length_cons, Nat.add_comm]
    · rw [if_neg hb] at h
      by_cases hslash : b = byte '\\' ∧ (x ++ tail).head?.any startsIdentifier
      · rw [if_pos hslash] at h
        obtain ⟨htail, hall⟩ := ih (by omega)
        refine ⟨htail, fun tail' h' => ?_⟩
        obtain ⟨c, x, rfl⟩ :=
          List.exists_cons_of_ne_nil (ne_nil_of_startsIdentifier (by omega) hslash.2)
        have hslash' : b = byte '\\' ∧ (c :: x ++ tail').head?.any startsIdentifier := hslash
        rw [List.cons_append, nameLength, if_neg hb, if_pos hslash', hall tail' h', Nat.add_comm]
        rfl
      · rw [if_neg hslash] at h
        omega

namespace Lexer

/-- How a comment to the end of a line ends depends on the text behind it only by whether the line
ends there. -/
theorem lineLength_append {x tail : Bytes} (h : lineLength (x ++ tail) = x.length) :
    lineLength tail = 0 ∧
      ∀ tail', lineLength tail' = 0 → lineLength (x ++ tail') = x.length := by
  induction x with
  | nil => exact ⟨h, fun _ h' => h'⟩
  | cons b x ih =>
    rw [List.cons_append, lineLength, List.length_cons] at h
    by_cases hend : b = byte '\n' ∨ b = byte '\r'
    · rw [if_pos hend] at h
      omega
    rw [if_neg hend] at h
    by_cases hclose : b = byte '?' ∧ (x ++ tail).head? = some (byte '>')
    · rw [if_pos hclose] at h
      omega
    rw [if_neg hclose] at h
    obtain ⟨htail, hall⟩ := ih (by omega)
    refine ⟨htail, fun tail' h' => ?_⟩
    have hclose' : ¬(b = byte '?' ∧ (x ++ tail').head? = some (byte '>')) := by
      rintro ⟨hb, hhead⟩
      cases x with
      | nil =>
        cases tail' with
        | nil => simp at hhead
        | cons c tail' =>
          obtain rfl : c = byte '>' := Option.some.inj hhead
          have hne : ¬(byte '>' = byte '\n' ∨ byte '>' = byte '\r') := by decide
          have hne' : ¬(byte '>' = byte '?' ∧ tail'.head? = some (byte '>')) :=
            fun h => absurd h.1 (by decide)
          rw [lineLength, if_neg hne, if_neg hne'] at h'
          omega
      | cons c x => exact hclose ⟨hb, hhead⟩
    rw [List.cons_append, lineLength, if_neg hend, if_neg hclose', hall tail' h', List.length_cons,
      Nat.add_comm]

/-- A comment that is closed before the end of the text is closed whatever comes behind it. -/
theorem blockLength_append {x tail : Bytes} (h : blockLength (x ++ tail) = x.length)
    (htail : tail ≠ []) : 2 ≤ x.length ∧ ∀ tail', blockLength (x ++ tail') = x.length := by
  have hpos : blockLength tail ≠ 0 := by
    cases tail with
    | nil => exact absurd rfl htail
    | cons b tail =>
      rw [blockLength]
      split <;> omega
  induction x with
  | nil => exact absurd h hpos
  | cons b x ih =>
    rw [List.cons_append, blockLength, List.length_cons] at h
    obtain ⟨c, x, rfl⟩ : ∃ c x', x = c :: x' := by
      cases x with
      | nil =>
        rw [List.nil_append, List.length_nil] at h
        split at h <;> omega
      | cons c x => exact ⟨c, x, rfl⟩
    refine ⟨by simp, fun tail' => ?_⟩
    have hhead : ∀ tail, (c :: x ++ tail).head? = some c := fun _ => rfl
    rw [List.cons_append, blockLength, hhead]
    rw [hhead] at h
    by_cases hclose : b = byte '*' ∧ some c = some (byte '/')
    · rw [if_pos hclose] at h ⊢
      exact h
    · rw [if_neg hclose] at h ⊢
      rw [(ih (by omega)).2 tail', Nat.add_comm]
      rfl

theorem takeWhile_append_of_length_eq {p : UInt8 → Bool} {x tail : Bytes}
    (h : ((x ++ tail).takeWhile p).length = x.length) :
    tail.head?.any p = false ∧
      ∀ tail', tail'.head?.any p = false → ((x ++ tail').takeWhile p).length = x.length := by
  induction x with
  | nil =>
    refine ⟨?_, fun tail' h' => ?_⟩
    · cases tail with
      | nil => rfl
      | cons b tail => by_cases hb : p b <;> simp_all
    · cases tail' with
      | nil => rfl
      | cons b tail =>
        have hb : p b = false := h'
        simp [hb]
  | cons b x ih =>
    rw [List.cons_append, List.takeWhile_cons] at h
    by_cases hb : p b
    · rw [if_pos hb, List.length_cons, List.length_cons] at h
      obtain ⟨htail, hall⟩ := ih (by omega)
      refine ⟨htail, fun tail' h' => ?_⟩
      rw [List.cons_append, List.takeWhile_cons, if_pos hb, List.length_cons, hall tail' h',
        List.length_cons]
    · rw [if_neg hb] at h
      simp at h

section

variable (nameNext : Bool) {b : UInt8} {rest : Bytes}

theorem codeLexeme_space (h : Word.isSpace b) :
    codeLexeme nameNext b rest = ⟨.whitespace, (rest.takeWhile Word.isSpace).length⟩ := by
  rw [codeLexeme, if_pos h]

theorem codeLexeme_lineComment (h : b = byte '#' ∧ rest.head? ≠ some (byte '[') ∨
    b = byte '/' ∧ rest.head? = some (byte '/')) :
    codeLexeme nameNext b rest = ⟨.comment, lineLength rest⟩ := by
  rcases h with ⟨rfl, hnext⟩ | ⟨rfl, hnext⟩ <;> simp +decide [codeLexeme, hnext]

theorem codeLexeme_blockComment (h : b = byte '/') (hnext : rest.head? = some (byte '*')) :
    codeLexeme nameNext b rest = blockComment rest := by
  subst h
  simp +decide [codeLexeme, hnext]

theorem codeLexeme_word (h : Word.startsIdentifier b ∨
    b = byte '\\' ∧ rest.head?.any Word.startsIdentifier) :
    codeLexeme nameNext b rest = word nameNext b rest := by
  have hspace : Word.isSpace b = false := by
    rcases h with h | ⟨rfl, _⟩
    · rw [Bool.eq_false_iff]
      intro hb
      have hcontinues := Word.continuesIdentifier_of_startsIdentifier h
      simp [Word.not_continuesIdentifier_of_isSpace hb] at hcontinues
    · decide
  have hne : ∀ c, Word.startsIdentifier c = false → c ≠ byte '\\' → b ≠ c := by
    intro c hc hslash
    rcases h with h | ⟨rfl, _⟩
    · exact Word.ne_of_startsIdentifier h hc
    · exact Ne.symm hslash
  have hmark := hne (byte '?') (by decide) (by decide)
  have hhash := hne (byte '#') (by decide) (by decide)
  have hslash := hne (byte '/') (by decide) (by decide)
  have hdollar := hne (byte '$') (by decide) (by decide)
  simp [codeLexeme, hspace, hmark, hhash, hslash, hdollar, h]

/-- Of these bytes none begins anything but an operator. -/
theorem codeLexeme_operator (h : b ∈ [byte '(', byte ',', byte '&', byte '|']) :
    codeLexeme nameNext b rest = operator b rest := by
  simp only [List.mem_cons, List.not_mem_nil, or_false] at h
  rcases h with rfl | rfl | rfl | rfl <;> simp +decide [codeLexeme]

theorem codeLexeme_dots : codeLexeme nameNext (byte '.') (byte '.' :: rest) =
    operator (byte '.') (byte '.' :: rest) := by
  simp +decide [codeLexeme]

theorem codeLexeme_mark (h : rest.head? ≠ some (byte '>')) :
    codeLexeme nameNext (byte '?') rest = operator (byte '?') rest := by
  simp +decide [codeLexeme, h]

end

/-- A byte is an operator by itself if no operator begins with it and the byte behind it. -/
theorem operatorLength_eq_zero {b : UInt8} {rest : Bytes}
    (h : ∀ op ∈ operators, op.head? = some b → op[1]? ≠ rest.head?) :
    operatorLength (b :: rest) = 0 := by
  have hlong : ∀ op ∈ operators, 2 ≤ op.length := by decide
  have hnone : operators.find? (·.isPrefixOf (b :: rest)) = none := by
    refine List.find?_eq_none.2 fun op hop hpart => ?_
    obtain ⟨more, hmore⟩ := List.isPrefixOf_iff_prefix.1 hpart
    have hlen := hlong op hop
    match op, hop, hmore, hlen with
    | c :: d :: op, hop, hmore, _ =>
      obtain ⟨rfl, rfl⟩ := List.cons.inj hmore
      exact h _ hop rfl rfl
  rw [operatorLength, hnone]

/-- No operator of more bytes begins with an opening parenthesis or a comma, and one that begins
with `&` goes on with `&` or `=`. -/
theorem operatorLength_sign {b : UInt8} {rest : Bytes} (h : b ∈ [byte '(', byte ',', byte '&']) :
    operatorLength (b :: rest) = 0 ↔
      (b = byte '&' → rest.head? ≠ some (byte '&') ∧ rest.head? ≠ some (byte '=')) := by
  constructor
  · rintro hzero rfl
    have hand : ∀ r, operatorLength (byte '&' :: byte '&' :: r) = 1 := fun _ => rfl
    have hassign : ∀ r, operatorLength (byte '&' :: byte '=' :: r) = 1 := fun _ => rfl
    constructor
    · intro hhead
      obtain ⟨r, rfl⟩ := List.head?_eq_some_iff.1 hhead
      rw [hand] at hzero
      omega
    · intro hhead
      obtain ⟨r, rfl⟩ := List.head?_eq_some_iff.1 hhead
      rw [hassign] at hzero
      omega
  · intro hnext
    refine operatorLength_eq_zero fun op hop hhead hsecond => ?_
    have hsigns : ∀ b ∈ [byte '(', byte ',', byte '&'], ∀ op ∈ operators, op.head? = some b →
        b = byte '&' ∧ (op[1]? = some (byte '&') ∨ op[1]? = some (byte '=')) := by
      simp only [List.mem_cons, List.not_mem_nil, or_false, forall_eq_or_imp, forall_eq]
      decide
    obtain ⟨hb, hgoes⟩ := hsigns b h op hop hhead
    rw [hsecond] at hgoes
    rcases hgoes with hgoes | hgoes
    · exact (hnext hb).1 hgoes
    · exact (hnext hb).2 hgoes

theorem operatorLength_dots (rest : Bytes) :
    operatorLength (byte '.' :: byte '.' :: byte '.' :: rest) = 2 := rfl

inductive PlainRule (nameNext : Bool) (tail : Bytes) : Token → Prop
  | space {b : UInt8} {x : Bytes} (h : Word.isSpace b)
      (hend : ((x ++ tail).takeWhile Word.isSpace).length = x.length) :
      PlainRule nameNext tail ⟨.whitespace, b :: x⟩
  | lineComment {b : UInt8} {x : Bytes} (h : b = byte '#' ∧ (x ++ tail).head? ≠ some (byte '[') ∨
        b = byte '/' ∧ (x ++ tail).head? = some (byte '/'))
      (hend : lineLength (x ++ tail) = x.length) : PlainRule nameNext tail ⟨.comment, b :: x⟩
  | blockComment {kind : Kind} {x : Bytes} (hnext : (x ++ tail).head? = some (byte '*'))
      (hend : Lexer.blockComment (x ++ tail) = ⟨kind, x.length⟩) :
      PlainRule nameNext tail ⟨kind, byte '/' :: x⟩
  | word {b : UInt8} {x : Bytes} (h : Word.startsIdentifier b ∨
        b = byte '\\' ∧ (x ++ tail).head?.any Word.startsIdentifier)
      (hend : Word.nameLength (x ++ tail) = x.length) :
      PlainRule nameNext tail ⟨Word.classify nameNext (b :: x), b :: x⟩
  | sign {b : UInt8} (h : b ∈ [byte '(', byte ',', byte '&'])
      (hend : b = byte '&' → tail.head? ≠ some (byte '&') ∧ tail.head? ≠ some (byte '=')) :
      PlainRule nameNext tail ⟨.punct, [b]⟩
  | dots : PlainRule nameNext tail ⟨.punct, [byte '.', byte '.', byte '.']⟩

theorem PlainRule.yields {nameNext : Bool} {tail : Bytes} {t : Token}
    (h : PlainRule nameNext tail t) : Yields ⟨true, nameNext⟩ t tail := by
  cases h with
  | @space b x h hend =>
    refine ⟨b, x, rfl, ?_⟩
    rw [← hend]
    exact codeLexeme_space nameNext h
  | @lineComment b x h hend =>
    refine ⟨b, x, rfl, ?_⟩
    rw [← hend]
    exact codeLexeme_lineComment nameNext h
  | @blockComment kind x hnext hend =>
    refine ⟨_, x, rfl, ?_⟩
    rw [← hend]
    exact codeLexeme_blockComment nameNext rfl hnext
  | @word b x h hend =>
    refine ⟨b, x, rfl, (codeLexeme_word nameNext h).trans ?_⟩
    rw [Lexer.word, hend, List.take_left]
  | @sign b h hend =>
    refine ⟨b, [], rfl, (codeLexeme_operator nameNext ?_).trans ?_⟩
    · exact List.mem_of_mem_take (i := 3) h
    · rw [operator, List.nil_append, (operatorLength_sign h).2 hend]
      rfl
  | dots =>
    refine ⟨byte '.', [byte '.', byte '.'], rfl, (codeLexeme_dots nameNext).trans ?_⟩
    rw [operator]
    exact congrArg (Lexeme.mk .punct) (operatorLength_dots tail)

/-- Whether a token that ends before one text ends before another as well, as far as its reading
looks at what follows. -/
structure Alike (t : Token) (tail tail' : Bytes) : Prop where
  nonempty : tail ≠ []
  space : tail.head?.any Word.isSpace = false → tail'.head?.any Word.isSpace = false
  line : t.isTrivia → lineLength tail = 0 → lineLength tail' = 0
  name : Word.nameLength tail = 0 → Word.nameLength tail' = 0
  sign : tail.head? ≠ some (byte '&') ∧ tail.head? ≠ some (byte '=') →
    tail'.head? ≠ some (byte '&') ∧ tail'.head? ≠ some (byte '=')

theorem lineLength_eq_zero {tail : Bytes} (h : lineLength tail = 0) :
    ∀ c, tail.head? = some c → c = byte '\n' ∨ c = byte '\r' ∨ c = byte '?' := by
  intro c hc
  obtain ⟨r, rfl⟩ := List.head?_eq_some_iff.1 hc
  by_contra hne
  rw [lineLength, if_neg (fun h => hne (h.imp_right .inl)),
    if_neg (fun h => hne (.inr (.inr h.1)))] at h
  omega

theorem blockComment_append {x tail : Bytes} {kind : Kind} (htail : tail ≠ [])
    (h : blockComment (byte '*' :: x ++ tail) = ⟨kind, x.length + 1⟩) (tail' : Bytes) :
    blockComment (byte '*' :: x ++ tail') = ⟨kind, x.length + 1⟩ := by
  have hlen : blockLength (x ++ tail) = x.length := by
    have := congrArg Lexeme.extra h
    simp only [blockComment, List.cons_append, List.drop_succ_cons, List.drop_zero] at this
    omega
  obtain ⟨htwo, hall⟩ := blockLength_append hlen htail
  obtain ⟨c, d, y, rfl⟩ : ∃ c d y, x = c :: d :: y := by
    rcases x with _ | ⟨c, _ | ⟨d, y⟩⟩
    · simp at htwo
    · simp at htwo
    · exact ⟨c, d, y, rfl⟩
  simp only [blockComment, List.cons_append, List.drop_succ_cons, List.drop_zero,
    List.head?_cons] at h hlen hall ⊢
  rw [hall tail', ← h, hlen]

theorem PlainRule.alike {nameNext : Bool} {tail tail' : Bytes} {t : Token}
    (h : PlainRule nameNext tail t) (ha : Alike t tail tail') : PlainRule nameNext tail' t := by
  cases h with
  | space h hend =>
    obtain ⟨hhead, hall⟩ := takeWhile_append_of_length_eq hend
    exact .space h (hall tail' (ha.space hhead))
  | @lineComment b x h hend =>
    obtain ⟨htail, hall⟩ := lineLength_append hend
    have htail' := ha.line rfl htail
    refine .lineComment ?_ (hall tail' htail')
    cases x with
    | nil =>
      rcases h with ⟨hb, _⟩ | ⟨_, hnext⟩
      · exact .inl ⟨hb, fun hnext => absurd (lineLength_eq_zero htail' _ hnext) (by decide)⟩
      · exact absurd (lineLength_eq_zero htail _ hnext) (by decide)
    | cons c x => exact h
  | @blockComment kind x hnext hend =>
    cases x with
    | nil =>
      have := congrArg Lexeme.extra hend
      simp [Lexer.blockComment] at this
    | cons c x =>
      obtain rfl : c = byte '*' := Option.some.inj hnext
      exact .blockComment rfl (blockComment_append ha.nonempty hend tail')
  | @word b x h hend =>
    obtain ⟨htail, hall⟩ := Word.nameLength_append hend
    refine .word (h.imp_right fun hstart => ⟨hstart.1, ?_⟩) (hall tail' (ha.name htail))
    obtain ⟨c, x, rfl⟩ :=
      List.exists_cons_of_ne_nil (Word.ne_nil_of_startsIdentifier hend hstart.2)
    exact hstart.2
  | sign h hend => exact .sign h fun hb => ha.sign (hend hb)
  | dots => exact .dots

theorem plainRule_of_yields {nameNext : Bool} {tail : Bytes} {t : Token} (ht : t.isPlain)
    (h : Yields ⟨true, nameNext⟩ t tail) : PlainRule nameNext tail t := by
  obtain ⟨kind, text⟩ := t
  obtain ⟨b, x, rfl, hlex⟩ := h
  have hrule := codeLexeme_rule nameNext b (x ++ tail)
  have hlex' : codeLexeme nameNext b (x ++ tail) = ⟨kind, x.length⟩ := hlex
  rw [hlex'] at hrule
  generalize hl : (⟨kind, x.length⟩ : Lexeme) = l at hrule
  cases hrule with
  | space h =>
    obtain ⟨rfl, hlen⟩ := Lexeme.mk.inj hl
    exact .space h hlen.symm
  | lineComment h =>
    obtain ⟨rfl, hlen⟩ := Lexeme.mk.inj hl
    exact .lineComment h hlen.symm
  | blockComment h hnext =>
    subst h
    exact .blockComment hnext hl.symm
  | word h =>
    obtain ⟨rfl, hlen⟩ := Lexeme.mk.inj hl
    rw [← hlen, List.take_left]
    exact .word h hlen.symm
  | operator h =>
    obtain ⟨rfl, hlen⟩ := Lexeme.mk.inj hl
    have htext : b :: x ∈ [utf8 "(", utf8 ",", utf8 "&", utf8 "..."] := by
      simpa [Token.isPlain, Token.opensParameter, Token.precedesType, Token.followsType,
        Token.isTrivia, Token.isPunct, or_assoc] using ht
    have hsign : ∀ c ∈ [byte '(', byte ',', byte '&'], b :: x = [c] →
        PlainRule nameNext tail ⟨.punct, b :: x⟩ := by
      intro c hc hcx
      obtain ⟨rfl, rfl⟩ := List.cons.inj hcx
      exact .sign hc ((operatorLength_sign hc).1 hlen.symm)
    simp only [List.mem_cons, List.not_mem_nil, or_false] at htext
    rcases htext with htext | htext | htext | htext
    · exact hsign (byte '(') (by decide) htext
    · exact hsign (byte ',') (by decide) htext
    · exact hsign (byte '&') (by decide) htext
    · rw [htext]
      exact .dots
  | closeTag | attributeOpen | variableName | number | quoted | heredoc | other =>
    obtain ⟨rfl, _⟩ := Lexeme.mk.inj hl
    cases ht

/-- Behind a name or a modifier no plain name is called for. -/
theorem namesNext_of_classify {b : UInt8} {x : Bytes}
    (h : Word.startsIdentifier b ∨ b = byte '\\')
    (hkind : Word.classify false (b :: x) ≠ .keyword) : Word.namesNext (b :: x) = false := by
  have hsign : ∀ c, Word.startsIdentifier c = false → c ≠ byte '\\' → b ≠ c := by
    rintro c hc hslash rfl
    rcases h with h | h
    · simp [hc] at h
    · exact hslash h
  have harrow := hsign (byte '-') (by decide) (by decide)
  have hmark := hsign (byte '?') (by decide) (by decide)
  have hcolon := hsign (byte ':') (by decide) (by decide)
  have hintroducer : Word.isIntroducer (b :: x) = false := by
    by_cases hslash : (b :: x).contains (byte '\\')
    · rw [Bool.eq_false_iff]
      intro h
      obtain ⟨w, hw, heq⟩ := List.any_eq_true.1 h
      have hmem : byte '\\' ∈ Bytes.toLower (b :: x) :=
        List.mem_map.2 ⟨byte '\\', List.contains_iff_mem.1 hslash, by decide⟩
      have hwords : ∀ w ∈ Word.introducers, byte '\\' ∉ Bytes.toLower w := by decide
      exact hwords w hw (eq_of_beq heq ▸ hmem)
    · rw [Bool.eq_false_iff]
      intro h
      rw [Word.classify, Bool.false_or, if_neg hslash, if_pos h] at hkind
      exact hkind rfl
  rw [Word.namesNext, hintroducer, Bool.or_false, List.any_eq_false]
  intro w hw heq
  have heads : ∀ w ∈ ["->", "?->", "::"], (utf8 w).head? = some (byte '-') ∨
      (utf8 w).head? = some (byte '?') ∨ (utf8 w).head? = some (byte ':') := by decide
  have hhead := heads w hw
  rw [eq_of_beq heq, List.head?_cons, Option.some.injEq, Option.some.injEq,
    Option.some.injEq] at hhead
  rcases hhead with h | h | h
  · exact harrow h
  · exact hmark h
  · exact hcolon h

theorem classify_cases (declared : Bool) (text : Bytes) :
    Word.classify declared text = .name ∨ Word.classify declared text = .keyword ∨
      Word.classify declared text = .modifier := by
  rw [Word.classify]
  split <;> [skip; split <;> [skip; split]] <;> simp

/-- In a parameter with a plain type words are read for what they spell. -/
theorem PlainRule.after {nameNext : Bool} {tail : Bytes} {t : Token}
    (h : PlainRule nameNext tail t) (ht : t.isPlain) (hn : nameNext = false ∨ t.opensParameter) :
    State.after ⟨true, nameNext⟩ t = ⟨true, false⟩ := by
  cases h with
  | space =>
    obtain rfl : nameNext = false := hn.resolve_right (fun h => by cases h)
    rfl
  | lineComment =>
    obtain rfl : nameNext = false := hn.resolve_right (fun h => by cases h)
    rfl
  | @blockComment kind x hnext hend =>
    have hkind := congrArg Lexeme.kind hend
    simp only [Lexer.blockComment] at hkind
    obtain rfl | rfl : kind = .docComment ∨ kind = .comment := by
      rw [← hkind]
      split <;> simp
    · obtain rfl : nameNext = false := hn.resolve_right (fun h => by cases h)
      rfl
    · obtain rfl : nameNext = false := hn.resolve_right (fun h => by cases h)
      rfl
  | @word b x h hend =>
    have hkinds := classify_cases nameNext (b :: x)
    have hnext : nameNext = false := by
      refine hn.resolve_right fun hopens => ?_
      rcases hkinds with hkind | hkind | hkind <;> rw [hkind] at hopens <;> cases hopens
    subst hnext
    have hkeyword : Word.classify false (b :: x) ≠ .keyword := by
      intro hkind
      rw [hkind] at ht
      cases ht
    have hnames := namesNext_of_classify (h.imp_right And.left) hkeyword
    rcases hkinds with hkind | hkind | hkind
    · simp [State.after, hkind, hnames, Token.isTrivia]
    · exact absurd hkind hkeyword
    · simp [State.after, hkind, hnames, Token.isTrivia]
  | @sign b h =>
    have hall : ∀ b ∈ [byte '(', byte ',', byte '&'],
        State.after ⟨true, nameNext⟩ ⟨.punct, [b]⟩ = ⟨true, false⟩ := by
      simp only [List.mem_cons, List.not_mem_nil, or_false, forall_eq_or_imp, forall_eq]
      cases nameNext <;> decide
    exact hall b h
  | dots => cases nameNext <;> decide

/-- What a token of a parameter with a plain type begins with. -/
theorem PlainRule.head {nameNext : Bool} {tail : Bytes} {t : Token}
    (h : PlainRule nameNext tail t) :
    ∃ b x, t.text = b :: x ∧ b ≠ byte '?' ∧ (b = byte '\\' → x ≠ []) := by
  cases h with
  | @space b x h hend =>
    refine ⟨b, x, rfl, ?_, ?_⟩
    · rintro rfl
      exact absurd h (by decide)
    · rintro rfl
      exact absurd h (by decide)
  | @lineComment b x h hend =>
    refine ⟨b, x, rfl, ?_, ?_⟩
    · rintro rfl
      exact absurd (h.imp And.left And.left) (by decide)
    · rintro rfl
      exact absurd (h.imp And.left And.left) (by decide)
  | @blockComment kind x hnext hend =>
    exact ⟨_, x, rfl, by decide, fun hb => absurd hb (by decide)⟩
  | @word b x h hend =>
    refine ⟨b, x, rfl, ?_, ?_⟩
    · rintro rfl
      exact absurd (h.imp_right And.left) (by decide)
    · rintro rfl
      have hnot : ¬Word.startsIdentifier (byte '\\') := by decide
      exact Word.ne_nil_of_startsIdentifier hend (h.resolve_left hnot).2
  | @sign b h =>
    refine ⟨b, [], rfl, ?_, ?_⟩
    · rintro rfl
      exact absurd h (by decide)
    · rintro rfl
      exact absurd h (by decide)
  | dots => exact ⟨_, _, rfl, by decide, by decide⟩

/-- No name goes on where what may stand behind a type begins. -/
theorem nameLength_of_followsType {nameNext : Bool} {tail : Bytes} {t : Token}
    (h : PlainRule nameNext tail t) (ht : t.followsType) (bs : Bytes) :
    Word.nameLength (t.text ++ bs) = 0 := by
  have hzero : ∀ b x, Word.continuesIdentifier b = false → b ≠ byte '\\' →
      Word.nameLength (b :: x ++ bs) = 0 := by
    intro b x hb hslash
    simp [Word.nameLength, hb, hslash]
  cases h with
  | @space b x h hend =>
    refine hzero b x (Word.not_continuesIdentifier_of_isSpace h) ?_
    rintro rfl
    exact absurd h (by decide)
  | @lineComment b x h hend =>
    rcases h with ⟨rfl, _⟩ | ⟨rfl, _⟩
    · exact hzero _ x (by decide) (by decide)
    · exact hzero _ x (by decide) (by decide)
  | @blockComment kind x => exact hzero _ x (by decide) (by decide)
  | @word b x h hend =>
    rcases classify_cases nameNext (b :: x) with hkind | hkind | hkind <;> rw [hkind] at ht <;>
      cases ht
  | @sign b h =>
    simp only [List.mem_cons, List.not_mem_nil, or_false] at h
    rcases h with rfl | rfl | rfl <;> exact hzero _ [] (by decide) (by decide)
  | dots => exact hzero _ _ (by decide) (by decide)

theorem nameLength_of_variableName {nameNext : Bool} {tail : Bytes} {t : Token}
    (h : Yields ⟨true, nameNext⟩ t tail) (ht : t.kind = .variableName) (bs : Bytes) :
    Word.nameLength (t.text ++ bs) = 0 := by
  obtain ⟨b, x, htext, hlex⟩ := h
  have hrule := codeLexeme_rule nameNext b (x ++ tail)
  have hlex' : codeLexeme nameNext b (x ++ tail) = ⟨t.kind, x.length⟩ := hlex
  rw [hlex', ht] at hrule
  generalize hl : (⟨.variableName, x.length⟩ : Lexeme) = l at hrule
  have hkind := congrArg Lexeme.kind hl
  cases hrule with
  | variableName h =>
    rw [htext, h]
    simp +decide [Word.nameLength]
  | word =>
    have hword : Kind.variableName = Word.classify nameNext _ := hkind
    have hkinds := classify_cases nameNext (b :: (x ++ tail).take (Word.nameLength (x ++ tail)))
    rw [← hword] at hkinds
    simp at hkinds
  | blockComment =>
    simp only [blockComment] at hkind
    split at hkind <;> cases hkind
  | space | lineComment | operator | closeTag | attributeOpen | number | quoted | heredoc |
    other => cases hkind

/-- A name begins with a byte of an identifier or with a backslash. -/
theorem head_of_name {nameNext : Bool} {tail : Bytes} {t : Token}
    (h : PlainRule nameNext tail t) (ht : t.kind = .name) :
    ∃ b x, t.text = b :: x ∧ (Word.startsIdentifier b ∨ b = byte '\\') := by
  cases h with
  | @word b x h => exact ⟨b, x, rfl, h.imp_right And.left⟩
  | @blockComment kind x hnext hend =>
    obtain rfl : kind = .name := ht
    have hkind := congrArg Lexeme.kind hend
    simp only [Lexer.blockComment] at hkind
    split at hkind <;> cases hkind
  | space | lineComment | sign | dots => cases ht

end Lexer

end ExplicitNull
