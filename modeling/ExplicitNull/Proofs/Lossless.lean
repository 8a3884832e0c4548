import ExplicitNull.Source.Lexer

/-!
Reading loses nothing. Every token takes its first byte and no more bytes than are left, so the
texts of the tokens make up the source. A list of tokens that is what its own text is read as is
said to read; it does so exactly if each token is what is read in front of the text behind it.
-/
namespace ExplicitNull

namespace Token

@[simp] theorem source_nil : source [] = [] := rfl

@[simp] theorem source_cons (t : Token) (ts : List Token) :
    source (t :: ts) = t.text ++ source ts := rfl

@[simp] theorem source_append (ts us : List Token) :
    source (ts ++ us) = source ts ++ source us := by simp [source]

theorem source_flatten (tss : List (List Token)) :
    source tss.flatten = (tss.map source).flatten := by
  induction tss with
  | nil => rfl
  | cons ts rest ih => simp [ih]

end Token

theorem Word.nameLength_le (bs : Bytes) : nameLength bs ≤ bs.length := by
  induction bs with
  | nil => simp [nameLength]
  | cons b rest ih =>
    simp only [nameLength, List.length_cons]
    split <;> try split
    all_goals omega

theorem Quoted.length_le (frames : List Frame) (bs : Bytes) : length frames bs ≤ bs.length := by
  fun_induction length frames bs <;> simp_all <;> omega

namespace Heredoc

theorem lineEnd?_bounds {bs : Bytes} {w : Nat} (h : lineEnd? bs = some w) :
    1 ≤ w ∧ w ≤ bs.length := by
  cases bs with
  | nil => simp [lineEnd?] at h
  | cons b rest => cases rest <;> grind [lineEnd?]

theorem opener?_width_le {bs : Bytes} {o : Opener} (h : opener? bs = some o) :
    o.width ≤ bs.length := by
  unfold opener? at h
  extract_lets indent quoted quote quoteWidth labelled label closed at h
  split at h
  · obtain ⟨w, hw, rfl⟩ := Option.map_eq_some_iff.1 h
    obtain ⟨hpos, hle⟩ := lineEnd?_bounds hw
    simp only [closed, labelled, quoted, List.length_drop] at hle
    dsimp only
    omega
  · simp at h

theorem closing?_le {label line : Bytes} {n : Nat} (h : closing? label line = some n) :
    n ≤ line.length := by
  unfold closing? at h
  extract_lets indent text at h
  split at h
  · rename_i hclose
    have hlabel := (List.isPrefixOf_iff_prefix.1 (Bool.and_eq_true_iff.1 hclose).1).length_le
    have hindent : indent ≤ line.length := (List.takeWhile_sublist isIndent).length_le
    simp only [text, List.length_drop] at hlabel
    injection h with h
    omega
  · simp at h

theorem bodyLength_le (label : Bytes) (atLineStart : Bool) (bs : Bytes) :
    bodyLength label atLineStart bs ≤ bs.length := by
  fun_induction bodyLength label atLineStart bs with
  | case1 => simp
  | case2 b rest n h => exact closing?_le h
  | case3 b rest h ih => simp only [List.length_cons]; omega
  | case4 b rest ih => simp only [List.length_cons]; omega

theorem length?_le {bs : Bytes} {n : Nat} (h : length? bs = some n) : n ≤ bs.length := by
  obtain ⟨o, ho, rfl⟩ := Option.map_eq_some_iff.1 h
  have hwidth := opener?_width_le ho
  have hbody := bodyLength_le o.label true (bs.drop o.width)
  rw [List.length_drop] at hbody
  omega

end Heredoc

namespace Lexer

theorem htmlLength_le (bs : Bytes) : htmlLength bs ≤ bs.length := by
  fun_induction htmlLength bs <;> simp_all
  omega

theorem tagLength_le (bs : Bytes) : tagLength bs ≤ bs.length := by
  unfold tagLength
  split
  · rename_i h
    have hlen : ((bs.take 3).map Ascii.toLower).length = 3 := by
      have heq : Bytes.toLower (bs.take 3) = utf8 "php" := eq_of_beq h.1
      exact congrArg List.length heq
    simp only [List.length_map, List.length_take] at hlen
    omega
  · split
    · rename_i h
      cases bs with
      | nil => simp at h
      | cons b rest => simp
    · simp

theorem lineLength_le (bs : Bytes) : lineLength bs ≤ bs.length := by
  fun_induction lineLength bs <;> simp_all
  omega

theorem blockLength_le (bs : Bytes) : blockLength bs ≤ bs.length := by
  fun_induction blockLength bs with
  | case1 => simp
  | case2 b rest h => cases rest <;> simp_all
  | case3 b rest h ih => simp only [List.length_cons]; omega

theorem numberLength_le (hex : Bool) (last : UInt8) (bs : Bytes) :
    numberLength hex last bs ≤ bs.length := by
  fun_induction numberLength hex last bs <;> simp_all <;> omega

theorem operatorLength_le (b : UInt8) (rest : Bytes) : operatorLength (b :: rest) ≤ rest.length := by
  unfold operatorLength
  split
  · rename_i op h
    have hop : op.isPrefixOf (b :: rest) = true := by simpa using List.find?_some h
    have hlen := (List.isPrefixOf_iff_prefix.1 hop).length_le
    simp only [List.length_cons] at hlen
    omega
  · simp

theorem blockComment_extra_le {rest : Bytes} (h : rest ≠ []) :
    (blockComment rest).extra ≤ rest.length := by
  have hblock := blockLength_le (rest.drop 1)
  have hpos : 0 < rest.length := List.length_pos_iff.2 h
  simp only [blockComment, List.length_drop] at hblock ⊢
  omega

/-- The rules by which a token of the code is read, each with the bytes that call for it. -/
inductive CodeRule (nameNext : Bool) (b : UInt8) (rest : Bytes) : Lexeme → Prop
  | space (h : Word.isSpace b) :
      CodeRule nameNext b rest ⟨.whitespace, (rest.takeWhile Word.isSpace).length⟩
  | closeTag (h : b = byte '?') (hnext : rest.head? = some (byte '>')) :
      CodeRule nameNext b rest ⟨.closeTag, 1⟩
  | attributeOpen (h : b = byte '#') (hnext : rest.head? = some (byte '[')) :
      CodeRule nameNext b rest ⟨.attributeOpen, 1⟩
  | lineComment (h : b = byte '#' ∧ rest.head? ≠ some (byte '[') ∨
        b = byte '/' ∧ rest.head? = some (byte '/')) :
      CodeRule nameNext b rest ⟨.comment, lineLength rest⟩
  | blockComment (h : b = byte '/') (hnext : rest.head? = some (byte '*')) :
      CodeRule nameNext b rest (blockComment rest)
  | variableName (h : b = byte '$') (hnext : rest.head?.any Word.startsIdentifier) :
      CodeRule nameNext b rest ⟨.variableName, (rest.takeWhile Word.continuesIdentifier).length⟩
  | word (h : Word.startsIdentifier b ∨
        b = byte '\\' ∧ rest.head?.any Word.startsIdentifier) :
      CodeRule nameNext b rest (word nameNext b rest)
  | number (h : Ascii.isDigit b ∨ b = byte '.' ∧ rest.head?.any Ascii.isDigit) :
      CodeRule nameNext b rest (number b rest)
  | quoted (h : b = byte '\'' ∨ b = byte '\x22' ∨ b = byte '\x60') :
      CodeRule nameNext b rest ⟨.literal, Quoted.length [.string b] rest⟩
  | heredoc {n : Nat} (h : b = byte '<') (hmark : utf8 "<<" <+: rest)
      (hn : Heredoc.length? (rest.drop 2) = some n) :
      CodeRule nameNext b rest ⟨.literal, 2 + n⟩
  | operator (h : Ascii.isPunctuation b) : CodeRule nameNext b rest (operator b rest)
  | other (h : ¬Ascii.isPunctuation b) : CodeRule nameNext b rest ⟨.other, 0⟩

theorem codeLexeme_rule (nameNext : Bool) (b : UInt8) (rest : Bytes) :
    CodeRule nameNext b rest (codeLexeme nameNext b rest) := by
  unfold codeLexeme
  extract_lets next
  by_cases hspace : Word.isSpace b
  · rw [if_pos hspace]
    exact .space hspace
  rw [if_neg hspace]
  by_cases hclose : b = byte '?' ∧ next = some (byte '>')
  · rw [if_pos hclose]
    exact .closeTag hclose.1 hclose.2
  rw [if_neg hclose]
  by_cases hattr : b = byte '#' ∧ next = some (byte '[')
  · rw [if_pos hattr]
    exact .attributeOpen hattr.1 hattr.2
  rw [if_neg hattr]
  by_cases hline : b = byte '#' ∨ (b = byte '/' ∧ next = some (byte '/'))
  · rw [if_pos hline]
    refine .lineComment (hline.imp_left fun h => ⟨h, fun hnext => hattr ⟨h, hnext⟩⟩)
  rw [if_neg hline]
  by_cases hblock : b = byte '/' ∧ next = some (byte '*')
  · rw [if_pos hblock]
    exact .blockComment hblock.1 hblock.2
  rw [if_neg hblock]
  by_cases hvar : b = byte '$' ∧ next.any Word.startsIdentifier
  · rw [if_pos hvar]
    exact .variableName hvar.1 hvar.2
  rw [if_neg hvar]
  by_cases hword : Word.startsIdentifier b ∨ (b = byte '\\' ∧ next.any Word.startsIdentifier)
  · rw [if_pos hword]
    exact .word hword
  rw [if_neg hword]
  by_cases hnum : Ascii.isDigit b ∨ (b = byte '.' ∧ next.any Ascii.isDigit)
  · rw [if_pos hnum]
    exact .number hnum
  rw [if_neg hnum]
  by_cases hquote : b = byte '\'' ∨ b = byte '\x22' ∨ b = byte '\x60'
  · rw [if_pos hquote]
    exact .quoted hquote
  rw [if_neg hquote]
  by_cases hshift : b = byte '<' ∧ (utf8 "<<").isPrefixOf rest
  · rw [if_pos hshift]
    rcases hn : Heredoc.length? (rest.drop 2) with _ | n
    · refine .operator ?_
      rw [hshift.1]
      decide
    · exact .heredoc hshift.1 (List.isPrefixOf_iff_prefix.1 hshift.2) hn
  rw [if_neg hshift]
  by_cases hpunct : Ascii.isPunctuation b
  · rw [if_pos hpunct]
    exact .operator hpunct
  · rw [if_neg hpunct]
    exact .other hpunct

theorem CodeRule.extra_le {nameNext : Bool} {b : UInt8} {rest : Bytes} {l : Lexeme}
    (h : CodeRule nameNext b rest l) : l.extra ≤ rest.length := by
  have htake : ∀ p, (rest.takeWhile p).length ≤ rest.length :=
    fun p => (List.takeWhile_sublist p).length_le
  have hpos : ∀ c, rest.head? = some c → 1 ≤ rest.length := by
    intro c hc
    cases rest with
    | nil => simp at hc
    | cons d rest => simp
  cases h with
  | space => exact htake _
  | closeTag _ hnext => exact hpos _ hnext
  | attributeOpen _ hnext => exact hpos _ hnext
  | lineComment => exact lineLength_le rest
  | blockComment _ hnext =>
    refine blockComment_extra_le ?_
    rintro rfl
    simp at hnext
  | variableName => exact htake _
  | word => exact Word.nameLength_le rest
  | number => exact numberLength_le _ b rest
  | quoted => exact Quoted.length_le _ rest
  | heredoc _ hmark hn =>
    have hbody := Heredoc.length?_le hn
    have htwo : (utf8 "<<").length ≤ rest.length := hmark.length_le
    have hlen : (utf8 "<<").length = 2 := by decide
    simp only [List.length_drop] at hbody
    dsimp only
    omega
  | operator => exact operatorLength_le b rest
  | other => simp

theorem htmlLexeme_extra_le (b : UInt8) (rest : Bytes) :
    (htmlLexeme b rest).extra ≤ rest.length := by
  unfold htmlLexeme
  split
  · rename_i hopen
    have htag := tagLength_le (rest.drop 1)
    have hpos : rest ≠ [] := by
      rintro rfl
      simp at hopen
    have hlen : 0 < rest.length := List.length_pos_iff.2 hpos
    simp only [List.length_drop] at htag
    dsimp only
    omega
  · exact htmlLength_le rest

/-- A token does not reach beyond the end of the text. -/
theorem lexeme_extra_le (s : State) (b : UInt8) (rest : Bytes) :
    (lexeme s b rest).extra ≤ rest.length := by
  unfold lexeme
  split
  · exact (codeLexeme_rule s.nameNext b rest).extra_le
  · exact htmlLexeme_extra_le b rest

theorem source_tokensFrom (s : State) (bs : Bytes) : Token.source (tokensFrom s bs) = bs := by
  fun_induction tokensFrom s bs with
  | case1 => rfl
  | case2 s b rest l t ih =>
    rw [Token.source_cons, ih]
    simp [t]

/-- Whether tokens are what their own text is read as from a state on. -/
def Reads (s : State) (ts : List Token) : Prop := tokensFrom s (Token.source ts) = ts

/-- Whether a token is what is read where its text stands in front of `tail`. -/
def Yields (s : State) (t : Token) (tail : Bytes) : Prop :=
  ∃ b x, t.text = b :: x ∧ lexeme s b (x ++ tail) = ⟨t.kind, x.length⟩

theorem reads_tokensFrom (s : State) (bs : Bytes) : Reads s (tokensFrom s bs) := by
  rw [Reads, source_tokensFrom]

theorem reads_nil (s : State) : Reads s [] := by
  rw [Reads, Token.source_nil, tokensFrom]

theorem tokensFrom_of_yields {s : State} {t : Token} {tail : Bytes} (h : Yields s t tail) :
    tokensFrom s (t.text ++ tail) = t :: tokensFrom (s.after t) tail := by
  obtain ⟨kind, text⟩ := t
  obtain ⟨b, x, rfl, hlex⟩ := h
  rw [List.cons_append, tokensFrom, hlex]
  simp

theorem reads_cons {s : State} {t : Token} {rest : List Token} :
    Reads s (t :: rest) ↔ Yields s t (Token.source rest) ∧ Reads (s.after t) rest := by
  constructor
  · intro h
    rw [Reads, Token.source_cons] at h
    rcases hbytes : t.text ++ Token.source rest with _ | ⟨b, w⟩
    · rw [hbytes, tokensFrom] at h
      simp at h
    · rw [hbytes, tokensFrom] at h
      obtain ⟨ht, hrest⟩ := List.cons.inj h
      have hle := lexeme_extra_le s b w
      have hw : w.take (lexeme s b w).extra ++ Token.source rest = w := by
        rw [← ht] at hbytes
        exact (List.cons.inj hbytes).2
      refine ⟨⟨b, w.take (lexeme s b w).extra, by rw [← ht], ?_⟩, ?_⟩
      · rw [hw, List.length_take, Nat.min_eq_left hle, ← ht]
      · rw [Reads, ← ht, ← hrest, source_tokensFrom]
  · rintro ⟨hyields, hrest⟩
    rw [Reads, Token.source_cons, tokensFrom_of_yields hyields, hrest]

instance (s : State) (t : Token) (tail : Bytes) : Decidable (Yields s t tail) :=
  match h : t.text with
  | [] => isFalse fun ⟨_, _, htext, _⟩ => by simp [h] at htext
  | b :: x =>
    decidable_of_iff (lexeme s b (x ++ tail) = ⟨t.kind, x.length⟩)
      ⟨fun hlex => ⟨b, x, h, hlex⟩, fun ⟨_, _, htext, hlex⟩ => by
        obtain ⟨rfl, rfl⟩ := List.cons.inj (h.symm.trans htext)
        exact hlex⟩

instance decidableReads (s : State) : (ts : List Token) → Decidable (Reads s ts)
  | [] => isTrue (reads_nil s)
  | t :: rest =>
    have := decidableReads (s.after t) rest
    decidable_of_iff (Yields s t (Token.source rest) ∧ Reads (s.after t) rest) reads_cons.symm

end Lexer

@[simp] theorem source_tokenize (src : Bytes) : Token.source (tokenize src) = src :=
  Lexer.source_tokensFrom _ src

theorem reads_tokenize (src : Bytes) : Lexer.Reads ⟨false, false⟩ (tokenize src) :=
  Lexer.reads_tokensFrom _ src

end ExplicitNull
