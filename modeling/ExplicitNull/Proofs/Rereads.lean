import ExplicitNull.Proofs.Rescans

/-!
Reading a token before other text. What a token is told by its first byte and the one behind, and it
ends where its scan does. So a token that ends before some text is read again, byte for byte, where
a sign that a piece begins with has come into that text, unless the sign makes a longer operator of
it or takes the place of what ends it.
-/
namespace ExplicitNull

namespace Lexer

section

variable {c : UInt8}

theorem tagLength_append {x tail tail' : Bytes} (hx : x ≠ [])
    (hhead : x.length = 3 → tail'.head? = tail.head?)
    (h : tagLength (x ++ tail) = x.length) : tagLength (x ++ tail') = x.length := by
  have hpos : 0 < x.length := List.length_pos_iff.2 hx
  unfold tagLength at h ⊢
  by_cases hword : Bytes.eqIgnoringCase ((x ++ tail).take 3) (utf8 "php") ∧
      ((x ++ tail).drop 3).head?.all Word.isSpace
  · rw [if_pos hword] at h
    have hle : 3 ≤ x.length := by omega
    have hdrop : x.drop 3 = [] := List.drop_eq_nil_of_le (by omega)
    rw [List.take_append_of_le_length hle, List.drop_append_of_le_length hle, hdrop,
      List.nil_append] at hword ⊢
    rw [if_pos ⟨hword.1, by rw [hhead h.symm]; exact hword.2⟩]
    exact h
  · rw [if_neg hword] at h
    split at h
    · rename_i hequals
      obtain ⟨d, rfl⟩ := List.length_eq_one_iff.1 h.symm
      obtain rfl : d = byte '=' := Option.some.inj hequals
      have hnot : ∀ r, ¬(Bytes.eqIgnoringCase (([byte '='] ++ r).take 3) (utf8 "php") ∧
          (([byte '='] ++ r).drop 3).head?.all Word.isSpace) := by
        rintro r ⟨heq, -⟩
        have hfirst : Ascii.toLower (byte '=') = Ascii.toLower (byte 'p') :=
          (List.cons.inj (eq_of_beq heq)).1
        exact absurd hfirst (by decide)
      rw [if_neg (hnot tail')]
      rfl
    · omega

theorem tagLength_begins (hc : Begins c) {y z : Bytes} (z' : Bytes)
    (h : tagLength (y ++ z) = 0) : tagLength (y ++ c :: z') = 0 := by
  have hlower : Ascii.toLower c ∉ utf8 "php" := by rcases hc with rfl | rfl <;> decide
  have hphp : Bytes.toLower (utf8 "php") = utf8 "php" := by decide
  have hequals : c ≠ byte '=' := by rcases hc with rfl | rfl <;> decide
  unfold tagLength at h ⊢
  have hword : ¬(Bytes.eqIgnoringCase ((y ++ z).take 3) (utf8 "php") ∧
      ((y ++ z).drop 3).head?.all Word.isSpace) := fun hw => by
    rw [if_pos hw] at h
    omega
  rw [if_neg hword] at h
  have hword' : ¬(Bytes.eqIgnoringCase ((y ++ c :: z').take 3) (utf8 "php") ∧
      ((y ++ c :: z').drop 3).head?.all Word.isSpace) := by
    rintro ⟨heq, hspace⟩
    have hlen : 3 ≤ y.length := by
      -- the sign is no letter of the word
      by_contra hlt
      obtain ⟨n, hn⟩ : ∃ n, 3 - y.length = n + 1 := ⟨2 - y.length, by omega⟩
      have hmem : c ∈ (y ++ c :: z').take 3 := by
        rw [List.take_append, hn, List.take_succ_cons]
        exact List.mem_append_right _ (List.mem_cons_self ..)
      refine hlower ?_
      rw [← hphp, ← eq_of_beq heq]
      exact List.mem_map.2 ⟨c, hmem, rfl⟩
    rw [List.take_append_of_le_length hlen] at heq hword
    rw [List.drop_append_of_le_length hlen] at hspace hword
    refine hword ⟨heq, ?_⟩
    cases hdrop : y.drop 3 with
    | nil =>
      rw [hdrop] at hspace
      have hc' : Word.isSpace c = true := hspace
      simp [hc.not_space] at hc'
    | cons b y' =>
      rw [hdrop] at hspace
      exact hspace
  rw [if_neg hword', if_neg]
  cases y with
  | nil => exact fun hhead => hequals (Option.some.inj hhead)
  | cons b y =>
    intro hhead
    have hhead' : ((b :: y) ++ z).head? = some (byte '=') := hhead
    rw [if_pos hhead'] at h
    omega

/-- An operator in front of a sign does not reach over the sign, unless it is the sign itself. -/
theorem prefix_of_operator (hc : Begins c) {op w z : Bytes} (hop : op ∈ operators) (hw : w ≠ [])
    (hsign : w ≠ [c]) (h : op <+: w ++ c :: z) : op <+: w := by
  have hsigns : ∀ op ∈ operators, ∀ k < op.length, op[k]? = some c →
      k = 0 ∨ k = 1 ∧ op[0]? = some c := by rcases hc with rfl | rfl <;> decide
  rcases Nat.lt_or_ge w.length op.length with hlt | hle
  · exfalso
    have hget : ∀ k < op.length, op[k]? = (w ++ c :: z)[k]? := by
      obtain ⟨more, hmore⟩ := h
      intro k hk
      rw [← hmore, List.getElem?_append_left hk]
    have hlast := hget w.length hlt
    rw [List.getElem?_append_right (Nat.le_refl _), Nat.sub_self] at hlast
    rcases hsigns op hop w.length hlt hlast with hzero | ⟨hone, hfirst⟩
    · exact hw (List.eq_nil_of_length_eq_zero hzero)
    · obtain ⟨b, rfl⟩ := List.length_eq_one_iff.1 hone
      rw [hget 0 (by omega)] at hfirst
      exact hsign (congrArg (fun b => [b]) (Option.some.inj hfirst))
  · exact List.prefix_of_prefix_length_le h (List.prefix_append w _) hle

theorem operatorLength_begins (hc : Begins c) {w z : Bytes} (z' : Bytes) (hw : w ≠ [])
    (hsign : w ≠ [c]) (h : operatorLength (w ++ z) < w.length) :
    operatorLength (w ++ c :: z') = operatorLength (w ++ z) := by
  have hback : ∀ op ∈ operators, op.isPrefixOf (w ++ c :: z') → op.isPrefixOf (w ++ z) := by
    intro op hop hpre
    have hle := prefix_of_operator hc hop hw hsign (List.isPrefixOf_iff_prefix.1 hpre)
    exact List.isPrefixOf_iff_prefix.2 (hle.trans (List.prefix_append w z))
  have hfind : operators.find? (·.isPrefixOf (w ++ c :: z')) =
      operators.find? (·.isPrefixOf (w ++ z)) := by
    rw [operatorLength] at h
    rcases hfound : operators.find? (·.isPrefixOf (w ++ z)) with _ | op
    · rw [hfound]
      exact List.find?_eq_none.2 fun op hop hpre =>
        List.find?_eq_none.1 hfound op hop (hback op hop hpre)
    · rw [hfound] at h ⊢
      dsimp only at h
      obtain ⟨hpre, shorter, longer, hops, hnot⟩ := List.find?_eq_some_iff_append.1 hfound
      have hop : op <+: w := List.prefix_of_prefix_length_le (List.isPrefixOf_iff_prefix.1 hpre)
        (List.prefix_append w z) (by omega)
      refine List.find?_eq_some_iff_append.2 ⟨List.isPrefixOf_iff_prefix.2
        (hop.trans (List.prefix_append w _)), shorter, longer, hops, fun o ho => ?_⟩
      have hmem : o ∈ operators := hops ▸ List.mem_append_left _ ho
      have hnone := hnot o ho
      rw [Bool.not_eq_true', Bool.eq_false_iff] at hnone ⊢
      exact fun hpre => hnone (hback o hmem hpre)
  rw [operatorLength, operatorLength, hfind]

end

section

variable (nameNext : Bool) {b : UInt8} {rest : Bytes}

theorem not_startsIdentifier_of_isDigit (h : Ascii.isDigit b) :
    Word.startsIdentifier b = false := by
  have hupper : byte 'A' = 65 := by decide
  have hlower : byte 'a' = 97 := by decide
  have hnine : byte '9' = 57 := by decide
  have hunder : byte '_' = 95 := by decide
  grind [Word.startsIdentifier, Ascii.isAlpha, Ascii.isUpper, Ascii.isLower, Ascii.isDigit]

theorem codeLexeme_closeTag (h : b = byte '?') (hnext : rest.head? = some (byte '>')) :
    codeLexeme nameNext b rest = ⟨.closeTag, 1⟩ := by
  subst h
  simp +decide [codeLexeme, hnext]

theorem codeLexeme_attributeOpen (h : b = byte '#') (hnext : rest.head? = some (byte '[')) :
    codeLexeme nameNext b rest = ⟨.attributeOpen, 1⟩ := by
  subst h
  simp +decide [codeLexeme, hnext]

theorem codeLexeme_variableName (h : b = byte '$') (hnext : rest.head?.any Word.startsIdentifier) :
    codeLexeme nameNext b rest =
      ⟨.variableName, (rest.takeWhile Word.continuesIdentifier).length⟩ := by
  subst h
  simp +decide [codeLexeme, hnext]

theorem codeLexeme_number (h : Ascii.isDigit b ∨ b = byte '.' ∧ rest.head?.any Ascii.isDigit) :
    codeLexeme nameNext b rest = number b rest := by
  rcases h with h | ⟨rfl, hnext⟩
  · have hne : ∀ c, Ascii.isDigit c = false → b ≠ c := by
      rintro c hc rfl
      simp [h] at hc
    have hspace : Word.isSpace b = false := by
      rw [Bool.eq_false_iff]
      intro hb
      have hnot := Word.not_continuesIdentifier_of_isSpace hb
      simp [Word.continuesIdentifier, Ascii.isAlphanum, h] at hnot
    have hstarts : Word.startsIdentifier b = false := not_startsIdentifier_of_isDigit h
    have hmark := hne (byte '?') (by decide)
    have hhash := hne (byte '#') (by decide)
    have hslash := hne (byte '/') (by decide)
    have hdollar := hne (byte '$') (by decide)
    have hback := hne (byte '\\') (by decide)
    simp [codeLexeme, hspace, hmark, hhash, hslash, hdollar, hback, hstarts, h]
  · simp +decide [codeLexeme, hnext]

theorem codeLexeme_quoted (h : b = byte '\'' ∨ b = byte '\x22' ∨ b = byte '\x60') :
    codeLexeme nameNext b rest = ⟨.literal, Quoted.length [.string b] rest⟩ := by
  rcases h with rfl | rfl | rfl <;> simp +decide [codeLexeme]

theorem codeLexeme_heredoc {n : Nat} (h : b = byte '<') (hmark : utf8 "<<" <+: rest)
    (hn : Heredoc.length? (rest.drop 2) = some n) :
    codeLexeme nameNext b rest = ⟨.literal, 2 + n⟩ := by
  subst h
  have hmark' : (utf8 "<<").isPrefixOf rest := List.isPrefixOf_iff_prefix.2 hmark
  simp +decide [codeLexeme, hmark', hn]

/-- The bytes that begin a token other than an operator whatever is behind them. -/
def tells (b : UInt8) : Bool :=
  Word.isSpace b || b == byte '#' || Word.startsIdentifier b || Ascii.isDigit b ||
    b == byte '\'' || b == byte '\x22' || b == byte '\x60'

/-- Whether two bytes next to each other begin a token other than an operator, though the first does
not by itself. -/
def joins (b d : UInt8) : Bool :=
  (b == byte '?' && d == byte '>') || (b == byte '/' && (d == byte '/' || d == byte '*')) ||
    ((b == byte '$' || b == byte '\\') && Word.startsIdentifier d) ||
    (b == byte '.' && Ascii.isDigit d)

/-- Whether no token begins but an operator, or a byte that nothing begins with. -/
structure Operates (b : UInt8) (rest : Bytes) : Prop where
  alone : tells b = false
  joins : rest.head?.any (joins b) = false
  shift : b = byte '<' → utf8 "<<" <+: rest → Heredoc.length? (rest.drop 2) = none

theorem Operates.codeLexeme_eq (h : Operates b rest) : codeLexeme nameNext b rest =
    if Ascii.isPunctuation b then operator b rest else ⟨.other, 0⟩ := by
  obtain ⟨halone, hjoins, hshift⟩ := h
  simp only [tells, Bool.or_eq_false_iff, beq_eq_false_iff_ne] at halone
  obtain ⟨⟨⟨⟨⟨⟨hspace, hhash⟩, hstarts⟩, hdigit⟩, hsingle⟩, hdouble⟩, hback⟩ := halone
  have hnext : ∀ p : UInt8 → Bool, (∀ d, p d → Lexer.joins b d) → rest.head?.any p = false := by
    intro p hp
    cases rest with
    | nil => rfl
    | cons d rest =>
      have hd : Lexer.joins b d = false := hjoins
      show p d = false
      rw [Bool.eq_false_iff]
      intro hpd
      simp [hp d hpd] at hd
  have hne : ∀ d, Lexer.joins b d → rest.head? ≠ some d := by
    intro d hd hhead
    rw [hhead] at hjoins
    simp [hd] at hjoins
  rw [codeLexeme, if_neg (by simp [hspace]),
    if_neg fun h => hne _ (by rw [h.1]; decide) h.2, if_neg fun h => hhash h.1,
    if_neg fun h => h.elim hhash fun h => hne _ (by rw [h.1]; decide) h.2,
    if_neg fun h => hne _ (by rw [h.1]; decide) h.2,
    if_neg fun h => ?_, if_neg fun h => ?_, if_neg fun h => ?_,
    if_neg fun h => h.elim hsingle fun h => h.elim hdouble hback]
  · split
    · rename_i h
      have hnone := hshift h.1 (List.isPrefixOf_iff_prefix.1 h.2)
      have hpunct : Ascii.isPunctuation b := by rw [h.1]; decide
      rw [hnone, if_pos hpunct]
    · rfl
  · rcases h with h | ⟨rfl, h⟩
    · simp [hdigit] at h
    · simp [hnext Ascii.isDigit fun d hd => by simp [Lexer.joins, hd]] at h
  · rcases h with h | ⟨rfl, h⟩
    · simp [hstarts] at h
    · simp [hnext Word.startsIdentifier fun d hd => by simp [Lexer.joins, hd]] at h
  · obtain ⟨rfl, h⟩ := h
    simp [hnext Word.startsIdentifier fun d hd => by simp [Lexer.joins, hd]] at h

theorem operates_of_kind (h : (codeLexeme nameNext b rest).kind = .punct ∨
    (codeLexeme nameNext b rest).kind = .other) : Operates b rest := by
  have hword : ∀ text, Word.classify nameNext text ≠ .punct ∧
      Word.classify nameNext text ≠ .other := by
    intro text
    rcases classify_cases nameNext text with hk | hk | hk <;> rw [hk] <;> decide
  have hother : ∀ l, codeLexeme nameNext b rest = l → ¬(l.kind ≠ .punct ∧ l.kind ≠ .other) := by
    rintro l rfl ⟨hpunct, hother⟩
    exact h.elim hpunct hother
  have hstartsWord : (Word.startsIdentifier b ∨
      b = byte '\\' ∧ rest.head?.any Word.startsIdentifier) → False :=
    fun hb => hother _ (codeLexeme_word nameNext hb) (hword _)
  have hnumber : (Ascii.isDigit b ∨ b = byte '.' ∧ rest.head?.any Ascii.isDigit) → False :=
    fun hb => hother _ (codeLexeme_number nameNext hb) ⟨nofun, nofun⟩
  have hquoted : (b = byte '\'' ∨ b = byte '\x22' ∨ b = byte '\x60') → False :=
    fun hb => hother _ (codeLexeme_quoted nameNext hb) ⟨nofun, nofun⟩
  refine ⟨?_, ?_, fun hb hmark => ?_⟩
  · rw [Bool.eq_false_iff]
    intro hb
    simp only [tells, Bool.or_eq_true, beq_iff_eq] at hb
    rcases hb with (((((hb | hb) | hb) | hb) | hb) | hb) | hb
    · exact hother _ (codeLexeme_space nameNext hb) ⟨nofun, nofun⟩
    · by_cases hnext : rest.head? = some (byte '[')
      · exact hother _ (codeLexeme_attributeOpen nameNext hb hnext) ⟨nofun, nofun⟩
      · exact hother _ (codeLexeme_lineComment nameNext (.inl ⟨hb, hnext⟩)) ⟨nofun, nofun⟩
    · exact hstartsWord (.inl hb)
    · exact hnumber (.inl hb)
    · exact hquoted (.inl hb)
    · exact hquoted (.inr (.inl hb))
    · exact hquoted (.inr (.inr hb))
  · rw [Bool.eq_false_iff]
    intro hb
    obtain ⟨d, hd, hjoins⟩ := (Option.any_eq_true _ _).1 hb
    have hany : ∀ p : UInt8 → Bool, p d → rest.head?.any p := fun p hp => by rw [hd]; exact hp
    simp only [Lexer.joins, Bool.or_eq_true, Bool.and_eq_true, beq_iff_eq] at hjoins
    rcases hjoins with ((⟨hb, rfl⟩ | ⟨hb, rfl | rfl⟩) | ⟨hb | hb, hp⟩) | ⟨hb, hp⟩
    · exact hother _ (codeLexeme_closeTag nameNext hb hd) ⟨nofun, nofun⟩
    · exact hother _ (codeLexeme_lineComment nameNext (.inr ⟨hb, hd⟩)) ⟨nofun, nofun⟩
    · have hkind : (blockComment rest).kind ≠ .punct ∧ (blockComment rest).kind ≠ .other := by
        unfold blockComment
        dsimp only
        split <;> exact ⟨nofun, nofun⟩
      exact hother _ (codeLexeme_blockComment nameNext hb hd) hkind
    · exact hother _ (codeLexeme_variableName nameNext hb (hany _ hp)) ⟨nofun, nofun⟩
    · exact hstartsWord (.inr ⟨hb, hany _ hp⟩)
    · exact hnumber (.inr ⟨hb, hany _ hp⟩)
  · refine Option.eq_none_iff_forall_ne_some.2 fun n hn => ?_
    exact hother _ (codeLexeme_heredoc nameNext hb hmark hn) ⟨nofun, nofun⟩

end

section

variable {c : UInt8}

theorem Begins.not_joins (hc : Begins c) (b : UInt8) : joins b c = false := by
  have hsigns : c ≠ byte '>' ∧ c ≠ byte '/' ∧ c ≠ byte '*' := by
    rcases hc with rfl | rfl <;> decide
  simp [joins, hsigns, hc.not_starts, hc.not_digit]

theorem Operates.begins (hc : Begins c) {b : UInt8} {w z : Bytes} (z' : Bytes)
    (h : Operates b (w ++ z)) : Operates b (w ++ c :: z') where
  alone := h.alone
  joins := head?_any_begins (Begins.not_joins hc b) z' h.joins
  shift := by
    intro hb hmark
    have hsign : c ∉ utf8 "<<" := by rcases hc with rfl | rfl <;> decide
    have hlen : 2 ≤ w.length := length_le_of_prefix_bar hsign hmark
    have hmark' := List.prefix_of_prefix_length_le hmark (List.prefix_append w _) hlen
    have hnone := h.shift hb (hmark'.trans (List.prefix_append w z))
    rw [List.drop_append_of_le_length hlen] at hnone ⊢
    refine Option.map_eq_none_iff.2 (Option.eq_none_iff_forall_ne_some.2 fun o ho => ?_)
    obtain ⟨o', ho'⟩ := Heredoc.opener?_begins hc ho z
    rw [Heredoc.length?, ho'] at hnone
    cases hnone

theorem number_begins (hc : Begins c) {b : UInt8} {x y z : Bytes} (z' : Bytes)
    (h : (number b (x ++ (y ++ z))).extra = x.length) :
    number b (x ++ (y ++ c :: z')) = ⟨.literal, x.length⟩ := by
  have hends : ∀ d, Ascii.isAlphanum d → x = [] → (x ++ (y ++ z)).head? ≠ some d := by
    rintro d hd rfl hhead
    obtain ⟨r, hr⟩ := List.head?_eq_some_iff.1 hhead
    rw [hr, number, numberLength, if_pos (.inl hd), List.length_nil] at h
    dsimp only at h
    omega
  have hhead : ∀ d, Ascii.isAlphanum d →
      ((x ++ (y ++ c :: z')).head? == some d) = ((x ++ (y ++ z)).head? == some d) := by
    intro d hd
    cases x with
    | cons a x => rfl
    | nil =>
      have hne := hends d hd rfl
      cases y with
      | cons a y => rfl
      | nil =>
        have hcd : c ≠ d := by
          rintro rfl
          rcases hc with rfl | rfl <;> exact absurd hd (by decide)
        rw [beq_eq_false_iff_ne.2 hne, beq_eq_false_iff_ne]
        exact fun heq => hcd (Option.some.inj heq)
  rw [number] at h ⊢
  rw [hhead _ (by decide), hhead _ (by decide)]
  obtain ⟨last, hzero, hall⟩ := numberLength_append h
  rw [hall _ (numberLength_begins hc z' hzero)]

/-- A token of the code that ends before some text ends there with a sign in that text as well. -/
theorem codeLexeme_begins (hc : Begins c) {nameNext : Bool} {b : UInt8} {x y z : Bytes}
    {kind : Kind} (z' : Bytes) (hne : y ++ z ≠ [])
    (hline : kind = .comment → lineLength (y ++ z) = 0 → lineLength (y ++ c :: z') = 0)
    (hsign : y = [] → b :: x ≠ [c])
    (h : codeLexeme nameNext b (x ++ (y ++ z)) = ⟨kind, x.length⟩) :
    codeLexeme nameNext b (x ++ (y ++ c :: z')) = ⟨kind, x.length⟩ := by
  have hhead : x ≠ [] → (x ++ (y ++ c :: z')).head? = (x ++ (y ++ z)).head? := by
    intro hx
    cases x with
    | nil => exact absurd rfl hx
    | cons a x => rfl
  have hpos : 0 < x.length → x ≠ [] := List.length_pos_iff.1
  have hrule := codeLexeme_rule nameNext b (x ++ (y ++ z))
  obtain ⟨l, hl⟩ : ∃ l, (⟨kind, x.length⟩ : Lexeme) = l := ⟨_, rfl⟩
  rw [h, hl] at hrule
  cases hrule with
  | space hb =>
    obtain ⟨rfl, hlen⟩ := Lexeme.mk.inj hl
    obtain ⟨hends, hall⟩ := takeWhile_append_of_length_eq hlen.symm
    rw [codeLexeme_space nameNext hb, hall _ (head?_any_begins hc.not_space z' hends)]
  | closeTag hb hnext =>
    obtain ⟨rfl, hlen⟩ := Lexeme.mk.inj hl
    rw [codeLexeme_closeTag nameNext hb (by rw [hhead (hpos (by omega))]; exact hnext), hlen]
  | attributeOpen hb hnext =>
    obtain ⟨rfl, hlen⟩ := Lexeme.mk.inj hl
    rw [codeLexeme_attributeOpen nameNext hb (by rw [hhead (hpos (by omega))]; exact hnext), hlen]
  | lineComment hb =>
    obtain ⟨rfl, hlen⟩ := Lexeme.mk.inj hl
    obtain ⟨hends, hall⟩ := lineLength_append hlen.symm
    have hends' := hline rfl hends
    have hb' : b = byte '#' ∧ (x ++ (y ++ c :: z')).head? ≠ some (byte '[') ∨
        b = byte '/' ∧ (x ++ (y ++ c :: z')).head? = some (byte '/') := by
      by_cases hx : x = []
      · subst hx
        rcases hb with ⟨hb, -⟩ | ⟨-, hnext⟩
        · exact .inl ⟨hb, fun hnext => absurd (lineLength_eq_zero hends' _ hnext) (by decide)⟩
        · exact absurd (lineLength_eq_zero hends _ hnext) (by decide)
      · rwa [hhead hx]
    rw [codeLexeme_lineComment nameNext hb', hall _ hends']
  | blockComment hb hnext =>
    cases x with
    | nil =>
      have hlen := congrArg Lexeme.extra hl
      simp [blockComment] at hlen
      omega
    | cons a x =>
      obtain rfl : a = byte '*' := Option.some.inj hnext
      rw [codeLexeme_blockComment nameNext hb rfl]
      exact blockComment_append hne hl.symm _
  | variableName hb hnext =>
    obtain ⟨rfl, hlen⟩ := Lexeme.mk.inj hl
    obtain ⟨hends, hall⟩ := takeWhile_append_of_length_eq hlen.symm
    have hx : x ≠ [] := by
      rintro rfl
      obtain ⟨d, hd, hstarts⟩ := (Option.any_eq_true _ _).1 hnext
      rw [List.nil_append] at hd
      rw [hd] at hends
      have hnot : Word.continuesIdentifier d = false := hends
      simp [Word.continuesIdentifier_of_startsIdentifier hstarts] at hnot
    rw [codeLexeme_variableName nameNext hb (by rw [hhead hx]; exact hnext),
      hall _ (head?_any_begins hc.not_continues z' hends)]
  | word hb =>
    obtain ⟨rfl, hlen⟩ := Lexeme.mk.inj hl
    obtain ⟨hends, hall⟩ := Word.nameLength_append hlen.symm
    have hb' : Word.startsIdentifier b ∨
        b = byte '\\' ∧ (x ++ (y ++ c :: z')).head?.any Word.startsIdentifier :=
      hb.imp_right fun hb => by
        rwa [hhead (Word.ne_nil_of_startsIdentifier hlen.symm hb.2)]
    rw [codeLexeme_word nameNext hb', word, hall _ (nameLength_begins hc z' hends), ← hlen,
      List.take_left, List.take_left]
  | number hb =>
    have hlen := congrArg Lexeme.extra hl
    obtain rfl : kind = .literal := congrArg Lexeme.kind hl
    have hb' : Ascii.isDigit b ∨ b = byte '.' ∧ (x ++ (y ++ c :: z')).head?.any Ascii.isDigit := by
      refine hb.imp_right fun hb => ?_
      rwa [hhead]
      rintro rfl
      obtain ⟨d, hd, hdigit⟩ := (Option.any_eq_true _ _).1 hb.2
      obtain ⟨r, hr⟩ := List.head?_eq_some_iff.1 hd
      have hd' : Ascii.isAlphanum d := by simp [Ascii.isAlphanum, hdigit]
      rw [hr, number, numberLength, if_pos (.inl hd'), List.length_nil] at hlen
      dsimp only at hlen
      omega
    rw [codeLexeme_number nameNext hb', number_begins hc z' hlen.symm]
  | quoted hb =>
    obtain ⟨rfl, hlen⟩ := Lexeme.mk.inj hl
    rw [codeLexeme_quoted nameNext hb, Quoted.length_append hne hlen.symm]
  | @heredoc n hb hmark hn =>
    obtain ⟨rfl, hlen⟩ := Lexeme.mk.inj hl
    have htwo : (utf8 "<<").length ≤ x.length := by
      rw [hlen]
      exact Nat.le_add_right 2 n
    have hx := List.prefix_of_prefix_length_le hmark (List.prefix_append x _) htwo
    have hle : 2 ≤ x.length := htwo
    rw [List.drop_append_of_le_length hle] at hn
    have hbody : x.length - 2 = n := by omega
    rw [← hbody, ← List.length_drop] at hn
    obtain ⟨hends, hall⟩ := Heredoc.length?_append hne hn
    have hn' := hall _ (head?_any_begins hc.not_continues z' hends)
    rw [← List.drop_append_of_le_length hle] at hn'
    rw [codeLexeme_heredoc nameNext hb (hx.trans (List.prefix_append x _)) hn', List.length_drop]
    exact congrArg (Lexeme.mk .literal) (by omega)
  | operator hb =>
    obtain ⟨rfl, hlen⟩ := Lexeme.mk.inj hl
    have hoperates := operates_of_kind nameNext (.inl (by rw [h]))
    rw [← List.append_assoc] at hoperates hlen ⊢
    rw [(hoperates.begins hc z').codeLexeme_eq nameNext, if_pos hb, operator]
    refine congrArg (Lexeme.mk .punct) ?_
    rw [← List.cons_append] at hlen ⊢
    rw [operatorLength_begins hc z' (List.cons_ne_nil _ _) ?_ ?_, ← hlen]
    · intro hw
      obtain ⟨rfl, hxy⟩ := List.cons.inj hw
      obtain ⟨rfl, rfl⟩ := List.append_eq_nil_iff.1 hxy
      exact hsign rfl rfl
    · rw [← hlen, List.length_cons, List.length_append]
      omega
  | other hb =>
    obtain ⟨rfl, hlen⟩ := Lexeme.mk.inj hl
    have hoperates := operates_of_kind nameNext (.inr (by rw [h]))
    rw [← List.append_assoc] at hoperates ⊢
    rw [(hoperates.begins hc z').codeLexeme_eq nameNext, if_neg hb, hlen]

theorem lineLength_cons_eq_zero {b : UInt8} {rest : Bytes} : lineLength (b :: rest) = 0 ↔
    (b = byte '\n' ∨ b = byte '\r') ∨ b = byte '?' ∧ rest.head? = some (byte '>') := by
  rw [lineLength]
  split
  · simp [*]
  · split
    · simp [*]
    · simp [*]

theorem htmlLength_cons_eq_zero {b : UInt8} {rest : Bytes} : htmlLength (b :: rest) = 0 ↔
    b = byte '<' ∧ rest.head? = some (byte '?') := by
  rw [htmlLength]
  split
  · simp [*]
  · simp [*]

/-- Whether a sign comes into the text `y ++ z` behind a token so that the token ends as it did. -/
structure Spares (c : UInt8) (t : Token) (y z z' : Bytes) : Prop where
  nonempty : y ++ z ≠ []
  line : t.kind = .comment → lineLength (y ++ z) = 0 → lineLength (y ++ c :: z') = 0
  html : t.kind = .inlineHtml → htmlLength (y ++ z) = 0 → htmlLength (y ++ c :: z') = 0
  /-- Only a blank may come directly behind the letters of a tag. -/
  tag : t.kind = .openTag → y = [] → t.text.length ≠ 5
  sign : y = [] → t.text ≠ [c]

inductive HtmlRule (tail : Bytes) : Token → Prop
  | openTag {x : Bytes} (h : tagLength (x ++ tail) = x.length) :
      HtmlRule tail ⟨.openTag, byte '<' :: byte '?' :: x⟩
  | inlineHtml {b : UInt8} {x : Bytes}
      (hopen : ¬(b = byte '<' ∧ (x ++ tail).head? = some (byte '?')))
      (h : htmlLength (x ++ tail) = x.length) : HtmlRule tail ⟨.inlineHtml, b :: x⟩

theorem yields_iff_htmlRule {s : State} {t : Token} {tail : Bytes} (hcode : s.inCode = false) :
    Yields s t tail ↔ HtmlRule tail t := by
  constructor
  · rintro ⟨b, x, htext, hlex⟩
    obtain ⟨kind, text⟩ := t
    dsimp only at htext hlex
    subst htext
    rw [lexeme, hcode, htmlLexeme, if_neg (by decide)] at hlex
    split at hlex
    · rename_i hopen
      obtain ⟨rfl, hlen⟩ := Lexeme.mk.inj hlex
      obtain ⟨rfl, hnext⟩ := hopen
      cases x with
      | nil =>
        rw [List.length_nil] at hlen
        omega
      | cons a x =>
        obtain rfl : a = byte '?' := Option.some.inj hnext
        rw [List.cons_append, List.drop_succ_cons, List.drop_zero, List.length_cons] at hlen
        exact .openTag (by omega)
    · rename_i hopen
      obtain ⟨rfl, hlen⟩ := Lexeme.mk.inj hlex
      exact .inlineHtml hopen hlen
  · intro h
    cases h with
    | @openTag x h =>
      refine ⟨byte '<', byte '?' :: x, rfl, ?_⟩
      rw [lexeme, hcode, htmlLexeme, if_neg (by decide), if_pos ⟨rfl, rfl⟩, List.cons_append,
        List.drop_succ_cons, List.drop_zero, h, List.length_cons, Nat.add_comm]
    | @inlineHtml b x hopen h =>
      refine ⟨b, x, rfl, ?_⟩
      rw [lexeme, hcode, htmlLexeme, if_neg (by decide), if_neg hopen, h]

/-- A token outside of the code that ends before some text ends there with a sign in that text as
well. -/
theorem HtmlRule.begins (hc : Begins c) {t : Token} {y z z' : Bytes} (hspares : Spares c t y z z')
    (h : HtmlRule (y ++ z) t) : HtmlRule (y ++ c :: z') t := by
  cases h with
  | @openTag x h =>
    refine .openTag ?_
    by_cases hx : x = []
    · subst hx
      exact tagLength_begins hc z' h
    · refine tagLength_append hx (fun hthree => ?_) h
      cases y with
      | nil => exact absurd (congrArg (· + 2) hthree) (hspares.tag rfl rfl)
      | cons a y => rfl
  | @inlineHtml b x hopen h =>
    obtain ⟨hends, hall⟩ := htmlLength_append h
    have hends' := hspares.html rfl hends
    refine .inlineHtml ?_ (hall _ hends')
    rintro ⟨hb, hnext⟩
    cases x with
    | cons a x => exact hopen ⟨hb, hnext⟩
    | nil =>
      obtain ⟨r, hr⟩ := List.head?_eq_some_iff.1 hnext
      rw [List.nil_append] at hr
      rw [hr] at hends'
      exact absurd (htmlLength_cons_eq_zero.1 hends').1 (by decide)

theorem Yields.begins (hc : Begins c) {s : State} {t : Token} {y z z' : Bytes}
    (hspares : Spares c t y z z') (h : Yields s t (y ++ z)) : Yields s t (y ++ c :: z') := by
  rcases hcode : s.inCode
  · rw [yields_iff_htmlRule hcode] at h ⊢
    exact h.begins hc hspares
  · obtain ⟨b, x, htext, hlex⟩ := h
    refine ⟨b, x, htext, ?_⟩
    rw [lexeme, if_pos hcode] at hlex ⊢
    exact codeLexeme_begins hc z' hspares.nonempty hspares.line
      (fun hy => htext ▸ hspares.sign hy) hlex

/-- The code holds no text outside of it, and the other way round. -/
theorem Yields.inCode {s : State} {t : Token} {tail : Bytes} (h : Yields s t tail) :
    s.inCode = false ↔ t.kind = .inlineHtml ∨ t.kind = .openTag := by
  rcases hcode : s.inCode
  · rw [yields_iff_htmlRule hcode] at h
    cases h <;> simp
  · obtain ⟨b, x, -, hlex⟩ := h
    rw [lexeme, if_pos hcode] at hlex
    have hrule := codeLexeme_rule s.nameNext b (x ++ tail)
    have hkind : (codeLexeme s.nameNext b (x ++ tail)).kind = t.kind := congrArg Lexeme.kind hlex
    rw [← hkind]
    generalize codeLexeme s.nameNext b (x ++ tail) = l at hrule
    cases hrule with
    | word =>
      rcases classify_cases s.nameNext (b :: (x ++ tail).take (Word.nameLength (x ++ tail)))
        with hk | hk | hk <;> simp [word, hk]
    | blockComment =>
      simp only [blockComment]
      split <;> simp
    | _ => simp [operator, number]

/-- What is read behind a token begins with all that the token's end is told by. -/
theorem Spares.of_yields {s : State} {t r : Token} {y z : Bytes} (c : UInt8) (z' : Bytes)
    (h : Yields s t (r.text ++ y ++ z)) (hr : Yields (s.after t) r (y ++ z)) :
    Spares c t (r.text ++ y) z z' := by
  obtain ⟨b, x, htext, hlex⟩ := hr
  have hhead : x ≠ [] → (x ++ y ++ c :: z').head? = (x ++ y ++ z).head? := by
    intro hx
    cases x with
    | nil => exact absurd rfl hx
    | cons a x => rfl
  have hpos : 0 < (lexeme (s.after t) b (x ++ (y ++ z))).extra → x ≠ [] := by
    rw [hlex]
    exact List.length_pos_iff.1
  rw [htext, List.cons_append] at h ⊢
  refine ⟨List.cons_ne_nil _ _, fun hkind hzero => ?_, fun hkind hzero => ?_,
    fun _ hy => absurd hy (List.cons_ne_nil _ _), fun hy => absurd hy (List.cons_ne_nil _ _)⟩
  · have hcode : (s.after t).inCode = true := by
      have hs := (not_congr h.inCode).2 (by simp [hkind])
      rw [Bool.not_eq_false] at hs
      simp [State.after, hkind, hs]
    rw [List.cons_append, lineLength_cons_eq_zero] at hzero ⊢
    refine hzero.imp_right fun hclose => ⟨hclose.1, ?_⟩
    rw [hhead (hpos ?_), hclose.2]
    rw [List.append_assoc] at hclose
    rw [lexeme, if_pos hcode, codeLexeme_closeTag _ hclose.1 hclose.2]
    exact Nat.one_pos
  · have hcode : (s.after t).inCode = false := by
      have hs := h.inCode.2 (.inl hkind)
      simp [State.after, hkind, hs]
    rw [List.cons_append, htmlLength_cons_eq_zero] at hzero ⊢
    refine ⟨hzero.1, ?_⟩
    rw [hhead (hpos ?_), hzero.2]
    rw [List.append_assoc] at hzero
    rw [lexeme, hcode, htmlLexeme, if_pos hzero]
    exact Nat.add_pos_left Nat.one_pos _

end

end Lexer

end ExplicitNull
