import ExplicitNull.Proofs.PiecePlaces
import ExplicitNull.Proofs.Rereads

/-!
Text that is no code. A fix puts its pieces between tokens, and what is no code reads as before: the
strings, heredocs and comments of a fixed source are those of the source. The text outside of the
code is not quite as safe. A type is looked for by what tokens spell, so a text between two tags
that spells a name is taken for one where a parameter has it in front of its variable, and the mark
is put before it, which is outside of the code.
-/
namespace ExplicitNull

/-- Whether a token is no code: text outside of it, a string, a heredoc, a number or a comment. -/
def Token.isInert (t : Token) : Bool :=
  t.kind == .inlineHtml || t.kind == .literal || t.kind == .comment || t.kind == .docComment

def inert (ts : List Token) : List Token := ts.filter Token.isInert

theorem inert_cons (t : Token) (ts : List Token) :
    inert (t :: ts) = (if t.isInert then [t] else []) ++ inert ts := by
  rw [inert, List.filter_cons]
  split <;> rfl

namespace Style

def sign : Style → UInt8
  | .mark => byte '?'
  | .union => byte '|'

theorem begins_sign : ∀ style : Style, Begins style.sign
  | .mark => .inl rfl
  | .union => .inr rfl

theorem exists_piece : ∀ style : Style, ∃ more, style.piece = style.sign :: more
  | .mark => ⟨_, rfl⟩
  | .union => ⟨_, rfl⟩

end Style

namespace Lexer

section

variable {s s' : State}

/-- Whether a plain name is called for makes a difference to the kind of a word alone. -/
theorem codeLexeme_nameNext (m n : Bool) (b : UInt8) (rest : Bytes) :
    codeLexeme m b rest = codeLexeme n b rest ∨
      ∃ extra text, codeLexeme m b rest = ⟨Word.classify m text, extra⟩ ∧
        codeLexeme n b rest = ⟨Word.classify n text, extra⟩ := by
  by_cases hword : Word.startsIdentifier b ∨ b = byte '\\' ∧ rest.head?.any Word.startsIdentifier
  · exact .inr ⟨_, _, codeLexeme_word m hword, codeLexeme_word n hword⟩
  · refine .inl ?_
    simp only [codeLexeme, if_neg hword]

theorem isInert_of_classify {declared : Bool} {text spelt : Bytes} :
    Token.isInert ⟨Word.classify declared spelt, text⟩ = false := by
  rcases classify_cases declared spelt with hk | hk | hk <;> rw [hk] <;> rfl

theorem after_inCode_of_classify {declared : Bool} {text spelt : Bytes} :
    (s.after ⟨Word.classify declared spelt, text⟩).inCode = s.inCode := by
  rcases classify_cases declared spelt with hk | hk | hk <;> rw [State.after, hk] <;>
    cases s.inCode <;> rfl

/-- What is no code is read alike whether or not a plain name is called for. -/
theorem inert_tokensFrom_congr (h : s.inCode = s'.inCode) (bs : Bytes) :
    inert (tokensFrom s bs) = inert (tokensFrom s' bs) := by
  fun_induction tokensFrom s bs generalizing s' with
  | case1 => rw [tokensFrom]
  | case2 s b rest l t =>
    rename_i ih
    have hword : l = lexeme s' b rest ∨
        ∃ extra text, l = ⟨Word.classify s.nameNext text, extra⟩ ∧
          lexeme s' b rest = ⟨Word.classify s'.nameNext text, extra⟩ := by
      simp only [l, lexeme, h]
      cases s'.inCode with
      | false => exact .inl rfl
      | true => exact codeLexeme_nameNext _ _ b rest
    rw [tokensFrom, inert_cons, inert_cons]
    rcases hword with hsame | ⟨extra, text, hl, hl'⟩
    · have hafter : (s.after t).inCode = (s'.after t).inCode := by simp only [State.after, h]
      rw [← hsame, ih hafter]
    · have hafter : (s.after t).inCode =
          (s'.after ⟨Word.classify s'.nameNext text, b :: rest.take extra⟩).inCode := by
        simp only [t, hl, after_inCode_of_classify, h]
      have hinert : t.isInert = false := by
        simp only [t, hl]
        exact isInert_of_classify
      rw [ih hafter, hinert, hl', hl]
      dsimp only
      rw [isInert_of_classify]
      rfl

theorem inert_tokensFrom_of_yields {t : Token} {tail : Bytes} (h : Yields s t tail) :
    inert (tokensFrom s (t.text ++ tail)) =
      (if t.isInert then [t] else []) ++ inert (tokensFrom (s.after t) tail) := by
  rw [tokensFrom_of_yields h, inert_cons]

end

section

open ExplicitNull.Fix

variable {s : State} {style : Style} {t r : Token}

theorem ne_of_begins_name {b c : UInt8} (hb : Word.startsIdentifier b ∨ b = byte '\\')
    (hc : Word.startsIdentifier c = false) (hslash : c ≠ byte '\\') : b ≠ c := by
  rcases hb with hb | rfl
  · exact Word.ne_of_startsIdentifier hb hc
  · exact Ne.symm hslash

/-- What a mark goes before begins like a name. -/
theorem first_of_takes_mark {before : Option Token} {tail : Bytes} (h : Takes .mark before r)
    (hr : Yields s r tail) :
    ∃ b x, r.text = b :: x ∧ (Word.startsIdentifier b ∨ b = byte '\\') := by
  obtain ⟨hstarts, hmark, -⟩ := h
  by_cases hkind : r.kind = .name
  · obtain ⟨inCode, nameNext⟩ := s
    have hcode : inCode ≠ false := fun hcode => by
      have := hr.inCode.1 hcode
      simp [hkind] at this
    obtain rfl : inCode = true := Bool.eq_true_of_not_eq_false hcode
    have hplain : r.isPlain := by simp [Token.isPlain, hkind]
    exact head_of_name (plainRule_of_yields hplain hr) hkind
  · have hword : Candidate.isPlainWord r.text := by
      simp only [Candidate.startsType, Bool.and_eq_true, Bool.or_eq_true, beq_iff_eq] at hstarts
      exact (hstarts.2.resolve_left fun h => h.elim hkind hmark)
    cases htext : r.text with
    | nil =>
      rw [htext] at hword
      cases hword
    | cons b x =>
      rw [htext] at hword
      simp only [Candidate.isPlainWord, Bool.and_eq_true, Bool.or_eq_true, beq_iff_eq] at hword
      refine ⟨b, x, rfl, ?_⟩
      rcases hword.1 with (hb | hb) | hb
      · exact .inl (by simp [Word.startsIdentifier, hb])
      · exact .inl (by simp [Word.startsIdentifier, hb])
      · exact .inr hb

/-- What a union part goes before is code. -/
theorem inCode_of_takes_union {before : Option Token} {tail : Bytes} (h : Takes .union before r)
    (hr : Yields s r tail) : s.inCode = true := by
  rw [← Bool.not_eq_false, hr.inCode]
  have hkind := h.1
  simp only [Token.followsType, Token.isTrivia, Token.isPunct, Bool.or_eq_true, Bool.and_eq_true,
    beq_iff_eq] at hkind
  rintro (h | h) <;> simp [h] at hkind

theorem htmlLength_of_yields {tail : Bytes} (h : Yields s t tail) (hkind : t.kind = .inlineHtml) :
    htmlLength tail = 0 := by
  rw [yields_iff_htmlRule (h.inCode.2 (.inl hkind))] at h
  cases h with
  | openTag => cases hkind
  | inlineHtml _ h => exact (htmlLength_append h).1

theorem exists_of_openTag {tail : Bytes} (h : Yields s t tail) (hkind : t.kind = .openTag) :
    ∃ x, t.text = byte '<' :: byte '?' :: x ∧ tagLength (x ++ tail) = x.length := by
  rw [yields_iff_htmlRule (h.inCode.2 (.inr hkind))] at h
  cases h with
  | openTag h => exact ⟨_, rfl, h⟩
  | inlineHtml => cases hkind

/-- The letters of a tag have a blank behind them. -/
theorem exists_tag_of_yields {tail : Bytes} (h : Yields s t tail) (hkind : t.kind = .openTag)
    (hlen : t.text.length = 5) :
    ∃ p, t.text = byte '<' :: byte '?' :: p ∧ Bytes.eqIgnoringCase p (utf8 "php") ∧
      tail.head?.all Word.isSpace := by
  obtain ⟨p, htext, htag⟩ := exists_of_openTag h hkind
  have hthree : p.length = 3 := by
    rw [htext, List.length_cons, List.length_cons] at hlen
    omega
  have hle : 3 ≤ p.length := Nat.le_of_eq hthree.symm
  rw [tagLength, List.take_append_of_le_length hle, List.drop_append_of_le_length hle,
    List.take_of_length_le (Nat.le_of_eq hthree), List.drop_eq_nil_of_le (Nat.le_of_eq hthree),
    List.nil_append] at htag
  by_cases hword : Bytes.eqIgnoringCase p (utf8 "php") ∧ tail.head?.all Word.isSpace
  · exact ⟨p, htext, hword⟩
  · rw [if_neg hword] at htag
    split at htag <;> omega

/-- A sign by itself is an operator of the code. -/
theorem kind_of_begins {c : UInt8} {tail : Bytes} (hc : Begins c) (h : Yields s t tail)
    (htext : t.text = [c]) (hkind : t.kind ≠ .inlineHtml) : t.kind = .punct := by
  obtain ⟨b, x, htext', hlex⟩ := h
  rw [htext] at htext'
  obtain ⟨rfl, rfl⟩ := List.cons.inj htext'
  rw [lexeme, List.nil_append, List.length_nil] at hlex
  split at hlex
  · rcases hc with rfl | rfl
    · by_cases hclose : tail.head? = some (byte '>')
      · rw [codeLexeme_closeTag _ rfl hclose] at hlex
        cases (Lexeme.mk.inj hlex).2
      · rw [codeLexeme_mark _ hclose] at hlex
        exact (Lexeme.mk.inj hlex).1.symm
    · rw [codeLexeme_operator _ (by decide)] at hlex
      exact (Lexeme.mk.inj hlex).1.symm
  · have hopen : c ≠ byte '<' := by rcases hc with rfl | rfl <;> decide
    rw [htmlLexeme, if_neg fun h => hopen h.1] at hlex
    exact absurd (Lexeme.mk.inj hlex).1.symm hkind

/-- A token ends in front of the piece that goes behind it as it ended in front of what followed,
except for the tag that may come before a union part. -/
theorem spares_of_takes {tail : Bytes} (z' : Bytes) (htakes : Takes style (some t) r)
    (h : Yields s t (r.text ++ tail)) (hr : Yields (s.after t) r tail)
    (htag : style = .union → t.kind = .openTag → t.text.length ≠ 5) :
    Spares style.sign t [] (r.text ++ tail) z' := by
  have hsign : t.kind ≠ .inlineHtml → t.text = [style.sign] → t.kind = .punct :=
    fun hkind htext => kind_of_begins style.begins_sign h htext hkind
  cases style with
  | mark =>
    obtain ⟨b, x, htext, hb⟩ := first_of_takes_mark htakes hr
    have hne : ∀ c, Word.startsIdentifier c = false → c ≠ byte '\\' → b ≠ c :=
      fun c hc hslash => ne_of_begins_name hb hc hslash
    rw [htext, List.cons_append] at h ⊢
    have hhtml : t.kind ≠ .inlineHtml := fun hkind =>
      hne (byte '<') (by decide) (by decide)
        (htmlLength_cons_eq_zero.1 (htmlLength_of_yields h hkind)).1
    refine ⟨by simp, fun _ hzero => ?_, fun hkind => absurd hkind hhtml, fun hkind _ hlen => ?_,
      fun _ hmark => ?_⟩
    · rcases lineLength_cons_eq_zero.1 hzero with (hb | hb) | hb
      · exact absurd hb (hne _ (by decide) (by decide))
      · exact absurd hb (hne _ (by decide) (by decide))
      · exact absurd hb.1 (hne _ (by decide) (by decide))
    · obtain ⟨-, -, -, hspace⟩ := exists_tag_of_yields h hkind hlen
      have hspace : Word.isSpace b := hspace
      rcases hb with hb | rfl
      · have := Word.not_continuesIdentifier_of_isSpace hspace
        simp [Word.continuesIdentifier_of_startsIdentifier hb] at this
      · exact absurd hspace (by decide)
    · exact htakes.2.2 t rfl (Token.isPunct_iff.2 ⟨hsign hhtml hmark, hmark⟩)
  | union =>
    have hcode := inCode_of_takes_union htakes hr
    obtain ⟨-, u, hu, hweight, hbar⟩ := htakes
    obtain rfl := Option.some.inj hu
    have hhtml : t.kind ≠ .inlineHtml := fun hkind => by
      simp [State.after, hkind, h.inCode.2 (.inl hkind)] at hcode
    refine ⟨?_, fun hkind => ?_, fun hkind => absurd hkind hhtml, fun hkind _ => htag rfl hkind,
      fun _ htext => ?_⟩
    · obtain ⟨b, x, htext⟩ := hr.exists_text
      simp [htext]
    · simp [Token.isTrivia, hkind] at hweight
    · exact hbar (Token.isPunct_iff.2 ⟨hsign hhtml htext, htext⟩)

variable {points : List Nat}

/-- A text with pieces is the text itself up to the first of them. -/
theorem insertFrom_cases (style : Style) (points : List Nat) (i : Nat) (ts : List Token) :
    insertFrom style.piece points i ts = Token.source ts ∨
      ∃ y z z', Token.source ts = y ++ z ∧
        insertFrom style.piece points i ts = y ++ style.sign :: z' := by
  induction ts generalizing i with
  | nil => exact .inl rfl
  | cons t rest ih =>
    rw [insertFrom, Token.source_cons]
    by_cases hi : i ∈ points
    · obtain ⟨more, hpiece⟩ := style.exists_piece
      refine .inr ⟨[], _, more ++ (t.text ++ insertFrom style.piece points (i + 1) rest), rfl, ?_⟩
      rw [if_pos hi, hpiece]
      simp
    · rw [if_neg hi, List.nil_append]
      rcases ih (i + 1) with heq | ⟨y, z, z', hts, hins⟩
      · exact .inl (by rw [heq])
      · exact .inr ⟨t.text ++ y, z, z', by rw [hts, List.append_assoc],
          by rw [hins, List.append_assoc]⟩

/-- A token ends in front of a text with pieces as it ended in front of the text, except for the tag
that may come before a union part. -/
theorem yields_insertFrom {i : Nat} {rest : List Token} (h : Yields s t (Token.source rest))
    (hreads : Reads (s.after t) rest) (htakes : TakesAll style points (some t) i rest)
    (htag : i ∈ points → style = .union → t.kind = .openTag → t.text.length ≠ 5) :
    Yields s t (insertFrom style.piece points i rest) := by
  cases rest with
  | nil => exact h
  | cons r rest =>
    obtain ⟨hr, -⟩ := reads_cons.1 hreads
    rw [Token.source_cons] at h
    rw [insertFrom]
    by_cases hi : i ∈ points
    · obtain ⟨more, hpiece⟩ := style.exists_piece
      rw [if_pos hi, hpiece]
      exact Yields.begins (y := []) style.begins_sign
        (spares_of_takes _ (htakes.1 hi) h hr (htag hi)) h
    · rw [if_neg hi, List.nil_append]
      rcases insertFrom_cases style points (i + 1) rest with heq | ⟨y, z, z', hts, hins⟩
      · rwa [heq]
      · rw [hts] at h hr
        rw [hins]
        rw [← List.append_assoc] at h ⊢
        exact h.begins style.begins_sign (Spares.of_yields _ z' h hr)

theorem nameLength_of_continues {x tail : Bytes} (hx : ∀ b ∈ x, Word.continuesIdentifier b)
    (htail : Word.nameLength tail = 0) : Word.nameLength (x ++ tail) = x.length := by
  induction x with
  | nil => exact htail
  | cons b x ih =>
    rw [List.cons_append, Word.nameLength, if_pos (hx b (List.mem_cons_self ..)),
      ih fun d hd => hx d (List.mem_cons_of_mem _ hd), List.length_cons, Nat.add_comm]

theorem startsIdentifier_of_toLower {a : UInt8} (h : Ascii.toLower a ∈ utf8 "php") :
    Word.startsIdentifier a := by
  have hletters : (utf8 "php").all Ascii.isAlpha := by decide
  rw [Word.startsIdentifier, Bool.or_eq_true, Bool.or_eq_true, Ascii.isAlpha]
  rw [Ascii.toLower] at h
  split at h
  · rename_i hupper
    exact .inl (.inl (by simp [hupper]))
  · exact .inl (.inl (List.all_eq_true.1 hletters a h))

/-- A sign takes the place of the blank behind the letters of a tag, which are then a word of the
code. -/
theorem inert_tokensFrom_tag {c : UInt8} (hc : Begins c) {tail : Bytes} (h : Yields s t tail)
    (hkind : t.kind = .openTag) (hlen : t.text.length = 5) (z : Bytes) :
    inert (tokensFrom s (t.text ++ c :: z)) = inert (tokensFrom (s.after t) (c :: z)) := by
  have hcode := h.inCode.2 (.inr hkind)
  obtain ⟨p, htext, hword, -⟩ := exists_tag_of_yields h hkind hlen
  have hletters : ∀ a ∈ p, Word.startsIdentifier a := fun a ha => by
    have hphp : Bytes.toLower (utf8 "php") = utf8 "php" := by decide
    refine startsIdentifier_of_toLower ?_
    rw [← hphp, ← eq_of_beq hword]
    exact List.mem_map.2 ⟨a, ha, rfl⟩
  have hplen : p.length = 3 := by
    rw [htext, List.length_cons, List.length_cons] at hlen
    omega
  obtain ⟨a, x, rfl⟩ := List.exists_cons_of_length_pos (by omega : 0 < p.length)
  have htag : Yields s ⟨.openTag, utf8 "<?"⟩ (a :: x ++ c :: z) := by
    refine (yields_iff_htmlRule hcode).2 (HtmlRule.openTag (x := []) ?_)
    have hequals : a ≠ byte '=' :=
      Word.ne_of_startsIdentifier (hletters a (List.mem_cons_self ..)) (by decide)
    have hdrop : (a :: x).drop 3 = [] := List.drop_eq_nil_of_le (by omega)
    rw [List.nil_append, tagLength, List.drop_append_of_le_length (by omega), hdrop, if_neg, if_neg]
    · rfl
    · exact fun h => hequals (Option.some.inj h)
    · rintro ⟨-, hspace⟩
      have hspace : Word.isSpace c = true := hspace
      simp [hc.not_space] at hspace
  have hname : Word.nameLength (x ++ c :: z) = x.length :=
    nameLength_of_continues (fun b hb => Word.continuesIdentifier_of_startsIdentifier
      (hletters b (List.mem_cons_of_mem _ hb))) (nameLength_begins (y := []) hc (z := []) z rfl)
  have hphp : Yields ⟨true, false⟩ ⟨Word.classify false (a :: x), a :: x⟩ (c :: z) := by
    refine ⟨a, x, rfl, (codeLexeme_word _ (.inl (hletters a (List.mem_cons_self ..)))).trans ?_⟩
    rw [word, hname, List.take_left]
  calc inert (tokensFrom s (t.text ++ c :: z))
      = inert (tokensFrom s (utf8 "<?" ++ (a :: x ++ c :: z))) := by
        rw [htext]
        rfl
    _ = inert (tokensFrom ⟨true, false⟩ (a :: x ++ c :: z)) := inert_tokensFrom_of_yields htag
    _ = inert (tokensFrom (State.after ⟨true, false⟩ ⟨Word.classify false (a :: x), a :: x⟩)
          (c :: z)) := by
        have hstep := inert_tokensFrom_of_yields hphp
        rwa [isInert_of_classify] at hstep
    _ = inert (tokensFrom (s.after t) (c :: z)) := by
        refine inert_tokensFrom_congr ?_ _
        rw [after_inCode_of_classify]
        simp [State.after, hkind]

/-- In front of a text with pieces a token is read, or what has its place among what is no code. -/
theorem inert_tokensFrom_step {i : Nat} {rest : List Token} (h : Yields s t (Token.source rest))
    (hreads : Reads (s.after t) rest) (htakes : TakesAll style points (some t) i rest) :
    inert (tokensFrom s (t.text ++ insertFrom style.piece points i rest)) =
      (if t.isInert then [t] else []) ++
        inert (tokensFrom (s.after t) (insertFrom style.piece points i rest)) := by
  by_cases htag : i ∈ points → style = .union → t.kind = .openTag → t.text.length ≠ 5
  · exact inert_tokensFrom_of_yields (yields_insertFrom h hreads htakes htag)
  cases rest with
  | nil => exact inert_tokensFrom_of_yields h
  | cons r rest =>
    obtain ⟨hi, hstyle, hkind, hlen⟩ : i ∈ points ∧ style = .union ∧ t.kind = .openTag ∧
        t.text.length = 5 := by simpa only [Classical.not_imp, not_not] using htag
    obtain ⟨more, hpiece⟩ := style.exists_piece
    rw [insertFrom, if_pos hi, hpiece]
    have hinert : t.isInert = false := by simp [Token.isInert, hkind]
    rw [hinert]
    exact inert_tokensFrom_tag style.begins_sign h hkind hlen _

/-- What a piece is to a token that it goes before, among what is no code: a part of it, where it is
outside of the code. -/
theorem inert_tokensFrom_piece {before : Option Token} {tail tail' : Bytes}
    (htakes : Takes style before r) (hr : Yields s r tail)
    (hr' : r.kind = .inlineHtml → Yields s r tail') :
    inert (tokensFrom s (style.piece ++ (r.text ++ tail'))) =
      if r.kind = .inlineHtml then
        ⟨r.kind, style.piece ++ r.text⟩ :: inert (tokensFrom (s.after r) tail')
      else inert (tokensFrom s (r.text ++ tail')) := by
  cases style with
  | mark =>
    obtain ⟨b, x, htext, hb⟩ := first_of_takes_mark htakes hr
    have hopen : b ≠ byte '<' := ne_of_begins_name hb (by decide) (by decide)
    by_cases hkind : r.kind = .inlineHtml
    · rw [if_pos hkind]
      have hcode := hr.inCode.2 (.inl hkind)
      have hmark : Yields s ⟨r.kind, utf8 "?" ++ r.text⟩ tail' := by
        have hrule := (yields_iff_htmlRule hcode).1 (hr' hkind)
        rw [yields_iff_htmlRule hcode]
        cases hrule with
        | openTag => cases hkind
        | @inlineHtml d y hnot h =>
          refine .inlineHtml (x := d :: y) (fun h => absurd h.1 (by decide)) ?_
          rw [List.cons_append, htmlLength, if_neg hnot, h, List.length_cons, Nat.add_comm]
      have hstep := inert_tokensFrom_of_yields hmark
      rw [List.append_assoc] at hstep
      have hinert : Token.isInert ⟨r.kind, utf8 "?" ++ r.text⟩ = true := by
        simp [Token.isInert, hkind]
      refine (hstep.trans ?_)
      rw [hinert]
      exact congrArg _ (inert_tokensFrom_congr (by simp only [State.after]) _)
    · rw [if_neg hkind]
      obtain ⟨inCode, nameNext⟩ := s
      have hcode : inCode ≠ false := fun hcode => by
        rcases hr.inCode.1 hcode with h | h
        · exact hkind h
        · obtain ⟨y, hy, -⟩ := exists_of_openTag hr h
          exact hopen (List.cons.inj (htext.symm.trans hy)).1
      obtain rfl : inCode = true := Bool.eq_true_of_not_eq_false hcode
      have hmark := yields_mark_of_first hb nameNext (x ++ tail')
      rw [← List.cons_append, ← htext] at hmark
      exact (inert_tokensFrom_of_yields hmark).trans (inert_tokensFrom_congr (by rfl) _)
  | union =>
    have hcode := inCode_of_takes_union htakes hr
    obtain ⟨inCode, nameNext⟩ := s
    obtain rfl : inCode = true := hcode
    have hkind : r.kind ≠ .inlineHtml := fun hkind => by
      have := hr.inCode.2 (.inl hkind)
      cases this
    have hzero : Word.nameLength (r.text ++ tail') = 0 := by
      rcases htakes.1 with hfollows | hvar
      · have hplain : r.isPlain := by simp [Token.isPlain, hfollows]
        exact nameLength_of_followsType (plainRule_of_yields hplain hr) hfollows tail'
      · exact nameLength_of_variableName hr hvar tail'
    have hsign : byte '|' ∈ [byte '(', byte ',', byte '&', byte '|'] := by decide
    have hbar : Yields ⟨true, nameNext⟩ ⟨.punct, utf8 "|"⟩ (utf8 "null" ++ (r.text ++ tail')) :=
      ⟨byte '|', [], rfl, codeLexeme_operator nameNext hsign⟩
    rw [if_neg hkind]
    calc inert (tokensFrom ⟨true, nameNext⟩ (utf8 "|null" ++ (r.text ++ tail')))
        = inert (tokensFrom ⟨true, false⟩ (utf8 "null" ++ (r.text ++ tail'))) :=
          inert_tokensFrom_of_yields hbar
      _ = inert (tokensFrom ⟨true, false⟩ (r.text ++ tail')) :=
          inert_tokensFrom_of_yields (yields_null hzero)
      _ = inert (tokensFrom ⟨true, nameNext⟩ (r.text ++ tail')) :=
          inert_tokensFrom_congr (by rfl) _

end

end Lexer

namespace Fix

/-- Tokens that start at position `i`, where those outside of the code that stand at given positions
begin with a piece. -/
def touch (piece : Bytes) (points : List Nat) (i : Nat) : List Token → List Token
  | [] => []
  | t :: rest =>
    (if t.kind = .inlineHtml ∧ i ∈ points then ⟨t.kind, piece ++ t.text⟩ else t) ::
      touch piece points (i + 1) rest

variable {style : Style} {points : List Nat} {i : Nat} {ts : List Token}

/-- What is no code in a text with pieces is what it was, but that the text outside of the code
takes in the pieces that go before it. -/
theorem inert_tokensFrom_insertFrom {s : Lexer.State} {before : Option Token}
    (hreads : Lexer.Reads s ts) (htakes : TakesAll style points before i ts) :
    inert (Lexer.tokensFrom s (insertFrom style.piece points i ts)) =
      inert (touch style.piece points i ts) := by
  induction ts generalizing i s before with
  | nil => rw [insertFrom, Lexer.tokensFrom, touch]
  | cons t rest ih =>
    obtain ⟨hyields, hrest⟩ := Lexer.reads_cons.1 hreads
    obtain ⟨hhere, hlater⟩ := htakes
    have hstep := Lexer.inert_tokensFrom_step hyields hrest hlater
    rw [ih hrest hlater] at hstep
    rw [insertFrom, touch, inert_cons]
    by_cases hi : i ∈ points
    · have hpiece := Lexer.inert_tokensFrom_piece (hhere hi) hyields fun hkind =>
        Lexer.yields_insertFrom hyields hrest hlater fun _ _ htag => by simp [hkind] at htag
      rw [if_pos hi, List.append_assoc, hpiece]
      by_cases hkind : t.kind = .inlineHtml
      · have hinert : Token.isInert ⟨.inlineHtml, style.piece ++ t.text⟩ = true := rfl
        simp only [hkind, hi, and_self, if_true, hinert, ih hrest hlater]
        rfl
      · simp only [hkind, false_and, if_false, hstep]
    · simp only [hi, and_false, if_false, List.nil_append, hstep]

/-- What is no code is touched outside of the code alone. -/
theorem filter_touch (piece : Bytes) (points : List Nat) (i : Nat) (ts : List Token) :
    (inert (touch piece points i ts)).filter (·.kind != .inlineHtml) =
      (inert ts).filter (·.kind != .inlineHtml) := by
  induction ts generalizing i with
  | nil => rfl
  | cons t rest ih =>
    rw [touch, inert_cons, inert_cons, List.filter_append, List.filter_append, ih]
    split
    · rename_i h
      simp [Token.isInert, h.1]
    · rfl

/-- The texts are what they were if no piece goes before any that is outside of the code. -/
theorem map_text_touch {piece : Bytes} (hpiece : piece ≠ []) :
    (inert (touch piece points i ts)).map Token.text = (inert ts).map Token.text ↔
      ∀ k t, ts[k]? = some t → t.kind = .inlineHtml → i + k ∉ points := by
  induction ts generalizing i with
  | nil => simp [touch]
  | cons t rest ih =>
    have hshift : (∀ k u, (t :: rest)[k]? = some u → u.kind = .inlineHtml → i + k ∉ points) ↔
        (t.kind = .inlineHtml → i ∉ points) ∧
          ∀ k u, rest[k]? = some u → u.kind = .inlineHtml → i + 1 + k ∉ points := by
      constructor
      · refine fun h => ⟨h 0 t rfl, fun k u hu => ?_⟩
        rw [Nat.add_assoc, Nat.add_comm 1]
        exact h (k + 1) u hu
      · rintro ⟨hfirst, hrest⟩ (_ | k) u hu
        · rw [← Option.some.inj hu]
          exact hfirst
        · rw [← Nat.add_assoc, Nat.add_right_comm]
          exact hrest k u hu
    rw [hshift, touch, inert_cons, inert_cons, List.map_append, List.map_append, ← ih]
    by_cases h : t.kind = .inlineHtml ∧ i ∈ points
    · have hne : piece ++ t.text ≠ t.text := fun heq => hpiece (List.append_left_eq_self.1 heq)
      simp [h, Token.isInert, hne]
    · rw [if_neg h, List.append_cancel_left_eq]
      simp only [not_and] at h
      exact (and_iff_right h).symm

end Fix

open ExplicitNull.Fix

theorem inert_fixSource (src : Bytes) (plan : FilePlan) (style : Style) :
    inert (tokenize (fixSource src plan style)) =
      inert (touch style.piece (insertionPoints style plan (tokenize src)) 0 (tokenize src)) :=
  inert_tokensFrom_insertFrom (reads_tokenize src) (takesAll_insertionPoints style plan _)

/-- A fix leaves every string, heredoc and comment of a source as it is, and with them the text
outside of the code, unless a mark goes before a type that begins there. -/
theorem inertTexts_fixSource_iff (src : Bytes) (plan : FilePlan) (style : Style) :
    (inert (tokenize (fixSource src plan style))).filter (·.kind != .inlineHtml) =
        (inert (tokenize src)).filter (·.kind != .inlineHtml) ∧
      ((inert (tokenize (fixSource src plan style))).map Token.text =
          (inert (tokenize src)).map Token.text ↔
        style = .union ∨ ∀ c ∈ planned plan (tokenize src), ∀ t,
          (tokenize src)[c.typeIndex]? = some t → t.kind ≠ .inlineHtml) := by
  have hpiece : style.piece ≠ [] := by cases style <;> decide
  rw [inert_fixSource, filter_touch, map_text_touch hpiece]
  refine ⟨rfl, ?_⟩
  cases style with
  | mark =>
    have hpoints : ∀ p, p ∈ insertionPoints .mark plan (tokenize src) ↔
        ∃ c ∈ planned plan (tokenize src), c.typeIndex = p := by
      simp [insertionPoints, insertionPoint]
    simp only [reduceCtorEq, false_or, Nat.zero_add, hpoints]
    constructor
    · exact fun h c hc t ht hkind => h _ t ht hkind ⟨c, hc, rfl⟩
    · rintro h k t ht hkind ⟨c, hc, rfl⟩
      exact h c hc t ht hkind
  | union =>
    refine iff_of_true (fun k t ht hkind hmem => ?_) (.inl rfl)
    rw [Nat.zero_add] at hmem
    obtain ⟨c, hc, hcp⟩ := List.mem_filterMap.1 hmem
    obtain ⟨done, u, rest, hts, rfl, htakes⟩ :=
      takesAt_of_insertionPoint (List.mem_filter.1 hc).1 hcp
    rw [hts, List.getElem?_append_right (Nat.le_refl _), Nat.sub_self] at ht
    obtain rfl : u = t := Option.some.inj ht
    rcases htakes.1 with hfollows | hvar
    · simp [Token.followsType, Token.isTrivia, Token.isPunct, hkind] at hfollows
    · cases hkind.symm.trans hvar

/-- The tokens of `<?php function f(?>Foo<?php $a = null);`. -/
def outsideSample : List Token :=
  [⟨.openTag, utf8 "<?php"⟩, ⟨.whitespace, utf8 " "⟩, ⟨.keyword, utf8 "function"⟩,
    ⟨.whitespace, utf8 " "⟩, ⟨.name, utf8 "f"⟩, ⟨.punct, utf8 "("⟩, ⟨.closeTag, utf8 "?>"⟩,
    ⟨.inlineHtml, utf8 "Foo"⟩, ⟨.openTag, utf8 "<?php"⟩, ⟨.whitespace, utf8 " "⟩,
    ⟨.variableName, utf8 "$a"⟩, ⟨.whitespace, utf8 " "⟩, ⟨.punct, utf8 "="⟩,
    ⟨.whitespace, utf8 " "⟩, ⟨.name, utf8 "null"⟩, ⟨.punct, utf8 ")"⟩, ⟨.punct, utf8 ";"⟩]

/-- The text outside of the code is taken for a type, and the mark becomes a part of it. -/
theorem inertTexts_outsideSample :
    fixSource (Token.source outsideSample) (FilePlan.ofList [(⟨0, 0⟩, 1)]) .mark =
        utf8 "<?php function f(?>?Foo<?php $a = null);" ∧
      (inert (tokenize (Token.source outsideSample))).map Token.text = [utf8 "Foo"] ∧
      (inert (tokenize (fixSource (Token.source outsideSample) (FilePlan.ofList [(⟨0, 0⟩, 1)])
        .mark))).map Token.text = [utf8 "?Foo"] := by
  have hreads : Lexer.Reads ⟨false, false⟩ outsideSample := by decide
  have htokens : tokenize (Token.source outsideSample) = outsideSample := hreads
  rw [inert_fixSource, fixSource, htokens]
  decide

end ExplicitNull
