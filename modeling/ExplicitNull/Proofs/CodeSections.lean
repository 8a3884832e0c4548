import ExplicitNull.Proofs.InertTokens

/-!
How a source goes in and out of the code. Its tokens are sections of text outside of the code, an
opening tag, code and a closing tag, of which the last may end early. The text outside is all that
stands before the next `<?`, and no comment up to the end of a line reaches over a closing tag.
-/
namespace ExplicitNull

def Token.isCode (t : Token) : Bool :=
  t.kind != .inlineHtml && t.kind != .openTag && t.kind != .closeTag

/-- What a token looks like in front of the text behind it, as far as it has to do with the change
between code and other text. -/
structure Token.Delimits (t : Token) (behind : Bytes) : Prop where
  html : t.kind = .inlineHtml →
    ¬utf8 "<?" <:+: t.text ∧ (behind = [] ∨ utf8 "<?" <+: behind)
  openTag : t.kind = .openTag → t.text = utf8 "<?" ∨ t.text = utf8 "<?=" ∨
    ∃ word, t.text = utf8 "<?" ++ word ∧ Bytes.eqIgnoringCase word (utf8 "php") ∧
      behind.head?.all Word.isSpace
  closeTag : t.kind = .closeTag → t.text = utf8 "?>"
  lineComment : t.kind = .comment → utf8 "#" <+: t.text ∨ utf8 "//" <+: t.text →
    byte '\n' ∉ t.text ∧ byte '\r' ∉ t.text ∧ ¬utf8 "?>" <:+: t.text

/-- Text that may stand outside of the code, a tag, the code and the closing tag. -/
structure Section where
  html : Option Token
  tag : Token
  code : List Token
  close : Token

namespace Section

def tokens (s : Section) : List Token := s.html.toList ++ s.tag :: (s.code ++ [s.close])

structure IsProper (s : Section) : Prop where
  html : ∀ t ∈ s.html, t.kind = .inlineHtml
  tag : s.tag.kind = .openTag
  code : ∀ t ∈ s.code, t.isCode
  close : s.close.kind = .closeTag

end Section

/-- The tokens of a section that the source ends in. -/
inductive EndsEarly : List Token → Prop
  | outside {html : Option Token} (hhtml : ∀ t ∈ html, t.kind = .inlineHtml) :
      EndsEarly html.toList
  | inside {html : Option Token} {tag : Token} {code : List Token}
      (hhtml : ∀ t ∈ html, t.kind = .inlineHtml) (htag : tag.kind = .openTag)
      (hcode : ∀ t ∈ code, t.isCode) : EndsEarly (html.toList ++ tag :: code)

/-! ### Two bytes in a text -/

theorem pair_prefix_cons {a c b : UInt8} {x : Bytes} :
    [a, c] <+: b :: x ↔ b = a ∧ x.head? = some c := by
  rw [List.cons_prefix_cons]
  cases x with
  | nil => simp
  | cons d x => simp [List.cons_prefix_cons, eq_comm]

theorem pair_infix_cons {a c b : UInt8} {x : Bytes} :
    [a, c] <:+: b :: x ↔ (b = a ∧ x.head? = some c) ∨ [a, c] <:+: x := by
  rw [List.infix_cons_iff, pair_prefix_cons]

theorem head?_append_some {x : Bytes} {c : UInt8} (h : x.head? = some c) (tail : Bytes) :
    (x ++ tail).head? = some c := by
  rw [List.head?_append, h]
  rfl

namespace Lexer

variable {s : State} {t u : Token} {x tail : Bytes}

theorem not_infix_of_htmlLength (h : htmlLength (x ++ tail) = x.length) : ¬utf8 "<?" <:+: x := by
  have hopen : utf8 "<?" = [byte '<', byte '?'] := by decide
  rw [hopen]
  induction x with
  | nil => simp
  | cons b x ih =>
    rw [List.cons_append, htmlLength, List.length_cons] at h
    split at h
    · omega
    · rename_i hnot
      rw [pair_infix_cons, not_or]
      exact ⟨fun hpair => hnot ⟨hpair.1, head?_append_some hpair.2 tail⟩, ih (by omega)⟩

theorem prefix_of_htmlLength (h : htmlLength tail = 0) : tail = [] ∨ utf8 "<?" <+: tail := by
  have hopen : utf8 "<?" = [byte '<', byte '?'] := by decide
  cases tail with
  | nil => exact .inl rfl
  | cons b tail =>
    rw [hopen, pair_prefix_cons]
    exact .inr (htmlLength_cons_eq_zero.1 h)

theorem line_of_lineLength (h : lineLength (x ++ tail) = x.length) :
    byte '\n' ∉ x ∧ byte '\r' ∉ x ∧ ¬utf8 "?>" <:+: x := by
  have hclose : utf8 "?>" = [byte '?', byte '>'] := by decide
  rw [hclose]
  induction x with
  | nil => simp
  | cons b x ih =>
    rw [List.cons_append, lineLength, List.length_cons] at h
    split at h
    · omega
    · rename_i hends
      split at h
      · omega
      · rename_i hnot
        obtain ⟨hfeed, hreturn, hpair⟩ := ih (by omega)
        obtain ⟨hb, hb'⟩ := not_or.1 hends
        refine ⟨List.not_mem_cons_of_ne_of_not_mem (Ne.symm hb) hfeed,
          List.not_mem_cons_of_ne_of_not_mem (Ne.symm hb') hreturn, ?_⟩
        rw [pair_infix_cons, not_or]
        exact ⟨fun hp => hnot ⟨hp.1, head?_append_some hp.2 tail⟩, hpair⟩

/-! ### Single tokens -/

theorem inCode_of_ne (h : Yields s t tail) (hhtml : t.kind ≠ .inlineHtml)
    (htag : t.kind ≠ .openTag) : s.inCode = true := by
  rw [← Bool.not_eq_false, h.inCode]
  exact not_or.2 ⟨hhtml, htag⟩

/-- A token of the code comes from one of the rules of the code. -/
theorem exists_rule (h : Yields s t tail) (hcode : s.inCode = true) :
    ∃ b x, t.text = b :: x ∧ CodeRule s.nameNext b (x ++ tail) ⟨t.kind, x.length⟩ := by
  obtain ⟨b, x, htext, hlex⟩ := h
  have hrule := codeLexeme_rule s.nameNext b (x ++ tail)
  rw [lexeme, if_pos hcode] at hlex
  exact ⟨b, x, htext, hlex ▸ hrule⟩

theorem delimits_html (h : Yields s t tail) (hkind : t.kind = .inlineHtml) :
    ¬utf8 "<?" <:+: t.text ∧ (tail = [] ∨ utf8 "<?" <+: tail) := by
  have hopen : utf8 "<?" = [byte '<', byte '?'] := by decide
  refine ⟨?_, prefix_of_htmlLength (htmlLength_of_yields h hkind)⟩
  rw [yields_iff_htmlRule (h.inCode.2 (.inl hkind))] at h
  cases h with
  | openTag => cases hkind
  | inlineHtml hnot hlength =>
    dsimp only
    rw [hopen, pair_infix_cons, not_or, ← hopen]
    exact ⟨fun hp => hnot ⟨hp.1, head?_append_some hp.2 tail⟩, not_infix_of_htmlLength hlength⟩

theorem delimits_openTag (h : Yields s t tail) (hkind : t.kind = .openTag) :
    t.text = utf8 "<?" ∨ t.text = utf8 "<?=" ∨
      ∃ word, t.text = utf8 "<?" ++ word ∧ Bytes.eqIgnoringCase word (utf8 "php") ∧
        tail.head?.all Word.isSpace := by
  obtain ⟨x, htext, hlength⟩ := exists_of_openTag h hkind
  by_cases hfive : t.text.length = 5
  · obtain ⟨word, hword, hphp, hspace⟩ := exists_tag_of_yields h hkind hfive
    exact .inr (.inr ⟨word, hword, hphp, hspace⟩)
  have hthree : x.length ≠ 3 := by
    intro hthree
    rw [htext, List.length_cons, List.length_cons] at hfive
    omega
  rw [tagLength] at hlength
  split at hlength
  · omega
  split at hlength
  · rename_i heq
    obtain ⟨c, rfl⟩ := List.length_eq_one_iff.1 hlength.symm
    obtain rfl : c = byte '=' := Option.some.inj heq
    exact .inr (.inl htext)
  · obtain rfl := List.eq_nil_of_length_eq_zero hlength.symm
    exact .inl htext

theorem delimits_closeTag (h : Yields s t tail) (hkind : t.kind = .closeTag) :
    t.text = utf8 "?>" := by
  obtain ⟨b, x, htext, hrule⟩ := exists_rule h (inCode_of_ne h (by simp [hkind]) (by simp [hkind]))
  rw [hkind] at hrule
  generalize hl : (⟨.closeTag, x.length⟩ : Lexeme) = l at hrule
  cases hrule with
  | closeTag hb hnext =>
    obtain ⟨c, rfl⟩ := List.length_eq_one_iff.1 (Lexeme.mk.inj hl).2
    obtain rfl : c = byte '>' := Option.some.inj hnext
    rw [htext, hb]
    rfl
  | word =>
    have hk := (Lexeme.mk.inj hl).1
    rcases classify_cases s.nameNext (b :: (x ++ tail).take (Word.nameLength (x ++ tail)))
      with hc | hc | hc <;> rw [hc] at hk <;> cases hk
  | blockComment =>
    have hk := (Lexeme.mk.inj hl).1
    split at hk <;> cases hk
  | _ => cases (Lexeme.mk.inj hl).1

theorem delimits_lineComment (h : Yields s t tail) (hkind : t.kind = .comment)
    (hbegins : utf8 "#" <+: t.text ∨ utf8 "//" <+: t.text) :
    byte '\n' ∉ t.text ∧ byte '\r' ∉ t.text ∧ ¬utf8 "?>" <:+: t.text := by
  have hclose : utf8 "?>" = [byte '?', byte '>'] := by decide
  have hslashes : utf8 "//" = [byte '/', byte '/'] := by decide
  have hhash : utf8 "#" = [byte '#'] := by decide
  obtain ⟨b, x, htext, hrule⟩ := exists_rule h (inCode_of_ne h (by simp [hkind]) (by simp [hkind]))
  rw [hkind] at hrule
  generalize hl : (⟨.comment, x.length⟩ : Lexeme) = l at hrule
  cases hrule with
  | lineComment hfirst =>
    have hb : b = byte '#' ∨ b = byte '/' := hfirst.imp And.left And.left
    have hne : b ≠ byte '\n' ∧ b ≠ byte '\r' ∧ b ≠ byte '?' := by
      rcases hb with rfl | rfl <;> decide
    obtain ⟨hfeed, hreturn, hpair⟩ := line_of_lineLength (Lexeme.mk.inj hl).2.symm
    rw [htext, hclose, pair_infix_cons, ← hclose]
    refine ⟨List.not_mem_cons_of_ne_of_not_mem hne.1.symm hfeed,
      List.not_mem_cons_of_ne_of_not_mem hne.2.1.symm hreturn, ?_⟩
    exact not_or.2 ⟨fun hp => hne.2.2 hp.1, hpair⟩
  | blockComment hb hnext =>
    -- A comment of this form begins with a slash and an asterisk.
    have hstar : x.head? = some (byte '*') := by
      cases x with
      | nil =>
        have hlen := (Lexeme.mk.inj hl).2
        simp only [List.length_nil] at hlen
        omega
      | cons c x => exact hnext
    rw [htext, hb, hslashes, hhash, pair_prefix_cons, hstar, List.cons_prefix_cons] at hbegins
    rcases hbegins with hbegins | hbegins
    · exact absurd hbegins.1 (by decide)
    · exact absurd hbegins.2 (by decide)
  | word =>
    have hk := (Lexeme.mk.inj hl).1
    rcases classify_cases s.nameNext (b :: (x ++ tail).take (Word.nameLength (x ++ tail)))
      with hc | hc | hc <;> rw [hc] at hk <;> cases hk
  | _ => cases (Lexeme.mk.inj hl).1

theorem Yields.delimits (h : Yields s t tail) : t.Delimits tail where
  html := delimits_html h
  openTag := delimits_openTag h
  closeTag := delimits_closeTag h
  lineComment := delimits_lineComment h

/-! ### Runs of tokens -/

theorem exists_reads_of_append {front back : List Token} (h : Reads s (front ++ back)) :
    ∃ s', Reads s' back := by
  induction front generalizing s with
  | nil => exact ⟨s, h⟩
  | cons t front ih => exact ih (reads_cons.1 h).2

/-- Behind text outside of the code, and only there, the next token is a tag or there is none. -/
theorem kind_of_html {rest : List Token} (h : Reads s (t :: u :: rest))
    (hkind : t.kind = .inlineHtml) : u.kind = .openTag := by
  obtain ⟨ht, hrest⟩ := reads_cons.1 h
  obtain ⟨hu, -⟩ := reads_cons.1 hrest
  have hs : s.inCode = false := ht.inCode.2 (.inl hkind)
  have hafter : (s.after t).inCode = false := by simp [State.after, hkind, hs]
  have hzero := htmlLength_of_yields ht hkind
  rw [Token.source_cons] at hzero
  rw [yields_iff_htmlRule hafter] at hu
  cases hu with
  | openTag => rfl
  | inlineHtml hnot => exact absurd (htmlLength_cons_eq_zero.1 hzero) hnot

/-- From outside of the code on: text may come, and then a tag, behind which there is code. -/
theorem exists_html {ts : List Token} (h : Reads s ts) (hs : s.inCode = false) :
    ∃ (html : Option Token) (rest : List Token), ts = html.toList ++ rest ∧
      (∀ t ∈ html, t.kind = .inlineHtml) ∧
      (rest = [] ∨ ∃ tag more s', rest = tag :: more ∧ tag.kind = .openTag ∧ s'.inCode = true ∧
        Reads s' more) := by
  have htag : ∀ {s : State} {tag : Token} {more : List Token}, Reads s (tag :: more) →
      tag.kind = .openTag → ∃ tag' more' s', tag :: more = tag' :: more' ∧ tag'.kind = .openTag ∧
        s'.inCode = true ∧ Reads s' more' := by
    intro s tag more h hkind
    exact ⟨tag, more, s.after tag, rfl, hkind, by simp [State.after, hkind], (reads_cons.1 h).2⟩
  cases ts with
  | nil => exact ⟨none, [], rfl, by simp, .inl rfl⟩
  | cons t rest =>
    rcases (reads_cons.1 h).1.inCode.1 hs with hkind | hkind
    · refine ⟨some t, rest, rfl, by simpa using hkind, ?_⟩
      cases rest with
      | nil => exact .inl rfl
      | cons u rest => exact .inr (htag (reads_cons.1 h).2 (kind_of_html h hkind))
    · exact ⟨none, t :: rest, rfl, by simp, .inr (htag h hkind)⟩

/-- From inside of the code on: code comes, and then a closing tag, behind which there is none. -/
theorem exists_code {ts : List Token} (h : Reads s ts) (hs : s.inCode = true) :
    ∃ code rest : List Token, ts = code ++ rest ∧ (∀ t ∈ code, t.isCode) ∧
      (rest = [] ∨ ∃ close more s', rest = close :: more ∧ close.kind = .closeTag ∧
        s'.inCode = false ∧ Reads s' more) := by
  induction ts generalizing s with
  | nil => exact ⟨[], [], rfl, by simp, .inl rfl⟩
  | cons t ts ih =>
    obtain ⟨ht, hts⟩ := reads_cons.1 h
    obtain ⟨hhtml, htag⟩ := not_or.1 ((not_congr ht.inCode).1 (by simp [hs]))
    by_cases hclose : t.kind = .closeTag
    · exact ⟨[], t :: ts, rfl, by simp,
        .inr ⟨t, ts, s.after t, rfl, hclose, by simp [State.after, hclose], hts⟩⟩
    · have hafter : (s.after t).inCode = true := by simp [State.after, hs, hclose]
      obtain ⟨code, rest, rfl, hcode, hrest⟩ := ih hts hafter
      refine ⟨t :: code, rest, rfl, List.forall_mem_cons.2 ⟨?_, hcode⟩, hrest⟩
      simp [Token.isCode, hhtml, htag, hclose]

/-- Tokens from outside of the code on are sections, of which the last may end early. -/
theorem exists_sections {ts : List Token} (h : Reads s ts) (hs : s.inCode = false) :
    ∃ (sections : List Section) (last : List Token), ts = sections.flatMap Section.tokens ++ last ∧
      (∀ c ∈ sections, c.IsProper) ∧ EndsEarly last := by
  induction hn : ts.length using Nat.strong_induction_on generalizing ts s with
  | _ n ih =>
    obtain ⟨html, rest, rfl, hhtml, hrest⟩ := exists_html h hs
    rcases hrest with rfl | ⟨tag, more, s', rfl, htag, hs', hmore⟩
    · exact ⟨[], html.toList, by simp, by simp, .outside hhtml⟩
    obtain ⟨code, rest, rfl, hcode, hrest⟩ := exists_code hmore hs'
    rcases hrest with rfl | ⟨close, more, s'', rfl, hclose, hs'', hmore⟩
    · exact ⟨[], html.toList ++ tag :: code, by simp, by simp, .inside hhtml htag hcode⟩
    have hshort : more.length < n := by
      simp only [List.length_append, List.length_cons] at hn
      omega
    obtain ⟨sections, last, rfl, hsections, hlast⟩ := ih more.length hshort hmore hs'' rfl
    refine ⟨⟨html, tag, code, close⟩ :: sections, last, ?_,
      List.forall_mem_cons.2 ⟨⟨hhtml, htag, hcode, hclose⟩, hsections⟩, hlast⟩
    simp [Section.tokens]

end Lexer

open Lexer

/-- A source without a tag has no tokens but its text. -/
theorem tokenize_of_not_infix {src : Bytes} (h : ¬utf8 "<?" <:+: src) :
    tokenize src = [] ∨ tokenize src = [⟨.inlineHtml, src⟩] := by
  have hreads := reads_tokenize src
  have hsource := source_tokenize src
  generalize tokenize src = ts at hreads hsource
  rcases ts with _ | ⟨t, rest⟩
  · exact .inl rfl
  have hnoTag : ∀ u ∈ t :: rest, u.kind ≠ .openTag := by
    intro u hu hkind
    obtain ⟨front, back, hsplit⟩ := List.append_of_mem hu
    rw [hsplit] at hreads hsource
    obtain ⟨s', hread⟩ := exists_reads_of_append hreads
    obtain ⟨x, htext, -⟩ := exists_of_openTag (reads_cons.1 hread).1 hkind
    refine h ⟨Token.source front, x ++ Token.source back, ?_⟩
    have hopen : utf8 "<?" = [byte '<', byte '?'] := by decide
    rw [← hsource, hopen, Token.source_append, Token.source_cons, htext]
    simp
  have hkind : t.kind = .inlineHtml :=
    ((reads_cons.1 hreads).1.inCode.1 rfl).resolve_right (hnoTag t List.mem_cons_self)
  cases rest with
  | nil =>
    obtain ⟨kind, text⟩ := t
    rw [Token.source_cons, Token.source_nil, List.append_nil] at hsource
    dsimp only at hkind hsource
    exact .inr (by rw [hkind, hsource])
  | cons u rest => exact absurd (kind_of_html hreads hkind) (hnoTag u (by simp))

/-- The tokens of a source are sections, of which the last may end early; each of them is what its
place asks for, text outside of the code is one token, and where there is no tag there is no issue.
-/
theorem tokenize_sections (src : Bytes) :
    (∃ (sections : List Section) (last : List Token),
      tokenize src = sections.flatMap Section.tokens ++ last ∧
        (∀ c ∈ sections, c.IsProper) ∧ EndsEarly last) ∧
      (∀ front t back, tokenize src = front ++ t :: back → t.Delimits (Token.source back)) ∧
      (∀ front t u back, tokenize src = front ++ t :: u :: back →
        ¬(t.kind = .inlineHtml ∧ u.kind = .inlineHtml)) ∧
      (¬utf8 "<?" <:+: src → (tokenize src = [] ∨ tokenize src = [⟨.inlineHtml, src⟩]) ∧
        ∀ file, scanSource file src = []) := by
  have hreads := reads_tokenize src
  refine ⟨exists_sections hreads rfl, ?_, ?_, fun hopen => ?_⟩
  · intro front t back hsplit
    obtain ⟨s', hread⟩ := exists_reads_of_append (hsplit ▸ hreads)
    exact (reads_cons.1 hread).1.delimits
  · intro front t u back hsplit ⟨ht, hu⟩
    obtain ⟨s', hread⟩ := exists_reads_of_append (hsplit ▸ hreads)
    rw [kind_of_html hread ht] at hu
    cases hu
  · have htokens := tokenize_of_not_infix hopen
    refine ⟨htokens, fun file => ?_⟩
    rcases htokens with htokens | htokens <;> rw [scanSource, htokens] <;> rfl

/-- A closing tag and a half of an opening one make no code. -/
theorem tokenize_sections_untaggedSample :
    ¬utf8 "<?" <:+: utf8 "a ?><" ∧
      (tokenize (utf8 "a ?><") = [⟨.inlineHtml, utf8 "a ?><"⟩]) ∧
      scanSource ⟨utf8 "a.php"⟩ (utf8 "a ?><") = [] := by
  have hopen : ¬utf8 "<?" <:+: utf8 "a ?><" := by decide
  obtain ⟨htokens, hissues⟩ := (tokenize_sections _).2.2.2 hopen
  refine ⟨hopen, htokens.resolve_left fun hnil => ?_, hissues _⟩
  have hsource := source_tokenize (utf8 "a ?><")
  rw [hnil] at hsource
  exact absurd hsource (by decide)

end ExplicitNull
