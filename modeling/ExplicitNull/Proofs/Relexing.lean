import ExplicitNull.Proofs.Boundaries
import ExplicitNull.Proofs.Insertion
import ExplicitNull.Proofs.Lookahead

/-!
Reading a text that pieces were put into. A token in a plainly typed parameter ends before a piece
as it ended before what followed, the piece is read as its own tokens, and what is read further on
begins as it did before. A token elsewhere has an opening parenthesis or a comma between itself and
the next piece, which its reading does not pass.
-/
namespace ExplicitNull

namespace Style

def tokens : Style → List Token
  | .mark => [⟨.punct, utf8 "?"⟩]
  | .union => [⟨.punct, utf8 "|"⟩, ⟨.name, utf8 "null"⟩]

theorem source_tokens (style : Style) : Token.source style.tokens = style.piece := by
  cases style <;> decide

end Style

namespace Fix

/-- Whether the tokens read so far end with the start of a parameter, up to a place before the
variable. -/
def started (done : List Token) : Bool := opened done || named done

variable {style : Style} {points : List Nat} {done rest : List Token} {t : Token}

theorem Site.started (h : Site style done t rest) : started done := by
  cases style with
  | mark => exact Bool.or_eq_true_iff.2 (.inl h.1)
  | union => exact Bool.or_eq_true_iff.2 (.inr h.1)

theorem isPlain_of_started (h : started (t :: done)) : t.isPlain := by
  simp only [Fix.started, opened, named, Bool.or_eq_true, Bool.and_eq_true] at h
  rcases h with (h | ⟨h, _⟩) | ⟨h, _⟩ | ⟨h, _⟩ <;> simp [Token.isPlain, h]

theorem started_of_cons (h : started (t :: done)) : t.opensParameter ∨ started done := by
  simp only [Fix.started, opened, named, Bool.or_eq_true, Bool.and_eq_true] at h ⊢
  rcases h with (h | ⟨_, h⟩) | ⟨_, h⟩ | ⟨_, h⟩ <;> simp [h]

/-- Between what is no start of a parameter and the first piece a byte stands that bars. -/
theorem source_insertAt_bar (piece : List Token) {i : Nat} {ts : List Token}
    (h : Sited style points done i ts) (hstarted : started done = false) :
    Token.source (insertAt piece points i ts) = Token.source ts ∨
      ∃ w c z z', Bars c ∧ Token.source ts = w ++ c :: z ∧
        Token.source (insertAt piece points i ts) = w ++ c :: z' := by
  induction ts generalizing done i with
  | nil => exact .inl rfl
  | cons t rest ih =>
    have hi : i ∉ points := by
      intro hi
      have := (h.1 hi).started
      simp [hstarted] at this
    rw [insertAt_cons_of_notMem piece points hi, Token.source_cons, Token.source_cons]
    by_cases hopens : t.opensParameter
    · refine .inr ?_
      simp only [Token.opensParameter, Bool.or_eq_true, Token.isPunct_iff] at hopens
      rcases hopens with ⟨_, htext⟩ | ⟨_, htext⟩
      · exact ⟨[], byte '(', _, _, .inl rfl, by rw [htext]; rfl, by rw [htext]; rfl⟩
      · exact ⟨[], byte ',', _, _, .inr rfl, by rw [htext]; rfl, by rw [htext]; rfl⟩
    · have hlater : Fix.started (t :: done) = false := by
        rw [Bool.eq_false_iff]
        intro hlater
        rcases started_of_cons hlater with h | h
        · exact hopens h
        · simp [hstarted] at h
      rcases ih h.2 hlater with heq | ⟨w, c, z, z', hc, hts, hins⟩
      · exact .inl (by rw [heq])
      · exact .inr ⟨t.text ++ w, c, z, z', hc, by rw [hts, List.append_assoc],
          by rw [hins, List.append_assoc]⟩

end Fix

namespace Lexer

open ExplicitNull.Fix

theorem Yields.exists_text {s : State} {t : Token} {tail : Bytes} (h : Yields s t tail) :
    ∃ b x, t.text = b :: x := by
  obtain ⟨b, x, htext, _⟩ := h
  exact ⟨b, x, htext⟩

/-- Texts that begin alike, to the second byte where reading looks at it. -/
theorem alike_of_head (t : Token) {b : UInt8} {y y' : Bytes}
    (h : b = byte '?' ∨ b = byte '\\' → y.head? = y'.head?) : Alike t (b :: y) (b :: y') where
  nonempty := by simp
  space := id
  line := by
    intro _ hzero
    rw [lineLength] at hzero ⊢
    by_cases hend : b = byte '\n' ∨ b = byte '\r'
    · rw [if_pos hend]
    rw [if_neg hend] at hzero ⊢
    by_cases hclose : b = byte '?' ∧ y.head? = some (byte '>')
    · rw [if_pos ⟨hclose.1, h (.inl hclose.1) ▸ hclose.2⟩]
    · rw [if_neg hclose] at hzero
      omega
  name := by
    intro hzero
    rw [Word.nameLength] at hzero ⊢
    by_cases hcontinues : Word.continuesIdentifier b
    · rw [if_pos hcontinues] at hzero
      omega
    rw [if_neg hcontinues] at hzero ⊢
    by_cases hslash : b = byte '\\' ∧ y.head?.any Word.startsIdentifier
    · rw [if_pos hslash] at hzero
      omega
    · have hslash' : ¬(b = byte '\\' ∧ y'.head?.any Word.startsIdentifier) :=
        fun h' => hslash ⟨h'.1, h (.inr h'.1) ▸ h'.2⟩
      rw [if_neg hslash']
  sign := id

variable {style : Style} {points : List Nat} {done rest : List Token} {t : Token}

/-- In front of a site the text begins like the piece there. -/
theorem alike_piece {r : Token} {tail : Bytes} (hsite : Site style (t :: done) r rest)
    (hr : Yields ⟨true, false⟩ r tail) (bs bs' : Bytes) :
    Alike t (r.text ++ bs) (style.piece ++ bs') := by
  obtain ⟨b, x, htext⟩ := hr.exists_text
  have hpiece : ∃ c y, style.piece = c :: y ∧ c ∈ [byte '?', byte '|'] := by
    cases style <;> exact ⟨_, _, rfl, by decide⟩
  obtain ⟨c, y, hcy, hc⟩ := hpiece
  have hbytes : ∀ c ∈ [byte '?', byte '|'], Word.isSpace c = false ∧
      Word.continuesIdentifier c = false ∧ c ≠ byte '\\' ∧ c ≠ byte '&' ∧ c ≠ byte '=' := by
    simp only [List.mem_cons, List.not_mem_nil, or_false, forall_eq_or_imp, forall_eq]
    decide
  obtain ⟨hspace, hcontinues, hslash, hand, hequals⟩ := hbytes c hc
  refine {
    nonempty := by simp [htext]
    space := fun _ => by rw [hcy]; exact hspace
    line := fun ht hzero => ?_
    name := fun _ => by simp [hcy, Word.nameLength, hcontinues, hslash]
    sign := fun _ => by simp [hcy, hand, hequals] }
  cases style with
  | mark =>
    have hplain : r.isPlain := by simp [Token.isPlain, hsite.2]
    obtain ⟨b, x, htext, hb⟩ := head_of_name (plainRule_of_yields hplain hr) hsite.2
    have hend := lineLength_eq_zero hzero b (by simp [htext])
    have hstarts : ∀ c, (c = byte '\n' ∨ c = byte '\r' ∨ c = byte '?') →
        Word.startsIdentifier c = false ∧ c ≠ byte '\\' := by
      rintro c (rfl | rfl | rfl) <;> decide
    obtain ⟨hnot, hne⟩ := hstarts b hend
    rcases hb with hb | hb
    · simp [hnot] at hb
    · exact absurd hb hne
  | union =>
    have hbetween := hsite.2.2 t rfl
    simp [isBetween, ht] at hbetween

/-- What follows a token in a parameter with a plain type begins as it did before pieces were put
in. -/
theorem alike_insertAt {i : Nat} (hsited : Sited style points (t :: done) i rest)
    (hreads : Reads ⟨true, false⟩ rest) (hne : rest ≠ []) :
    Alike t (Token.source rest) (Token.source (insertAt style.tokens points i rest)) := by
  obtain ⟨r, rest, rfl⟩ := List.exists_cons_of_ne_nil hne
  obtain ⟨hr, hrest⟩ := reads_cons.1 hreads
  by_cases hi : i ∈ points
  · rw [insertAt_cons_of_mem _ _ hi, Token.source_append, Style.source_tokens, Token.source_cons]
    exact alike_piece (hsited.1 hi) hr _ _
  · obtain ⟨b, y, htext⟩ := hr.exists_text
    rw [insertAt_cons_of_notMem _ _ hi, Token.source_cons, Token.source_cons, htext,
      List.cons_append, List.cons_append]
    refine alike_of_head t fun hb => ?_
    cases y with
    | cons c y => rfl
    | nil =>
      cases rest with
      | nil => rfl
      | cons q rest =>
        -- the piece does not come directly behind such a byte
        have hi' : i + 1 ∉ points := by
          intro hi'
          have hplain := isPlain_of_started (hsited.2.1 hi').started
          obtain ⟨c, x, htext', hmark, hslash⟩ := (plainRule_of_yields hplain hr).head
          rw [htext] at htext'
          obtain ⟨rfl, rfl⟩ := List.cons.inj htext'
          rcases hb with hb | hb
          · exact hmark hb
          · exact hslash hb rfl
        obtain ⟨c, x, htext'⟩ := (reads_cons.1 hrest).1.exists_text
        rw [insertAt_cons_of_notMem _ _ hi', Token.source_cons, Token.source_cons, htext']
        rfl

/-- A token that starts or continues a parameter is one of those around a plain type, and words
behind it are read for what they spell. -/
theorem after_of_started {s : State} {tail : Bytes} (hyields : Yields s t tail)
    (hstate : started done → s = ⟨true, false⟩) (h : started (t :: done)) :
    t.isPlain ∧ (∃ nameNext, s = ⟨true, nameNext⟩) ∧ s.after t = ⟨true, false⟩ := by
  have hplain := isPlain_of_started h
  rcases started_of_cons h with hopens | hstarted
  · obtain ⟨inCode, nameNext⟩ := s
    have hcode : inCode = true := by
      rw [← Bool.not_eq_false]
      rintro rfl
      obtain ⟨b, x, _, hlex⟩ := hyields
      have hkind : (htmlLexeme b (x ++ tail)).kind = t.kind := congrArg Lexeme.kind hlex
      have hpunct : t.kind = .punct := by
        simp only [Token.opensParameter, Bool.or_eq_true, Token.isPunct_iff] at hopens
        exact hopens.elim And.left And.left
      rw [hpunct, htmlLexeme] at hkind
      split at hkind <;> cases hkind
    subst hcode
    exact ⟨hplain, ⟨nameNext, rfl⟩, (plainRule_of_yields hplain hyields).after hplain (.inr hopens)⟩
  · obtain rfl := hstate hstarted
    exact ⟨hplain, ⟨false, rfl⟩, (plainRule_of_yields hplain hyields).after hplain (.inl rfl)⟩

theorem yields_insertAt {s : State} {i : Nat} (hsited : Sited style points (t :: done) i rest)
    (hyields : Yields s t (Token.source rest)) (hreads : Reads (s.after t) rest)
    (hstate : started done → s = ⟨true, false⟩) :
    Yields s t (Token.source (insertAt style.tokens points i rest)) := by
  by_cases hstarted : started (t :: done)
  · obtain ⟨hplain, ⟨nameNext, rfl⟩, hafter⟩ := after_of_started hyields hstate hstarted
    by_cases hrest : rest = []
    · subst hrest
      exact hyields
    · rw [hafter] at hreads
      exact ((plainRule_of_yields hplain hyields).alike (alike_insertAt hsited hreads hrest)).yields
  · rw [Bool.not_eq_true] at hstarted
    rcases source_insertAt_bar style.tokens hsited hstarted with heq | ⟨w, c, z, z', hc, hts, hins⟩
    · rwa [heq]
    · obtain ⟨b, x, htext, hlex⟩ := hyields
      refine ⟨b, x, htext, ?_⟩
      rw [hts, ← List.append_assoc] at hlex
      rw [hins, ← List.append_assoc, lexeme_append_bar hc s b z' ?_, hlex]
      rw [hlex]
      simp

theorem followsType_of_isBetween (h : isBetween t rest) : t.followsType := by
  simp only [isBetween, Candidate.isReference, Bool.or_eq_true, Bool.and_eq_true] at h
  rcases h with (h | h) | ⟨h, _⟩ <;> simp [Token.followsType, h]

/-- No name goes on where the tokens behind a type begin. -/
theorem nameLength_of_leadsToVariable {tail : Bytes} (h : leadsToVariable (t :: rest))
    (ht : Yields ⟨true, false⟩ t tail) (bs : Bytes) : Word.nameLength (t.text ++ bs) = 0 := by
  rw [leadsToVariable, Bool.or_eq_true, Bool.and_eq_true, beq_iff_eq] at h
  rcases h with hkind | ⟨hbetween, _⟩
  · exact nameLength_of_variableName ht hkind bs
  · have hfollows := followsType_of_isBetween hbetween
    have hplain : t.isPlain := by simp [Token.isPlain, hfollows]
    exact nameLength_of_followsType (plainRule_of_yields hplain ht) hfollows bs

/-- The mark is read as such before what begins like a name. -/
theorem yields_mark_of_first {b : UInt8} (hb : Word.startsIdentifier b ∨ b = byte '\\')
    (nameNext : Bool) (bs : Bytes) :
    Yields ⟨true, nameNext⟩ ⟨.punct, utf8 "?"⟩ (b :: bs) := by
  have hne : ∀ c ∈ [byte '>', byte '?', byte '-'], b ≠ c := by
    have hsigns : ∀ c ∈ [byte '>', byte '?', byte '-'],
        Word.startsIdentifier c = false ∧ c ≠ byte '\\' := by
      simp only [List.mem_cons, List.not_mem_nil, or_false, forall_eq_or_imp, forall_eq]
      decide
    rintro c hc rfl
    obtain ⟨hnot, hslash⟩ := hsigns b hc
    rcases hb with hb | hb
    · simp [hnot] at hb
    · exact hslash hb
  refine ⟨byte '?', [], rfl, (codeLexeme_mark nameNext ?_).trans ?_⟩
  · exact fun h => hne (byte '>') (by decide) (Option.some.inj h)
  · refine congrArg (Lexeme.mk .punct) (operatorLength_eq_zero fun op hop hhead hsecond => ?_)
    have hmarks : ∀ op ∈ operators, op.head? = some (byte '?') →
        op[1]? = some (byte '?') ∨ op[1]? = some (byte '-') := by decide
    have hb := hmarks op hop hhead
    rw [hsecond, List.nil_append, List.head?_cons, Option.some.injEq, Option.some.injEq] at hb
    rcases hb with hb | hb
    · exact hne (byte '?') (by decide) hb
    · exact hne (byte '-') (by decide) hb

theorem yields_mark {tail bs : Bytes} (hkind : t.kind = .name) (ht : Yields ⟨true, false⟩ t tail) :
    Yields ⟨true, false⟩ ⟨.punct, utf8 "?"⟩ (t.text ++ bs) := by
  have hplain : t.isPlain := by simp [Token.isPlain, hkind]
  obtain ⟨b, x, htext, hb⟩ := head_of_name (plainRule_of_yields hplain ht) hkind
  rw [htext]
  exact yields_mark_of_first hb false (x ++ bs)

theorem yields_null {tail : Bytes} (h : Word.nameLength tail = 0) :
    Yields ⟨true, false⟩ ⟨.name, utf8 "null"⟩ tail := by
  have hull : Word.nameLength (utf8 "ull" ++ []) = (utf8 "ull").length := by decide
  have hclass : Word.classify false (byte 'n' :: utf8 "ull") = .name := by decide
  have hrule : PlainRule false tail ⟨Word.classify false (byte 'n' :: utf8 "ull"), _⟩ :=
    .word (.inl (by decide)) ((Word.nameLength_append hull).2 tail h)
  rw [hclass] at hrule
  exact hrule.yields

/-- The piece of a style is read as its tokens in front of its site. -/
theorem reads_piece {ts : List Token} (hsite : Site style done t rest)
    (hreads : Reads ⟨true, false⟩ (t :: ts)) :
    Reads ⟨true, false⟩ (style.tokens ++ t :: ts) := by
  have ht := (reads_cons.1 hreads).1
  cases style with
  | mark => exact reads_cons.2 ⟨yields_mark hsite.2 ht, hreads⟩
  | union =>
    have hsign : byte '|' ∈ [byte '(', byte ',', byte '&', byte '|'] := by decide
    have hbar : Yields ⟨true, false⟩ ⟨.punct, utf8 "|"⟩ (utf8 "null" ++ Token.source (t :: ts)) :=
      ⟨byte '|', [], rfl, codeLexeme_operator false hsign⟩
    have hnull := yields_null (nameLength_of_leadsToVariable hsite.2.1 ht (Token.source ts))
    exact reads_cons.2 ⟨hbar, reads_cons.2 ⟨hnull, hreads⟩⟩

/-- Tokens with pieces at sites are what their text is read as. -/
theorem reads_insertAt {s : State} {i : Nat} {ts : List Token}
    (hsited : Sited style points done i ts) (hreads : Reads s ts)
    (hstate : started done → s = ⟨true, false⟩) :
    Reads s (insertAt style.tokens points i ts) := by
  induction ts generalizing done i s with
  | nil => exact reads_nil s
  | cons t rest ih =>
    obtain ⟨hsite, hsited⟩ := hsited
    obtain ⟨hyields, hrest⟩ := reads_cons.1 hreads
    have hlater := ih hsited hrest fun h => (after_of_started hyields hstate h).2.2
    have hcons := reads_cons.2 ⟨yields_insertAt hsited hyields hrest hstate, hlater⟩
    by_cases hi : i ∈ points
    · rw [insertAt_cons_of_mem _ _ hi]
      obtain rfl := hstate (hsite hi).started
      exact reads_piece (hsite hi) hcons
    · rwa [insertAt_cons_of_notMem _ _ hi]

end Lexer

/-- The tokens of a fixed text are those of the source with the tokens of the piece put in. -/
theorem tokenize_fixSource_of_sited {src : Bytes} {plan : FilePlan} {style : Style}
    (h : Fix.Sited style (Fix.insertionPoints style plan (tokenize src)) [] 0 (tokenize src)) :
    tokenize (fixSource src plan style) =
      insertAt style.tokens (Fix.insertionPoints style plan (tokenize src)) 0 (tokenize src) := by
  have hreads := Lexer.reads_insertAt h (reads_tokenize src) fun hstarted => by cases hstarted
  rw [Lexer.Reads, source_insertAt, Style.source_tokens] at hreads
  exact hreads

end ExplicitNull
