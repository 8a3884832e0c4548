import ExplicitNull.Proofs.ReferenceMarkers

/-!
Where heredocs end. A heredoc is its opener, lines that do not close it and a last line of
indentation and the label. The opener takes three line ends, but lines are told apart by line feeds
only: with one of the two line ends that have a line feed, or without any line between opener and
label, the heredoc is one token whatever stands behind it. With carriage returns alone and a line
in between, the label is not found, and the token goes on behind it.
-/
namespace ExplicitNull

namespace Heredoc

def lineEnds : List Bytes := ["\n", "\r\n", "\r"].map utf8

/-- What stands between `<<<` and the line end: blanks and the label, bare or in quotes. -/
def Announces (label opening : Bytes) : Prop :=
  ∃ (indent : Bytes) (quote : Option UInt8), (∀ b ∈ indent, isIndent b) ∧
    (∀ q ∈ quote, q = byte '\'' ∨ q = byte '\x22') ∧
    opening = indent ++ (quote.toList ++ (label ++ quote.toList))

/-- Whether the first word of a line, blanks aside, is the label. -/
def ClosesLine (label line : Bytes) : Prop :=
  ∃ indent rest, line = indent ++ (label ++ rest) ∧ (∀ b ∈ indent, isIndent b) ∧
    rest.head?.any Word.continuesIdentifier = false

/-- A heredoc as it is written, from behind its `<<<`. -/
structure Layout where
  label : Bytes
  opening : Bytes
  newline : Bytes
  lines : List Bytes
  indent : Bytes
  deriving DecidableEq, Repr

namespace Layout

/-- The lines of a heredoc behind its opener, up to the label that closes it and with it. -/
def body (h : Layout) : Bytes := h.lines.flatMap (· ++ h.newline) ++ (h.indent ++ h.label)

def text (h : Layout) : Bytes := utf8 "<<<" ++ (h.opening ++ (h.newline ++ h.body))

structure IsProper (h : Layout) : Prop where
  label : Word.IsIdentifier h.label
  opening : Announces h.label h.opening
  newline : h.newline ∈ lineEnds
  no_feed : ∀ line ∈ h.lines, byte '\n' ∉ line
  no_return : ∀ line ∈ h.lines, byte '\r' ∉ line
  open_line : ∀ line ∈ h.lines, ¬ClosesLine h.label line
  indent : ∀ b ∈ h.indent, isIndent b

end Layout

variable {label line x y : Bytes}

theorem starts_of_isIdentifier (h : Word.IsIdentifier label) :
    label.head?.any Word.startsIdentifier = true :=
  (Option.any_eq_true _ _).2 h.starts

theorem closesLine_iff (h : Word.IsIdentifier label) :
    ClosesLine label line ↔ closing? label line ≠ none := by
  constructor
  · rintro ⟨indent, rest, hline, hindent, hrest⟩
    rw [(closing?_eq_some_iff (starts_of_isIdentifier h)).2
      ⟨indent, rest, hline, hindent, hrest, rfl⟩]
    simp
  · intro hsome
    obtain ⟨n, hn⟩ := Option.ne_none_iff_exists'.1 hsome
    obtain ⟨indent, rest, hline, hindent, hrest, -⟩ :=
      (closing?_eq_some_iff (starts_of_isIdentifier h)).1 hn
    exact ⟨indent, rest, hline, hindent, hrest⟩

/-- What is behind the end of a line does not make it one that closes. -/
theorem closing?_eq_none (h : Word.IsIdentifier label) {c : UInt8}
    (hc : c = byte '\n' ∨ c = byte '\r') (hline : ¬ClosesLine label line) (rest : Bytes) :
    closing? label (line ++ c :: rest) = none := by
  have hlabel : c ∉ label := h.notMem (by rcases hc with rfl | rfl <;> decide)
  by_contra hsome
  obtain ⟨indent, behind, heq, hindent, hbehind⟩ := (closesLine_iff h).2 hsome
  have hnotMem : c ∉ indent ++ label := by
    intro hmem
    rcases List.mem_append.1 hmem with hmem | hmem
    · have := hindent c hmem
      rcases hc with rfl | rfl <;> exact absurd this (by decide)
    · exact hlabel hmem
  rw [← List.append_assoc] at heq
  have hshort := length_le_of_prefix_bar hnotMem ⟨behind, heq.symm⟩
  obtain ⟨more, rfl⟩ : indent ++ label <+: line :=
    List.prefix_of_prefix_length_le ⟨behind, heq.symm⟩ (List.prefix_append line (c :: rest)) hshort
  rw [List.append_assoc (indent ++ label)] at heq
  obtain rfl := List.append_cancel_left heq
  refine hline ⟨indent, more, List.append_assoc .., hindent, ?_⟩
  cases more with
  | nil => rfl
  | cons b more => exact hbehind

/-! ### The search for the label -/

theorem bodyLength_of_open (h : closing? label x = none) :
    bodyLength label true x = bodyLength label false x := by
  cases x with
  | nil => rfl
  | cons b x => rw [bodyLength, h, bodyLength]

/-- Within a line the search goes on. -/
theorem bodyLength_append_of_notMem (h : byte '\n' ∉ x) (y : Bytes) :
    bodyLength label false (x ++ y) = x.length + bodyLength label false y := by
  induction x with
  | nil => simp
  | cons b x ih =>
    have hb : (b == byte '\n') = false := by
      rw [beq_eq_false_iff_ne]
      rintro rfl
      exact h List.mem_cons_self
    have hx : byte '\n' ∉ x := fun hmem => h (List.mem_cons_of_mem b hmem)
    rw [List.cons_append, bodyLength, hb, ih hx, List.length_cons]
    omega

/-- Behind a line feed it starts on the next line. -/
theorem bodyLength_line (h : Word.IsIdentifier label) {before : Bytes}
    (hbefore : before = [] ∨ before = [byte '\r']) (hfeed : byte '\n' ∉ line)
    (hline : ¬ClosesLine label line) (y : Bytes) :
    bodyLength label true (line ++ (before ++ byte '\n' :: y)) =
      (line ++ before).length + 1 + bodyLength label true y := by
  have hopen : closing? label (line ++ (before ++ byte '\n' :: y)) = none := by
    rcases hbefore with rfl | rfl
    · exact closing?_eq_none h (.inl rfl) hline y
    · exact closing?_eq_none h (.inr rfl) hline (byte '\n' :: y)
  have hnotMem : byte '\n' ∉ line ++ before := by
    intro hmem
    rcases List.mem_append.1 hmem with hmem | hmem
    · exact hfeed hmem
    · rcases hbefore with rfl | rfl
      · cases hmem
      · exact absurd hmem (by decide)
  rw [bodyLength_of_open hopen, ← List.append_assoc, bodyLength_append_of_notMem hnotMem,
    bodyLength, beq_self_eq_true]
  omega

/-- On the last line the label ends it. -/
theorem bodyLength_last (h : Word.IsIdentifier label) {indent rest : Bytes}
    (hindent : ∀ b ∈ indent, isIndent b)
    (hrest : rest.head?.any Word.continuesIdentifier = false) :
    bodyLength label true (indent ++ (label ++ rest)) = (indent ++ label).length := by
  have hcloses := (closing?_eq_some_iff (starts_of_isIdentifier h)).2
    ⟨indent, rest, rfl, hindent, hrest, rfl⟩
  obtain ⟨b, more, hcons⟩ : ∃ b more, indent ++ (label ++ rest) = b :: more := by
    obtain ⟨b, more, rfl, -⟩ := h.exists_cons
    exact List.exists_cons_of_ne_nil (by simp)
  rw [hcons] at hcloses ⊢
  rw [bodyLength, hcloses, List.length_append]

namespace Layout

variable {h : Layout} {rest : Bytes}

theorem IsProper.newline_cases (hh : h.IsProper) :
    (∃ before, (before = [] ∨ before = [byte '\r']) ∧ h.newline = before ++ [byte '\n']) ∧
        h.newline ≠ utf8 "\r" ∨ h.newline = utf8 "\r" := by
  have hmem := hh.newline
  simp only [lineEnds, List.map_cons, List.map_nil, List.mem_cons, List.not_mem_nil,
    or_false] at hmem
  rcases hmem with heq | heq | heq <;> rw [heq]
  · exact .inl ⟨⟨[], .inl rfl, rfl⟩, by decide⟩
  · exact .inl ⟨⟨[byte '\r'], .inr rfl, rfl⟩, by decide⟩
  · exact .inr rfl

/-- With carriage returns alone there is no line feed up to the label. -/
theorem IsProper.feed_notMem_body (hh : h.IsProper) (hnewline : h.newline = utf8 "\r") :
    byte '\n' ∉ h.body := by
  intro hmem
  rcases List.mem_append.1 hmem with hmem | hmem
  · obtain ⟨line, hline, hmem⟩ := List.mem_flatMap.1 hmem
    rcases List.mem_append.1 hmem with hmem | hmem
    · exact hh.no_feed line hline hmem
    · rw [hnewline] at hmem
      exact absurd hmem (by decide)
  rcases List.mem_append.1 hmem with hmem | hmem
  · exact absurd (hh.indent _ hmem) (by decide)
  · exact hh.label.notMem (by decide) hmem

/-- With line feeds the search ends behind the label. -/
theorem IsProper.bodyLength_of_feed (hh : h.IsProper) {before : Bytes}
    (hbefore : before = [] ∨ before = [byte '\r']) (hnewline : h.newline = before ++ [byte '\n'])
    (hrest : rest.head?.any Word.continuesIdentifier = false) :
    bodyLength h.label true (h.body ++ rest) = h.body.length := by
  have hopen := hh.open_line
  have hfeed := hh.no_feed
  unfold body
  rw [hnewline]
  generalize h.lines = lines at hopen hfeed
  induction lines with
  | nil =>
    rw [List.flatMap_nil, List.nil_append, List.append_assoc]
    exact bodyLength_last hh.label hh.indent hrest
  | cons line lines ih =>
    have hlines := ih (fun l hl => hopen l (List.mem_cons_of_mem line hl))
      fun l hl => hfeed l (List.mem_cons_of_mem line hl)
    have hline := bodyLength_line hh.label hbefore (hfeed line List.mem_cons_self)
      (hopen line List.mem_cons_self)
    simp only [List.flatMap_cons, List.append_assoc, List.cons_append, List.nil_append]
      at hlines ⊢
    rw [hline, hlines]
    simp only [List.length_append, List.length_cons]
    omega

/-- With carriage returns alone and a line in between it goes on behind the label. -/
theorem IsProper.bodyLength_of_return (hh : h.IsProper) (hnewline : h.newline = utf8 "\r")
    (hlines : h.lines ≠ []) (rest : Bytes) :
    bodyLength h.label true (h.body ++ rest) =
      h.body.length + bodyLength h.label false rest := by
  have hopen : closing? h.label (h.body ++ rest) = none := by
    obtain ⟨line, lines, hcons⟩ := List.exists_cons_of_ne_nil hlines
    have hreturn : utf8 "\r" = [byte '\r'] := by decide
    unfold body
    rw [hcons, hnewline, hreturn]
    simp only [List.flatMap_cons, List.append_assoc, List.singleton_append]
    exact closing?_eq_none hh.label (.inr rfl) (hh.open_line line (hcons ▸ List.mem_cons_self)) _
  rw [bodyLength_of_open hopen, bodyLength_append_of_notMem (hh.feed_notMem_body hnewline)]

/-- The search ends behind the label in these cases and no others. -/
theorem IsProper.bodyLength_eq_iff (hh : h.IsProper)
    (hrest : rest.head?.any Word.continuesIdentifier = false) :
    bodyLength h.label true (h.body ++ rest) = h.body.length ↔
      h.newline ≠ utf8 "\r" ∨ h.lines = [] ∨ rest = [] := by
  rcases hh.newline_cases with ⟨⟨before, hbefore, hnewline⟩, hne⟩ | hnewline
  · exact iff_of_true (hh.bodyLength_of_feed hbefore hnewline hrest) (.inl hne)
  by_cases hlines : h.lines = []
  · have hbody : h.body = h.indent ++ h.label := by
      rw [body, hlines, List.flatMap_nil, List.nil_append]
    rw [hbody, List.append_assoc]
    exact iff_of_true (bodyLength_last hh.label hh.indent hrest) (.inr (.inl hlines))
  rw [hh.bodyLength_of_return hnewline hlines]
  by_cases hnil : rest = []
  · subst hnil
    simp [bodyLength]
  · have hpos : 0 < bodyLength h.label false rest :=
      bodyLength_pos (starts_of_isIdentifier hh.label) hnil
    simp only [hnewline, hlines, hnil, ne_eq, not_true_eq_false, or_self, iff_false]
    omega

/-! ### The opener -/

theorem IsProper.head?_body (hh : h.IsProper) (hnewline : h.newline = utf8 "\r") (rest : Bytes) :
    (h.body ++ rest).head? ≠ some (byte '\n') := by
  obtain ⟨b, x, hlabel, -⟩ := hh.label.exists_cons
  have hne : h.body ≠ [] := by simp [body, hlabel]
  obtain ⟨c, y, hbody⟩ := List.exists_cons_of_ne_nil hne
  have hfeed := hh.feed_notMem_body hnewline
  rw [hbody] at hfeed ⊢
  intro hhead
  exact hfeed (Option.some.inj hhead ▸ List.mem_cons_self)

theorem IsProper.lineEnd?_eq (hh : h.IsProper) (rest : Bytes) :
    lineEnd? (h.newline ++ (h.body ++ rest)) = some h.newline.length := by
  rcases hh.newline_cases with ⟨⟨before, rfl | rfl, hnewline⟩, -⟩ | hnewline
  · rw [hnewline]
    rfl
  · rw [hnewline]
    rfl
  · have hhead := hh.head?_body hnewline rest
    have hreturn : utf8 "\r" = [byte '\r'] := by decide
    rw [hnewline, hreturn, List.singleton_append, lineEnd?, if_neg (by decide), if_pos rfl,
      if_neg hhead]
    rfl

theorem IsProper.length?_eq (hh : h.IsProper) (rest : Bytes) :
    length? (h.opening ++ (h.newline ++ (h.body ++ rest))) =
      some (h.opening.length + h.newline.length + bodyLength h.label true (h.body ++ rest)) := by
  obtain ⟨indent, quote, hindent, hquote, hopening⟩ := hh.opening
  have hopens : Opens ⟨h.label, h.opening.length + h.newline.length⟩
      (h.opening ++ (h.newline ++ (h.body ++ rest))) indent quote (h.newline ++ (h.body ++ rest))
      h.newline.length :=
    { text := by simp [hopening]
      indented := hindent
      quoted := hquote
      starts := starts_of_isIdentifier hh.label
      continues := hh.label.continues
      line := hh.lineEnd?_eq rest
      width := by
        simp only [hopening, List.length_append]
        omega }
  have hdrop : (h.opening ++ (h.newline ++ (h.body ++ rest))).drop
      (h.opening.length + h.newline.length) = h.body ++ rest := by
    rw [← List.append_assoc, ← List.length_append, List.drop_left]
  rw [length?, hopens.opener?_eq, Option.map_some, hdrop]

end Layout

end Heredoc

namespace Lexer

open Heredoc

variable {h : Layout} {rest : Bytes}

/-- In code the text of a heredoc begins a literal, behind which no plain name is called for. -/
theorem tokensFrom_of_layout (hh : h.IsProper) (nameNext : Bool) (rest : Bytes) :
    ∃ n, n = bodyLength h.label true (h.body ++ rest) ∧
      tokensFrom ⟨true, nameNext⟩ (h.text ++ rest) =
        ⟨.literal, utf8 "<<<" ++ (h.opening ++ (h.newline ++ (h.body ++ rest).take n))⟩ ::
          tokensFrom ⟨true, false⟩ ((h.body ++ rest).drop n) := by
  refine ⟨_, rfl, ?_⟩
  generalize hn : bodyLength h.label true (h.body ++ rest) = n
  have hlength := hh.length?_eq rest
  rw [hn] at hlength
  have hle : n ≤ (h.body ++ rest).length := hn ▸ bodyLength_le ..
  have htext : h.text ++ rest = byte '<' :: (utf8 "<<" ++
      (h.opening ++ (h.newline ++ (h.body ++ rest)))) := by
    have hmark : utf8 "<<<" = byte '<' :: utf8 "<<" := rfl
    simp [Layout.text, hmark]
  have hyields : Yields ⟨true, nameNext⟩
      ⟨.literal, utf8 "<<<" ++ (h.opening ++ (h.newline ++ (h.body ++ rest).take n))⟩
      ((h.body ++ rest).drop n) := by
    refine ⟨byte '<', utf8 "<<" ++ (h.opening ++ (h.newline ++ (h.body ++ rest).take n)), rfl, ?_⟩
    have hall : utf8 "<<" ++ (h.opening ++ (h.newline ++ (h.body ++ rest).take n)) ++
        (h.body ++ rest).drop n = utf8 "<<" ++ (h.opening ++ (h.newline ++ (h.body ++ rest))) := by
      simp only [List.append_assoc, List.take_append_drop]
    have hlex := codeLexeme_heredoc nameNext (rfl : byte '<' = byte '<')
      (List.prefix_append (utf8 "<<") (h.opening ++ (h.newline ++ (h.body ++ rest)))) hlength
    have htwo : (utf8 "<<").length = 2 := by decide
    rw [hall, lexeme, if_pos rfl, hlex]
    simp only [List.length_append, List.length_take, htwo, Lexeme.mk.injEq, true_and]
    rw [List.length_append] at hle
    omega
  have hafter : State.after ⟨true, nameNext⟩
      ⟨.literal, utf8 "<<<" ++ (h.opening ++ (h.newline ++ (h.body ++ rest).take n))⟩ =
        ⟨true, false⟩ := rfl
  have hread := tokensFrom_of_yields hyields
  rw [hafter] at hread
  rw [← hread]
  congr 1
  simp only [Layout.text, List.append_assoc, List.take_append_drop]

/-- In code a heredoc is read as one token that ends behind its label, and what is behind that as
code, if and only if its line ends have line feeds, or no line stands before the label, or nothing
behind it. -/
theorem tokensFrom_heredoc_iff (hh : h.IsProper)
    (hrest : rest.head?.any Word.continuesIdentifier = false) (nameNext : Bool) :
    tokensFrom ⟨true, nameNext⟩ (h.text ++ rest) =
        ⟨.literal, h.text⟩ :: tokensFrom ⟨true, false⟩ rest ↔
      h.newline ≠ utf8 "\r" ∨ h.lines = [] ∨ rest = [] := by
  obtain ⟨n, hn, hread⟩ := tokensFrom_of_layout hh nameNext rest
  rw [← hh.bodyLength_eq_iff hrest, ← hn, hread]
  constructor
  · intro heq
    have htext := (Token.mk.inj (List.cons.inj heq).1).2
    have hbody := List.append_cancel_left (List.append_cancel_left (List.append_cancel_left htext))
    have hle : n ≤ (h.body ++ rest).length := hn ▸ bodyLength_le ..
    rw [← congrArg List.length hbody, List.length_take, Nat.min_eq_left hle]
  · rintro rfl
    rw [List.take_left, List.drop_left]
    rfl

def indentedSample : Layout where
  label := utf8 "EOT"
  opening := utf8 " \"EOT\""
  newline := utf8 "\r\n"
  lines := [utf8 " EOTS", [], utf8 "$a EOT"]
  indent := utf8 "\t "

theorem tokensFrom_indentedSample :
    indentedSample.IsProper ∧ (utf8 ";").head?.any Word.continuesIdentifier = false ∧
      tokensFrom ⟨true, false⟩ (indentedSample.text ++ utf8 ";") =
        [⟨.literal, indentedSample.text⟩, ⟨.punct, utf8 ";"⟩] := by
  have hlabel : Word.IsIdentifier (utf8 "EOT") :=
    ⟨⟨byte 'E', rfl, rfl⟩, List.all_eq_true.1 (by decide)⟩
  have hopen : ∀ line ∈ indentedSample.lines, ¬ClosesLine (utf8 "EOT") line := by
    intro line hline
    rw [closesLine_iff hlabel, not_not]
    revert line
    decide
  have hproper : indentedSample.IsProper :=
    { label := hlabel
      opening := ⟨[byte ' '], some (byte '\x22'), List.all_eq_true.1 (by decide), by simp,
        by decide⟩
      newline := by decide
      no_feed := by decide
      no_return := by decide
      open_line := hopen
      indent := List.all_eq_true.1 (by decide) }
  have hrest : (utf8 ";").head?.any Word.continuesIdentifier = false := by decide
  have hsemicolon : tokensFrom ⟨true, false⟩ (utf8 ";") = [⟨.punct, utf8 ";"⟩] := by
    have hreads : Reads ⟨true, false⟩ [⟨.punct, utf8 ";"⟩] := by decide
    exact hreads
  have hread := (tokensFrom_heredoc_iff hproper hrest false).2 (.inl (by decide))
  rw [hsemicolon] at hread
  exact ⟨hproper, hrest, hread⟩

def returnedSample : Layout where
  label := utf8 "EOT"
  opening := utf8 "EOT"
  newline := utf8 "\r"
  lines := [utf8 "x"]
  indent := []

/-- The label behind a carriage return is not found, and what is behind it goes to the string. -/
theorem tokensFrom_returnedSample :
    returnedSample.IsProper ∧ (utf8 ";").head?.any Word.continuesIdentifier = false ∧
      tokensFrom ⟨true, false⟩ (returnedSample.text ++ utf8 ";") =
        [⟨.literal, returnedSample.text ++ utf8 ";"⟩] := by
  have hlabel : Word.IsIdentifier (utf8 "EOT") :=
    ⟨⟨byte 'E', rfl, rfl⟩, List.all_eq_true.1 (by decide)⟩
  have hopen : ∀ line ∈ returnedSample.lines, ¬ClosesLine (utf8 "EOT") line := by
    intro line hline
    rw [closesLine_iff hlabel, not_not]
    revert line
    decide
  refine ⟨⟨hlabel, ⟨[], none, by simp, by simp, by decide⟩, by decide, by decide, by decide,
    hopen, by simp [returnedSample]⟩, by decide, ?_⟩
  have hreads : Reads ⟨true, false⟩ [⟨.literal, returnedSample.text ++ utf8 ";"⟩] := by decide
  exact hreads

end Lexer

end ExplicitNull
