import ExplicitNull.Proofs.Boundaries
import ExplicitNull.Proofs.Lookahead

/-!
Reading on behind other text. Each scan stops where it is closed or before text that does not go on
with it, and what it has scanned is scanned alike before any other text that does not. A sign that a
piece begins with goes on with nothing that is scanned so, and is no part of the opener of a
heredoc.
-/
namespace ExplicitNull

def Begins (c : UInt8) : Prop := c = byte '?' ∨ c = byte '|'

section

variable {c : UInt8}

theorem Begins.not_space (hc : Begins c) : Word.isSpace c = false := by
  rcases hc with rfl | rfl <;> decide

theorem Begins.not_starts (hc : Begins c) : Word.startsIdentifier c = false := by
  rcases hc with rfl | rfl <;> decide

theorem Begins.not_continues (hc : Begins c) : Word.continuesIdentifier c = false := by
  rcases hc with rfl | rfl <;> decide

theorem Begins.not_digit (hc : Begins c) : Ascii.isDigit c = false := by
  rcases hc with rfl | rfl <;> decide

/-- What holds of no sign does not hold of the first byte of a text where one was put in, if it did
not before. -/
theorem head?_any_begins {p : UInt8 → Bool} (hp : p c = false) {y z : Bytes} (z' : Bytes)
    (h : (y ++ z).head?.any p = false) : (y ++ c :: z').head?.any p = false := by
  cases y with
  | nil => exact hp
  | cons b y => exact h

theorem nameLength_begins (hc : Begins c) {y z : Bytes} (z' : Bytes)
    (h : Word.nameLength (y ++ z) = 0) : Word.nameLength (y ++ c :: z') = 0 := by
  have hslash : c ≠ byte '\\' := by rcases hc with rfl | rfl <;> decide
  cases y with
  | nil => simp [Word.nameLength, hc.not_continues, hslash]
  | cons b y =>
    rw [List.cons_append, Word.nameLength] at h ⊢
    by_cases hb : Word.continuesIdentifier b
    · rw [if_pos hb] at h
      omega
    rw [if_neg hb] at h ⊢
    by_cases hnext : b = byte '\\' ∧ (y ++ z).head?.any Word.startsIdentifier
    · rw [if_pos hnext] at h
      omega
    · have hnext' : ¬(b = byte '\\' ∧ (y ++ c :: z').head?.any Word.startsIdentifier) := by
        rintro ⟨hb, hstarts⟩
        have hnot : (y ++ z).head?.any Word.startsIdentifier = false := by
          simpa [hb] using hnext
        rw [head?_any_begins hc.not_starts z' hnot] at hstarts
        exact absurd hstarts (by decide)
      rw [if_neg hnext']

namespace Lexer

/-- How a number ends depends on the text behind it only by whether the number goes on there. -/
theorem numberLength_append {hex : Bool} {last : UInt8} {x tail : Bytes}
    (h : numberLength hex last (x ++ tail) = x.length) :
    ∃ last', numberLength hex last' tail = 0 ∧
      ∀ tail', numberLength hex last' tail' = 0 →
        numberLength hex last (x ++ tail') = x.length := by
  induction x generalizing last with
  | nil => exact ⟨last, h, fun _ h' => h'⟩
  | cons b x ih =>
    rw [List.cons_append, numberLength, List.length_cons] at h
    by_cases hb : Ascii.isAlphanum b ∨ b = byte '_' ∨ b = byte '.'
    · rw [if_pos hb] at h
      obtain ⟨last', htail, hall⟩ := @ih b (by omega)
      refine ⟨last', htail, fun tail' h' => ?_⟩
      rw [List.cons_append, numberLength, if_pos hb, hall tail' h', List.length_cons, Nat.add_comm]
    rw [if_neg hb] at h
    by_cases hsign : hex = false ∧ (b = byte '+' ∨ b = byte '-') ∧
        (last = byte 'e' ∨ last = byte 'E') ∧ (x ++ tail).head?.any Ascii.isDigit
    · rw [if_pos hsign] at h
      obtain ⟨last', htail, hall⟩ := @ih b (by omega)
      refine ⟨last', htail, fun tail' h' => ?_⟩
      obtain ⟨d, x, rfl⟩ : ∃ d x', x = d :: x' := by
        -- the digit behind the sign is scanned as well
        cases x with
        | cons d x => exact ⟨d, x, rfl⟩
        | nil =>
          obtain ⟨d, hd, hdigit⟩ := (Option.any_eq_true _ _).1 hsign.2.2.2
          obtain ⟨r, hr⟩ := List.head?_eq_some_iff.1 hd
          rw [hr, numberLength, if_pos (.inl (by simp [Ascii.isAlphanum, hdigit]))] at h
          simp only [List.length_nil] at h
          omega
      have hsign' : hex = false ∧ (b = byte '+' ∨ b = byte '-') ∧
          (last = byte 'e' ∨ last = byte 'E') ∧ (d :: x ++ tail').head?.any Ascii.isDigit := hsign
      rw [List.cons_append, numberLength, if_neg hb, if_pos hsign', hall tail' h', Nat.add_comm]
      rfl
    · rw [if_neg hsign] at h
      omega

theorem numberLength_begins (hc : Begins c) {hex : Bool} {last : UInt8} {y z : Bytes} (z' : Bytes)
    (h : numberLength hex last (y ++ z) = 0) : numberLength hex last (y ++ c :: z') = 0 := by
  have hne : Ascii.isAlphanum c = false ∧ c ≠ byte '_' ∧ c ≠ byte '.' ∧ c ≠ byte '+' ∧
      c ≠ byte '-' := by rcases hc with rfl | rfl <;> decide
  cases y with
  | nil => simp [numberLength, hne]
  | cons b y =>
    rw [List.cons_append, numberLength] at h ⊢
    split at h
    · omega
    · rename_i hb
      rw [if_neg hb]
      split at h
      · omega
      · rename_i hsign
        have hsign' : ¬(hex = false ∧ (b = byte '+' ∨ b = byte '-') ∧
            (last = byte 'e' ∨ last = byte 'E') ∧ (y ++ c :: z').head?.any Ascii.isDigit) := by
          rintro ⟨hhex, hb, hlast, hdigit⟩
          have hnot : (y ++ z).head?.any Ascii.isDigit = false := by
            rw [Bool.eq_false_iff]
            exact fun hd => hsign ⟨hhex, hb, hlast, hd⟩
          rw [head?_any_begins hc.not_digit z' hnot] at hdigit
          exact absurd hdigit (by decide)
        rw [if_neg hsign']

/-- How text outside of the code ends depends on what is behind it only by whether a tag opens
there. -/
theorem htmlLength_append {x tail : Bytes} (h : htmlLength (x ++ tail) = x.length) :
    htmlLength tail = 0 ∧
      ∀ tail', htmlLength tail' = 0 → htmlLength (x ++ tail') = x.length := by
  induction x with
  | nil => exact ⟨h, fun _ h' => h'⟩
  | cons b x ih =>
    rw [List.cons_append, htmlLength, List.length_cons] at h
    split at h
    · omega
    · rename_i hopen
      obtain ⟨htail, hall⟩ := ih (by omega)
      refine ⟨htail, fun tail' h' => ?_⟩
      have hopen' : ¬(b = byte '<' ∧ (x ++ tail').head? = some (byte '?')) := by
        rintro ⟨hb, hhead⟩
        cases x with
        | cons d x => exact hopen ⟨hb, hhead⟩
        | nil =>
          obtain ⟨r, rfl⟩ := List.head?_eq_some_iff.1 hhead
          rw [htmlLength, if_neg (fun h => absurd h.1 (by decide))] at h'
          omega
      rw [List.cons_append, htmlLength, if_neg hopen', hall tail' h', List.length_cons,
        Nat.add_comm]

end Lexer

namespace Quoted

theorem length_pos {frames : List Frame} {bs : Bytes} (hframes : frames ≠ []) (hbs : bs ≠ []) :
    0 < length frames bs := by
  fun_cases length frames bs with
  | case1 => exact absurd rfl hframes
  | case2 => exact absurd rfl hbs
  | _ => omega

theorem exists_cons_of_append {b : UInt8} {x tail rest : Bytes} (h : x ++ tail = b :: rest)
    (hx : 0 < x.length) : ∃ x', x = b :: x' ∧ rest = x' ++ tail := by
  obtain ⟨a, x, rfl⟩ := List.exists_cons_of_length_pos hx
  obtain ⟨rfl, rfl⟩ := List.cons.inj h
  exact ⟨x, rfl, rfl⟩

/-- A string that is closed before the end of the text is closed whatever comes behind it. -/
theorem length_append {frames : List Frame} {x tail : Bytes} (htail : tail ≠ [])
    (h : length frames (x ++ tail) = x.length) (tail' : Bytes) :
    length frames (x ++ tail') = x.length := by
  -- something is still open behind a byte, so the text that is scanned goes on
  have hhead : ∀ {frame : Frame} {outer : List Frame} {x : Bytes},
      length (frame :: outer) (x ++ tail) = x.length →
        (x ++ tail').head? = (x ++ tail).head? := by
    intro frame outer x hx
    cases x with
    | cons a x => rfl
    | nil => exact absurd hx (Nat.ne_of_gt (length_pos (List.cons_ne_nil _ _) htail))
  generalize htext : x ++ tail = bs at h
  fun_induction length frames bs generalizing x with
  | case1 =>
    obtain rfl : x = [] := List.eq_nil_of_length_eq_zero h.symm
    simp [length]
  | case2 => simp [htail] at htext
  | case3 q outer =>
    obtain ⟨x, rfl, hnil⟩ := exists_cons_of_append htext (by omega)
    simp [htail] at hnil
  | case4 q outer d rest ih =>
    obtain ⟨x, rfl, htext'⟩ := exists_cons_of_append htext (by omega)
    rw [List.length_cons] at h
    obtain ⟨x, rfl, hrest⟩ := exists_cons_of_append htext'.symm (by omega)
    rw [List.length_cons] at h
    have hlater := ih hrest.symm (by omega)
    simp only [List.cons_append, length, if_true, hlater, List.length_cons]
    omega
  | case5 outer b rest hslash ih =>
    obtain ⟨x, rfl, hrest⟩ := exists_cons_of_append htext (by omega)
    rw [List.length_cons] at h
    rw [List.cons_append, quotedLength_string hslash, if_pos rfl, ih hrest.symm (by omega),
      List.length_cons, Nat.add_comm]
  | case6 q outer b rest hslash hquote hopen ih =>
    obtain ⟨x, rfl, rfl⟩ := exists_cons_of_append htext (by omega)
    rw [List.length_cons] at h
    have hrest : length (.brace :: .string q :: outer) (x ++ tail) = x.length := by omega
    rw [← hhead hrest] at hopen
    rw [List.cons_append, quotedLength_string hslash, if_neg hquote, if_pos hopen,
      ih rfl (by omega), List.length_cons, Nat.add_comm]
  | case7 q outer b rest hslash hquote hopen ih =>
    obtain ⟨x, rfl, rfl⟩ := exists_cons_of_append htext (by omega)
    rw [List.length_cons] at h
    have hrest : length (.string q :: outer) (x ++ tail) = x.length := by omega
    rw [← hhead hrest] at hopen
    rw [List.cons_append, quotedLength_string hslash, if_neg hquote, if_neg hopen,
      ih rfl (by omega), List.length_cons, Nat.add_comm]
  | case8 outer rest ih =>
    obtain ⟨x, rfl, hrest⟩ := exists_cons_of_append htext (by omega)
    rw [List.length_cons] at h
    rw [List.cons_append, length, if_pos rfl, ih hrest.symm (by omega), List.length_cons,
      Nat.add_comm]
  | case9 outer rest hopen ih =>
    obtain ⟨x, rfl, hrest⟩ := exists_cons_of_append htext (by omega)
    rw [List.length_cons] at h
    rw [List.cons_append, length, if_neg hopen, if_pos rfl, ih hrest.symm (by omega),
      List.length_cons, Nat.add_comm]
  | case10 outer b rest hopen hclose hquote ih =>
    obtain ⟨x, rfl, hrest⟩ := exists_cons_of_append htext (by omega)
    rw [List.length_cons] at h
    rw [List.cons_append, length, if_neg hopen, if_neg hclose, if_pos hquote,
      ih hrest.symm (by omega), List.length_cons, Nat.add_comm]
  | case11 outer b rest hopen hclose hquote ih =>
    obtain ⟨x, rfl, hrest⟩ := exists_cons_of_append htext (by omega)
    rw [List.length_cons] at h
    rw [List.cons_append, length, if_neg hopen, if_neg hclose, if_neg hquote,
      ih hrest.symm (by omega), List.length_cons, Nat.add_comm]

end Quoted

namespace Heredoc

theorem not_starts_of_isIndent {b : UInt8} (h : isIndent b) : Word.startsIdentifier b = false := by
  rcases Bool.or_eq_true_iff.1 h with h | h <;> rw [eq_of_beq h] <;> decide

theorem takeWhile_exact {p : UInt8 → Bool} {x rest : Bytes} (hx : ∀ b ∈ x, p b)
    (hrest : rest.head?.any p = false) : (x ++ rest).takeWhile p = x := by
  rw [List.takeWhile_append_of_pos hx]
  cases rest with
  | nil => simp
  | cons b rest =>
    have hb : p b = false := hrest
    simp [hb]

theorem exists_takeWhile (p : UInt8 → Bool) (bs : Bytes) :
    ∃ x rest, bs = x ++ rest ∧ (∀ b ∈ x, p b) ∧ rest.head?.any p = false ∧
      bs.takeWhile p = x := by
  refine ⟨bs.takeWhile p, bs.dropWhile p, (List.takeWhile_append_dropWhile ..).symm,
    fun _ => List.mem_takeWhile_imp, ?_, rfl⟩
  have hnot := List.head?_dropWhile_not p bs
  cases hhead : (bs.dropWhile p).head? with
  | none => rfl
  | some b =>
    rw [hhead] at hnot
    simpa using hnot

/-- What an opener comes to behind its indentation. -/
theorem opener?_indent {indent : Bytes} (hindent : ∀ b ∈ indent, isIndent b) {quoted : Bytes}
    (hquoted : quoted.head?.any isIndent = false) :
    opener? (indent ++ quoted) =
      (let width := if (quote? quoted).isSome then 1 else 0
      let labelled := quoted.drop width
      let label := labelled.takeWhile Word.continuesIdentifier
      let closed := labelled.drop label.length
      if labelled.head?.any Word.startsIdentifier &&
          ((quote? quoted).isNone || closed.head? == quote? quoted) then
        (lineEnd? (closed.drop width)).map fun w =>
          ⟨label, indent.length + width + label.length + width + w⟩
      else none) := by
  rw [opener?, takeWhile_exact hindent hquoted, List.drop_left]

/-- An opener piece by piece: indentation, the label with its quotes and a line end. -/
structure Opens (o : Opener) (bs indent : Bytes) (quote : Option UInt8) (rest : Bytes) (w : Nat) :
    Prop where
  text : bs = indent ++ (quote.toList ++ (o.label ++ (quote.toList ++ rest)))
  indented : ∀ b ∈ indent, isIndent b
  quoted : ∀ q ∈ quote, q = byte '\'' ∨ q = byte '\x22'
  starts : o.label.head?.any Word.startsIdentifier
  continues : ∀ b ∈ o.label, Word.continuesIdentifier b
  line : lineEnd? rest = some w
  width : o.width = indent.length + quote.toList.length + o.label.length + quote.toList.length + w

theorem starts_label {label closed : Bytes}
    (hclosed : closed.head?.any Word.continuesIdentifier = false)
    (h : (label ++ closed).head?.any Word.startsIdentifier) :
    label.head?.any Word.startsIdentifier := by
  cases label with
  | cons b label => exact h
  | nil =>
    obtain ⟨b, hb, hstarts⟩ := (Option.any_eq_true _ _).1 h
    rw [List.nil_append] at hb
    rw [hb] at hclosed
    have hcontinues := Word.continuesIdentifier_of_startsIdentifier hstarts
    exact absurd hcontinues (by simpa using hclosed)

theorem exists_opens {bs : Bytes} {o : Opener} (h : opener? bs = some o) :
    ∃ indent quote rest w, Opens o bs indent quote rest w := by
  obtain ⟨indent, quoted, rfl, hindent, hquoted, -⟩ := exists_takeWhile isIndent bs
  rw [opener?_indent hindent hquoted] at h
  rcases hquote : quote? quoted with _ | q
  · obtain ⟨label, closed, rfl, hlabel, hclosed, htake⟩ :=
      exists_takeWhile Word.continuesIdentifier quoted
    simp only [hquote, Option.isSome_none, Bool.false_eq_true, if_false, List.drop_zero, htake,
      List.drop_left, Option.isNone_none, Bool.true_or, Bool.and_true, Nat.add_zero] at h
    split at h
    · rename_i hstarts
      obtain ⟨w, hw, rfl⟩ := Option.map_eq_some_iff.1 h
      exact ⟨indent, none, closed, w, rfl, hindent, by simp, starts_label hclosed hstarts, hlabel,
        hw, rfl⟩
    · simp at h
  · obtain ⟨hkind, hhead⟩ := quote?_eq_some hquote
    obtain ⟨labelled, rfl⟩ := List.head?_eq_some_iff.1 hhead
    obtain ⟨label, closed, rfl, hlabel, hclosed, htake⟩ :=
      exists_takeWhile Word.continuesIdentifier labelled
    simp only [hquote, Option.isSome_some, if_true, List.drop_succ_cons, List.drop_zero, htake,
      List.drop_left, Option.isNone_some, Bool.false_or, Bool.and_eq_true, beq_iff_eq] at h
    split at h
    · rename_i hstarts
      obtain ⟨w, hw, rfl⟩ := Option.map_eq_some_iff.1 h
      obtain ⟨rest, rfl⟩ := List.head?_eq_some_iff.1 hstarts.2
      exact ⟨indent, some q, rest, w, rfl, hindent, by simpa using hkind,
        starts_label hclosed hstarts.1, hlabel, hw, rfl⟩
    · simp at h

theorem exists_of_lineEnd? {bs : Bytes} {w : Nat} (h : lineEnd? bs = some w) :
    ∃ b rest, bs = b :: rest ∧ (b = byte '\n' ∨ b = byte '\r') := by
  cases bs with
  | nil => simp [lineEnd?] at h
  | cons b rest =>
    refine ⟨b, rest, rfl, ?_⟩
    rw [lineEnd?] at h
    by_cases hfeed : b = byte '\n'
    · exact .inl hfeed
    by_cases hreturn : b = byte '\r'
    · exact .inr hreturn
    · rw [if_neg hfeed, if_neg hreturn] at h
      cases h

theorem Opens.opener?_eq {o : Opener} {bs indent rest : Bytes} {quote : Option UInt8} {w : Nat}
    (h : Opens o bs indent quote rest w) : opener? bs = some o := by
  obtain ⟨rfl, hindent, hquote, hstarts, hlabel, hline, hwidth⟩ := h
  obtain ⟨label, width⟩ := o
  obtain ⟨b, hb, hstartsb⟩ := (Option.any_eq_true _ _).1 hstarts
  obtain ⟨more, rfl⟩ := List.head?_eq_some_iff.1 hb
  have hb : (b :: more).head?.any Word.startsIdentifier = true := hstartsb
  have hne : ∀ c, Word.startsIdentifier c = false → b ≠ c :=
    fun c => Word.ne_of_startsIdentifier hstartsb
  cases quote with
  | none =>
    have hrest : rest.head?.any Word.continuesIdentifier = false := by
      obtain ⟨d, r, rfl, hd⟩ := exists_of_lineEnd? hline
      have hend : Word.continuesIdentifier d = false := by rcases hd with rfl | rfl <;> decide
      exact hend
    have hquote? : quote? (b :: more ++ rest) = none := by
      rw [List.cons_append, quote?, if_neg (not_or.2 ⟨hne _ (by decide), hne _ (by decide)⟩)]
    have hquoted : (b :: more ++ rest).head?.any isIndent = false := by
      have hspace := hne (byte ' ') (by decide)
      have htab := hne (byte '\t') (by decide)
      simp [isIndent, hspace, htab]
    simp only [Option.toList_none, List.nil_append, List.length_nil, Nat.add_zero] at hwidth ⊢
    rw [opener?_indent hindent hquoted]
    simp only [hquote?, Option.isSome_none, Bool.false_eq_true, if_false, List.drop_zero,
      takeWhile_exact hlabel hrest, List.drop_left, Option.isNone_none, Bool.true_or,
      Bool.and_true, Nat.add_zero]
    rw [if_pos (by exact hb), hline, hwidth]
    rfl
  | some q =>
    have hkind : q = byte '\'' ∨ q = byte '\x22' := hquote q rfl
    have hends : Word.continuesIdentifier q = false ∧ isIndent q = false := by
      rcases hkind with rfl | rfl <;> decide
    have hrest : (q :: rest).head?.any Word.continuesIdentifier = false := hends.1
    have hquote? : ∀ bs, quote? (q :: bs) = some q := fun bs => by rw [quote?, if_pos hkind]
    have hquoted : ∀ bs : Bytes, (q :: bs).head?.any isIndent = false := fun _ => hends.2
    simp only [Option.toList_some, List.singleton_append, List.length_singleton] at hwidth ⊢
    rw [opener?_indent hindent (hquoted _)]
    simp only [hquote?, Option.isSome_some, if_true, List.drop_succ_cons, List.drop_zero,
      takeWhile_exact hlabel hrest, List.drop_left, Option.isNone_some, Bool.false_or,
      List.head?_cons, beq_self_eq_true, Bool.and_true]
    rw [if_pos (by exact hb), hline, hwidth]
    rfl

theorem lineEnd?_append {x : Bytes} (h : 2 ≤ x.length) (tail tail' : Bytes) :
    lineEnd? (x ++ tail) = lineEnd? (x ++ tail') := by
  match x, h with
  | _ :: _ :: _, _ => rfl

/-- An opener with its line end and a byte behind it is one whatever comes further behind. -/
theorem opener?_append {x tail : Bytes} {o : Opener} (h : opener? (x ++ tail) = some o)
    (hwidth : o.width < x.length) (tail' : Bytes) : opener? (x ++ tail') = some o := by
  obtain ⟨indent, quote, rest, w, hopens⟩ := exists_opens h
  have hw := hopens.width
  have hpos := (lineEnd?_bounds hopens.line).1
  have htext : x ++ tail = (indent ++ (quote.toList ++ (o.label ++ quote.toList))) ++ rest := by
    rw [hopens.text]
    simp
  obtain ⟨more, rfl, rfl⟩ : ∃ more,
      x = (indent ++ (quote.toList ++ (o.label ++ quote.toList))) ++ more ∧
        rest = more ++ tail := by
    rcases List.append_eq_append_iff.1 htext with ⟨more, hpre, -⟩ | h
    · have hlen := congrArg List.length hpre
      simp only [List.length_append] at hlen
      omega
    · exact h
  have hmore : 2 ≤ more.length := by
    simp only [List.length_append] at hwidth
    omega
  have hline : lineEnd? (more ++ tail') = some w := by
    rw [lineEnd?_append hmore tail' tail, hopens.line]
  have hopens' : Opens o (indent ++ (quote.toList ++ (o.label ++ quote.toList)) ++ more ++ tail')
      indent quote (more ++ tail') w := { hopens with text := by simp, line := hline }
  exact hopens'.opener?_eq

/-- A sign completes no opener. -/
theorem opener?_begins (hc : Begins c) {x z' : Bytes} {o : Opener}
    (h : opener? (x ++ c :: z') = some o) (z : Bytes) : ∃ o', opener? (x ++ z) = some o' := by
  obtain ⟨indent, quote, rest, w, hopens⟩ := exists_opens h
  obtain ⟨b, r, rfl, hb⟩ := exists_of_lineEnd? hopens.line
  have hne : c ≠ b := by rcases hc with rfl | rfl <;> rcases hb with rfl | rfl <;> decide
  have hnotMem : c ∉ indent ++ (quote.toList ++ (o.label ++ quote.toList)) := by
    have hindent : c ∉ indent := fun hmem => by
      have hi := hopens.indented c hmem
      rcases hc with rfl | rfl <;> exact absurd hi (by decide)
    have hquote : c ∉ quote.toList := fun hmem => by
      have hq := hopens.quoted c (Option.mem_toList.1 hmem)
      rcases hc with rfl | rfl <;> exact absurd hq (by decide)
    have hlabel : c ∉ o.label := fun hmem => by
      have hl := hopens.continues c hmem
      simp [hc.not_continues] at hl
    simp [hindent, hquote, hlabel]
  have htext : x ++ c :: z' =
      (indent ++ (quote.toList ++ (o.label ++ quote.toList))) ++ b :: r := by
    rw [hopens.text]
    simp
  obtain ⟨more, rfl⟩ : ∃ more,
      x = (indent ++ (quote.toList ++ (o.label ++ quote.toList))) ++ b :: more := by
    rcases List.append_eq_append_iff.1 htext with ⟨more, hpre, hrest⟩ | ⟨more, rfl, hrest⟩
    · cases more with
      | nil => exact absurd (List.cons.inj hrest).1 hne
      | cons a more =>
        obtain ⟨rfl, -⟩ := List.cons.inj hrest
        exact absurd (hpre ▸ List.mem_append_right _ (List.mem_cons_self ..)) hnotMem
    · cases more with
      | nil => exact absurd (List.cons.inj hrest).1.symm hne
      | cons a more => exact ⟨more, by rw [(List.cons.inj hrest).1]⟩
  obtain ⟨w', hw'⟩ : ∃ w', lineEnd? (b :: (more ++ z)) = some w' := by
    rcases hb with rfl | rfl
    · exact ⟨1, rfl⟩
    · rw [lineEnd?, if_neg (by decide), if_pos rfl]
      split <;> exact ⟨_, rfl⟩
  have hopens' : Opens
      ⟨o.label, indent.length + quote.toList.length + o.label.length + quote.toList.length + w'⟩
      (indent ++ (quote.toList ++ (o.label ++ quote.toList)) ++ b :: more ++ z) indent quote
      (b :: (more ++ z)) w' :=
    { hopens with text := by simp, line := hw', width := rfl }
  exact ⟨_, hopens'.opener?_eq⟩

theorem closing?_eq_some_iff {label line : Bytes} {n : Nat}
    (hstarts : label.head?.any Word.startsIdentifier) :
    closing? label line = some n ↔ ∃ indent rest, line = indent ++ (label ++ rest) ∧
      (∀ b ∈ indent, isIndent b) ∧ rest.head?.any Word.continuesIdentifier = false ∧
      n = indent.length + label.length := by
  have hlabel : ∀ rest, (label ++ rest).head?.any isIndent = false := by
    intro rest
    obtain ⟨b, hb, hstartsb⟩ := (Option.any_eq_true _ _).1 hstarts
    obtain ⟨more, rfl⟩ := List.head?_eq_some_iff.1 hb
    have hindent : isIndent b = false := by
      rw [Bool.eq_false_iff]
      intro hindent
      simp [not_starts_of_isIndent hindent] at hstartsb
    exact hindent
  constructor
  · intro h
    obtain ⟨indent, text, rfl, hindent, htext, htake⟩ := exists_takeWhile isIndent line
    simp only [closing?, htake, List.drop_left] at h
    split at h
    · rename_i hclose
      obtain ⟨hpre, hnext⟩ := Bool.and_eq_true_iff.1 hclose
      obtain ⟨rest, rfl⟩ := List.isPrefixOf_iff_prefix.1 hpre
      rw [List.drop_left] at hnext
      exact ⟨indent, rest, rfl, hindent, by simpa using hnext, (Option.some.inj h).symm⟩
    · simp at h
  · rintro ⟨indent, rest, rfl, hindent, hrest, rfl⟩
    simp [closing?, takeWhile_exact hindent (hlabel rest), hrest]

theorem bodyLength_pos {label bs : Bytes} {atLineStart : Bool}
    (hstarts : label.head?.any Word.startsIdentifier) (h : bs ≠ []) :
    0 < bodyLength label atLineStart bs := by
  have hlabel : 0 < label.length := by
    cases label with
    | nil => cases hstarts
    | cons b label => exact Nat.succ_pos _
  fun_cases bodyLength label atLineStart bs with
  | case1 => exact absurd rfl h
  | case2 b rest n hclose =>
    obtain ⟨_, _, _, _, _, rfl⟩ := (closing?_eq_some_iff hstarts).1 hclose
    omega
  | case3 => omega
  | case4 => omega

/-- A label in a line that goes on with no identifier behind an identifier byte lies in front of
that place, so it stands there before any other text that does not go on so. -/
theorem closing?_append {label x tail tail' : Bytes} {n : Nat}
    (hstarts : label.head?.any Word.startsIdentifier)
    (hcontinues : ∀ b ∈ label, Word.continuesIdentifier b)
    (hx : ∃ e ∈ x, Word.continuesIdentifier e)
    (htail : tail.head?.any Word.continuesIdentifier = false)
    (htail' : tail'.head?.any Word.continuesIdentifier = false)
    (h : closing? label (x ++ tail) = some n) : closing? label (x ++ tail') = some n := by
  obtain ⟨indent, rest, htext, hindent, hrest, rfl⟩ := (closing?_eq_some_iff hstarts).1 h
  rw [← List.append_assoc] at htext
  rw [closing?_eq_some_iff hstarts]
  rcases List.append_eq_append_iff.1 htext with ⟨u, hu, rfl⟩ | ⟨v, rfl, rfl⟩
  · cases u with
    | nil =>
      rw [List.append_nil] at hu
      exact ⟨indent, tail', by rw [← hu, List.append_assoc], hindent, htail', rfl⟩
    | cons d u =>
      -- the label would reach into the text behind and could not be one there
      exfalso
      rcases List.append_eq_append_iff.1 hu with ⟨v, -, hv⟩ | ⟨v, hv, -⟩
      · have hd : d ∈ label := hv ▸ List.mem_append_right _ (List.mem_cons_self ..)
        have hnot : Word.continuesIdentifier d = false := htail
        simp [hcontinues d hd] at hnot
      · obtain ⟨e, he, hcont⟩ := hx
        have hi := hindent e (hv ▸ List.mem_append_left _ he)
        have hspace : Word.isSpace e := by
          rcases Bool.or_eq_true_iff.1 hi with hi | hi <;> rw [eq_of_beq hi] <;> decide
        simp [Word.not_continuesIdentifier_of_isSpace hspace] at hcont
  · refine ⟨indent, v ++ tail', by simp, hindent, ?_, rfl⟩
    cases v with
    | nil => exact htail'
    | cons d v => exact hrest

/-- A body that is closed before the end of the text ends with its label, which goes on with nothing
that comes behind, and is closed there before any other text that it does not go on with. -/
theorem bodyLength_append {label : Bytes} {atLineStart : Bool} {x tail : Bytes}
    (hstarts : label.head?.any Word.startsIdentifier)
    (hcontinues : ∀ b ∈ label, Word.continuesIdentifier b) (htail : tail ≠ [])
    (h : bodyLength label atLineStart (x ++ tail) = x.length) :
    (∃ e ∈ x, Word.continuesIdentifier e) ∧ tail.head?.any Word.continuesIdentifier = false ∧
      ∀ tail', tail'.head?.any Word.continuesIdentifier = false →
        bodyLength label atLineStart (x ++ tail') = x.length := by
  induction x generalizing atLineStart with
  | nil => exact absurd h (Nat.ne_of_gt (bodyLength_pos hstarts htail))
  | cons b x ih =>
    rw [List.cons_append, List.length_cons] at h
    cases atLineStart with
    | false =>
      rw [bodyLength] at h
      obtain ⟨⟨e, he, hcont⟩, hhead, hall⟩ := @ih (b == byte '\n') (by omega)
      refine ⟨⟨e, List.mem_cons_of_mem _ he, hcont⟩, hhead, fun tail' h' => ?_⟩
      rw [List.cons_append, bodyLength, hall tail' h', List.length_cons, Nat.add_comm]
    | true =>
      rw [bodyLength] at h
      rcases hclose : closing? label (b :: (x ++ tail)) with _ | n
      · rw [hclose] at h
        dsimp only at h
        obtain ⟨⟨e, he, hcont⟩, hhead, hall⟩ := @ih (b == byte '\n') (by omega)
        have hlast : ∃ e ∈ b :: x, Word.continuesIdentifier e :=
          ⟨e, List.mem_cons_of_mem _ he, hcont⟩
        refine ⟨hlast, hhead, fun tail' h' => ?_⟩
        have hnone : closing? label (b :: (x ++ tail')) = none := by
          refine Option.eq_none_iff_forall_ne_some.2 fun n hn => ?_
          have hsome := closing?_append hstarts hcontinues hlast h' hhead hn
          rw [List.cons_append, hclose] at hsome
          cases hsome
        rw [List.cons_append, bodyLength, hnone]
        dsimp only
        rw [hall tail' h', List.length_cons, Nat.add_comm]
      · rw [hclose] at h
        obtain ⟨indent, rest, htext, hindent, hrest, rfl⟩ := (closing?_eq_some_iff hstarts).1 hclose
        dsimp only at h
        rw [← List.cons_append, ← List.append_assoc] at htext
        obtain ⟨hx, rfl⟩ := List.append_inj htext (by
          rw [List.length_append, List.length_cons]
          exact h.symm)
        have hlast : ∃ e ∈ b :: x, Word.continuesIdentifier e := by
          obtain ⟨e, he, hstartse⟩ := (Option.any_eq_true _ _).1 hstarts
          exact ⟨e, hx ▸ List.mem_append_right _ (List.mem_of_mem_head? he),
            Word.continuesIdentifier_of_startsIdentifier hstartse⟩
        refine ⟨hlast, hrest, fun tail' h' => ?_⟩
        have hsome := closing?_append hstarts hcontinues hlast hrest h' hclose
        rw [List.cons_append] at hsome
        rw [List.cons_append, bodyLength, hsome]
        exact h

/-- A heredoc that is closed before the end of the text is closed there before any text that its
label does not go on with. -/
theorem length?_append {x tail : Bytes} (htail : tail ≠ [])
    (h : length? (x ++ tail) = some x.length) :
    tail.head?.any Word.continuesIdentifier = false ∧
      ∀ tail', tail'.head?.any Word.continuesIdentifier = false →
        length? (x ++ tail') = some x.length := by
  obtain ⟨o, ho, hlen⟩ := Option.map_eq_some_iff.1 h
  obtain ⟨indent, quote, rest, w, hopens⟩ := exists_opens ho
  have hle : o.width ≤ x.length := by omega
  rw [List.drop_append_of_le_length hle] at hlen
  have hpos : 0 < bodyLength o.label true (x.drop o.width ++ tail) :=
    bodyLength_pos hopens.starts (List.append_ne_nil_of_right_ne_nil _ htail)
  have hbody : bodyLength o.label true (x.drop o.width ++ tail) = (x.drop o.width).length := by
    rw [List.length_drop]
    omega
  obtain ⟨-, hhead, hall⟩ := bodyLength_append hopens.starts hopens.continues htail hbody
  refine ⟨hhead, fun tail' h' => ?_⟩
  rw [length?, opener?_append ho (by omega) tail', Option.map_some,
    List.drop_append_of_le_length hle, hall tail' h', List.length_drop]
  exact congrArg some (by omega)

end Heredoc

end

end ExplicitNull
