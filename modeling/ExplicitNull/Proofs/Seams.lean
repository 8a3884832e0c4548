import ExplicitNull.Proofs.Boundaries

/-!
What stands on the two sides of a seam between tokens. A token ends where it is closed by a byte of
its own or before a byte that cannot go on with it. So one of the two bytes at a seam is ASCII, and
a seam never parts a letter from a letter or a backslash before it: it runs between two characters
of the source and not through a word.
-/
namespace ExplicitNull

structure Apart (c d : UInt8) : Prop where
  ascii : c < 0x80 ∨ d < 0x80
  word : ¬((Ascii.isAlpha c ∨ c = byte '\\') ∧ Ascii.isAlpha d)

/-- Whether all that meets where two texts are joined can meet at a seam. -/
def Seam (left right : Bytes) : Prop := ∀ c ∈ left.getLast?, ∀ d ∈ right.head?, Apart c d

structure Closes (c : UInt8) : Prop where
  ascii : c < 0x80
  not_alpha : Ascii.isAlpha c = false
  not_backslash : c ≠ byte '\\'

instance (c : UInt8) : Decidable (Closes c) :=
  decidable_of_iff (c < 0x80 ∧ Ascii.isAlpha c = false ∧ c ≠ byte '\\')
    ⟨fun h => ⟨h.1, h.2.1, h.2.2⟩, fun h => ⟨h.1, h.2, h.3⟩⟩

theorem Word.ascii_of_not_startsIdentifier {b : UInt8} (h : startsIdentifier b = false) :
    b < 0x80 ∧ Ascii.isAlpha b = false := by
  grind [startsIdentifier]

theorem Word.not_startsIdentifier_of_not_continues {b : UInt8}
    (h : continuesIdentifier b = false) : startsIdentifier b = false := by
  grind [startsIdentifier, continuesIdentifier, Ascii.isAlphanum]

theorem closes_of_isSpace {b : UInt8} (h : Word.isSpace b) : Closes b := by
  have hcontinues := Word.not_continuesIdentifier_of_isSpace h
  have hstarts := Word.not_startsIdentifier_of_not_continues hcontinues
  obtain ⟨hascii, halpha⟩ := Word.ascii_of_not_startsIdentifier hstarts
  refine ⟨hascii, halpha, ?_⟩
  rintro rfl
  exact absurd h (by decide)

section

variable {left right x y z : Bytes}

theorem seam_of_closes (h : ∀ c ∈ left.getLast?, Closes c) : Seam left right := by
  intro c hc d _
  obtain ⟨hascii, halpha, hslash⟩ := h c hc
  exact ⟨.inl hascii, fun hword => by simp [halpha, hslash] at hword⟩

theorem seam_concat {c : UInt8} (hc : Closes c) (x right : Bytes) : Seam (x ++ [c]) right := by
  refine seam_of_closes fun d hd => ?_
  rw [List.getLast?_concat] at hd
  obtain rfl : c = d := Option.some.inj hd
  exact hc

theorem seam_of_stops (h : ∀ d ∈ right.head?, Word.startsIdentifier d = false) :
    Seam left right := by
  intro c _ d hd
  obtain ⟨hascii, halpha⟩ := Word.ascii_of_not_startsIdentifier (h d hd)
  exact ⟨.inr hascii, fun hword => by simp [halpha] at hword⟩

theorem seam_of_ascii (h : ∀ c ∈ left, c < 0x80)
    (hnext : ∀ d ∈ right.head?, Ascii.isAlpha d = false) : Seam left right := by
  intro c hc d hd
  exact ⟨.inl (h c (List.mem_of_getLast? hc)), fun hword => by simp [hnext d hd] at hword⟩

theorem Seam.of_append_right (h : Seam x (y ++ z)) : Seam x y := by
  intro c hc d hd
  refine h c hc d ?_
  rw [List.head?_append, Option.mem_def.1 hd]
  rfl

theorem Seam.of_append_left (h : Seam (x ++ y) z) : Seam y z := by
  intro c hc d hd
  refine h c ?_ d hd
  rw [List.getLast?_append, Option.mem_def.1 hc]
  rfl

end

theorem stops_takeWhile {p : UInt8 → Bool} (hp : ∀ d, p d = false → Word.startsIdentifier d = false)
    (bs : Bytes) :
    ∀ d ∈ (bs.drop (bs.takeWhile p).length).head?, Word.startsIdentifier d = false := by
  intro d hd
  rw [drop_length_takeWhile] at hd
  have hnot := List.head?_dropWhile_not p bs
  rw [Option.mem_def.1 hd] at hnot
  exact hp d (by simpa using hnot)

theorem Word.stops_nameLength (bs : Bytes) :
    ∀ d ∈ (bs.drop (nameLength bs)).head?, startsIdentifier d = false := by
  induction bs with
  | nil => simp [nameLength]
  | cons b rest ih =>
    rw [nameLength]
    by_cases hb : continuesIdentifier b
    · rw [if_pos hb, Nat.add_comm, List.drop_succ_cons]
      exact ih
    rw [if_neg hb]
    by_cases hslash : b = byte '\\' ∧ rest.head?.any startsIdentifier
    · rw [if_pos hslash, Nat.add_comm, List.drop_succ_cons]
      exact ih
    · rw [if_neg hslash, List.drop_zero]
      rintro d ⟨⟩
      exact not_startsIdentifier_of_not_continues (by simpa using hb)

/-- Whether a scan of `n` bytes ends with one that closes, if not at the end of the text. -/
def EndsClosed (n : Nat) (bs : Bytes) : Prop :=
  n = bs.length ∨ ∃ c, (bs.take n).getLast? = some c ∧ Closes c

theorem EndsClosed.cons {n : Nat} {bs : Bytes} (h : EndsClosed n bs) (b : UInt8) :
    EndsClosed (1 + n) (b :: bs) := by
  rcases h with rfl | ⟨c, hc, hcloses⟩
  · exact .inl (Nat.add_comm ..)
  · refine .inr ⟨c, ?_, hcloses⟩
    rw [Nat.add_comm, List.take_succ_cons, List.getLast?_cons, hc]
    rfl

theorem endsClosed_one {b : UInt8} (h : Closes b) (rest : Bytes) : EndsClosed 1 (b :: rest) :=
  .inr ⟨b, rfl, h⟩

theorem EndsClosed.seam {n : Nat} {bs : Bytes} (h : EndsClosed n bs) (left : Bytes) :
    Seam (left ++ bs.take n) (bs.drop n) := by
  rcases h with rfl | ⟨c, hc, hcloses⟩
  · exact seam_of_stops (by simp)
  · refine seam_of_closes fun d hd => ?_
    rw [List.getLast?_append, hc] at hd
    obtain rfl : c = d := Option.some.inj hd
    exact hcloses

def Quoted.Frame.IsKnown : Frame → Prop
  | .string q => q = byte '\'' ∨ q = byte '\x22' ∨ q = byte '\x60'
  | .brace => True

theorem Quoted.Frame.IsKnown.closes {q : UInt8} (h : (Frame.string q).IsKnown) : Closes q := by
  rcases h with rfl | rfl | rfl <;> decide

/-- A string that is closed ends with its quote. -/
theorem Quoted.endsClosed_length {frames : List Frame} {bs : Bytes} (hne : frames ≠ [])
    (hknown : ∀ f ∈ frames, f.IsKnown) : EndsClosed (length frames bs) bs := by
  fun_induction length frames bs with
  | case1 => exact absurd rfl hne
  | case2 => exact .inl rfl
  | case3 => exact .inl rfl
  | case4 q outer c rest ih =>
    have hrest := ((ih (by simp) hknown).cons c).cons (byte '\\')
    rwa [← Nat.add_assoc] at hrest
  | case5 outer b rest hslash ih =>
    cases outer with
    | nil =>
      rw [length]
      exact endsClosed_one (hknown (.string b) (List.mem_cons_self ..)).closes rest
    | cons f outer => exact (ih (by simp) fun g hg => hknown g (List.mem_cons_of_mem _ hg)).cons b
  | case6 q outer b rest hslash hquote hopen ih =>
    refine (ih (by simp) fun f hf => ?_).cons b
    rcases List.mem_cons.1 hf with rfl | hf
    · trivial
    · exact hknown f hf
  | case7 q outer b rest hslash hquote hopen ih => exact (ih (by simp) hknown).cons b
  | case8 outer rest ih =>
    refine (ih (by simp) fun f hf => ?_).cons _
    rcases List.mem_cons.1 hf with rfl | hf
    · trivial
    · exact hknown f hf
  | case9 outer rest hopen ih =>
    cases outer with
    | nil =>
      rw [length]
      exact endsClosed_one (b := byte '\x7d') (by decide) rest
    | cons f outer => exact (ih (by simp) fun g hg => hknown g (List.mem_cons_of_mem _ hg)).cons _
  | case10 outer b rest hopen hclose hquote ih =>
    refine (ih (by simp) fun f hf => ?_).cons b
    rcases List.mem_cons.1 hf with rfl | hf
    · exact hquote.imp_right .inl
    · exact hknown f hf
  | case11 outer b rest hopen hclose hquote ih => exact (ih (by simp) hknown).cons b

namespace Heredoc

theorem stops_closing? {label line : Bytes} {n : Nat} (h : closing? label line = some n) :
    ∀ d ∈ (line.drop n).head?, Word.startsIdentifier d = false := by
  unfold closing? at h
  extract_lets indent text at h
  split at h
  · rename_i hclose
    obtain rfl := Option.some.inj h
    intro d hd
    have hnext := (Bool.and_eq_true_iff.1 hclose).2
    rw [List.drop_drop, Option.mem_def.1 hd] at hnext
    exact Word.not_startsIdentifier_of_not_continues (by simpa using hnext)
  · simp at h

theorem stops_bodyLength (label : Bytes) (atLineStart : Bool) (bs : Bytes) :
    ∀ d ∈ (bs.drop (bodyLength label atLineStart bs)).head?, Word.startsIdentifier d = false := by
  fun_induction bodyLength label atLineStart bs with
  | case1 => simp
  | case2 b rest n h => exact stops_closing? h
  | case3 b rest h ih =>
    rw [Nat.add_comm, List.drop_succ_cons]
    exact ih
  | case4 b rest ih =>
    rw [Nat.add_comm, List.drop_succ_cons]
    exact ih

theorem stops_length? {bs : Bytes} {n : Nat} (h : length? bs = some n) :
    ∀ d ∈ (bs.drop n).head?, Word.startsIdentifier d = false := by
  obtain ⟨o, _, rfl⟩ := Option.map_eq_some_iff.1 h
  rw [← List.drop_drop]
  exact stops_bodyLength o.label true _

end Heredoc

namespace Lexer

theorem stops_htmlLength (bs : Bytes) :
    ∀ d ∈ (bs.drop (htmlLength bs)).head?, Word.startsIdentifier d = false := by
  fun_induction htmlLength bs with
  | case1 => simp
  | case2 b rest h =>
    rintro d ⟨⟩
    rw [h.1]
    decide
  | case3 b rest h ih =>
    rw [Nat.add_comm, List.drop_succ_cons]
    exact ih

theorem stops_lineLength (bs : Bytes) :
    ∀ d ∈ (bs.drop (lineLength bs)).head?, Word.startsIdentifier d = false := by
  fun_induction lineLength bs with
  | case1 => simp
  | case2 b rest h =>
    rintro d ⟨⟩
    rcases h with rfl | rfl <;> decide
  | case3 b rest hline h =>
    rintro d ⟨⟩
    rw [h.1]
    decide
  | case4 b rest hline h ih =>
    rw [Nat.add_comm, List.drop_succ_cons]
    exact ih

theorem endsClosed_blockLength (bs : Bytes) : EndsClosed (blockLength bs) bs := by
  fun_induction blockLength bs with
  | case1 => exact .inl rfl
  | case2 b rest h =>
    obtain ⟨rest, rfl⟩ := List.head?_eq_some_iff.1 h.2
    exact (endsClosed_one (by decide) rest).cons b
  | case3 b rest h ih => exact ih.cons b

/-- The bytes of a number are ASCII and no letter comes behind them. -/
theorem numberLength_bytes (hex : Bool) (last : UInt8) (bs : Bytes) :
    (∀ c ∈ bs.take (numberLength hex last bs), c < 0x80) ∧
      ∀ d ∈ (bs.drop (numberLength hex last bs)).head?, Ascii.isAlpha d = false := by
  have hascii : ∀ b, Ascii.isAlphanum b ∨ b = byte '_' ∨ b = byte '.' → b < 0x80 := by
    have hlower : byte 'z' = 122 := by decide
    have hupper : byte 'Z' = 90 := by decide
    have hdigit : byte '9' = 57 := by decide
    have hunder : byte '_' = 95 := by decide
    have hdot : byte '.' = 46 := by decide
    intro b hb
    grind [Ascii.isAlphanum, Ascii.isAlpha, Ascii.isUpper, Ascii.isLower, Ascii.isDigit]
  have hstep : ∀ (n : Nat) (b : UInt8) (rest : Bytes), b < 0x80 →
      ((∀ c ∈ rest.take n, c < 0x80) ∧ ∀ d ∈ (rest.drop n).head?, Ascii.isAlpha d = false) →
      (∀ c ∈ (b :: rest).take (1 + n), c < 0x80) ∧
        ∀ d ∈ ((b :: rest).drop (1 + n)).head?, Ascii.isAlpha d = false := by
    intro n b rest hb h
    rw [Nat.add_comm, List.take_succ_cons, List.drop_succ_cons, List.forall_mem_cons]
    exact ⟨⟨hb, h.1⟩, h.2⟩
  fun_induction numberLength hex last bs with
  | case1 => simp
  | case2 last b rest h ih => exact hstep _ b rest (hascii b h) ih
  | case3 last b rest h hsign ih =>
    refine hstep _ b rest ?_ ih
    rcases hsign.2.1 with rfl | rfl <;> decide
  | case4 last b rest h hsign =>
    refine ⟨by simp, ?_⟩
    rintro d ⟨⟩
    rw [Bool.eq_false_iff]
    exact fun halpha => h (.inl (by simp [Ascii.isAlphanum, halpha]))

theorem seam_operator {b : UInt8} {rest : Bytes}
    (hb : Closes b ∨ b = byte '\\' ∧ rest.head?.any Word.startsIdentifier = false) :
    Seam (b :: rest.take (operatorLength (b :: rest)))
      (rest.drop (operatorLength (b :: rest))) := by
  have hends : ∀ op ∈ operators, op ≠ [] ∧ op.getLast?.all (Closes ·) = true := by decide
  unfold operatorLength
  split
  · rename_i op hfind
    obtain ⟨hne, hcloses⟩ := hends op (List.mem_of_find?_eq_some hfind)
    have hop : op.isPrefixOf (b :: rest) = true := by simpa using List.find?_some hfind
    have htake := List.prefix_iff_eq_take.1 (List.isPrefixOf_iff_prefix.1 hop)
    obtain ⟨c, more, rfl⟩ := List.exists_cons_of_ne_nil hne
    rw [List.length_cons, List.take_succ_cons] at htake
    rw [List.length_cons, Nat.add_sub_cancel, ← htake]
    refine seam_of_closes fun d hd => ?_
    rw [Option.mem_def.1 hd] at hcloses
    simpa using hcloses
  · rw [List.take_zero, List.drop_zero]
    rcases hb with hb | ⟨rfl, hnext⟩
    · refine seam_of_closes ?_
      rintro c ⟨⟩
      exact hb
    · refine seam_of_stops fun d hd => ?_
      rw [Option.mem_def.1 hd] at hnext
      exact hnext

theorem closes_of_isPunctuation {b : UInt8} (h : Ascii.isPunctuation b) (hb : b ≠ byte '\\') :
    Closes b := by
  have hlower : byte 'a' = 97 ∧ byte 'z' = 122 := by decide
  have hupper : byte 'A' = 65 ∧ byte 'Z' = 90 := by decide
  have hsigns : byte '!' = 33 ∧ byte '/' = 47 ∧ byte ':' = 58 ∧ byte '@' = 64 ∧ byte '[' = 91 ∧
    byte '\x60' = 96 ∧ byte '\x7b' = 123 ∧ byte '~' = 126 := by decide
  refine ⟨?_, ?_, hb⟩ <;>
    grind [Ascii.isPunctuation, Ascii.isAlpha, Ascii.isUpper, Ascii.isLower]

theorem seam_codeLexeme (nameNext : Bool) (b : UInt8) (rest : Bytes) :
    Seam (b :: rest.take (codeLexeme nameNext b rest).extra)
      (rest.drop (codeLexeme nameNext b rest).extra) := by
  -- a word is read in preference to an operator or a stray byte, so it goes first
  by_cases hword : Word.startsIdentifier b ∨
      b = byte '\\' ∧ rest.head?.any Word.startsIdentifier
  · rw [codeLexeme_word nameNext hword]
    exact seam_of_stops (Word.stops_nameLength rest)
  rw [not_or, Bool.not_eq_true, not_and, Bool.not_eq_true] at hword
  have hrule := codeLexeme_rule nameNext b rest
  generalize codeLexeme nameNext b rest = l at hrule ⊢
  cases hrule with
  | space h =>
    refine seam_of_closes fun c hc => closes_of_isSpace ?_
    rcases List.mem_cons.1 (List.mem_of_getLast? hc) with rfl | hc
    · exact h
    · rw [← List.prefix_iff_eq_take.1 (List.takeWhile_prefix Word.isSpace)] at hc
      exact List.mem_takeWhile_imp hc
  | closeTag h hnext =>
    obtain ⟨rest, rfl⟩ := List.head?_eq_some_iff.1 hnext
    exact seam_concat (c := byte '>') (by decide) [b] rest
  | attributeOpen h hnext =>
    obtain ⟨rest, rfl⟩ := List.head?_eq_some_iff.1 hnext
    exact seam_concat (c := byte '[') (by decide) [b] rest
  | lineComment => exact seam_of_stops (stops_lineLength rest)
  | blockComment h hnext =>
    obtain ⟨rest, rfl⟩ := List.head?_eq_some_iff.1 hnext
    have hseam := (endsClosed_blockLength rest).seam [b, byte '*']
    rw [blockComment, List.drop_succ_cons, List.drop_zero]
    dsimp only
    rwa [Nat.add_comm, List.take_succ_cons, List.drop_succ_cons]
  | variableName =>
    exact seam_of_stops
      (stops_takeWhile (fun _ => Word.not_startsIdentifier_of_not_continues) rest)
  | word => exact seam_of_stops (Word.stops_nameLength rest)
  | number h =>
    obtain ⟨hbytes, hnext⟩ := numberLength_bytes
      (b == byte '0' && (rest.head? == some (byte 'x') || rest.head? == some (byte 'X'))) b rest
    refine seam_of_ascii (fun c hc => ?_) hnext
    rcases List.mem_cons.1 hc with rfl | hc
    · exact (Word.ascii_of_not_startsIdentifier hword.1).1
    · exact hbytes c hc
  | quoted h =>
    refine (Quoted.endsClosed_length (by simp) fun f hf => ?_).seam [b]
    obtain rfl := List.mem_singleton.1 hf
    exact h
  | heredoc h hmark hn =>
    rw [← List.drop_drop]
    exact seam_of_stops (Heredoc.stops_length? hn)
  | operator h =>
    refine seam_operator ?_
    by_cases hslash : b = byte '\\'
    · exact .inr ⟨hslash, hword.2 hslash⟩
    · exact .inl (closes_of_isPunctuation h hslash)
  | other h =>
    refine seam_of_closes ?_
    rintro c ⟨⟩
    obtain ⟨hascii, halpha⟩ := Word.ascii_of_not_startsIdentifier hword.1
    refine ⟨hascii, halpha, ?_⟩
    rintro rfl
    exact h (by decide)

theorem seam_htmlLexeme (b : UInt8) (rest : Bytes) :
    Seam (b :: rest.take (htmlLexeme b rest).extra) (rest.drop (htmlLexeme b rest).extra) := by
  unfold htmlLexeme
  split
  · rename_i hopen
    obtain ⟨rest, rfl⟩ := List.head?_eq_some_iff.1 hopen.2
    dsimp only
    rw [List.drop_succ_cons, List.drop_zero, Nat.add_comm, List.take_succ_cons,
      List.drop_succ_cons]
    unfold tagLength
    split
    · rename_i htag
      refine seam_of_stops fun d hd => ?_
      have hspace := htag.2
      rw [Option.mem_def.1 hd] at hspace
      exact Word.not_startsIdentifier_of_not_continues
        (Word.not_continuesIdentifier_of_isSpace hspace)
    · split
      · rename_i hequals
        obtain ⟨rest, rfl⟩ := List.head?_eq_some_iff.1 hequals
        exact seam_concat (c := byte '=') (by decide) [b, byte '?'] rest
      · exact seam_concat (c := byte '?') (by decide) [b] rest
  · exact seam_of_stops (stops_htmlLength rest)

theorem seam_lexeme (s : State) (b : UInt8) (rest : Bytes) :
    Seam (b :: rest.take (lexeme s b rest).extra) (rest.drop (lexeme s b rest).extra) := by
  unfold lexeme
  split
  · exact seam_codeLexeme s.nameNext b rest
  · exact seam_htmlLexeme b rest

/-- There is a seam between a token and what it is read in front of. -/
theorem Yields.seam {s : State} {t : Token} {tail : Bytes} (h : Yields s t tail) :
    Seam t.text tail := by
  obtain ⟨b, x, htext, hlex⟩ := h
  have hseam := seam_lexeme s b (x ++ tail)
  rw [hlex] at hseam
  dsimp only at hseam
  rwa [List.take_left, List.drop_left, ← htext] at hseam

end Lexer

end ExplicitNull
