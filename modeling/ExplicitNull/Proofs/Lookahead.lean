import ExplicitNull.Proofs.Lossless
import Mathlib.Data.List.Find
import Mathlib.Tactic.ByContra

/-!
How far reading looks ahead. A token may depend on text behind it, without bound behind a `<<<`, but
never on text behind an opening parenthesis or a comma that comes after the token: all that reads on
stops there at the latest.
-/
namespace ExplicitNull

/-- The bytes that reading ahead does not pass. -/
def Bars (c : UInt8) : Prop := c = byte '(' ∨ c = byte ','

instance (c : UInt8) : Decidable (Bars c) := inferInstanceAs (Decidable (_ ∨ _))

section

variable {c : UInt8}

theorem Bars.not_space (hc : Bars c) : Word.isSpace c = false := by
  rcases hc with rfl | rfl <;> decide

theorem Bars.not_continues (hc : Bars c) : Word.continuesIdentifier c = false := by
  rcases hc with rfl | rfl <;> decide

theorem Bars.not_indent (hc : Bars c) : Heredoc.isIndent c = false := by
  rcases hc with rfl | rfl <;> decide

theorem takeWhile_append_bar {p : UInt8 → Bool} (hp : p c = false) (y z : Bytes) :
    (y ++ c :: z).takeWhile p = y.takeWhile p := by
  induction y with
  | nil => simp [hp]
  | cons a y ih => simp only [List.cons_append, List.takeWhile_cons, ih]

theorem head?_append_bar (c : UInt8) (y z z' : Bytes) :
    (y ++ c :: z).head? = (y ++ c :: z').head? := by
  cases y <;> rfl

theorem isPrefixOf_append_bar {part : Bytes} (hpart : c ∉ part) (y z z' : Bytes) :
    part.isPrefixOf (y ++ c :: z) = part.isPrefixOf (y ++ c :: z') := by
  induction y generalizing part with
  | nil =>
    cases part with
    | nil => rfl
    | cons a part =>
      have hne : (a == c) = false := by
        rw [beq_eq_false_iff_ne]
        rintro rfl
        exact hpart (List.mem_cons_self ..)
      simp [List.isPrefixOf, hne]
  | cons b y ih =>
    cases part with
    | nil => rfl
    | cons a part =>
      have hrest : c ∉ part := fun h => hpart (List.mem_cons_of_mem _ h)
      simp only [List.cons_append, List.isPrefixOf, ih hrest]

theorem length_le_of_prefix_bar {part y z : Bytes} (hpart : c ∉ part)
    (h : part <+: y ++ c :: z) : part.length ≤ y.length := by
  by_contra hlt
  have hindex : y.length < part.length := by omega
  have hget := List.IsPrefix.getElem h hindex
  rw [List.getElem_append_right (Nat.le_refl _)] at hget
  simp only [Nat.sub_self, List.getElem_cons_zero] at hget
  exact hpart (hget ▸ List.getElem_mem hindex)

theorem nameLength_append_bar (hc : Bars c) (y z z' : Bytes) :
    Word.nameLength (y ++ c :: z) = Word.nameLength (y ++ c :: z') := by
  have hslash : c ≠ byte '\\' := by rcases hc with rfl | rfl <;> decide
  induction y with
  | nil => simp [Word.nameLength, hc.not_continues, hslash]
  | cons a y ih =>
    simp only [List.cons_append, Word.nameLength, head?_append_bar c y z z', ih]

theorem exists_cons_of_append_bar {a : UInt8} {y z bs : Bytes} (h : y ++ c :: z = a :: bs)
    (hy : 0 < y.length) : ∃ y', y = a :: y' ∧ bs = y' ++ c :: z := by
  cases y with
  | nil => simp at hy
  | cons b y =>
    obtain ⟨rfl, rfl⟩ := List.cons.inj h
    exact ⟨y, rfl, rfl⟩

/-- The scan of a string at a byte that is no backslash. -/
theorem quotedLength_string {b : UInt8} (hb : b ≠ byte '\\') (q : UInt8)
    (outer : List Quoted.Frame) (rest : Bytes) :
    Quoted.length (.string q :: outer) (b :: rest) =
      if b = q then 1 + Quoted.length outer rest
      else if b = byte '\x7b' ∧ q ≠ byte '\'' ∧ rest.head? = some (byte '$') then
        1 + Quoted.length (.brace :: .string q :: outer) rest
      else 1 + Quoted.length (.string q :: outer) rest := by
  rw [Quoted.length.eq_def]
  simp only [if_neg hb]

theorem quotedLength_append_bar {frames : List Quoted.Frame} {y z : Bytes}
    (z' : Bytes) (h : Quoted.length frames (y ++ c :: z) ≤ y.length) :
    Quoted.length frames (y ++ c :: z') = Quoted.length frames (y ++ c :: z) := by
  generalize htext : y ++ c :: z = bs at h ⊢
  fun_induction Quoted.length frames bs generalizing y with
  | case1 => simp [Quoted.length]
  | case2 => simp at htext
  | case3 q outer =>
    obtain ⟨y, rfl, hnil⟩ := exists_cons_of_append_bar htext (by omega)
    simp at hnil
  | case4 q outer d rest ih =>
    obtain ⟨y, rfl, htext'⟩ := exists_cons_of_append_bar htext (by omega)
    rw [List.length_cons] at h
    obtain ⟨y, rfl, hrest⟩ := exists_cons_of_append_bar htext'.symm (by omega)
    rw [List.length_cons] at h
    simp [Quoted.length, ih hrest.symm (by omega)]
  | case5 outer b rest hslash ih =>
    obtain ⟨y, rfl, hrest⟩ := exists_cons_of_append_bar htext (by omega)
    rw [List.length_cons] at h
    rw [List.cons_append, quotedLength_string hslash, if_pos rfl, ih hrest.symm (by omega)]
  | case6 q outer b rest hslash hquote hopen ih =>
    obtain ⟨y, rfl, rfl⟩ := exists_cons_of_append_bar htext (by omega)
    rw [List.length_cons] at h
    rw [head?_append_bar c y z z'] at hopen
    rw [List.cons_append, quotedLength_string hslash, if_neg hquote, if_pos hopen,
      ih rfl (by omega)]
  | case7 q outer b rest hslash hquote hopen ih =>
    obtain ⟨y, rfl, rfl⟩ := exists_cons_of_append_bar htext (by omega)
    rw [List.length_cons] at h
    rw [head?_append_bar c y z z'] at hopen
    rw [List.cons_append, quotedLength_string hslash, if_neg hquote, if_neg hopen,
      ih rfl (by omega)]
  | case8 outer rest ih =>
    obtain ⟨y, rfl, hrest⟩ := exists_cons_of_append_bar htext (by omega)
    rw [List.length_cons] at h
    simp [Quoted.length, ih hrest.symm (by omega)]
  | case9 outer rest hopen ih =>
    obtain ⟨y, rfl, hrest⟩ := exists_cons_of_append_bar htext (by omega)
    rw [List.length_cons] at h
    simp [Quoted.length, hopen, ih hrest.symm (by omega)]
  | case10 outer b rest hopen hclose hquote ih =>
    obtain ⟨y, rfl, hrest⟩ := exists_cons_of_append_bar htext (by omega)
    rw [List.length_cons] at h
    rw [List.cons_append, Quoted.length, if_neg hopen, if_neg hclose, if_pos hquote,
      ih hrest.symm (by omega)]
  | case11 outer b rest hopen hclose hquote ih =>
    obtain ⟨y, rfl, hrest⟩ := exists_cons_of_append_bar htext (by omega)
    rw [List.length_cons] at h
    rw [List.cons_append, Quoted.length, if_neg hopen, if_neg hclose, if_neg hquote,
      ih hrest.symm (by omega)]

namespace Heredoc

/-- The label of an opener has no byte that bars. -/
theorem not_mem_label (hc : Bars c) {bs : Bytes} {o : Opener} (h : opener? bs = some o) :
    c ∉ o.label := by
  unfold opener? at h
  extract_lets indent quoted quote quoteWidth labelled label closed at h
  split at h
  · obtain ⟨w, _, rfl⟩ := Option.map_eq_some_iff.1 h
    intro hmem
    have hcontinues := List.all_takeWhile (l := labelled) (p := Word.continuesIdentifier)
    rw [List.all_eq_true] at hcontinues
    have := hcontinues c hmem
    simp [hc.not_continues] at this
  · simp at h

theorem lineEnd?_append_bar (hc : Bars c) (y z z' : Bytes) :
    lineEnd? (y ++ c :: z) = lineEnd? (y ++ c :: z') := by
  have hne : c ≠ byte '\n' ∧ c ≠ byte '\r' := by rcases hc with rfl | rfl <;> decide
  cases y with
  | nil => simp [lineEnd?, hne]
  | cons a y => simp only [List.cons_append, lineEnd?, head?_append_bar c y z z']

theorem quote?_eq_some {bs : Bytes} {k : UInt8} (h : quote? bs = some k) :
    (k = byte '\'' ∨ k = byte '\x22') ∧ bs.head? = some k := by
  cases bs with
  | nil => simp [quote?] at h
  | cons b rest =>
    simp only [quote?] at h
    split at h
    · rename_i hb
      obtain rfl := Option.some.inj h
      exact ⟨hb, rfl⟩
    · simp at h

theorem quote?_append_bar (y z z' : Bytes) : quote? (y ++ c :: z) = quote? (y ++ c :: z') := by
  cases y <;> rfl

theorem drop_append_bar {n : Nat} {y : Bytes} (h : n ≤ y.length) (z : Bytes) :
    (y ++ c :: z).drop n = y.drop n ++ c :: z := List.drop_append_of_le_length h

theorem opener?_append_bar (hc : Bars c) (y z z' : Bytes) :
    opener? (y ++ c :: z) = opener? (y ++ c :: z') := by
  have hindent : (y.takeWhile isIndent).length ≤ y.length :=
    (List.takeWhile_sublist isIndent).length_le
  simp only [opener?, takeWhile_append_bar hc.not_indent, drop_append_bar hindent,
    quote?_append_bar _ z z']
  generalize y.drop (y.takeWhile isIndent).length = q
  have hlabel : ∀ y : Bytes, (y.takeWhile Word.continuesIdentifier).length ≤ y.length :=
    fun y => (List.takeWhile_sublist Word.continuesIdentifier).length_le
  rcases hquote : quote? (q ++ c :: z') with _ | k
  · simp only [Option.isSome_none, Bool.false_eq_true, if_false, List.drop_zero,
      takeWhile_append_bar hc.not_continues, drop_append_bar (hlabel q),
      head?_append_bar c q z z', head?_append_bar c (q.drop _) z z',
      lineEnd?_append_bar hc (q.drop _) z z']
  · obtain ⟨hkind, hhead⟩ := quote?_eq_some hquote
    have hk : k ≠ c := by rcases hc with rfl | rfl <;> rcases hkind with rfl | rfl <;> decide
    obtain ⟨q, rfl⟩ : ∃ q', q = k :: q' := by
      cases q with
      | nil => exact absurd (Option.some.inj hhead).symm hk
      | cons a q => exact ⟨q, by rw [Option.some.inj hhead]⟩
    simp only [Option.isSome_some, if_true, List.cons_append, List.drop_succ_cons, List.drop_zero,
      takeWhile_append_bar hc.not_continues, drop_append_bar (hlabel q),
      head?_append_bar c q z z', head?_append_bar c (q.drop _) z z']
    cases q.drop (q.takeWhile Word.continuesIdentifier).length with
    | nil => simp [Ne.symm hk]
    | cons a q' => simp only [List.cons_append, List.drop_succ_cons, List.drop_zero,
        lineEnd?_append_bar hc q' z z']

theorem closing?_append_bar (hc : Bars c) {label : Bytes} (hlabel : c ∉ label) (y z z' : Bytes) :
    closing? label (y ++ c :: z) = closing? label (y ++ c :: z') := by
  have hindent : (y.takeWhile isIndent).length ≤ y.length :=
    (List.takeWhile_sublist isIndent).length_le
  simp only [closing?, takeWhile_append_bar hc.not_indent, drop_append_bar hindent,
    isPrefixOf_append_bar hlabel _ z z']
  generalize y.drop (y.takeWhile isIndent).length = text
  by_cases hlabelled : label.isPrefixOf (text ++ c :: z')
  · have hle := length_le_of_prefix_bar hlabel (List.isPrefixOf_iff_prefix.1 hlabelled)
    rw [drop_append_bar hle, drop_append_bar hle, head?_append_bar c _ z z']
  · simp [hlabelled]

theorem bodyLength_append_bar (hc : Bars c) {label : Bytes} (hlabel : c ∉ label)
    {atLineStart : Bool} {y z : Bytes} (z' : Bytes)
    (h : bodyLength label atLineStart (y ++ c :: z) ≤ y.length) :
    bodyLength label atLineStart (y ++ c :: z') = bodyLength label atLineStart (y ++ c :: z) := by
  induction y generalizing atLineStart with
  | nil =>
    cases atLineStart with
    | false => simp [bodyLength] at h
    | true =>
      have hclosing := closing?_append_bar hc hlabel [] z z'
      rw [List.nil_append, List.nil_append] at hclosing
      rw [List.nil_append, bodyLength] at h ⊢
      rw [← hclosing, List.nil_append, bodyLength]
      split
      · rfl
      · rename_i hnone
        rw [hnone] at h
        simp at h
  | cons a y ih =>
    rw [List.cons_append, List.length_cons] at h
    cases atLineStart with
    | false =>
      rw [bodyLength] at h
      rw [List.cons_append, List.cons_append, bodyLength, bodyLength, ih (by omega)]
    | true =>
      have hclosing := closing?_append_bar hc hlabel (a :: y) z z'
      rw [List.cons_append, List.cons_append] at hclosing
      rw [bodyLength] at h
      rw [List.cons_append, List.cons_append, bodyLength, bodyLength, ← hclosing]
      split
      · rfl
      · rename_i hnone
        rw [hnone] at h
        dsimp only at h
        rw [ih (by omega)]

theorem length?_append_bar (hc : Bars c) {y z : Bytes} (z' : Bytes)
    (h : ∀ n, length? (y ++ c :: z) = some n → n ≤ y.length) :
    length? (y ++ c :: z') = length? (y ++ c :: z) := by
  rw [length?, length?, opener?_append_bar hc y z' z]
  rcases ho : opener? (y ++ c :: z) with _ | o
  · rfl
  · have htotal : o.width + bodyLength o.label true (List.drop o.width (y ++ c :: z)) ≤ y.length :=
      h _ (by rw [length?, ho]; rfl)
    have hwidth : o.width ≤ y.length := by omega
    have hbody : bodyLength o.label true (y.drop o.width ++ c :: z) ≤
        (y.drop o.width).length := by
      rw [drop_append_bar hwidth] at htotal
      rw [List.length_drop]
      omega
    simp only [Option.map_some, drop_append_bar hwidth,
      bodyLength_append_bar hc (not_mem_label hc ho) z' hbody]

end Heredoc

namespace Lexer

theorem htmlLength_append_bar (hc : Bars c) {y z : Bytes} (z' : Bytes)
    (h : htmlLength (y ++ c :: z) ≤ y.length) :
    htmlLength (y ++ c :: z') = htmlLength (y ++ c :: z) := by
  have hopen : c ≠ byte '<' := by rcases hc with rfl | rfl <;> decide
  induction y with
  | nil => simp [htmlLength, hopen] at h
  | cons a y ih =>
    simp only [List.cons_append, htmlLength, List.length_cons] at h ⊢
    rw [head?_append_bar c y z' z]
    split
    · rfl
    · rename_i hne
      rw [if_neg hne] at h
      rw [ih (by omega)]

theorem lineLength_append_bar (hc : Bars c) {y z : Bytes} (z' : Bytes)
    (h : lineLength (y ++ c :: z) ≤ y.length) :
    lineLength (y ++ c :: z') = lineLength (y ++ c :: z) := by
  have hne : c ≠ byte '\n' ∧ c ≠ byte '\r' ∧ c ≠ byte '?' := by
    rcases hc with rfl | rfl <;> decide
  induction y with
  | nil => simp [lineLength, hne] at h
  | cons a y ih =>
    simp only [List.cons_append, lineLength, List.length_cons] at h ⊢
    rw [head?_append_bar c y z' z]
    split
    · rfl
    · rename_i hend
      rw [if_neg hend] at h
      split
      · rfl
      · rename_i hclose
        rw [if_neg hclose] at h
        rw [ih (by omega)]

theorem blockLength_append_bar (hc : Bars c) {y z : Bytes} (z' : Bytes)
    (h : blockLength (y ++ c :: z) ≤ y.length) :
    blockLength (y ++ c :: z') = blockLength (y ++ c :: z) := by
  have hstar : c ≠ byte '*' := by rcases hc with rfl | rfl <;> decide
  induction y with
  | nil => simp [blockLength, hstar] at h
  | cons a y ih =>
    simp only [List.cons_append, blockLength, List.length_cons] at h ⊢
    rw [head?_append_bar c y z' z]
    split
    · rfl
    · rename_i hne
      rw [if_neg hne] at h
      rw [ih (by omega)]

theorem numberLength_append_bar (hc : Bars c) (hex : Bool) (last : UInt8) (y z z' : Bytes) :
    numberLength hex last (y ++ c :: z) = numberLength hex last (y ++ c :: z') := by
  have hne : Ascii.isAlphanum c = false ∧ c ≠ byte '_' ∧ c ≠ byte '.' ∧ c ≠ byte '+' ∧
      c ≠ byte '-' := by rcases hc with rfl | rfl <;> decide
  induction y generalizing last with
  | nil => simp [numberLength, hne]
  | cons a y ih =>
    simp only [List.cons_append, numberLength, head?_append_bar c y z z', ih]

theorem tagLength_append_bar (hc : Bars c) (y z z' : Bytes) :
    tagLength (y ++ c :: z) = tagLength (y ++ c :: z') := by
  have hlower : Ascii.toLower c ∉ utf8 "php" := by rcases hc with rfl | rfl <;> decide
  have hword : ∀ z, y.length < 3 →
      Bytes.eqIgnoringCase ((y ++ c :: z).take 3) (utf8 "php") = false := by
    intro z hy
    rw [Bytes.eqIgnoringCase, beq_eq_false_iff_ne]
    intro heq
    have hphp : Bytes.toLower (utf8 "php") = utf8 "php" := by decide
    have hmem : c ∈ (y ++ c :: z).take 3 := by
      rw [List.take_append, List.mem_append]
      obtain ⟨n, hn⟩ : ∃ n, 3 - y.length = n + 1 := ⟨2 - y.length, by omega⟩
      exact .inr (by simp [hn])
    refine hlower ?_
    rw [← hphp, ← heq]
    exact List.mem_map.2 ⟨c, hmem, rfl⟩
  unfold tagLength
  rcases Nat.lt_or_ge y.length 3 with hy | hy
  · simp only [hword _ hy, head?_append_bar c y z z', Bool.false_eq_true, false_and]
  · rw [List.take_append_of_le_length hy, List.take_append_of_le_length hy,
      Heredoc.drop_append_bar hy, Heredoc.drop_append_bar hy, head?_append_bar c (y.drop 3) z z',
      head?_append_bar c y z z']

theorem operatorLength_append_bar (hc : Bars c) (y z z' : Bytes) :
    operatorLength (y ++ c :: z) = operatorLength (y ++ c :: z') := by
  have hops : ∀ op ∈ operators, c ∉ op := by rcases hc with rfl | rfl <;> decide
  have hfind := List.find?_congr fun op hop => isPrefixOf_append_bar (hops op hop) y z z'
  rw [operatorLength, operatorLength, hfind]

theorem blockComment_append_bar (hc : Bars c) {y z : Bytes} (z' : Bytes)
    (hstar : (y ++ c :: z).head? = some (byte '*'))
    (h : (blockComment (y ++ c :: z)).extra ≤ y.length) :
    blockComment (y ++ c :: z') = blockComment (y ++ c :: z) := by
  have hne : c ≠ byte '*' := by rcases hc with rfl | rfl <;> decide
  obtain ⟨y, rfl⟩ : ∃ y', y = byte '*' :: y' := by
    cases y with
    | nil => exact absurd (Option.some.inj hstar) hne
    | cons a y => exact ⟨y, by rw [Option.some.inj hstar]⟩
  have hblock : blockLength (y ++ c :: z) ≤ y.length := by
    simp only [blockComment, List.cons_append, List.drop_succ_cons, List.drop_zero,
      List.length_cons] at h
    omega
  simp only [blockComment, List.cons_append, List.drop_succ_cons, List.drop_zero,
    blockLength_append_bar hc z' hblock]
  cases y with
  | nil => simp [hne]
  | cons a y =>
    simp only [List.cons_append, List.head?_cons, List.drop_succ_cons, List.drop_zero,
      head?_append_bar c y z z']

theorem word_append_bar (hc : Bars c) (declared : Bool) (b : UInt8) {y z : Bytes} (z' : Bytes)
    (h : (word declared b (y ++ c :: z)).extra ≤ y.length) :
    word declared b (y ++ c :: z') = word declared b (y ++ c :: z) := by
  have hle : Word.nameLength (y ++ c :: z) ≤ y.length := h
  simp only [word, nameLength_append_bar hc y z' z, List.take_append_of_le_length hle]

/-- A token of the code that ends before a byte that bars does not depend on what follows that. -/
theorem codeLexeme_append_bar (hc : Bars c) (nameNext : Bool) (b : UInt8) {y z : Bytes}
    (z' : Bytes) (h : (codeLexeme nameNext b (y ++ c :: z)).extra ≤ y.length) :
    codeLexeme nameNext b (y ++ c :: z') = codeLexeme nameNext b (y ++ c :: z) := by
  have hmark : c ∉ utf8 "<<" := by rcases hc with rfl | rfl <;> decide
  have hoperator : operator b (y ++ c :: z') = operator b (y ++ c :: z) := by
    rw [operator, operator, ← List.cons_append, operatorLength_append_bar hc (b :: y) z' z]
    rfl
  simp only [codeLexeme] at h ⊢
  rw [head?_append_bar c y z' z, isPrefixOf_append_bar hmark y z' z]
  by_cases hspace : Word.isSpace b
  · rw [if_pos hspace, if_pos hspace, takeWhile_append_bar hc.not_space,
      takeWhile_append_bar hc.not_space]
  rw [if_neg hspace] at h ⊢
  rw [if_neg hspace]
  by_cases hclose : b = byte '?' ∧ (y ++ c :: z).head? = some (byte '>')
  · rw [if_pos hclose, if_pos hclose]
  rw [if_neg hclose] at h ⊢
  rw [if_neg hclose]
  by_cases hattr : b = byte '#' ∧ (y ++ c :: z).head? = some (byte '[')
  · rw [if_pos hattr, if_pos hattr]
  rw [if_neg hattr] at h ⊢
  rw [if_neg hattr]
  by_cases hline : b = byte '#' ∨ (b = byte '/' ∧ (y ++ c :: z).head? = some (byte '/'))
  · rw [if_pos hline] at h ⊢
    rw [if_pos hline, lineLength_append_bar hc z' h]
  rw [if_neg hline] at h ⊢
  rw [if_neg hline]
  by_cases hblock : b = byte '/' ∧ (y ++ c :: z).head? = some (byte '*')
  · rw [if_pos hblock] at h ⊢
    rw [if_pos hblock, blockComment_append_bar hc z' hblock.2 h]
  rw [if_neg hblock] at h ⊢
  rw [if_neg hblock]
  by_cases hvar : b = byte '$' ∧ (y ++ c :: z).head?.any Word.startsIdentifier
  · rw [if_pos hvar, if_pos hvar, takeWhile_append_bar hc.not_continues,
      takeWhile_append_bar hc.not_continues]
  rw [if_neg hvar] at h ⊢
  rw [if_neg hvar]
  by_cases hword : Word.startsIdentifier b ∨
      (b = byte '\\' ∧ (y ++ c :: z).head?.any Word.startsIdentifier)
  · rw [if_pos hword] at h ⊢
    rw [if_pos hword, word_append_bar hc nameNext b z' h]
  rw [if_neg hword] at h ⊢
  rw [if_neg hword]
  by_cases hnum : Ascii.isDigit b ∨ (b = byte '.' ∧ (y ++ c :: z).head?.any Ascii.isDigit)
  · rw [if_pos hnum, if_pos hnum, number, number, head?_append_bar c y z' z,
      numberLength_append_bar hc _ b y z' z]
  rw [if_neg hnum] at h ⊢
  rw [if_neg hnum]
  by_cases hquote : b = byte '\'' ∨ b = byte '\x22' ∨ b = byte '\x60'
  · rw [if_pos hquote] at h ⊢
    rw [if_pos hquote, quotedLength_append_bar z' h]
  rw [if_neg hquote] at h ⊢
  rw [if_neg hquote]
  by_cases hshift : b = byte '<' ∧ (utf8 "<<").isPrefixOf (y ++ c :: z)
  · rw [if_pos hshift] at h ⊢
    rw [if_pos hshift]
    have hlen : (utf8 "<<").length = 2 := by decide
    have hle := length_le_of_prefix_bar hmark (List.isPrefixOf_iff_prefix.1 hshift.2)
    rw [hlen] at hle
    rw [Heredoc.drop_append_bar hle] at h ⊢
    have hheredoc := Heredoc.length?_append_bar hc (y := y.drop 2) (z := z) z' fun n hn => by
      rw [hn] at h
      dsimp only at h
      rw [List.length_drop]
      omega
    rw [Heredoc.drop_append_bar hle, hheredoc, hoperator]
  rw [if_neg hshift, if_neg hshift, hoperator]

theorem htmlLexeme_append_bar (hc : Bars c) (b : UInt8) {y z : Bytes} (z' : Bytes)
    (h : (htmlLexeme b (y ++ c :: z)).extra ≤ y.length) :
    htmlLexeme b (y ++ c :: z') = htmlLexeme b (y ++ c :: z) := by
  unfold htmlLexeme at h ⊢
  rw [head?_append_bar c y z' z]
  by_cases hopen : b = byte '<' ∧ (y ++ c :: z).head? = some (byte '?')
  · rw [if_pos hopen, if_pos hopen]
    have hne : c ≠ byte '?' := by rcases hc with rfl | rfl <;> decide
    cases y with
    | nil => exact absurd (Option.some.inj hopen.2) hne
    | cons a y =>
      simp only [List.cons_append, List.drop_succ_cons, List.drop_zero,
        tagLength_append_bar hc y z' z]
  · rw [if_neg hopen] at h ⊢
    rw [if_neg hopen, htmlLength_append_bar hc z' h]

/-- A token that ends before a byte that bars does not depend on what follows that. -/
theorem lexeme_append_bar (hc : Bars c) (s : State) (b : UInt8) {y z : Bytes} (z' : Bytes)
    (h : (lexeme s b (y ++ c :: z)).extra ≤ y.length) :
    lexeme s b (y ++ c :: z') = lexeme s b (y ++ c :: z) := by
  unfold lexeme at h ⊢
  split
  · rename_i hcode
    rw [if_pos hcode] at h
    exact codeLexeme_append_bar hc s.nameNext b z' h
  · rename_i hcode
    rw [if_neg hcode] at h
    exact htmlLexeme_append_bar hc b z' h

end Lexer

end

end ExplicitNull
