import ExplicitNull.Proofs.Rereads

/-!
Where quoted strings end, told by a grammar. A string holds escapes of two bytes, other bytes and,
unless it is single-quoted, interpolated code between braces; such code holds bytes, groups in
braces and strings, and begins with a dollar sign. What is open is closed by the first byte that
ends a text of the grammar, and if no byte does the string takes all that is left.
-/
namespace ExplicitNull

namespace Quoted

def quotes : List UInt8 := [byte '\'', byte '\x22', byte '\x60']

def Frame.closing : Frame → UInt8
  | .string q => q
  | .brace => byte '\x7d'

/-- The texts that may stand between what opens a string or a brace and what closes it. -/
inductive Encloses : Frame → Bytes → Prop
  | nil (f : Frame) : Encloses f []
  | escape {q c : UInt8} {s : Bytes} (hs : Encloses (.string q) s) :
      Encloses (.string q) (byte '\\' :: c :: s)
  | plain {q c : UInt8} {s : Bytes} (hslash : c ≠ byte '\\') (hquote : c ≠ q)
      (hopen : q ≠ byte '\'' → c = byte '\x7b' → s.head? ≠ some (byte '$'))
      (hs : Encloses (.string q) s) : Encloses (.string q) (c :: s)
  | interpolation {q : UInt8} {items s : Bytes} (hq : q ≠ byte '\'')
      (hhead : items.head? = some (byte '$')) (hitems : Encloses .brace items)
      (hs : Encloses (.string q) s) :
      Encloses (.string q) (byte '\x7b' :: (items ++ byte '\x7d' :: s))
  | code {c : UInt8} {s : Bytes} (hopen : c ≠ byte '\x7b') (hclose : c ≠ byte '\x7d')
      (hquote : c ≠ byte '\'' ∧ c ≠ byte '\x22') (hs : Encloses .brace s) : Encloses .brace (c :: s)
  | group {items s : Bytes} (hitems : Encloses .brace items) (hs : Encloses .brace s) :
      Encloses .brace (byte '\x7b' :: (items ++ byte '\x7d' :: s))
  | string {q : UInt8} {body s : Bytes} (hq : q = byte '\'' ∨ q = byte '\x22')
      (hbody : Encloses (.string q) body) (hs : Encloses .brace s) :
      Encloses .brace (q :: (body ++ q :: s))

/-- Whether a text begins with what closes all that is open, innermost first. -/
def ClosesAll : List Frame → Bytes → Prop
  | [], _ => True
  | f :: outer, bs =>
    ∃ body rest, Encloses f body ∧ bs = body ++ f.closing :: rest ∧ ClosesAll outer rest

theorem length_closing {f : Frame} (hf : ∀ q, f = .string q → q ∈ quotes) (outer : List Frame)
    (rest : Bytes) : length (f :: outer) (f.closing :: rest) = 1 + length outer rest := by
  cases f with
  | string q =>
    have hslash : q ≠ byte '\\' := by
      rintro rfl
      exact absurd (hf _ rfl) (by decide)
    rw [Frame.closing, quotedLength_string hslash, if_pos rfl]
  | brace => simp +decide [length]

/-- What follows a text that is enclosed begins with the text or with what closes it. -/
theorem head?_append_closing (s : Bytes) (c : UInt8) (rest : Bytes) :
    (s ++ c :: rest).head? = some (s.head?.getD c) := by
  cases s <;> rfl

/-- A text of the grammar is closed right behind it. -/
theorem Encloses.length_eq {f : Frame} {s : Bytes} (h : Encloses f s)
    (hf : ∀ q, f = .string q → q ∈ quotes) (outer : List Frame) (rest : Bytes) :
    length (f :: outer) (s ++ f.closing :: rest) = s.length + 1 + length outer rest := by
  induction h generalizing outer rest with
  | nil f =>
    rw [List.nil_append, length_closing hf, List.length_nil, Nat.zero_add]
  | escape _ ih =>
    rw [List.cons_append, List.cons_append, length, if_pos rfl, ih hf, List.length_cons,
      List.length_cons]
    omega
  | @plain q c s hslash hquote hopen _ ih =>
    have hnot : ¬(c = byte '\x7b' ∧ q ≠ byte '\'' ∧
        (s ++ (Frame.string q).closing :: rest).head? = some (byte '$')) := by
      rintro ⟨hc, hq, hhead⟩
      rw [head?_append_closing] at hhead
      rcases hs : s.head? with _ | d
      · rw [hs] at hhead
        obtain rfl : q = byte '$' := Option.some.inj hhead
        exact absurd (hf _ rfl) (by decide)
      · rw [hs] at hhead
        exact hopen hq hc (hs.trans hhead)
    rw [List.cons_append, quotedLength_string hslash, if_neg hquote, if_neg hnot, ih hf,
      List.length_cons]
    omega
  | @interpolation q items s hq hhead _ _ ihitems ihs =>
    have hquote : byte '\x7b' ≠ q := by
      rintro rfl
      exact absurd (hf _ rfl) (by decide)
    have hopens : (items ++ byte '\x7d' :: (s ++ q :: rest)).head? = some (byte '$') := by
      rw [head?_append_closing, hhead]
      rfl
    have hcode : length (.brace :: .string q :: outer) (items ++ byte '\x7d' :: (s ++ q :: rest)) =
        items.length + 1 + length (.string q :: outer) (s ++ q :: rest) :=
      ihitems (by simp) _ _
    have hstring : length (.string q :: outer) (s ++ q :: rest) =
        s.length + 1 + length outer rest := ihs hf _ _
    simp only [Frame.closing, List.cons_append, List.append_assoc]
    rw [quotedLength_string (by decide), if_neg hquote, if_pos ⟨rfl, hq, hopens⟩, hcode, hstring]
    simp only [List.length_cons, List.length_append]
    omega
  | @code c s hopen hclose hquote _ ih =>
    rw [List.cons_append, length, if_neg hopen, if_neg hclose, if_neg (by simp [hquote]), ih hf,
      List.length_cons]
    omega
  | @group items s _ _ ihitems ihs =>
    have hgroup : length (.brace :: .brace :: outer)
        (items ++ byte '\x7d' :: (s ++ byte '\x7d' :: rest)) =
          items.length + 1 + length (.brace :: outer) (s ++ byte '\x7d' :: rest) :=
      ihitems hf _ _
    have hcode : length (.brace :: outer) (s ++ byte '\x7d' :: rest) =
        s.length + 1 + length outer rest := ihs hf _ _
    simp only [Frame.closing, List.cons_append, List.append_assoc]
    rw [length, if_pos rfl, hgroup, hcode]
    simp only [List.length_cons, List.length_append]
    omega
  | @string q body s hq _ _ ihbody ihs =>
    have hproper : ∀ p, Frame.string q = .string p → p ∈ quotes := by
      rintro p hp
      obtain rfl := Frame.string.inj hp
      rcases hq with rfl | rfl <;> decide
    have hopen : q ≠ byte '\x7b' := by rcases hq with rfl | rfl <;> decide
    have hclose : q ≠ byte '\x7d' := by rcases hq with rfl | rfl <;> decide
    have hstring : length (.string q :: .brace :: outer) (body ++ q :: (s ++ byte '\x7d' :: rest)) =
        body.length + 1 + length (.brace :: outer) (s ++ byte '\x7d' :: rest) :=
      ihbody hproper _ _
    have hcode : length (.brace :: outer) (s ++ byte '\x7d' :: rest) =
        s.length + 1 + length outer rest := ihs hf _ _
    simp only [Frame.closing, List.cons_append, List.append_assoc]
    rw [length, if_neg hopen, if_neg hclose, if_pos hq, hstring, hcode]
    simp only [List.length_cons, List.length_append]
    omega

theorem one_add_eq_or {n : Nat} {c : UInt8} {rest : Bytes} {P Q : Prop} (h : n = rest.length ∨ P)
    (hstep : P → Q) : 1 + n = (c :: rest).length ∨ Q :=
  h.imp (fun hall => by rw [hall, List.length_cons, Nat.add_comm]) hstep

/-- The scan takes all that is left, or what is left closes all that is open. -/
theorem length_eq_or_closes (frames : List Frame) (bs : Bytes) :
    length frames bs = bs.length ∨ ClosesAll frames bs := by
  fun_induction length frames bs with
  | case1 => exact .inr trivial
  | case2 => exact .inl rfl
  | case3 => exact .inl rfl
  | case4 q outer c rest ih =>
    refine ih.imp (fun hall => by rw [hall, List.length_cons, List.length_cons, Nat.add_comm]) ?_
    rintro ⟨body, more, hbody, rfl, hmore⟩
    exact ⟨_, more, hbody.escape, rfl, hmore⟩
  | case5 outer q rest hslash ih =>
    exact one_add_eq_or ih fun hmore => ⟨[], rest, .nil _, rfl, hmore⟩
  | case6 q outer c rest hslash hquote hopen ih =>
    refine one_add_eq_or ih ?_
    rintro ⟨items, _, hitems, rfl, body, more, hbody, rfl, hmore⟩
    obtain ⟨rfl, hq, hhead⟩ := hopen
    rw [head?_append_closing] at hhead
    have hdollar : items.head? = some (byte '$') := by
      rcases hitem : items.head? with _ | d
      · rw [hitem] at hhead
        exact absurd (Option.some.inj hhead) (by decide)
      · rwa [hitem] at hhead
    exact ⟨_, more, .interpolation hq hdollar hitems hbody, by simp [Frame.closing], hmore⟩
  | case7 q outer c rest hslash hquote hopen ih =>
    refine one_add_eq_or ih ?_
    rintro ⟨body, more, hbody, rfl, hmore⟩
    refine ⟨_, more, .plain hslash hquote (fun hq hc hhead => hopen ⟨hc, hq, ?_⟩) hbody, rfl, hmore⟩
    rw [head?_append_closing, hhead]
    rfl
  | case8 outer rest ih =>
    refine one_add_eq_or ih ?_
    rintro ⟨items, _, hitems, rfl, body, more, hbody, rfl, hmore⟩
    exact ⟨_, more, .group hitems hbody, by simp [Frame.closing], hmore⟩
  | case9 outer rest hopen ih =>
    exact one_add_eq_or ih fun hmore => ⟨[], rest, .nil _, rfl, hmore⟩
  | case10 outer q rest hopen hclose hquote ih =>
    refine one_add_eq_or ih ?_
    rintro ⟨body, _, hbody, rfl, items, more, hitems, rfl, hmore⟩
    exact ⟨_, more, .string hquote hbody hitems, by simp [Frame.closing], hmore⟩
  | case11 outer c rest hopen hclose hquote ih =>
    refine one_add_eq_or ih ?_
    rintro ⟨body, more, hbody, rfl, hmore⟩
    exact ⟨_, more, .code hopen hclose (not_or.1 hquote) hbody, rfl, hmore⟩

end Quoted

namespace Lexer

open Quoted

/-- Behind a string no plain name is called for. -/
theorem namesNext_of_quotes {q : UInt8} (hq : q ∈ quotes) (s : Bytes) :
    Word.namesNext (q :: s) = false := by
  simp only [quotes, List.mem_cons, List.not_mem_nil, or_false] at hq
  rcases hq with rfl | rfl | rfl <;> rfl

theorem tokensFrom_of_quotes {q : UInt8} (hq : q ∈ quotes) (nameNext : Bool) (bs : Bytes) :
    tokensFrom ⟨true, nameNext⟩ (q :: bs) =
      ⟨.literal, q :: bs.take (length [.string q] bs)⟩ ::
        tokensFrom ⟨true, false⟩ (bs.drop (length [.string q] bs)) := by
  have hrule : q = byte '\'' ∨ q = byte '\x22' ∨ q = byte '\x60' := by simpa [quotes] using hq
  have hlex : lexeme ⟨true, nameNext⟩ q bs = ⟨.literal, length [.string q] bs⟩ :=
    codeLexeme_quoted nameNext hrule
  have hafter : State.after ⟨true, nameNext⟩ ⟨.literal, q :: bs.take (length [.string q] bs)⟩ =
      ⟨true, false⟩ := by
    simp +decide [State.after, Token.isTrivia, namesNext_of_quotes hq]
  rw [tokensFrom, hlex]
  exact congrArg (_ :: tokensFrom · _) hafter

/-- In code a string of the grammar is read as one token, whatever stands behind it; a quote with
no such string is read as one token with all that is left. -/
theorem tokensFrom_quoted {q : UInt8} (hq : q ∈ quotes) (nameNext : Bool) :
    (∀ body rest : Bytes, Encloses (.string q) body →
      tokensFrom ⟨true, nameNext⟩ (q :: (body ++ q :: rest)) =
        ⟨.literal, q :: (body ++ [q])⟩ :: tokensFrom ⟨true, false⟩ rest) ∧
      ∀ bs : Bytes, (∀ body rest, Encloses (.string q) body → bs ≠ body ++ q :: rest) →
        tokensFrom ⟨true, nameNext⟩ (q :: bs) = [⟨.literal, q :: bs⟩] := by
  constructor
  · intro body rest hbody
    have hproper : ∀ p, Frame.string q = .string p → p ∈ quotes := by
      rintro p hp
      obtain rfl := Frame.string.inj hp
      exact hq
    have hlength : length [.string q] (body ++ q :: rest) = (body ++ [q]).length := by
      have hends := hbody.length_eq hproper [] rest
      rw [length] at hends
      rw [List.length_append, List.length_singleton]
      exact hends
    have hsplit : body ++ q :: rest = (body ++ [q]) ++ rest := by simp
    rw [tokensFrom_of_quotes hq, hlength, hsplit, List.take_left, List.drop_left]
  · intro bs hopen
    have hlength : length [.string q] bs = bs.length := by
      refine (length_eq_or_closes [.string q] bs).resolve_right ?_
      rintro ⟨body, rest, hbody, hsplit, -⟩
      exact hopen body rest hbody hsplit
    rw [tokensFrom_of_quotes hq, hlength, List.take_length, List.drop_length, tokensFrom]

/-- A string with another one in its interpolation ends behind both; without the end of the other it
has none. -/
theorem tokensFrom_quoted_nestedSample :
    byte '\x22' ∈ quotes ∧
      Encloses (.string (byte '\x22')) (utf8 "\x7b$b[\"k\\\"\"]\x7d") ∧
      tokensFrom ⟨true, false⟩ (utf8 "\"\x7b$b[\"k\\\"\"]\x7d\";") =
        [⟨.literal, utf8 "\"\x7b$b[\"k\\\"\"]\x7d\""⟩, ⟨.punct, utf8 ";"⟩] ∧
      tokensFrom ⟨true, false⟩ (utf8 "\"\x7b$b[\"k;") = [⟨.literal, utf8 "\"\x7b$b[\"k;"⟩] := by
  have hq : byte '\x22' ∈ quotes := by decide
  have hkey : Encloses (.string (byte '\x22')) [byte 'k', byte '\\', byte '\x22'] :=
    .plain (by decide) (by decide) (by decide) (.escape (.nil _))
  have hcode : Encloses .brace (byte '$' :: byte 'b' :: byte '[' :: byte '\x22' ::
      ([byte 'k', byte '\\', byte '\x22'] ++ byte '\x22' :: [byte ']'])) := by
    refine .code (by decide) (by decide) (by decide) (.code (by decide) (by decide) (by decide)
      (.code (by decide) (by decide) (by decide) (.string (.inr rfl) hkey ?_)))
    exact .code (by decide) (by decide) (by decide) (.nil _)
  have hbody : Encloses (.string (byte '\x22')) (utf8 "\x7b$b[\"k\\\"\"]\x7d") :=
    .interpolation (by decide) rfl hcode (.nil _)
  obtain ⟨hends, hopen⟩ := tokensFrom_quoted hq false
  have hsemicolon : tokensFrom ⟨true, false⟩ (utf8 ";") = [⟨.punct, utf8 ";"⟩] := by
    have hreads : Reads ⟨true, false⟩ [⟨.punct, utf8 ";"⟩] := by decide
    exact hreads
  have hstring := hends _ (utf8 ";") hbody
  rw [hsemicolon] at hstring
  refine ⟨hq, hbody, hstring, hopen (utf8 "\x7b$b[\"k;") fun body rest henc heq => ?_⟩
  -- the scan of the open string takes all bytes, and the last one is no quote
  have hall : length [.string (byte '\x22')] (utf8 "\x7b$b[\"k;") = 7 := by
    decide +kernel
  have hlength := henc.length_eq (by simpa using hq) [] rest
  rw [heq] at hall
  have hnil : rest = [] := by
    have hlen := congrArg List.length heq
    have hseven : (utf8 "\x7b$b[\"k;").length = 7 := by decide
    rw [hseven, List.length_append, List.length_cons] at hlen
    have hbefore : body.length + 1 = 7 := by simpa [length] using hlength.symm.trans hall
    exact List.eq_nil_of_length_eq_zero (by omega)
  have hlast : (utf8 "\x7b$b[\"k;").getLast? = some (byte '\x22') := by
    rw [heq, hnil, List.getLast?_concat]
  exact absurd hlast (by decide)

end Lexer

end ExplicitNull
