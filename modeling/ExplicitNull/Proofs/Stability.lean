import ExplicitNull.Proofs.Relexing

/-!
Parameter lists of a text that pieces were put into. No token of a piece is a keyword, a bracket or a
comma and no piece goes between the keyword of a function and its opening parenthesis, so each
parameter list is found again, with its parentheses and the ends of its parameters moved by the
tokens put in before them.
-/
namespace ExplicitNull

def ParamList.shift (k : Nat) (points : List Nat) (l : ParamList) : ParamList where
  functionIndex := l.functionIndex
  opening := ExplicitNull.shift k points l.opening
  closing := ExplicitNull.shift k points l.closing
  params := l.params.map (Interval.shift k points)

/-- A token that has no part in the finding of parameter lists. -/
structure Token.Neutral (t : Token) : Prop where
  keyword : t.kind ≠ .keyword
  opening : t.isPunct "(" = false
  closing : t.isPunct ")" = false
  comma : t.isPunct "," = false
  nesting : Signature.nesting t = 0

theorem Style.neutral (style : Style) : ∀ t ∈ style.tokens, t.Neutral := by
  intro t h
  cases style with
  | mark =>
    obtain rfl := List.mem_singleton.1 h
    constructor <;> decide
  | union =>
    rcases List.mem_cons.1 h with rfl | h
    · constructor <;> decide
    · obtain rfl := List.mem_singleton.1 h
      constructor <;> decide

namespace Fix

variable {style : Style} {points : List Nat} {done rest : List Token} {t : Token}

/-- The token behind a piece is none that parameter lists are found by. -/
theorem Site.not_landmark (h : Site style done t rest) :
    t.kind ≠ .keyword ∧ t.isPunct "(" = false ∧ t.isPunct ")" = false ∧ t.isPunct "," = false := by
  have hkind : t.kind ≠ .punct → t.kind ≠ .keyword →
      t.kind ≠ .keyword ∧ t.isPunct "(" = false ∧ t.isPunct ")" = false ∧
        t.isPunct "," = false := by
    intro hpunct hkeyword
    refine ⟨hkeyword, ?_, ?_, ?_⟩ <;> exact Token.not_isPunct_of_kind hpunct _
  cases style with
  | mark => exact hkind (by simp [h.2]) (by simp [h.2])
  | union =>
    have hleads := h.2.1
    rw [leadsToVariable, Bool.or_eq_true, Bool.and_eq_true, beq_iff_eq] at hleads
    rcases hleads with hvar | ⟨hbetween, _⟩
    · exact hkind (by simp [hvar]) (by simp [hvar])
    · have hfollows := Lexer.followsType_of_isBetween hbetween
      simp only [Token.followsType, Bool.or_eq_true, Token.isPunct_iff] at hfollows
      rcases hfollows with (htrivia | ⟨hp, htext⟩) | ⟨hp, htext⟩
      · refine hkind ?_ ?_ <;> intro hk <;> simp [Token.isTrivia, hk] at htrivia
      · refine ⟨by simp [hp], ?_, ?_, ?_⟩ <;> simp +decide [Token.isPunct, htext]
      · refine ⟨by simp [hp], ?_, ?_, ?_⟩ <;> simp +decide [Token.isPunct, htext]

theorem Sited.site {i j : Nat} {ts : List Token} (h : Sited style points done i ts)
    (ht : ts[j]? = some t) (hj : i + j ∈ points) :
    Site style ((ts.take j).reverse ++ done) t (ts.drop (j + 1)) := by
  induction ts generalizing done i j with
  | nil => simp at ht
  | cons u rest ih =>
    cases j with
    | zero =>
      obtain rfl : u = t := Option.some.inj ht
      exact h.1 hj
    | succ j =>
      have hsite := ih h.2 ht (by rwa [Nat.add_right_comm])
      rwa [List.take_succ_cons, List.reverse_cons, List.append_assoc]

theorem Sited.notMem_of_not_started {i : Nat} (h : Sited style points done i (t :: rest))
    (hstarted : started done = false) : i ∉ points := by
  intro hi
  have := (h.1 hi).started
  simp [hstarted] at this

end Fix

namespace Signature

open ExplicitNull.Fix

variable {style : Style} {points : List Nat} {done : List Token} {piece : List Token}

theorem closingOffset?_append_neutral (hpiece : ∀ u ∈ piece, u.Neutral) (depth : Nat)
    (ts : List Token) :
    closingOffset? depth (piece ++ ts) = (closingOffset? depth ts).map (· + piece.length) := by
  induction piece with
  | nil => simp
  | cons u piece ih =>
    have hu := hpiece u (List.mem_cons_self ..)
    rw [List.cons_append, closingOffset?, hu.opening, hu.closing,
      ih fun v hv => hpiece v (List.mem_cons_of_mem _ hv)]
    simp only [Bool.false_eq_true, if_false, Option.map_map, List.length_cons]
    rfl

/-- What is put in before the element at a position, if anything. -/
theorem exists_insertAt_cons (hpiece : ∀ u ∈ piece, u.Neutral) (points : List Nat) (i : Nat)
    (t : Token) (rest : List Token) :
    ∃ before, (∀ u ∈ before, u.Neutral) ∧
      insertAt piece points i (t :: rest) = before ++ t :: insertAt piece points (i + 1) rest ∧
      shift piece.length points (i + 1) = shift piece.length points i + before.length + 1 ∧
      (i ∉ points → before = []) := by
  by_cases hi : i ∈ points
  · exact ⟨piece, hpiece, insertAt_cons_of_mem piece points hi t rest,
      by rw [shift_succ, if_pos hi], fun h => absurd hi h⟩
  · exact ⟨[], by simp, insertAt_cons_of_notMem piece points hi t rest,
      shift_succ_of_notMem hi, fun _ => rfl⟩

/-- The closing parenthesis moves by the tokens put in before it. -/
theorem closingOffset?_insertAt (hpiece : ∀ u ∈ piece, u.Neutral) (depth i : Nat)
    (ts : List Token) :
    closingOffset? depth (insertAt piece points i ts) =
      (closingOffset? depth ts).map fun o =>
        shift piece.length points (i + o + 1) - (shift piece.length points i + 1) := by
  induction ts generalizing depth i with
  | nil => rfl
  | cons t rest ih =>
    obtain ⟨before, hneutral, hcons, hshift, _⟩ := exists_insertAt_cons hpiece points i t rest
    have hstep : ∀ depth,
        ((closingOffset? depth (insertAt piece points (i + 1) rest)).map (· + 1)).map
            (· + before.length) =
          ((closingOffset? depth rest).map (· + 1)).map fun o =>
            shift piece.length points (i + o + 1) - (shift piece.length points i + 1) := by
      intro depth
      rw [ih, Option.map_map, Option.map_map, Option.map_map]
      congr 1
      funext o
      have hlt := shift_lt_shift piece.length points (by omega : i + 1 < i + 1 + o + 1)
      have hpos : i + (o + 1) + 1 = i + 1 + o + 1 := by omega
      simp only [Function.comp_apply, hpos]
      omega
    rw [hcons, closingOffset?_append_neutral hneutral, closingOffset?, closingOffset?]
    by_cases hopen : t.isPunct "("
    · rw [if_pos hopen, if_pos hopen, hstep]
    rw [if_neg hopen, if_neg hopen]
    by_cases hclose : t.isPunct ")"
    · rw [if_pos hclose, if_pos hclose]
      by_cases hdepth : depth ≤ 1
      · rw [if_pos hdepth, if_pos hdepth, Option.map_some, Option.map_some]
        simp only [Nat.add_zero, Option.some.injEq]
        omega
      · rw [if_neg hdepth, if_neg hdepth, hstep]
    · rw [if_neg hclose, if_neg hclose, hstep]

/-- A place among the tokens from which no piece comes before the next opening parenthesis or
comma. -/
structure Clear (style : Style) (points : List Nat) (done : List Token) (i : Nat)
    (ts : List Token) : Prop where
  sited : Sited style points done i ts
  notStarted : started done = false

theorem Clear.tail {i : Nat} {t : Token} {rest : List Token}
    (h : Clear style points done i (t :: rest)) (ht : t.opensParameter = false) :
    Clear style points (t :: done) (i + 1) rest where
  sited := h.sited.2
  notStarted := by
    rw [Bool.eq_false_iff]
    intro hstarted
    rcases started_of_cons hstarted with hopens | hstarted
    · simp [ht] at hopens
    · simp [h.notStarted] at hstarted

theorem Clear.insertAt_cons {i : Nat} {t : Token} {rest : List Token}
    (h : Clear style points done i (t :: rest)) :
    insertAt style.tokens points i (t :: rest) =
      t :: insertAt style.tokens points (i + 1) rest :=
  insertAt_cons_of_notMem _ _ (h.sited.notMem_of_not_started h.notStarted) t rest

/-- Whether a way of reading on from a clear place goes the same way where pieces were put in. -/
def Steady (style : Style) (points : List Nat) (f : List Token → List Token) : Prop :=
  ∀ {done i ts}, Clear style points done i ts →
    ∃ done' n, n ≤ ts.length ∧ f ts = ts.drop n ∧ Clear style points done' (i + n) (f ts) ∧
      f (insertAt style.tokens points i ts) = insertAt style.tokens points (i + n) (f ts)

theorem not_opensParameter_of_isTrivia {t : Token} (h : t.isTrivia) :
    t.opensParameter = false := by
  have hkind : t.kind ≠ .punct := by
    intro hk
    simp [Token.isTrivia, hk] at h
  simp [Token.opensParameter, Token.not_isPunct_of_kind hkind]

theorem steady_skipTrivia : Steady style points skipTrivia := by
  intro done i ts h
  induction ts generalizing done i with
  | nil => exact ⟨done, 0, Nat.le_refl _, rfl, h, rfl⟩
  | cons t rest ih =>
    rw [h.insertAt_cons, skipTrivia, skipTrivia, List.dropWhile_cons, List.dropWhile_cons]
    by_cases ht : t.isTrivia
    · rw [if_pos ht, if_pos ht]
      obtain ⟨done', n, hn, hdrop, hclear, heq⟩ :=
        ih (h.tail (not_opensParameter_of_isTrivia ht))
      have hsum : i + 1 + n = i + (n + 1) := by omega
      rw [hsum] at hclear heq
      exact ⟨done', n + 1, by simpa using hn, hdrop, hclear, heq⟩
    · rw [if_neg ht, if_neg ht]
      exact ⟨done, 0, Nat.zero_le _, rfl, h, h.insertAt_cons.symm⟩

theorem steady_skipOptional {p : Token → Bool} (hp : ∀ t, p t → t.opensParameter = false) :
    Steady style points (skipOptional p) := by
  intro done i ts h
  cases ts with
  | nil => exact ⟨done, 0, Nat.le_refl _, rfl, h, rfl⟩
  | cons t rest =>
    rw [h.insertAt_cons, skipOptional, skipOptional]
    by_cases ht : p t
    · rw [if_pos ht, if_pos ht]
      obtain ⟨done', n, hn, hdrop, hclear, heq⟩ := steady_skipTrivia (h.tail (hp t ht))
      have hsum : i + 1 + n = i + (n + 1) := by omega
      rw [hsum] at hclear heq
      exact ⟨done', n + 1, by simpa using hn, hdrop, hclear, heq⟩
    · rw [if_neg ht, if_neg ht]
      exact ⟨done, 0, Nat.zero_le _, rfl, h, h.insertAt_cons.symm⟩

theorem Steady.comp {f g : List Token → List Token} (hg : Steady style points g)
    (hf : Steady style points f) : Steady style points (fun ts => g (f ts)) := by
  intro done i ts h
  obtain ⟨done', n, hn, hdrop, hclear, heq⟩ := hf h
  obtain ⟨done'', m, hm, hdrop', hclear', heq'⟩ := hg hclear
  rw [hdrop, List.length_drop] at hm
  dsimp only
  refine ⟨done'', n + m, by omega, ?_, ?_, ?_⟩
  · rw [hdrop', hdrop, List.drop_drop]
  · rwa [← Nat.add_assoc]
  · rw [heq, heq', Nat.add_assoc]

theorem steady_fromOpening : Steady style points fun ts =>
    skipOptional (·.kind == .name) (skipOptional (·.isPunct "&") (skipTrivia ts)) := by
  refine Steady.comp (steady_skipOptional fun t ht => ?_)
    (Steady.comp (steady_skipOptional fun t ht => ?_) steady_skipTrivia)
  · have hkind : t.kind ≠ .punct := by simp [eq_of_beq ht]
    simp [Token.opensParameter, Token.not_isPunct_of_kind hkind]
  · have htext := (Token.isPunct_iff.1 ht).2
    simp +decide [Token.opensParameter, Token.isPunct, htext]

/-- The opening parenthesis moves by the tokens put in before it. -/
theorem shift_opening (piece : List Token) {i n : Nat} {rest list : List Token} (hi : i ∉ points)
    (hn : n ≤ rest.length) (hdrop : list = rest.drop n) :
    shift piece.length points i + 1 + ((insertAt piece points (i + 1) rest).length -
        (insertAt piece points (i + 1 + n) list).length) =
      shift piece.length points (i + 1 + (rest.length - list.length)) := by
  have hlength : list.length = rest.length - n := by rw [hdrop, List.length_drop]
  have hrest := length_insertAt piece points (i + 1) rest
  have hlist := length_insertAt piece points (i + 1 + n) list
  have hend : i + 1 + n + list.length = i + 1 + rest.length := by omega
  have hpos : i + 1 + (rest.length - list.length) = i + 1 + n := by omega
  have hstart := shift_succ_of_notMem (k := piece.length) hi
  have hle := shift_le_shift piece.length points (by omega : i + 1 ≤ i + 1 + n)
  rw [hend] at hlist
  rw [hpos]
  omega

/-- No piece goes before a closing parenthesis. -/
theorem notMem_of_closingOffset? {i offset : Nat} {ts : List Token}
    (h : Sited style points done i ts) (hoffset : closingOffset? 0 ts = some offset) :
    i + offset ∉ points := by
  intro hmem
  obtain ⟨t, ht, hclose⟩ := closingOffset?_eq_some hoffset
  have hsite := h.site ht hmem
  simp [hsite.not_landmark.2.2.1] at hclose

/-- The parentheses of a function move by the tokens put in before them. -/
theorem parentheses?_insertAt {i : Nat} {rest : List Token}
    (h : Clear style points done (i + 1) rest) (hi : i ∉ points) :
    parentheses? (shift style.tokens.length points i)
        (insertAt style.tokens points (i + 1) rest) =
      (parentheses? i rest).map fun (o, c) =>
        (shift style.tokens.length points o, shift style.tokens.length points c) := by
  obtain ⟨done', n, hn, hdrop, hclear, heq⟩ := steady_fromOpening h
  dsimp only at hdrop hclear heq
  unfold parentheses? fromOpening?
  dsimp only
  rw [heq]
  generalize skipOptional (·.kind == .name) (skipOptional (·.isPunct "&")
    (skipTrivia rest)) = list at hdrop hclear heq ⊢
  cases list with
  | nil => rfl
  | cons t list =>
    have hhead : (insertAt style.tokens points (i + 1 + n) (t :: list)).head? = some t := by
      rw [hclear.insertAt_cons]
      rfl
    rw [hhead, List.head?_cons]
    by_cases hopen : t.isPunct "("
    · have hopening := shift_opening style.tokens hi hn hdrop
      have hlength : (t :: list).length = rest.length - n := by rw [hdrop, List.length_drop]
      have hpos : i + 1 + (rest.length - (t :: list).length) = i + 1 + n := by omega
      simp only [Option.any_some, hopen, if_true, Option.map_map]
      rw [closingOffset?_insertAt style.neutral, hopening, Option.map_map, hpos]
      apply Option.map_congr
      intro offset hoffset
      have hclosing := notMem_of_closingOffset? hclear.sited hoffset
      have hmove := shift_succ_of_notMem (k := style.tokens.length) hclosing
      have hle := shift_le_shift style.tokens.length points
        (by omega : i + 1 + n ≤ i + 1 + n + offset)
      simp only [Function.comp_apply, Prod.mk.injEq, true_and]
      omega
    · simp only [Option.any_some, hopen, Bool.false_eq_true, if_false]
      rfl

/-- Each function is found again. -/
theorem occurrencesFrom_insertAt {i : Nat} {ts : List Token}
    (h : Sited style points done i ts) :
    occurrencesFrom (shift style.tokens.length points i) (insertAt style.tokens points i ts) =
      (occurrencesFrom i ts).map fun (o, c) =>
        (shift style.tokens.length points o, shift style.tokens.length points c) := by
  induction ts generalizing done i with
  | nil => rfl
  | cons t rest ih =>
    obtain ⟨before, hneutral, hcons, hshift, hnone⟩ :=
      exists_insertAt_cons style.neutral points i t rest
    have hrest := ih h.2
    rw [hshift] at hrest
    rw [hcons, occurrencesFrom_append fun u hu => (hneutral u hu).keyword, occurrencesFrom,
      occurrencesFrom, hrest]
    by_cases hkeyword : t.kind = .keyword
    · rw [if_pos hkeyword, if_pos hkeyword]
      have hi : i ∉ points := by
        intro hi
        exact (h.1 hi).not_landmark.1 hkeyword
      have hclear : Clear style points (t :: done) (i + 1) rest := by
        refine ⟨h.2, ?_⟩
        rw [Bool.eq_false_iff]
        intro hstarted
        have hplain := isPlain_of_started hstarted
        simp [Token.isPlain, Token.opensParameter, Token.precedesType, Token.followsType,
          Token.isTrivia, Token.isPunct, hkeyword] at hplain
      rw [hnone hi, List.length_nil, Nat.add_zero, parentheses?_insertAt hclear hi]
      rcases parentheses? i rest with _ | o
      · rfl
      · rfl
    · rw [if_neg hkeyword, if_neg hkeyword]

theorem splitFrom_append_neutral (hpiece : ∀ u ∈ piece, u.Neutral) (depth : Int) (start i : Nat)
    (ts : List Token) :
    splitFrom depth start i (piece ++ ts) = splitFrom depth start (i + piece.length) ts := by
  induction piece generalizing i with
  | nil => rfl
  | cons u piece ih =>
    have hu := hpiece u (List.mem_cons_self ..)
    have hcomma : ¬(u.isPunct "," ∧ depth = 0) := by simp [hu.comma]
    rw [List.cons_append, splitFrom, if_neg hcomma, hu.nesting, Int.add_zero,
      ih fun v hv => hpiece v (List.mem_cons_of_mem _ hv), List.length_cons]
    congr 1
    omega

/-- The ends of parameters move by the tokens put in before them. -/
theorem splitFrom_insertAt (hpiece : ∀ u ∈ piece, u.Neutral) (depth : Int) (start : Nat)
    {i : Nat} {ts : List Token} (h : ∀ j t, ts[j]? = some t → t.isPunct "," → i + j ∉ points) :
    splitFrom depth (shift piece.length points start) (shift piece.length points i)
        (insertAt piece points i ts) =
      (splitFrom depth start i ts).map (Interval.shift piece.length points) := by
  induction ts generalizing depth start i with
  | nil =>
    rw [insertAt_nil, splitFrom, splitFrom]
    by_cases hlt : start < i
    · rw [if_pos hlt, if_pos (shift_lt_shift piece.length points hlt)]
      rfl
    · rw [if_neg hlt, if_neg (mt (shift_lt_shift_iff piece.length points).1 hlt)]
      rfl
  | cons t rest ih =>
    obtain ⟨before, hneutral, hcons, hshift, hnone⟩ := exists_insertAt_cons hpiece points i t rest
    have hrest : ∀ j t, rest[j]? = some t → t.isPunct "," → i + 1 + j ∉ points := by
      intro j u hu hcomma
      have := h (j + 1) u hu hcomma
      rwa [← Nat.add_assoc, Nat.add_right_comm] at this
    have hlater := fun depth start => ih depth start hrest
    rw [hshift] at hlater
    rw [hcons, splitFrom_append_neutral hneutral, splitFrom, splitFrom]
    by_cases hcomma : t.isPunct "," ∧ depth = 0
    · rw [if_pos hcomma, if_pos hcomma]
      have hi : i ∉ points := h 0 t rfl hcomma.1
      have hstart := hlater depth (i + 1)
      rw [hshift] at hstart
      rw [hstart, hnone hi, List.length_nil, Nat.add_zero]
      rfl
    · rw [if_neg hcomma, if_neg hcomma, hlater]

/-- The parameters of a list move as a whole. -/
theorem splitParameters_insertAt {ts : List Token} (h : Sited style points [] 0 ts)
    (inner : Interval) (hle : inner.start ≤ inner.stop) (hstop : inner.stop ≤ ts.length) :
    splitParameters (insertAt style.tokens points 0 ts)
        (inner.shift style.tokens.length points) =
      (splitParameters ts inner).map (Interval.shift style.tokens.length points) := by
  rw [splitParameters, slice_insertAt _ _ hle hstop]
  refine splitFrom_insertAt style.neutral _ _ fun j t ht hcomma hmem => ?_
  obtain ⟨_, hget⟩ := Interval.getElem?_slice ht
  have hsite := h.site hget (by rwa [Nat.zero_add])
  simp [hsite.not_landmark.2.2.2] at hcomma

end Signature

/-- Each parameter list is found again, moved by the tokens put in before its ends. -/
theorem parameterLists_insertAt {style : Style} {points : List Nat} {ts : List Token}
    (h : Fix.Sited style points [] 0 ts) :
    parameterLists (insertAt style.tokens points 0 ts) =
      (parameterLists ts).map (ParamList.shift style.tokens.length points) := by
  refine List.ext_getElem? fun n => ?_
  have hoccurrences := Signature.occurrencesFrom_insertAt h
  rw [shift_zero] at hoccurrences
  rw [parameterLists, parameterLists, hoccurrences]
  simp only [List.getElem?_map, List.getElem?_mapIdx, Option.map_map]
  rcases hn : (Signature.occurrencesFrom 0 ts)[n]? with _ | ⟨opening, closing⟩
  · rfl
  · obtain ⟨a, b, t, u, rfl, rfl, hab, ht, htp, hu, hup⟩ :=
      Signature.mem_occurrencesFrom (List.mem_of_getElem? hn)
    rw [Nat.zero_add, Nat.zero_add]
    have hopening : a ∉ points := by
      intro hmem
      have hsite := h.site ht (by rwa [Nat.zero_add])
      simp [hsite.not_landmark.2.1] at htp
    have hlt := (List.getElem?_eq_some_iff.1 hu).1
    have hsplit := Signature.splitParameters_insertAt h ⟨a + 1, b⟩ (by dsimp only; omega)
      (by dsimp only; omega)
    rw [Interval.shift, shift_succ_of_notMem hopening] at hsplit
    simp only [Option.map_some, Function.comp_apply, ParamList.shift, hsplit]

/-- A fixed text has the tokens of the source with the tokens of the style put in, and its parameter
lists moved accordingly. -/
theorem tokenize_fixSource {src : Bytes} (plan : FilePlan) (style : Style)
    (h : PlainlyTyped (tokenize src)) :
    tokenize (fixSource src plan style) =
        insertAt style.tokens (Fix.insertionPoints style plan (tokenize src)) 0 (tokenize src) ∧
      parameterLists (tokenize (fixSource src plan style)) =
        (parameterLists (tokenize src)).map
          (ParamList.shift style.tokens.length
            (Fix.insertionPoints style plan (tokenize src))) := by
  have hsited := Fix.sited_insertionPoints style plan h
  have htokens := tokenize_fixSource_of_sited hsited
  exact ⟨htokens, htokens ▸ parameterLists_insertAt hsited⟩

/-- The tokens of `<?php function f(Foo &$a = null);`. -/
def referenceSample : List Token :=
  [⟨.openTag, utf8 "<?php"⟩, ⟨.whitespace, utf8 " "⟩, ⟨.keyword, utf8 "function"⟩,
    ⟨.whitespace, utf8 " "⟩, ⟨.name, utf8 "f"⟩, ⟨.punct, utf8 "("⟩, ⟨.name, utf8 "Foo"⟩,
    ⟨.whitespace, utf8 " "⟩, ⟨.punct, utf8 "&"⟩, ⟨.variableName, utf8 "$a"⟩,
    ⟨.whitespace, utf8 " "⟩, ⟨.punct, utf8 "="⟩, ⟨.whitespace, utf8 " "⟩, ⟨.name, utf8 "null"⟩,
    ⟨.punct, utf8 ")"⟩, ⟨.punct, utf8 ";"⟩]

theorem tokenize_fixSource_referenceSample :
    PlainlyTyped (tokenize (Token.source referenceSample)) ∧
      tokenize (fixSource (Token.source referenceSample) (FilePlan.ofList [(⟨0, 0⟩, 0)]) .union) =
        referenceSample.take 7 ++ Style.union.tokens ++ referenceSample.drop 7 ∧
      parameterLists
          (tokenize (fixSource (Token.source referenceSample) (FilePlan.ofList [(⟨0, 0⟩, 0)])
            .union)) = [⟨0, 5, 16, [⟨6, 16⟩]⟩] := by
  have hreads : Lexer.Reads ⟨false, false⟩ referenceSample := by decide
  have htokens : tokenize (Token.source referenceSample) = referenceSample := hreads
  have hplain : PlainlyTyped (tokenize (Token.source referenceSample)) := by
    rw [htokens]
    decide
  obtain ⟨hfixed, hlists⟩ := tokenize_fixSource (FilePlan.ofList [(⟨0, 0⟩, 0)]) .union hplain
  refine ⟨hplain, ?_, ?_⟩
  · rw [hfixed, htokens]
    decide
  · rw [hlists, htokens]
    decide

end ExplicitNull
