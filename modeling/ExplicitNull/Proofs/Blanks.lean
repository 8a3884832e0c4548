import ExplicitNull.Text.Blank

/-!
Trimming leaves the bytes alone that are no part of a blank. A visible ASCII character is none, so
what is in front of it is trimmed at one end only and what is behind it at the other. Both ends are
trimmed in the same way, up to the order of the bytes of a blank, and what is removed at either is a
text of blanks alone.
-/
namespace ExplicitNull.Blank

/-- Removes blanks at the start of a text, given which two and which three bytes are blanks. -/
def strip (two : UInt8 → UInt8 → Bool) (three : UInt8 → UInt8 → UInt8 → Bool) : Bytes → Bytes
  | [] => []
  | [b] => if isBlank1 b then [] else [b]
  | [b, c] =>
    if isBlank1 b then strip two three [c]
    else if two b c then [] else [b, c]
  | b :: c :: d :: rest =>
    if isBlank1 b then strip two three (c :: d :: rest)
    else if two b c then strip two three (d :: rest)
    else if three b c d then strip two three rest
    else b :: c :: d :: rest

theorem trimStart_eq_strip (bs : Bytes) : trimStart bs = strip isBlank2 isBlank3 bs := by
  fun_induction trimStart bs <;> simp_all [strip]

theorem trimReversed_eq_strip (bs : Bytes) :
    trimReversed bs = strip (fun c b => isBlank2 b c) (fun d c b => isBlank3 b c d) bs := by
  fun_induction trimReversed bs <;> simp_all [strip]

section

variable {two : UInt8 → UInt8 → Bool} {three : UInt8 → UInt8 → UInt8 → Bool}

theorem strip_suffix (bs : Bytes) : strip two three bs <:+ bs := by
  fun_induction strip two three bs with
  | case1 => exact List.suffix_refl _
  | case2 b hb => exact List.nil_suffix
  | case3 b hb => exact List.suffix_refl _
  | case4 b c hb ih => exact ih.trans (List.suffix_cons _ _)
  | case5 b c hb hbc => exact List.nil_suffix
  | case6 b c hb hbc => exact List.suffix_refl _
  | case7 b c d rest hb ih => exact ih.trans (List.suffix_cons _ _)
  | case8 b c d rest hb hbc ih => exact ih.trans (List.suffix_append [b, c] _)
  | case9 b c d rest hb hbc hbcd ih => exact ih.trans (List.suffix_append [b, c, d] _)
  | case10 b c d rest hb hbc hbcd => exact List.suffix_refl _

theorem strip_cons_blank {b : UInt8} (hb : isBlank1 b) (bs : Bytes) :
    strip two three (b :: bs) = strip two three bs := by
  match bs with
  | [] => simp [strip, hb]
  | [c] => simp [strip, hb]
  | c :: d :: bs => rw [strip, if_pos hb]

/-- A byte that is no part of a blank. -/
structure Solid (two : UInt8 → UInt8 → Bool) (three : UInt8 → UInt8 → UInt8 → Bool)
    (c : UInt8) : Prop where
  one : isBlank1 c = false
  two_left : ∀ b, two c b = false
  two_right : ∀ b, two b c = false
  three_left : ∀ b d, three c b d = false
  three_mid : ∀ b d, three b c d = false
  three_right : ∀ b d, three b d c = false

variable {c : UInt8}

theorem strip_solid (hc : Solid two three c) (z : Bytes) : strip two three (c :: z) = c :: z := by
  match z with
  | [] => simp [strip, hc.one]
  | [d] => simp [strip, hc.one, hc.two_left]
  | d :: e :: z => simp [strip, hc.one, hc.two_left, hc.three_left]

/-- Blanks in front of a byte that is no part of one end before it. -/
theorem strip_append (hc : Solid two three c) (x : Bytes) :
    ∃ y, ∀ z, strip two three (x ++ c :: z) = y ++ c :: z := by
  fun_induction strip two three x with
  | case1 => exact ⟨[], strip_solid hc⟩
  | case2 b hb =>
    refine ⟨[], fun z => ?_⟩
    rw [List.cons_append, strip_cons_blank hb]
    exact strip_solid hc z
  | case3 b hb =>
    refine ⟨[b], fun z => ?_⟩
    cases z <;> simp [strip, hb, hc.two_right, hc.three_mid]
  | case4 b d hb ih =>
    obtain ⟨y, hy⟩ := ih
    exact ⟨y, fun z => by rw [List.cons_append, strip_cons_blank hb, hy]⟩
  | case5 b d hb hbd =>
    refine ⟨[], fun z => ?_⟩
    simp only [List.cons_append, List.nil_append]
    rw [strip, if_neg hb, if_pos hbd, strip_solid hc]
  | case6 b d hb hbd =>
    refine ⟨[b, d], fun z => ?_⟩
    simp only [List.cons_append, List.nil_append]
    rw [strip, if_neg hb, if_neg hbd, hc.three_right]
    rfl
  | case7 b d e rest hb ih =>
    obtain ⟨y, hy⟩ := ih
    exact ⟨y, fun z => by rw [List.cons_append, strip_cons_blank hb, hy]⟩
  | case8 b d e rest hb hbd ih =>
    obtain ⟨y, hy⟩ := ih
    refine ⟨y, fun z => ?_⟩
    rw [← hy]
    simp only [List.cons_append]
    rw [strip, if_neg hb, if_pos hbd]
  | case9 b d e rest hb hbd hbde ih =>
    obtain ⟨y, hy⟩ := ih
    refine ⟨y, fun z => ?_⟩
    rw [← hy]
    simp only [List.cons_append]
    rw [strip, if_neg hb, if_neg hbd, if_pos hbde]
  | case10 b d e rest hb hbd hbde =>
    refine ⟨b :: d :: e :: rest, fun z => ?_⟩
    simp only [List.cons_append]
    rw [strip, if_neg hb, if_neg hbd, if_neg hbde]

end

def IsVisible (c : UInt8) : Prop := 0x20 < c ∧ c < 0x80

instance (c : UInt8) : Decidable (IsVisible c) := inferInstanceAs (Decidable (_ ∧ _))

theorem solid_of_isVisible {c : UInt8} (hc : IsVisible c) :
    Solid isBlank2 isBlank3 c ∧
      Solid (fun c b => isBlank2 b c) (fun d c b => isBlank3 b c d) c := by
  constructor <;> constructor <;> intros <;> grind [IsVisible, isBlank1, isBlank2, isBlank3]

/-- A text is trimmed apart on the two sides of a visible character. -/
theorem trim_append {c : UInt8} (hc : IsVisible c) (x : Bytes) :
    ∃ y, ∀ z, ∃ w, trim (x ++ c :: z) = y ++ c :: w := by
  obtain ⟨hstart, hend⟩ := solid_of_isVisible hc
  obtain ⟨y, hy⟩ := strip_append hstart x
  refine ⟨y, fun z => ?_⟩
  obtain ⟨w, hw⟩ := strip_append hend z.reverse
  refine ⟨w.reverse, ?_⟩
  rw [trim, trimEnd, trimStart_eq_strip, hy, trimReversed_eq_strip, List.reverse_append,
    List.reverse_cons, List.append_assoc, List.singleton_append, hw]
  simp

theorem mem_trim_of_mem {c : UInt8} (hc : IsVisible c) {bs : Bytes} (h : c ∈ bs) : c ∈ trim bs := by
  obtain ⟨x, z, rfl⟩ := List.append_of_mem h
  obtain ⟨y, hy⟩ := trim_append hc x
  obtain ⟨w, hw⟩ := hy z
  rw [hw]
  simp

theorem mem_of_mem_trim {c : UInt8} {bs : Bytes} (h : c ∈ trim bs) : c ∈ bs := by
  rw [trim, trimEnd, trimReversed_eq_strip, List.mem_reverse, trimStart_eq_strip] at h
  have hend := (strip_suffix _).subset h
  rw [List.mem_reverse] at hend
  exact (strip_suffix _).subset hend

section

variable {two : UInt8 → UInt8 → Bool} {three : UInt8 → UInt8 → UInt8 → Bool}

/-- A text of blanks, given which two and which three bytes are blanks. -/
inductive Blanks (two : UInt8 → UInt8 → Bool) (three : UInt8 → UInt8 → UInt8 → Bool) : Bytes → Prop
  | nil : Blanks two three []
  | one {b : UInt8} {rest : Bytes} (h : isBlank1 b = true) (hrest : Blanks two three rest) :
    Blanks two three (b :: rest)
  | two {b c : UInt8} {rest : Bytes} (h : two b c = true) (hrest : Blanks two three rest) :
    Blanks two three (b :: c :: rest)
  | three {b c d : UInt8} {rest : Bytes} (h : three b c d = true) (hrest : Blanks two three rest) :
    Blanks two three (b :: c :: d :: rest)

theorem Blanks.append {x y : Bytes} (hx : Blanks two three x) (hy : Blanks two three y) :
    Blanks two three (x ++ y) := by
  induction hx with
  | nil => exact hy
  | one h _ ih => exact .one h ih
  | two h _ ih => exact .two h ih
  | three h _ ih => exact .three h ih

/-- Read from its end, a text of blanks is one of blanks. -/
theorem Blanks.reverse {x : Bytes} (h : Blanks two three x) :
    Blanks (fun c b => two b c) (fun d c b => three b c d) x.reverse := by
  induction h with
  | nil => exact .nil
  | one h _ ih => exact List.reverse_cons ▸ ih.append (.one h .nil)
  | two h _ ih => simpa using ih.append (.two h .nil)
  | three h _ ih => simpa using ih.append (.three h .nil)

/-- Whether no blank begins like a shorter one. -/
structure Coherent (two : UInt8 → UInt8 → Bool) (three : UInt8 → UInt8 → UInt8 → Bool) :
    Prop where
  two_one : ∀ b c, two b c → isBlank1 b = false
  three_one : ∀ b c d, three b c d → isBlank1 b = false
  three_two : ∀ b c d, three b c d → two b c = false

theorem coherent_blanks : Coherent isBlank2 isBlank3 ∧
    Coherent (fun c b => isBlank2 b c) (fun d c b => isBlank3 b c d) := by
  constructor <;> constructor <;> intros <;> grind [isBlank1, isBlank2, isBlank3]

/-- Blanks at the start are removed, whatever comes behind them. -/
theorem strip_blanks (hco : Coherent two three) {x : Bytes} (h : Blanks two three x) (z : Bytes) :
    strip two three (x ++ z) = strip two three z := by
  induction h with
  | nil => rfl
  | one h _ ih => rw [List.cons_append, strip_cons_blank h, ih]
  | @two b c rest h _ ih =>
    rw [← ih, List.cons_append, List.cons_append]
    have hone := hco.two_one b c h
    rcases rest ++ z with _ | ⟨d, more⟩ <;> simp [strip, hone, h]
  | three h _ ih =>
    simp only [List.cons_append]
    rw [strip, if_neg (by simp [hco.three_one _ _ _ h]), if_neg (by simp [hco.three_two _ _ _ h]),
      if_pos h, ih]

/-- Nothing but blanks is removed. -/
theorem exists_blanks_strip (two : UInt8 → UInt8 → Bool) (three : UInt8 → UInt8 → UInt8 → Bool)
    (bs : Bytes) :
    ∃ x, Blanks two three x ∧ bs = x ++ strip two three bs := by
  fun_induction strip two three bs with
  | case1 => exact ⟨[], .nil, rfl⟩
  | case2 b hb => exact ⟨[b], .one hb .nil, rfl⟩
  | case3 b hb => exact ⟨[], .nil, rfl⟩
  | case4 b c hb ih =>
    obtain ⟨x, hx, heq⟩ := ih
    exact ⟨b :: x, .one hb hx, congrArg (List.cons b) heq⟩
  | case5 b c hb hbc => exact ⟨[b, c], .two hbc .nil, rfl⟩
  | case6 b c hb hbc => exact ⟨[], .nil, rfl⟩
  | case7 b c d rest hb ih =>
    obtain ⟨x, hx, heq⟩ := ih
    exact ⟨b :: x, .one hb hx, congrArg (List.cons b) heq⟩
  | case8 b c d rest hb hbc ih =>
    obtain ⟨x, hx, heq⟩ := ih
    exact ⟨b :: c :: x, .two hbc hx, congrArg (fun bs => b :: c :: bs) heq⟩
  | case9 b c d rest hb hbc hbcd ih =>
    obtain ⟨x, hx, heq⟩ := ih
    exact ⟨b :: c :: d :: x, .three hbcd hx, congrArg (fun bs => b :: c :: d :: bs) heq⟩
  | case10 b c d rest hb hbc hbcd => exact ⟨[], .nil, rfl⟩

end

abbrev AllBlank (bs : Bytes) : Prop := Blanks isBlank2 isBlank3 bs

theorem AllBlank.not_isVisible {c : UInt8} {rest : Bytes} (h : AllBlank (c :: rest)) :
    ¬IsVisible c := by
  intro hc
  have hsolid := (solid_of_isVisible hc).1
  cases h with
  | one h _ => simp [hsolid.one] at h
  | two h _ => simp [hsolid.two_left] at h
  | three h _ => simp [hsolid.three_left] at h

/-- Trimming removes blanks at the two ends and nothing else. -/
theorem exists_eq_trim (bs : Bytes) :
    ∃ x y, AllBlank x ∧ AllBlank y ∧ bs = x ++ (trim bs ++ y) := by
  obtain ⟨x, hx, hstart⟩ := exists_blanks_strip isBlank2 isBlank3 bs
  obtain ⟨y, hy, hend⟩ := exists_blanks_strip (fun c b => isBlank2 b c)
    (fun d c b => isBlank3 b c d) (trimStart bs).reverse
  refine ⟨x, y.reverse, hx, hy.reverse, ?_⟩
  have hreverse := congrArg List.reverse hend
  rw [List.reverse_reverse, List.reverse_append, ← trimReversed_eq_strip, ← trimEnd,
    ← trim] at hreverse
  rwa [← hreverse, trimStart_eq_strip]

theorem trim_of_allBlank {bs : Bytes} (h : AllBlank bs) : trim bs = [] := by
  have hstrip := strip_blanks coherent_blanks.1 h []
  rw [List.append_nil, ← trimStart_eq_strip] at hstrip
  rw [trim, hstrip]
  rfl

/-- A visible character behind blanks is the first of the trimmed text. -/
theorem head?_trim {x z : Bytes} {c : UInt8} (hx : AllBlank x) (hc : IsVisible c) :
    (trim (x ++ c :: z)).head? = some c := by
  obtain ⟨hstart, hend⟩ := solid_of_isVisible hc
  obtain ⟨w, hw⟩ := strip_append hend z.reverse
  rw [trim, trimStart_eq_strip, strip_blanks coherent_blanks.1 hx, strip_solid hstart, trimEnd,
    trimReversed_eq_strip, List.reverse_cons, hw]
  simp

/-- What stands between blanks and has visible ends is what is left of the text. -/
theorem trim_eq {x w y : Bytes} (hx : AllBlank x) (hy : AllBlank y)
    (hhead : ∀ c ∈ w.head?, IsVisible c) (hlast : ∀ c ∈ w.getLast?, IsVisible c) (hne : w ≠ []) :
    trim (x ++ (w ++ y)) = w := by
  obtain ⟨c, more, rfl⟩ := List.exists_cons_of_ne_nil hne
  obtain ⟨hstart, -⟩ := solid_of_isVisible (hhead c rfl)
  rw [trim, trimStart_eq_strip, strip_blanks coherent_blanks.1 hx, List.cons_append,
    strip_solid hstart, ← List.cons_append, trimEnd, trimReversed_eq_strip, List.reverse_append,
    strip_blanks coherent_blanks.2 hy.reverse]
  rcases List.eq_nil_or_concat (c :: more) with hnil | ⟨first, d, heq⟩
  · cases hnil
  · rw [heq] at hlast ⊢
    obtain ⟨-, hend⟩ := solid_of_isVisible (hlast d (by simp))
    rw [List.concat_eq_append, List.reverse_append, List.reverse_singleton, List.singleton_append,
      strip_solid hend]
    simp

end ExplicitNull.Blank
