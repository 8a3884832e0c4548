import ExplicitNull.Json.Reader
import ExplicitNull.Proofs.Decimals
import ExplicitNull.Proofs.ExactPatch

/-!
What the reader of JSON makes of texts that are put together by rule: strings in quotes, decimal
numbers, items and members with commas between them and blanks around them. Each is read up to its
end, whatever follows it there, and with as much fuel as it has bytes.
-/
namespace ExplicitNull

namespace Json

variable {u w x text key : Bytes} {v : Json}

/-! ### Strings -/

theorem hexValue?_hexDigit {n : Nat} (h : n < 16) : hexValue? (hexDigit n) = some n := by
  revert n
  decide

theorem unicodeEscape?_control {b : UInt8} (h : b < 0x20) (x : Bytes) :
    unicodeEscape? (byte '0' :: byte '0' :: hexDigit (b.toNat / 16) :: hexDigit (b.toNat % 16) ::
      x) = some (Char.ofNat b.toNat, 4) := by
  have hb : b.toNat < 0x20 := UInt8.lt_iff_toNat_lt.1 h
  have hzero : hexValue? (byte '0') = some 0 := by decide
  have hquad : hexQuad? (byte '0' :: byte '0' :: hexDigit (b.toNat / 16) ::
      hexDigit (b.toNat % 16) :: x) = some b.toNat := by
    simp only [hexQuad?, hzero, hexValue?_hexDigit (by omega : b.toNat / 16 < 16),
      hexValue?_hexDigit (by omega : b.toNat % 16 < 16), Option.bind_eq_bind, Option.bind_some,
      Option.some.injEq]
    omega
  unfold unicodeEscape?
  rw [hquad]
  exact if_pos (.inl (by omega))

theorem utf8EncodeChar_ascii {b : UInt8} (h : b < 0x80) :
    String.utf8EncodeChar (Char.ofNat b.toNat) = [b] := by
  have hb : b.toNat < 0x80 := UInt8.lt_iff_toNat_lt.1 h
  have hvalid : b.toNat.isValidChar := .inl (by omega)
  have hval : (Char.ofNat b.toNat).val.toNat = b.toNat := by
    rw [Char.ofNat, dif_pos hvalid]
    rfl
  unfold String.utf8EncodeChar
  dsimp only
  rw [hval, if_pos (by omega)]
  simp

/-- A byte is written with a letter that stands for it, by its number or as it is. -/
theorem escape_cases (b : UInt8) :
    (∃ c, escape b = [byte '\\', c] ∧ c ≠ byte 'u' ∧ simpleEscape? c = some b) ∨
    (b < 0x20 ∧ escape b = [byte '\\', byte 'u', byte '0', byte '0', hexDigit (b.toNat / 16),
      hexDigit (b.toNat % 16)]) ∨
    (b ≠ byte '\x22' ∧ b ≠ byte '\\' ∧ ¬b < 0x20 ∧ escape b = [b]) := by
  unfold escape
  split
  · next hb => exact .inl ⟨byte '\x22', by decide, by decide, by rw [hb]; decide⟩
  split
  · next hb => exact .inl ⟨byte '\\', by decide, by decide, by rw [hb]; decide⟩
  split
  · next hb => exact .inl ⟨byte 'b', by decide, by decide, by rw [hb]; decide⟩
  split
  · next hb => exact .inl ⟨byte 'f', by decide, by decide, by rw [hb]; decide⟩
  split
  · next hb => exact .inl ⟨byte 'n', by decide, by decide, by rw [hb]; decide⟩
  split
  · next hb => exact .inl ⟨byte 'r', by decide, by decide, by rw [hb]; decide⟩
  split
  · next hb => exact .inl ⟨byte 't', by decide, by decide, by rw [hb]; decide⟩
  split
  · next hb => exact .inr (.inl ⟨hb, rfl⟩)
  · next hquote hslash _ _ _ _ _ hcontrol => exact .inr (.inr ⟨hquote, hslash, hcontrol, rfl⟩)

/-- Of an escaped byte the reader makes this byte. -/
theorem readString_escape (b : UInt8) (x : Bytes) :
    readString (escape b ++ x) = (readString x).map fun (text, left) => (b :: text, left) := by
  have hquote : byte '\\' ≠ byte '\x22' := by decide
  rcases escape_cases b with
    ⟨c, hescape, hc, hsimple⟩ | ⟨hb, hescape⟩ | ⟨hb, hb', hcontrol, hescape⟩
  · rw [hescape, List.cons_append, List.singleton_append, readString, if_neg hquote, if_pos rfl]
    dsimp only
    rw [if_neg hc, hsimple]
  · have hascii := utf8EncodeChar_ascii (UInt8.lt_trans hb (by decide))
    rw [hescape, List.cons_append, List.cons_append, readString, if_neg hquote, if_pos rfl]
    dsimp only
    rw [if_pos rfl, List.cons_append, List.cons_append, List.cons_append, List.singleton_append,
      unicodeEscape?_control hb]
    dsimp only
    rw [hascii]
    rfl
  · rw [hescape, List.singleton_append, readString.eq_def]
    dsimp only
    rw [if_neg hb, if_neg hb', if_neg hcontrol]

/-- A text is read back up to its closing quote, whatever follows. -/
theorem readString_escaped (text x : Bytes) :
    readString (text.flatMap escape ++ byte '\x22' :: x) = some (text, x) := by
  induction text with
  | nil =>
    rw [List.flatMap_nil, List.nil_append, readString.eq_def]
    exact if_pos rfl
  | cons b text ih =>
    rw [List.flatMap_cons, List.append_assoc, readString_escape, ih]
    rfl

theorem quote_append (text x : Bytes) :
    quote text ++ x = byte '\x22' :: (text.flatMap escape ++ byte '\x22' :: x) := by
  simp [quote]

/-! ### Numbers -/

def Follows (x : Bytes) : Prop :=
  ∀ b ∈ x.head?, isBlank b = true ∨ b = byte ',' ∨ b = byte ']' ∨ b = byte '\x7d'

theorem follows_nil : Follows [] := fun b hb => by cases hb

/-- A byte that ends a number. -/
theorem Follows.ne {b : UInt8} (h : Follows (b :: x)) : Ascii.isDigit b = false ∧ b ≠ byte '.' ∧
    b ≠ byte 'e' ∧ b ≠ byte 'E' := by
  have hb := h b rfl
  simp only [isBlank, Bool.or_eq_true, beq_iff_eq] at hb
  rcases hb with (((rfl | rfl) | rfl) | rfl) | rfl | rfl | rfl <;> decide

theorem readDigits?_append {ds : Bytes} (hne : ds ≠ []) (hds : ∀ d ∈ ds, Ascii.isDigit d = true)
    (hx : Follows x) : readDigits? (ds ++ x) = some (ds, x) := by
  have htake : (ds ++ x).takeWhile Ascii.isDigit = ds := by
    rw [List.takeWhile_append_of_pos hds]
    cases x with
    | nil => simp
    | cons b x => simp [hx.ne.1]
  unfold readDigits?
  simp [htake, hne]

theorem readNumber?_decimal (n : Nat) (hx : Follows x) :
    readNumber? (decimal n ++ x) = some (decimal n, x) := by
  obtain ⟨d, ds, hdecimal⟩ := List.exists_cons_of_ne_nil (decimal_ne_nil n)
  have hdigit : Ascii.isDigit d = true := isDigit_of_mem_decimal (hdecimal ▸ List.mem_cons_self)
  have hsign : (decimal n ++ x).head? ≠ some (byte '-') := by
    rw [hdecimal]
    rintro heq
    obtain rfl : d = byte '-' := by simpa using heq
    cases hdigit
  have hwhole : readWhole? (decimal n ++ x) = some (decimal n, x) := by
    by_cases hzero : d = byte '0'
    · subst hzero
      have hds := decimal_leading hdecimal
      simp [hdecimal, hds, readWhole?]
    · have hdigits := readDigits?_append (decimal_ne_nil n) (fun d => isDigit_of_mem_decimal) hx
      rw [hdecimal] at hdigits ⊢
      rw [List.cons_append, readWhole?, if_neg hzero]
      exact hdigits
  have hfraction : readFraction? x = some ([], x) := by
    cases x with
    | nil => rfl
    | cons b x => simp [readFraction?, hx.ne.2.1]
  have hexponent : readExponent? x = some ([], x) := by
    cases x with
    | nil => rfl
    | cons b x => simp [readExponent?, hx.ne.2.2.1, hx.ne.2.2.2]
  simp only [readNumber?, if_neg hsign, List.length_nil, List.drop_zero, hwhole, hfraction,
    hexponent, Option.bind_eq_bind, Option.bind_some, List.nil_append, List.append_nil]

/-! ### Values -/

def Gap (u : Bytes) : Prop := ∀ b ∈ u, isBlank b = true

instance (u : Bytes) : Decidable (Gap u) :=
  decidable_of_iff (u.all isBlank = true) List.all_eq_true

theorem skipBlanks_gap (h : Gap u) (x : Bytes) : skipBlanks (u ++ x) = skipBlanks x :=
  List.dropWhile_append_of_pos h

theorem skipBlanks_cons {b : UInt8} (h : isBlank b = false) (x : Bytes) :
    skipBlanks (b :: x) = b :: x :=
  List.dropWhile_cons_of_neg (by simp [h])

theorem readValue_gap (h : Gap u) (fuel : Nat) (x : Bytes) :
    readValue fuel (u ++ x) = readValue fuel x := by
  cases fuel with
  | zero => rfl
  | succ fuel => rw [readValue, readValue, skipBlanks_gap h]

theorem readItems_gap (h : Gap u) (fuel : Nat) (x : Bytes) :
    readItems fuel (u ++ x) = readItems fuel x := by
  cases fuel with
  | zero => rfl
  | succ fuel => rw [readItems, readItems, readValue_gap h]

theorem readMembers_gap (h : Gap u) (fuel : Nat) (x : Bytes) :
    readMembers fuel (u ++ x) = readMembers fuel x := by
  cases fuel with
  | zero => rfl
  | succ fuel => rw [readMembers, readMembers, skipBlanks_gap h]

/-- A text that is read as a value up to its end, whatever may follow it. -/
def Reads (text : Bytes) (v : Json) : Prop :=
  ∀ fuel x, text.length < fuel → Follows x → readValue fuel (text ++ x) = some (v, x)

theorem Reads.gap (h : Reads text v) (hu : Gap u) : Reads (u ++ text) v := by
  intro fuel x hfuel hx
  rw [List.append_assoc, readValue_gap hu]
  exact h fuel x (by rw [List.length_append] at hfuel; omega) hx

theorem reads_quote (text : Bytes) : Reads (quote text) (.string text) := by
  intro fuel x hfuel _
  obtain ⟨fuel, rfl⟩ := Nat.exists_eq_succ_of_ne_zero (by omega : fuel ≠ 0)
  rw [quote_append, readValue, skipBlanks_cons (by decide)]
  dsimp only
  rw [if_pos rfl, readString_escaped]
  rfl

theorem reads_decimal (n : Nat) : Reads (decimal n) (.number (decimal n)) := by
  intro fuel x hfuel hx
  obtain ⟨fuel, rfl⟩ := Nat.exists_eq_succ_of_ne_zero (by omega : fuel ≠ 0)
  obtain ⟨d, ds, hdecimal⟩ := List.exists_cons_of_ne_nil (decimal_ne_nil n)
  have hdigit : Ascii.isDigit d = true := isDigit_of_mem_decimal (hdecimal ▸ List.mem_cons_self)
  have hother : ∀ b, Ascii.isDigit b = false → d ≠ b := by
    rintro b hb rfl
    rw [hb] at hdigit
    cases hdigit
  have hnumber := readNumber?_decimal n hx
  rw [hdecimal, List.cons_append] at hnumber ⊢
  have hblank : isBlank d = false := by
    simp [isBlank, hother (byte ' ') (by decide), hother (byte '\n') (by decide),
      hother (byte '\r') (by decide), hother (byte '\t') (by decide)]
  rw [readValue, skipBlanks_cons hblank]
  dsimp only
  rw [if_neg (hother _ (by decide)), if_neg (hother _ (by decide)), if_neg (hother _ (by decide)),
    if_neg (hother _ (by decide)), if_neg (hother _ (by decide)), if_neg (hother _ (by decide)),
    hnumber]
  rfl

theorem reads_emptyArray : Reads (utf8 "[]") (.array []) := by
  intro fuel x hfuel _
  obtain ⟨fuel, rfl⟩ := Nat.exists_eq_succ_of_ne_zero (by omega : fuel ≠ 0)
  have htext : utf8 "[]" = [byte '[', byte ']'] := by decide
  have hquote : byte '[' ≠ byte '\x22' := by decide
  rw [htext, List.cons_append, List.singleton_append, readValue, skipBlanks_cons (by decide)]
  dsimp only
  rw [if_neg hquote, if_pos rfl, skipBlanks_cons (by decide)]
  exact if_pos rfl

/-- A text that is a value is read as this value. -/
theorem read?_of_reads (h : Reads text v) : read? text = some v := by
  have hread := h (2 * text.length + 2) [] (by omega) follows_nil
  rw [List.append_nil] at hread
  unfold read?
  rw [hread]
  rfl

theorem follows_gap (hw : Gap w) {b : UInt8}
    (hb : b = byte ',' ∨ b = byte ']' ∨ b = byte '\x7d') (x : Bytes) : Follows (w ++ b :: x) := by
  cases w with
  | nil =>
    intro c hc
    cases hc
    exact .inr hb
  | cons d w =>
    intro c hc
    cases hc
    exact .inl (hw d List.mem_cons_self)

/-! ### Arrays -/

section Items

variable {item : Bytes × Json} {items : List (Bytes × Json)} {fuel : Nat}

theorem readItems_last (h : Reads item.1 item.2) (hfuel : item.1.length < fuel) (hw : Gap w)
    (x : Bytes) :
    readItems (fuel + 1) (item.1 ++ (w ++ byte ']' :: x)) = some ([item.2], x) := by
  rw [readItems, h fuel _ hfuel (follows_gap hw (by simp) x)]
  dsimp only
  rw [skipBlanks_gap hw, skipBlanks_cons (by decide)]
  dsimp only
  rw [if_neg (by decide), if_pos rfl]

theorem readItems_comma (h : Reads item.1 item.2) (hfuel : item.1.length < fuel) (x : Bytes) :
    readItems (fuel + 1) (item.1 ++ byte ',' :: x) =
      (readItems fuel x).map fun (items, left) => (item.2 :: items, left) := by
  have hcomma : Follows (byte ',' :: x) := follows_gap (w := []) (by decide) (.inl rfl) x
  rw [readItems, h fuel _ hfuel hcomma]
  dsimp only
  rw [skipBlanks_cons (by decide)]
  exact if_pos rfl

/-- Items with commas between them are read up to the bracket that closes the array. -/
theorem readItems_join (hne : items ≠ []) (hitems : ∀ item ∈ items, Reads item.1 item.2)
    (hu : Gap u) (hw : Gap w) (x : Bytes)
    (hfuel : (Bytes.joinWith (byte ',' :: u) (items.map Prod.fst)).length + 1 < fuel) :
    readItems fuel (Bytes.joinWith (byte ',' :: u) (items.map Prod.fst) ++ (w ++ byte ']' :: x)) =
      some (items.map Prod.snd, x) := by
  induction items generalizing fuel with
  | nil => exact absurd rfl hne
  | cons item items ih =>
    obtain ⟨hitem, hrest⟩ := List.forall_mem_cons.1 hitems
    obtain ⟨fuel, rfl⟩ := Nat.exists_eq_succ_of_ne_zero (by omega : fuel ≠ 0)
    by_cases hlast : items = []
    · subst hlast
      rw [List.map_singleton, Bytes.joinWith] at hfuel ⊢
      exact readItems_last hitem (by omega) hw x
    · have hmap : items.map Prod.fst ≠ [] := by simpa using hlast
      rw [List.map_cons, Fix.joinWith_cons hmap, List.length_append, List.length_append,
        List.length_cons] at hfuel
      rw [List.map_cons, Fix.joinWith_cons hmap, List.append_assoc, List.append_assoc,
        List.cons_append, readItems_comma hitem (by omega), readItems_gap hu,
        ih hlast hrest (by omega)]
      rfl

/-- No value begins with the bracket that closes an array. -/
theorem exists_of_readValue {r : Json × Bytes} (h : readValue fuel x = some r) :
    ∃ b rest, skipBlanks x = b :: rest ∧ b ≠ byte ']' := by
  have hnumber : ∀ rest, readNumber? (byte ']' :: rest) = none := fun rest => by
    have hsign : (byte ']' :: rest).head? ≠ some (byte '-') := by simp; decide
    have hdigits : readWhole? (byte ']' :: rest) = none := by
      rw [readWhole?, if_neg (by decide)]
      simp [readDigits?, List.takeWhile_cons_of_neg (by decide : ¬Ascii.isDigit (byte ']') = true)]
    simp only [readNumber?, if_neg hsign, List.length_nil, List.drop_zero, hdigits,
      Option.bind_eq_bind, Option.bind_none]
  cases fuel with
  | zero => cases h
  | succ fuel =>
    rw [readValue] at h
    cases hskip : skipBlanks x with
    | nil =>
      rw [hskip] at h
      cases h
    | cons b rest =>
      refine ⟨b, rest, rfl, ?_⟩
      rintro rfl
      rw [hskip] at h
      dsimp only at h
      rw [if_neg (by decide), if_neg (by decide), if_neg (by decide), if_neg (by decide),
        if_neg (by decide), if_neg (by decide), hnumber] at h
      cases h

theorem exists_of_readItems {r : List Json × Bytes} (h : readItems fuel x = some r) :
    ∃ b rest, skipBlanks x = b :: rest ∧ b ≠ byte ']' := by
  cases fuel with
  | zero => cases h
  | succ fuel =>
    rw [readItems] at h
    cases hvalue : readValue fuel x with
    | none =>
      rw [hvalue] at h
      cases h
    | some r => exact exists_of_readValue hvalue

theorem Reads.array (hne : items ≠ []) (hitems : ∀ item ∈ items, Reads item.1 item.2)
    {t : Bytes} (ht : Gap t) (hu : Gap u) (hw : Gap w) :
    Reads (byte '[' :: (t ++ (Bytes.joinWith (byte ',' :: u) (items.map Prod.fst) ++
      (w ++ [byte ']'])))) (.array (items.map Prod.snd)) := by
  intro fuel x hfuel _
  obtain ⟨fuel, rfl⟩ := Nat.exists_eq_succ_of_ne_zero (by omega : fuel ≠ 0)
  simp only [List.length_cons, List.length_append, List.length_nil] at hfuel
  simp only [List.cons_append, List.append_assoc, List.nil_append]
  have hread := readItems_join hne hitems hu hw x (by omega : _ < fuel)
  obtain ⟨b, rest, hskip, hb⟩ := exists_of_readItems hread
  have hquote : byte '[' ≠ byte '\x22' := by decide
  rw [readValue, skipBlanks_cons (by decide)]
  dsimp only
  rw [if_neg hquote, if_pos rfl, skipBlanks_gap ht, hskip]
  dsimp only
  rw [if_neg hb, readItems_gap ht, hread]
  rfl

end Items

/-! ### Objects -/

structure Member where
  key : Bytes
  text : Bytes
  value : Json

def Member.written (u : Bytes) (m : Member) : Bytes := u ++ (quote m.key ++ byte ':' :: m.text)

def Member.pair (m : Member) : Bytes × Json := (m.key, m.value)

section Members

variable {m : Member} {ms : List Member} {fuel : Nat}

/-- A member is read up to the end of its value. -/
theorem readMembers_written (h : Reads m.text m.value) (hfuel : m.text.length < fuel) (hu : Gap u)
    (hx : Follows x) : readMembers (fuel + 1) (m.written u ++ x) =
      match skipBlanks x with
      | [] => none
      | b :: rest =>
        if b = byte ',' then
          (readMembers fuel rest).map fun (members, left) => (m.pair :: members, left)
        else if b = byte '\x7d' then some ([m.pair], rest)
        else none := by
  have hquote : isBlank (byte '\x22') = false := by decide
  have hcolon : isBlank (byte ':') = false := by decide
  rw [Member.written, List.append_assoc, readMembers_gap hu, List.append_assoc, quote_append,
    readMembers, skipBlanks_cons hquote]
  dsimp only
  rw [if_neg (by simp), readString_escaped]
  dsimp only
  rw [List.cons_append, skipBlanks_cons hcolon]
  dsimp only
  rw [if_neg (by simp), h fuel x hfuel hx]
  rfl

/-- Members with commas between them are read up to the brace that closes the object. -/
theorem readMembers_join (hne : ms ≠ []) (hms : ∀ m ∈ ms, Reads m.text m.value) (hu : Gap u)
    {t : Bytes} (ht : Gap t) (hw : Gap w) (x : Bytes)
    (hfuel : (Bytes.joinWith (byte ',' :: t) (ms.map (Member.written u))).length + 1 < fuel) :
    readMembers fuel (Bytes.joinWith (byte ',' :: t) (ms.map (Member.written u)) ++
      (w ++ byte '\x7d' :: x)) = some (ms.map Member.pair, x) := by
  induction ms generalizing fuel with
  | nil => exact absurd rfl hne
  | cons m ms ih =>
    obtain ⟨hm, hrest⟩ := List.forall_mem_cons.1 hms
    obtain ⟨fuel, rfl⟩ := Nat.exists_eq_succ_of_ne_zero (by omega : fuel ≠ 0)
    have hlength : m.text.length ≤ (m.written u).length := by
      simp only [Member.written, List.length_append, List.length_cons]
      omega
    by_cases hlast : ms = []
    · subst hlast
      rw [List.map_singleton, Bytes.joinWith] at hfuel ⊢
      rw [readMembers_written hm (by omega) hu (follows_gap hw (by simp) x), skipBlanks_gap hw,
        skipBlanks_cons (by decide)]
      dsimp only
      rw [if_neg (by decide), if_pos rfl]
      rfl
    · have hmap : ms.map (Member.written u) ≠ [] := by simpa using hlast
      rw [List.map_cons, Fix.joinWith_cons hmap, List.length_append, List.length_append,
        List.length_cons] at hfuel
      have hcomma : ∀ y, Follows (byte ',' :: y) :=
        follows_gap (w := []) (by decide) (.inl rfl)
      rw [List.map_cons, Fix.joinWith_cons hmap, List.append_assoc, List.append_assoc,
        List.cons_append, readMembers_written hm (by omega) hu (hcomma _),
        skipBlanks_cons (by decide)]
      dsimp only
      rw [if_pos rfl, readMembers_gap ht, ih hlast hrest (by omega)]
      rfl

theorem exists_of_readMembers {r : List (Bytes × Json) × Bytes}
    (h : readMembers fuel x = some r) : ∃ rest, skipBlanks x = byte '\x22' :: rest := by
  cases fuel with
  | zero => cases h
  | succ fuel =>
    rw [readMembers] at h
    cases hskip : skipBlanks x with
    | nil =>
      rw [hskip] at h
      cases h
    | cons q rest =>
      rw [hskip] at h
      dsimp only at h
      split at h
      · cases h
      · next hq =>
        obtain rfl := Decidable.not_not.1 hq
        exact ⟨rest, rfl⟩

theorem Reads.object (hne : ms ≠ []) (hms : ∀ m ∈ ms, Reads m.text m.value) {t v : Bytes}
    (ht : Gap t) (hu : Gap u) (hv : Gap v) (hw : Gap w) :
    Reads (byte '\x7b' :: (t ++ (Bytes.joinWith (byte ',' :: v) (ms.map (Member.written u)) ++
      (w ++ [byte '\x7d'])))) (.object (ms.map Member.pair)) := by
  intro fuel x hfuel _
  obtain ⟨fuel, rfl⟩ := Nat.exists_eq_succ_of_ne_zero (by omega : fuel ≠ 0)
  simp only [List.length_cons, List.length_append, List.length_nil] at hfuel
  simp only [List.cons_append, List.append_assoc, List.nil_append]
  have hread := readMembers_join hne hms hu hv hw x (by omega : _ < fuel)
  obtain ⟨rest, hskip⟩ := exists_of_readMembers hread
  have hclose : byte '\x22' ≠ byte '\x7d' := by decide
  rw [readValue, skipBlanks_cons (by decide)]
  dsimp only
  rw [if_neg (by decide), if_neg (by decide), if_pos rfl, skipBlanks_gap ht, hskip]
  dsimp only
  rw [if_neg hclose, readMembers_gap ht, hread]
  rfl

end Members

end Json

end ExplicitNull
