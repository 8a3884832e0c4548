import ExplicitNull.Proofs.Seams
import ExplicitNull.Text.Utf8

/-!
The characters of a source and its tokens. A byte below 0x80 is a character of its own, so a text
that is cut next to such a byte is cut between two characters. There is one at every seam between
tokens: reading takes a source apart into stretches of whole characters, none of them empty, and
leaves nothing out.
-/
namespace ExplicitNull

namespace Utf8

/-- Of a character of more than one byte no byte is ASCII. -/
theorem le_of_mem_encodeChar {c : Char} (h : 2 ≤ (String.utf8EncodeChar c).length) {b : UInt8}
    (hb : b ∈ String.utf8EncodeChar c) : 0x80 ≤ b := by
  rw [UInt8.le_iff_toNat_le]
  change 128 ≤ b.toNat
  unfold String.utf8EncodeChar at h hb
  dsimp only at h hb
  by_cases hone : c.val.toNat ≤ 127
  · rw [if_pos hone] at h
    simp at h
  · rw [if_neg hone] at hb
    split at hb
    · simp only [List.mem_cons, List.not_mem_nil, or_false] at hb
      rcases hb with rfl | rfl <;> rw [UInt8.toNat_ofNat'] <;> omega
    · split at hb
      · simp only [List.mem_cons, List.not_mem_nil, or_false] at hb
        rcases hb with rfl | rfl | rfl <;> rw [UInt8.toNat_ofNat'] <;> omega
      · simp only [List.mem_cons, List.not_mem_nil, or_false] at hb
        rcases hb with rfl | rfl | rfl | rfl <;> rw [UInt8.toNat_ofNat'] <;> omega

@[simp] theorem encode_nil : encode [] = [] := rfl

@[simp] theorem encode_cons (c : Char) (cs : List Char) :
    encode (c :: cs) = String.utf8EncodeChar c ++ encode cs := rfl

@[simp] theorem encode_append (cs ds : List Char) : encode (cs ++ ds) = encode cs ++ encode ds := by
  simp [encode]

/-- A text cut at a seam is cut between two characters. -/
theorem exists_encode_of_seam {left right : Bytes} (hseam : Seam left right) {cs : List Char}
    (h : encode cs = left ++ right) :
    ∃ xs ys, cs = xs ++ ys ∧ left = encode xs ∧ right = encode ys := by
  induction cs generalizing left with
  | nil =>
    obtain ⟨rfl, rfl⟩ := List.append_eq_nil_iff.1 h.symm
    exact ⟨[], [], rfl, rfl, rfl⟩
  | cons c cs ih =>
    rcases List.append_eq_append_iff.1 h with ⟨more, rfl, hrest⟩ | ⟨more, hchar, rfl⟩
    · obtain ⟨xs, ys, rfl, rfl, rfl⟩ := ih hseam.of_append_left hrest
      exact ⟨c :: xs, ys, rfl, rfl, rfl⟩
    · rcases List.eq_nil_or_concat left with rfl | ⟨first, a, rfl⟩
      · exact ⟨[], c :: cs, rfl, rfl, by rw [encode_cons, hchar]; rfl⟩
      cases more with
      | nil => exact ⟨[c], cs, rfl, by simpa using hchar.symm, rfl⟩
      | cons d more =>
        -- both bytes at the seam belong to the character, so neither is ASCII
        have hlong : 2 ≤ (String.utf8EncodeChar c).length := by
          rw [hchar, List.length_append, List.length_concat, List.length_cons]
          omega
        have ha : 0x80 ≤ a := le_of_mem_encodeChar hlong (by simp [hchar])
        have hd : 0x80 ≤ d := le_of_mem_encodeChar hlong (by simp [hchar])
        have hmeet := (hseam a (by simp) d (by simp)).ascii
        rcases hmeet with hmeet | hmeet
        · exact absurd hmeet (UInt8.not_lt.2 ha)
        · exact absurd hmeet (UInt8.not_lt.2 hd)

end Utf8

namespace Lexer

theorem Reads.text_ne_nil {s : State} {ts : List Token} (h : Reads s ts) :
    ∀ t ∈ ts, t.text ≠ [] := by
  induction ts generalizing s with
  | nil => simp
  | cons t rest ih =>
    obtain ⟨⟨b, x, htext, _⟩, hrest⟩ := reads_cons.1 h
    rw [List.forall_mem_cons]
    exact ⟨by simp [htext], ih hrest⟩

/-- The tokens read first are whole characters, and so are the others. -/
theorem Reads.exists_encode {s : State} {before after : List Token} {cs : List Char}
    (h : Reads s (before ++ after)) (hsource : Utf8.encode cs = Token.source (before ++ after)) :
    ∃ xs ys, cs = xs ++ ys ∧ Token.source before = Utf8.encode xs ∧
      Token.source after = Utf8.encode ys := by
  induction before generalizing s cs with
  | nil => exact ⟨[], cs, rfl, rfl, hsource.symm⟩
  | cons t before ih =>
    obtain ⟨hyields, hrest⟩ := reads_cons.1 h
    rw [List.cons_append, Token.source_cons] at hsource
    obtain ⟨first, later, rfl, htext, hlater⟩ :=
      Utf8.exists_encode_of_seam hyields.seam hsource
    obtain ⟨xs, ys, rfl, hbefore, hafter⟩ := ih hrest hlater.symm
    refine ⟨first ++ xs, ys, by simp, ?_, hafter⟩
    rw [Token.source_cons, htext, hbefore, Utf8.encode_append]

end Lexer

theorem Token.length_le_source {ts : List Token} (h : ∀ t ∈ ts, t.text ≠ []) :
    ts.length ≤ (source ts).length := by
  induction ts with
  | nil => simp
  | cons t rest ih =>
    obtain ⟨ht, hrest⟩ := List.forall_mem_cons.1 h
    have hpos := List.length_pos_iff.2 ht
    have hlen := ih hrest
    rw [source_cons, List.length_append, List.length_cons]
    omega

/-- Reading a text takes no more steps than it has bytes, and none reaches beyond its end. The
tokens are not empty, they make up the text, and the text ends between two characters before each
of them. -/
theorem tokenize_utf8 (text : String) :
    Token.source (tokenize (utf8 text)) = utf8 text ∧
      (∀ t ∈ tokenize (utf8 text), t.text ≠ []) ∧
      (tokenize (utf8 text)).length ≤ (utf8 text).length ∧
      (∀ s b rest, (Lexer.lexeme s b rest).extra ≤ rest.length) ∧
      ∀ k, ∃ x y : String, text = x ++ y ∧
        Token.source ((tokenize (utf8 text)).take k) = utf8 x ∧
        Token.source ((tokenize (utf8 text)).drop k) = utf8 y := by
  have hreads := reads_tokenize (utf8 text)
  have hne := hreads.text_ne_nil
  refine ⟨source_tokenize _, hne, ?_, Lexer.lexeme_extra_le, fun k => ?_⟩
  · have hlen := Token.length_le_source hne
    rwa [source_tokenize] at hlen
  · have hsplit := List.take_append_drop k (tokenize (utf8 text))
    have hsource : Utf8.encode text.toList =
        Token.source ((tokenize (utf8 text)).take k ++ (tokenize (utf8 text)).drop k) := by
      rw [hsplit, source_tokenize]
      rfl
    obtain ⟨xs, ys, hcs, hbefore, hafter⟩ := (hsplit.symm ▸ hreads).exists_encode hsource
    refine ⟨String.ofList xs, String.ofList ys, ?_, ?_, ?_⟩
    · rw [← String.ofList_append, ← hcs, String.ofList_toList]
    · rw [hbefore, utf8, String.toList_ofList, Utf8.encode]
    · rw [hafter, utf8, String.toList_ofList, Utf8.encode]

end ExplicitNull
