import ExplicitNull.Proofs.Paths
import ExplicitNull.Proofs.Seams
import ExplicitNull.Fix

/-!
Fixing a text gives a text. A seam between tokens runs between two characters, so the tokens of a
text are texts, and so is what comes of them with pieces of ASCII put between.
-/
namespace ExplicitNull

namespace Utf8

theorem isValid_append_iff {a b : Bytes} (hseam : Seam a b) :
    isValid (a ++ b) = true ↔ isValid a = true ∧ isValid b = true := by
  constructor
  · intro h
    have ha : isValid a = true := by
      rcases List.eq_nil_or_concat a with rfl | ⟨first, c, rfl⟩
      · rfl
      cases b with
      | nil => simpa using h
      | cons d rest =>
        rcases (hseam c (by simp) d (by simp)).ascii with hc | hd
        · rw [List.concat_eq_append, List.append_assoc] at h
          have hfirst := validFrom_of_ascii (by simp [Beyond]) hc h
          rw [List.concat_eq_append, isValid, validFrom_append hfirst]
          simp [isValid, validFrom, owedAfter, hc]
        · exact validFrom_of_ascii (by simp [Beyond]) hd h
    refine ⟨ha, ?_⟩
    rwa [isValid, validFrom_append ha] at h
  · rintro ⟨ha, hb⟩
    exact isValid_append ha hb

end Utf8

theorem Style.isValid_piece (style : Style) : Utf8.isValid style.piece = true := by
  cases style <;> decide

/-- Pieces between the tokens of a text leave it a text. -/
theorem Lexer.Reads.isValid_insertFrom {s : State} {ts : List Token} (h : Reads s ts)
    (hvalid : Utf8.isValid (Token.source ts) = true) (style : Style) (points : List Nat) (i : Nat) :
    Utf8.isValid (Fix.insertFrom style.piece points i ts) = true := by
  induction ts generalizing s i with
  | nil => rfl
  | cons t rest ih =>
    obtain ⟨hyields, hrest⟩ := reads_cons.1 h
    rw [Token.source_cons, Utf8.isValid_append_iff hyields.seam] at hvalid
    have hpiece : Utf8.isValid (if i ∈ points then style.piece else []) = true := by
      split
      · exact style.isValid_piece
      · rfl
    rw [Fix.insertFrom, List.append_assoc]
    exact Utf8.isValid_append hpiece (Utf8.isValid_append hvalid.1 (ih hrest hvalid.2 (i + 1)))

theorem isValid_fixSource {src : Bytes} (h : Utf8.isValid src = true) (plan : FilePlan)
    (style : Style) : Utf8.isValid (fixSource src plan style) = true := by
  refine (reads_tokenize src).isValid_insertFrom ?_ style _ 0
  rwa [source_tokenize]

end ExplicitNull
