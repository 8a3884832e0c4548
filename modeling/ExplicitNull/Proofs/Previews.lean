import ExplicitNull.Proofs.Decimals
import ExplicitNull.Proofs.Destinations
import ExplicitNull.Proofs.ExactPatch
import ExplicitNull.Proofs.Runs
import ExplicitNull.Proofs.Segments

/-!
What a preview tells. A piece holds no line break, so a fixed text has as many lines as its source,
and the preview has a pair of rows for each line that differs. The `+` rows alone, read back from
the printed text, turn the old lines into the new ones.
-/
namespace ExplicitNull

namespace Bytes

theorem length_splitOn (sep : UInt8) (bs : Bytes) :
    (splitOn sep bs).length = bs.count sep + 1 := by
  induction bs with
  | nil => rfl
  | cons b rest ih =>
    by_cases hb : b = sep
    · simp [splitOn, hb, ih]
    · obtain ⟨piece, pieces, hrest⟩ := List.exists_cons_of_ne_nil (splitOn_ne_nil sep rest)
      rw [hrest] at ih
      simpa [splitOn, hb, hrest] using ih

theorem notMem_of_mem_splitOn {sep : UInt8} {bs piece : Bytes} (h : piece ∈ splitOn sep bs) :
    sep ∉ piece := by
  induction bs generalizing piece with
  | nil =>
    rw [List.mem_singleton.1 h]
    exact List.not_mem_nil
  | cons b rest ih =>
    by_cases hb : b = sep
    · rw [splitOn, if_pos hb] at h
      rcases List.mem_cons.1 h with rfl | h
      · exact List.not_mem_nil
      · exact ih h
    · obtain ⟨first, pieces, hrest⟩ := List.exists_cons_of_ne_nil (splitOn_ne_nil sep rest)
      rw [hrest] at ih
      rw [splitOn, if_neg hb, hrest] at h
      rcases List.mem_cons.1 h with rfl | h
      · intro hmem
        rcases List.mem_cons.1 hmem with heq | hmem
        · exact hb heq.symm
        · exact ih (List.mem_cons_self ..) hmem
      · exact ih (List.mem_cons_of_mem _ h)

/-- Whole lines before the rest of a text are its first lines. -/
theorem splitOn_flatMap {sep : UInt8} {lines : List Bytes} (h : ∀ line ∈ lines, sep ∉ line)
    (rest : Bytes) :
    splitOn sep (lines.flatMap (· ++ [sep]) ++ rest) = lines ++ splitOn sep rest := by
  induction lines with
  | nil => rfl
  | cons line lines ih =>
    have hline := splitOn_of_notMem (h line (List.mem_cons_self ..))
    have hlines := ih fun other hother => h other (List.mem_cons_of_mem _ hother)
    rw [List.flatMap_cons, List.append_assoc, List.append_assoc, List.singleton_append,
      splitOn_append, hline, hlines]
    rfl

end Bytes

namespace Preview

/-- A line in which two texts differ, with its number. -/
structure Difference where
  number : Nat
  old : Bytes
  new : Bytes

def Difference.rows (d : Difference) : Bytes := row "-" d.number d.old ++ row "+" d.number d.new

def differencesFrom (n : Nat) : List Bytes → List Bytes → List Difference
  | a :: old, b :: new =>
    if a = b then differencesFrom (n + 1) old new
    else ⟨n, a, b⟩ :: differencesFrom (n + 1) old new
  | _, _ => []

theorem rowsFrom_eq {old new : List Bytes} (h : old.length = new.length) (n : Nat) :
    rowsFrom n old new = (differencesFrom n old new).flatMap Difference.rows := by
  induction old generalizing new n with
  | nil =>
    rw [List.eq_nil_of_length_eq_zero h.symm, rowsFrom]
    rfl
  | cons a old ih =>
    obtain ⟨b, new, rfl⟩ := List.exists_cons_of_length_eq_add_one h.symm
    have hrest := ih (Nat.succ.inj h) (n + 1)
    rw [rowsFrom, rowsFrom.pair, differencesFrom, hrest]
    by_cases hab : a = b
    · rw [if_pos hab, if_pos hab, List.nil_append]
    · rw [if_neg hab, if_neg hab]
      rfl

theorem mem_differencesFrom {d : Difference} {n : Nat} {old new : List Bytes} :
    d ∈ differencesFrom n old new ↔ ∃ i, d.number = n + i ∧ old[i]? = some d.old ∧
      new[i]? = some d.new ∧ d.old ≠ d.new := by
  induction old generalizing new n with
  | nil => simp [differencesFrom]
  | cons a old ih =>
    cases new with
    | nil => simp [differencesFrom]
    | cons b new =>
      have hlater : (∃ i, d.number = n + 1 + i ∧ old[i]? = some d.old ∧ new[i]? = some d.new ∧
          d.old ≠ d.new) ↔ ∃ i, i ≠ 0 ∧ d.number = n + i ∧ (a :: old)[i]? = some d.old ∧
            (b :: new)[i]? = some d.new ∧ d.old ≠ d.new := by
        constructor
        · rintro ⟨i, hnumber, hold, hnew, hne⟩
          exact ⟨i + 1, by omega, by omega, hold, hnew, hne⟩
        · rintro ⟨i, hi, hnumber, hold, hnew, hne⟩
          obtain ⟨j, rfl⟩ := Nat.exists_eq_succ_of_ne_zero hi
          exact ⟨j, by omega, hold, hnew, hne⟩
      have hfirst : (∃ i, d.number = n + i ∧ (a :: old)[i]? = some d.old ∧
          (b :: new)[i]? = some d.new ∧ d.old ≠ d.new) ↔
          (d = ⟨n, a, b⟩ ∧ a ≠ b) ∨ d ∈ differencesFrom (n + 1) old new := by
        rw [ih, hlater]
        constructor
        · rintro ⟨i, hnumber, hold, hnew, hne⟩
          cases i with
          | zero =>
            obtain ⟨number, x, y⟩ := d
            cases Option.some.inj hold
            cases Option.some.inj hnew
            cases hnumber
            exact .inl ⟨rfl, hne⟩
          | succ i => exact .inr ⟨i + 1, by omega, hnumber, hold, hnew, hne⟩
        · rintro (⟨rfl, hne⟩ | ⟨i, -, hrest⟩)
          · exact ⟨0, rfl, rfl, rfl, hne⟩
          · exact ⟨i, hrest⟩
      rw [hfirst, differencesFrom]
      by_cases hab : a = b
      · rw [if_pos hab]
        simp [hab]
      · rw [if_neg hab, List.mem_cons]
        simp [hab]

theorem pairwise_differencesFrom (n : Nat) (old new : List Bytes) :
    (differencesFrom n old new).Pairwise (·.number < ·.number) := by
  induction old generalizing new n with
  | nil => exact List.Pairwise.nil
  | cons a old ih =>
    cases new with
    | nil => exact List.Pairwise.nil
    | cons b new =>
      rw [differencesFrom]
      by_cases hab : a = b
      · rw [if_pos hab]
        exact ih (n + 1) new
      · rw [if_neg hab]
        refine List.pairwise_cons.2 ⟨fun d hd => ?_, ih (n + 1) new⟩
        obtain ⟨i, hnumber, _⟩ := mem_differencesFrom.1 hd
        dsimp only
        omega

/-- Lines without a difference are the same. -/
theorem eq_of_differencesFrom {n : Nat} {old new : List Bytes} (hlen : old.length = new.length)
    (h : differencesFrom n old new = []) : old = new := by
  refine List.ext_getElem hlen fun i hi hi' => ?_
  by_contra hne
  have hmem : (⟨n + i, old[i], new[i]⟩ : Difference) ∈ differencesFrom n old new :=
    mem_differencesFrom.2
      ⟨i, rfl, List.getElem?_eq_getElem hi, List.getElem?_eq_getElem hi', hne⟩
  simp [h] at hmem

def readRow? (printed : Bytes) : Option (Nat × Bytes) :=
  match printed with
  | [] => none
  | sign :: rest =>
    let number := rest.dropWhile (· == byte ' ')
    match number.dropWhile Ascii.isDigit with
    | colon :: space :: line =>
      if sign = byte '+' ∧ colon = byte ':' ∧ space = byte ' ' then
        some (numeral (number.takeWhile Ascii.isDigit), line)
      else none
    | _ => none

/-- Some lines when a printed row has been carried out: a `+` row replaces the line of its number. -/
def replaceLine (lines : List Bytes) (printed : Bytes) : List Bytes :=
  match readRow? printed with
  | none => lines
  | some (n, line) => lines.set (n - 1) line

/-- A text with the rows of a preview carried out. -/
def patch (text preview : Bytes) : Bytes :=
  Bytes.joinWith (utf8 "\n") ((lines preview).foldl replaceLine (lines text))

theorem dropWhile_lineNumber (n : Nat) (rest : Bytes) :
    (lineNumber n ++ rest).dropWhile (· == byte ' ') = decimal n ++ rest := by
  have hblank : ∀ b ∈ List.replicate (4 - (decimal n).length) (byte ' '), (b == byte ' ') = true := by
    intro b hb
    rw [List.eq_of_mem_replicate hb]
    rfl
  have hnil : decimal n ≠ [] := by
    rw [decimal]
    split <;> simp
  obtain ⟨b, digits, hdecimal⟩ := List.exists_cons_of_ne_nil hnil
  have hdigit : Ascii.isDigit b = true :=
    isDigit_of_mem_decimal (by rw [hdecimal]; exact List.mem_cons_self ..)
  have hb : (b == byte ' ') = false := by
    rw [beq_eq_false_iff_ne]
    rintro rfl
    revert hdigit
    decide
  rw [lineNumber, List.append_assoc, List.dropWhile_append_of_pos hblank, hdecimal, List.cons_append,
    List.dropWhile_cons_of_neg (by simp [hb])]

/-- A `+` row is read back as it was printed. -/
theorem readRow?_row (n : Nat) (line : Bytes) :
    readRow? (utf8 "+" ++ lineNumber n ++ utf8 ": " ++ line) = some (n, line) := by
  have hdigits : ∀ b ∈ decimal n, Ascii.isDigit b = true := fun b hb => isDigit_of_mem_decimal hb
  have hcolon : Ascii.isDigit (byte ':') = false := by decide
  have hsplit : utf8 "+" ++ lineNumber n ++ utf8 ": " ++ line =
      byte '+' :: (lineNumber n ++ byte ':' :: byte ' ' :: line) := by
    rw [List.append_assoc, List.append_assoc]
    rfl
  rw [hsplit, readRow?,
    dropWhile_lineNumber, List.dropWhile_append_of_pos hdigits,
    List.dropWhile_cons_of_neg (by simp [hcolon]), List.takeWhile_append_of_pos hdigits,
    List.takeWhile_cons_of_neg (by simp [hcolon]), List.append_nil, numeral_decimal]
  simp

theorem replaceLine_of_minus (lines : List Bytes) (rest : Bytes) :
    replaceLine lines (byte '-' :: rest) = lines := by
  have hnone : readRow? (byte '-' :: rest) = none := by
    have hsign : byte '-' ≠ byte '+' := by decide
    rw [readRow?]
    split
    · simp [hsign]
    · rfl
  rw [replaceLine, hnone]

/-- Carrying out the differences one after another turns the old lines into the new ones. -/
theorem foldl_set_differencesFrom {old new : List Bytes} (h : old.length = new.length)
    (done : List Bytes) :
    (differencesFrom (done.length + 1) old new).foldl
        (fun lines d => lines.set (d.number - 1) d.new) (done ++ old) = done ++ new := by
  induction old generalizing new done with
  | nil =>
    rw [List.eq_nil_of_length_eq_zero h.symm]
    rfl
  | cons a old ih =>
    obtain ⟨b, new, rfl⟩ := List.exists_cons_of_length_eq_add_one h.symm
    have hrest := ih (Nat.succ.inj h) (done ++ [b])
    rw [List.length_append, List.length_singleton, List.append_assoc, List.append_assoc] at hrest
    rw [differencesFrom]
    by_cases hab : a = b
    · rw [if_pos hab, hab]
      exact hrest
    · rw [if_neg hab, List.foldl_cons, Nat.add_sub_cancel, List.set_append_right _ _ (Nat.le_refl _),
        Nat.sub_self, List.set_cons_zero]
      exact hrest

def Difference.printed (d : Difference) : List Bytes :=
  [utf8 "-" ++ lineNumber d.number ++ utf8 ": " ++ d.old,
    utf8 "+" ++ lineNumber d.number ++ utf8 ": " ++ d.new]

theorem Difference.rows_eq (d : Difference) :
    d.rows = d.printed.flatMap fun line => line ++ [byte '\n'] := by
  have hbreak : utf8 "\n" = [byte '\n'] := by decide
  simp [rows, printed, row, hbreak]

theorem notMem_lineNumber (n : Nat) : byte '\n' ∉ lineNumber n := by
  intro h
  rcases List.mem_append.1 h with h | h
  · have := List.eq_of_mem_replicate h
    revert this
    decide
  · have := isDigit_of_mem_decimal h
    revert this
    decide

theorem Difference.foldl_printed (d : Difference) (lines : List Bytes) :
    d.printed.foldl replaceLine lines = lines.set (d.number - 1) d.new := by
  have hminus : utf8 "-" ++ lineNumber d.number ++ utf8 ": " ++ d.old =
      byte '-' :: (lineNumber d.number ++ utf8 ": " ++ d.old) := by
    rw [List.append_assoc, List.append_assoc, ← List.append_assoc (lineNumber d.number)]
    rfl
  rw [printed, List.foldl_cons, List.foldl_cons, List.foldl_nil, hminus, replaceLine_of_minus,
    replaceLine, readRow?_row]

/-- The printed lines of a preview are those of its differences, and the footer. -/
theorem lines_flatMap_rows {differences : List Difference}
    (h : ∀ d ∈ differences, byte '\n' ∉ d.old ∧ byte '\n' ∉ d.new) :
    lines (differences.flatMap Difference.rows ++ footer) =
      differences.flatMap Difference.printed ++ lines footer := by
  have hrows : differences.flatMap Difference.rows =
      (differences.flatMap Difference.printed).flatMap fun line => line ++ [byte '\n'] := by
    rw [List.flatMap_assoc]
    exact List.flatMap_congr fun d _ => d.rows_eq
  have hbroken : ∀ line ∈ differences.flatMap Difference.printed, byte '\n' ∉ line := by
    intro line hline
    obtain ⟨d, hd, hprinted⟩ := List.mem_flatMap.1 hline
    have hsigns : byte '\n' ∉ utf8 "-" ∧ byte '\n' ∉ utf8 "+" ∧ byte '\n' ∉ utf8 ": " := by decide
    simp only [Difference.printed, List.mem_cons, List.not_mem_nil, or_false] at hprinted
    rcases hprinted with rfl | rfl <;>
      simp only [List.mem_append, not_or]
    · exact ⟨⟨⟨hsigns.1, notMem_lineNumber _⟩, hsigns.2.2⟩, (h d hd).1⟩
    · exact ⟨⟨⟨hsigns.2.1, notMem_lineNumber _⟩, hsigns.2.2⟩, (h d hd).2⟩
  rw [hrows]
  exact Bytes.splitOn_flatMap hbroken footer

/-- A preview of two texts with as many lines, carried out on the one, gives the other. -/
theorem patch_render {before after : Bytes} (h : (lines before).length = (lines after).length) :
    patch before (render before after) = after := by
  have hlines : ∀ d ∈ differencesFrom 1 (lines before) (lines after),
      byte '\n' ∉ d.old ∧ byte '\n' ∉ d.new := by
    intro d hd
    obtain ⟨i, _, hold, hnew, _⟩ := mem_differencesFrom.1 hd
    exact ⟨Bytes.notMem_of_mem_splitOn (List.mem_of_getElem? hold),
      Bytes.notMem_of_mem_splitOn (List.mem_of_getElem? hnew)⟩
  have hfooter : ∀ ls : List Bytes, (lines footer).foldl replaceLine ls = ls := by
    intro ls
    have heq : lines footer = [byte '-' :: utf8 "--- end preview ----", []] := by decide
    rw [heq, List.foldl_cons, replaceLine_of_minus]
    rfl
  have hfold : ∀ (differences : List Difference) (ls : List Bytes),
      (differences.flatMap Difference.printed).foldl replaceLine ls =
        differences.foldl (fun lines d => lines.set (d.number - 1) d.new) ls := by
    intro differences
    induction differences with
    | nil => exact fun _ => rfl
    | cons d rest ih =>
      intro ls
      rw [List.flatMap_cons, List.foldl_append, d.foldl_printed, ih, List.foldl_cons]
  have hbreak : utf8 "\n" = [byte '\n'] := by decide
  rw [patch, render, rowsFrom_eq h, lines_flatMap_rows hlines, List.foldl_append, hfooter, hfold,
    hbreak]
  have hset := foldl_set_differencesFrom h []
  rw [List.nil_append, List.nil_append] at hset
  rw [List.length_nil, Nat.zero_add] at hset
  rw [hset]
  exact Bytes.joinWith_splitOn (byte '\n') after

end Preview

/-- A fix puts no line break in. -/
theorem count_fixSource (src : Bytes) (plan : FilePlan) (style : Style) :
    (fixSource src plan style).count (byte '\n') = src.count (byte '\n') := by
  have hpiece : style.piece.count (byte '\n') = 0 := by cases style <;> decide
  have hinsert : ∀ (points : List Nat) (i : Nat) (ts : List Token),
      (Fix.insertFrom style.piece points i ts).count (byte '\n') =
        (Token.source ts).count (byte '\n') := by
    intro points i ts
    induction ts generalizing i with
    | nil => rfl
    | cons t rest ih =>
      rw [Fix.insertFrom, List.count_append, List.count_append, ih, Token.source_cons,
        List.count_append]
      split <;> simp [hpiece]
  rw [fixSource, hinsert, source_tokenize]

namespace Tree

variable {t t' : Tree} {c : Change} {suffix : Bytes} {p : Path}

theorem read_of_write {bytes : Bytes} (h : t.write p bytes = .ok t') : t'.read p = .ok bytes := by
  unfold write at h
  cases hwritable : t.writable p with
  | error e =>
    rw [hwritable] at h
    cases h
  | ok loc =>
    rw [hwritable] at h
    cases h
    have hframe := frame_of_writable hwritable
    refine (read_eq_ok (writable_congr (frame_set_file hframe bytes).symm hwritable)).2 ?_
    rw [get?_set t (ne_nil_of_frame hframe), if_pos rfl]

/-- Behind a change that was made its path leads to the new text. -/
theorem read_of_applied {backup : Path}
    (h : (applyChange c suffix : StateM Tree ApplyOutcome).run t = (.applied backup, t')) :
    t'.read c.path = .ok c.after := by
  cases hcopy : t.copy c.path (Change.backupPath c.path suffix) with
  | error e =>
    rw [run_applyChange_of_error hcopy] at h
    cases h
  | ok s =>
    cases hwrite : s.write c.path c.after with
    | ok s' =>
      rw [run_applyChange_of_ok hcopy hwrite] at h
      cases h
      exact read_of_write hwrite
    | error e =>
      have hcopy' : (FileSystem.copy c.path (Change.backupPath c.path suffix) :
          StateM Tree (Except FileError Unit)).run t = (.ok (), s) := run_change_of_ok hcopy
      have hwrite' : (FileSystem.write c.path c.after : StateM Tree (Except FileError Unit)).run s =
          (.error e, s) := run_change_of_error hwrite
      unfold applyChange at h
      rw [run_bind, hcopy'] at h
      dsimp only at h
      rw [run_bind, hwrite'] at h
      cases congrArg Prod.fst h

end Tree

/-- The preview of a change that was prepared has a pair of rows, in ascending order, for each line
that the change makes another, and there is one. What it prints is enough to turn the text of the
file into the text that applying the change writes. -/
theorem preview_exact {t : Tree} {plan : Plan} {style : Style} {c : Change}
    (h : c ∈ ((prepare plan style : StateM Tree Prepared).run t).1.changes) :
    t.read c.path = .ok c.before ∧
      (Preview.lines c.before).length = (Preview.lines c.after).length ∧
      (∃ differences : List Preview.Difference,
        c.preview = differences.flatMap Preview.Difference.rows ++ Preview.footer ∧
          differences ≠ [] ∧ differences.Pairwise (·.number < ·.number) ∧
          ∀ d, d ∈ differences ↔ ∃ i, d.number = i + 1 ∧ (Preview.lines c.before)[i]? = some d.old ∧
            (Preview.lines c.after)[i]? = some d.new ∧ d.old ≠ d.new) ∧
      Preview.patch c.before c.preview = c.after ∧
      ∀ (s s' : Tree) (suffix : Bytes) (backup : Path),
        (applyChange c suffix : StateM Tree ApplyOutcome).run s = (.applied backup, s') →
          s'.read c.path = .ok c.after := by
  rw [Tree.run_prepare] at h
  obtain ⟨filePlan, -, hafter, hne⟩ := Prepared.exists_reading_of_mem h
  have hlength : (Preview.lines c.before).length = (Preview.lines c.after).length := by
    rw [Preview.lines, Preview.lines, Bytes.length_splitOn, Bytes.length_splitOn, hafter,
      count_fixSource]
  refine ⟨Tree.read_of_mem_prepared h, hlength, ?_, Preview.patch_render hlength,
    fun s s' suffix backup happlied => Tree.read_of_applied happlied⟩
  refine ⟨Preview.differencesFrom 1 (Preview.lines c.before) (Preview.lines c.after), ?_,
    fun hnone => ?_, Preview.pairwise_differencesFrom _ _ _, fun d => ?_⟩
  · rw [Change.preview, Preview.render, Preview.rowsFrom_eq hlength]
  · have hlines := Preview.eq_of_differencesFrom hlength hnone
    refine hne ?_
    rw [← Bytes.joinWith_splitOn (byte '\n') c.after, ← Bytes.joinWith_splitOn (byte '\n') c.before]
    exact congrArg _ hlines.symm
  · simp only [Preview.mem_differencesFrom, Nat.add_comm 1]

def previewSample : Change where
  path := ⟨utf8 "a.php"⟩
  before := utf8 "<?php\n\nfn(A $a = null,\nB &$b = null);"
  after := utf8 "<?php\n\nfn(A|null $a = null,\nB|null &$b = null);"

def previewPlan : Plan := ⟨[(⟨utf8 "a.php"⟩, [(⟨0, 0⟩, 0), (⟨0, 1⟩, 0)])]⟩

def previewTree : Tree := ⟨[([utf8 "a.php"], .file previewSample.before)]⟩

theorem preview_exact_previewSample :
    previewSample ∈ ((prepare previewPlan .union : StateM Tree Prepared).run previewTree).1.changes ∧
      Preview.patch previewSample.before previewSample.preview = previewSample.after := by
  have hmem : previewSample ∈
      ((prepare previewPlan .union : StateM Tree Prepared).run previewTree).1.changes := by
    decide +kernel
  obtain ⟨-, -, -, hpatch, -⟩ := preview_exact hmem
  exact ⟨hmem, hpatch⟩

end ExplicitNull
