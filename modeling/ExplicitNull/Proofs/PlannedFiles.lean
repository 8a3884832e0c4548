import Mathlib.Data.List.Basic
import ExplicitNull.Change

/-!
The files of a plan. Paths are ordered by their components, and a plan keeps its files in this
order, so that no two of them are the same path; each is the file of an issue.
-/
namespace ExplicitNull

theorem Bytes.compare_eq_compareLex (a b : Bytes) :
    Bytes.compare a b = List.compareLex Ord.compare a b := by
  induction a generalizing b with
  | nil => cases b <;> rfl
  | cons x a ih =>
    cases b with
    | nil => rfl
    | cons y b =>
      rw [List.compareLex_cons_cons, ← ih]
      rfl

instance : Std.TransCmp Bytes.compare := by
  rw [show Bytes.compare = List.compareLex Ord.compare from
    funext fun a => funext fun b => Bytes.compare_eq_compareLex a b]
  infer_instance

instance : Std.LawfulEqCmp Bytes.compare := by
  rw [show Bytes.compare = List.compareLex Ord.compare from
    funext fun a => funext fun b => Bytes.compare_eq_compareLex a b]
  infer_instance

namespace Path

theorem Component.compare_swap (a b : Component) : a.compare b = (b.compare a).swap := by
  cases a <;> cases b <;> try rfl
  next a b =>
    have hswap : Bytes.compare a b = (Bytes.compare b a).swap := Std.OrientedCmp.eq_swap
    exact hswap

theorem Component.isLE_trans {a b c : Component} (hab : (a.compare b).isLE)
    (hbc : (b.compare c).isLE) : (a.compare c).isLE := by
  cases a <;> cases b <;> cases c <;> try trivial
  next a b c =>
    have htrans : (Bytes.compare a b).isLE → (Bytes.compare b c).isLE →
        (Bytes.compare a c).isLE := Std.TransCmp.isLE_trans
    exact htrans hab hbc

instance : Std.TransCmp Component.compare where
  eq_swap := Component.compare_swap ..
  isLE_trans := Component.isLE_trans

theorem compareComponents_eq_compareLex (a b : List Component) :
    compareComponents a b = List.compareLex Component.compare a b := by
  induction a generalizing b with
  | nil => cases b <;> rfl
  | cons x a ih =>
    cases b with
    | nil => rfl
    | cons y b =>
      rw [List.compareLex_cons_cons, ← ih]
      rfl

instance : Std.TransCmp compareComponents := by
  rw [show compareComponents = List.compareLex Component.compare from
    funext fun a => funext fun b => compareComponents_eq_compareLex a b]
  infer_instance

instance : Std.TransCmp Path.compare where
  eq_swap {p q} := by
    unfold Path.compare
    exact Std.OrientedCmp.eq_swap
  isLE_trans {p q r} := by
    unfold Path.compare
    exact Std.TransCmp.isLE_trans

end Path

namespace Assoc

variable {α β : Type} {cmp : α → α → Ordering}

def Ascending (cmp : α → α → Ordering) (entries : List (α × β)) : Prop :=
  (entries.map Prod.fst).Pairwise fun a b => cmp a b = .lt

theorem mem_alter (k k' : α) (f : Option β → β) (entries : List (α × β))
    (h : k' ∈ (alter cmp k f entries).map Prod.fst) : k' = k ∨ k' ∈ entries.map Prod.fst := by
  induction entries with
  | nil =>
    left
    simpa [alter] using h
  | cons entry rest ih =>
    obtain ⟨a, v⟩ := entry
    unfold alter at h
    cases hcmp : cmp k a with
    | lt => simpa [hcmp] using h
    | eq =>
      right
      simpa [hcmp] using h
    | gt =>
      rw [hcmp] at h
      rcases List.mem_cons.1 h with heq | hrest
      · exact .inr (List.mem_cons.2 (.inl heq))
      · exact (ih hrest).imp_right fun hmem => List.mem_cons_of_mem a hmem

theorem Ascending.alter [Std.TransCmp cmp] {entries : List (α × β)} (h : Ascending cmp entries)
    (k : α) (f : Option β → β) : Ascending cmp (Assoc.alter cmp k f entries) := by
  induction entries with
  | nil => simp [Ascending, Assoc.alter]
  | cons entry rest ih =>
    obtain ⟨a, v⟩ := entry
    obtain ⟨hfirst, hrest⟩ := List.pairwise_cons.1 h
    unfold Assoc.alter
    cases hcmp : cmp k a with
    | lt =>
      refine List.pairwise_cons.2 ⟨?_, h⟩
      intro b hb
      rcases List.mem_cons.1 hb with heq | hb
      · rw [heq]
        exact hcmp
      · exact Std.TransCmp.lt_trans hcmp (hfirst b hb)
    | eq => exact h
    | gt =>
      refine List.pairwise_cons.2 ⟨?_, ih hrest⟩
      intro b hb
      rcases mem_alter k b f rest hb with heq | hb
      · rw [heq]
        exact Std.OrientedCmp.lt_of_gt hcmp
      · exact hfirst b hb

theorem Ascending.nodup [Std.ReflCmp cmp] {entries : List (α × β)} (h : Ascending cmp entries) :
    (entries.map Prod.fst).Nodup := by
  refine List.Pairwise.imp ?_ h
  intro a b hlt heq
  have hself : cmp b b = .eq := Std.ReflCmp.compare_self
  rw [heq, hself] at hlt
  cases hlt

end Assoc

namespace Plan

def paths (plan : Plan) : List Path := plan.files.map Prod.fst

theorem ascending_insert {plan : Plan} (h : Assoc.Ascending Path.compare plan.files) (i : Issue) :
    Assoc.Ascending Path.compare (plan.insert i).files :=
  h.alter i.file _

theorem ascending_ofIssues (issues : List Issue) :
    Assoc.Ascending Path.compare (ofIssues issues).files := by
  suffices hfold : ∀ plan : Plan, Assoc.Ascending Path.compare plan.files →
      Assoc.Ascending Path.compare (issues.foldl insert plan).files from
    hfold empty List.Pairwise.nil
  induction issues with
  | nil => exact fun plan h => h
  | cons i issues ih => exact fun plan h => ih (plan.insert i) (ascending_insert h i)

theorem nodup_paths_ofIssues (issues : List Issue) : (ofIssues issues).paths.Nodup :=
  (ascending_ofIssues issues).nodup

theorem exists_issue_of_mem_paths {issues : List Issue} {p : Path}
    (h : p ∈ (ofIssues issues).paths) : ∃ i ∈ issues, i.file = p := by
  suffices hfold : ∀ plan : Plan, p ∈ (issues.foldl insert plan).paths →
      p ∈ plan.paths ∨ ∃ i ∈ issues, i.file = p from
    (hfold empty h).resolve_left List.not_mem_nil
  clear h
  induction issues with
  | nil => exact fun plan h => .inl h
  | cons i issues ih =>
    intro plan h
    rcases ih (plan.insert i) h with hmem | ⟨i', hi', hp⟩
    · rcases Assoc.mem_alter i.file p _ plan.files hmem with heq | hplan
      · exact .inr ⟨i, List.mem_cons_self .., heq.symm⟩
      · exact .inl hplan
    · exact .inr ⟨i', List.mem_cons_of_mem i hi', hp⟩

end Plan

/-- The issues of a report belong to the files that were read. -/
theorem ScanReport.exists_reading_of_mem {readings : List Reading} {i : Issue}
    (h : i ∈ (ofReadings readings).issues) : ∃ reading ∈ readings, reading.1 = i.file := by
  induction readings with
  | nil => cases h
  | cons reading rest ih =>
    obtain ⟨path, text⟩ := reading
    have hrest : i ∈ (ofReadings rest).issues → ∃ reading ∈ (path, text) :: rest, reading.1 = i.file := by
      intro hi
      obtain ⟨reading, hmem, heq⟩ := ih hi
      exact ⟨reading, List.mem_cons_of_mem _ hmem, heq⟩
    cases text with
    | error e => exact hrest h
    | ok src =>
      rcases List.mem_append.1 h with hi | hi
      · obtain ⟨c, -, hc⟩ := List.mem_map.1 hi
        exact ⟨(path, .ok src), List.mem_cons_self .., by rw [← hc]; rfl⟩
      · exact hrest hi

theorem ScanReport.exists_reading_of_mem_plan {readings : List Reading} {p : Path}
    (h : p ∈ (ofReadings readings).plan.paths) : ∃ reading ∈ readings, reading.1 = p := by
  obtain ⟨i, hi, hp⟩ := Plan.exists_issue_of_mem_paths h
  obtain ⟨reading, hmem, heq⟩ := exists_reading_of_mem hi
  exact ⟨reading, hmem, heq.trans hp⟩

/-- Changes are prepared for some of the files read, in their order. -/
theorem Prepared.sublist_ofReadings (style : Style) (readings : List (FilePlan × Reading)) :
    ((ofReadings style readings).changes.map Change.path).Sublist
      (readings.map fun reading => reading.2.1) := by
  induction readings with
  | nil => exact List.Sublist.slnil
  | cons reading rest ih =>
    obtain ⟨plan, path, text⟩ := reading
    cases text with
    | error e => exact ih.cons path
    | ok text =>
      by_cases hsame : fixSource text plan style = text
      · have hadd : ofReadings style ((plan, path, .ok text) :: rest) = ofReadings style rest :=
          if_pos hsame
        rw [hadd]
        exact ih.cons path
      · have hadd : (ofReadings style ((plan, path, .ok text) :: rest)).changes =
            ⟨path, text, fixSource text plan style⟩ :: (ofReadings style rest).changes :=
          congrArg Prepared.changes (if_neg hsame)
        rw [hadd]
        exact ih.cons_cons path

/-- A change is what its plan makes of the text that was read. -/
theorem Prepared.exists_reading_of_mem {style : Style} {readings : List (FilePlan × Reading)}
    {c : Change} (h : c ∈ (ofReadings style readings).changes) :
    ∃ plan, (plan, c.path, .ok c.before) ∈ readings ∧ c.after = fixSource c.before plan style ∧
      c.after ≠ c.before := by
  induction readings with
  | nil => cases h
  | cons reading rest ih =>
    have hrest : c ∈ (ofReadings style rest).changes → ∃ plan,
        (plan, c.path, .ok c.before) ∈ reading :: rest ∧
          c.after = fixSource c.before plan style ∧ c.after ≠ c.before := by
      intro hc
      obtain ⟨plan, hmem, hfix⟩ := ih hc
      exact ⟨plan, List.mem_cons_of_mem _ hmem, hfix⟩
    obtain ⟨plan, path, text⟩ := reading
    cases text with
    | error e => exact hrest h
    | ok text =>
      unfold ofReadings add at h
      dsimp only at h
      split at h
      · exact hrest h
      · next hchanged =>
        rcases List.mem_cons.1 h with heq | hc
        · rw [heq]
          exact ⟨plan, List.mem_cons_self .., rfl, hchanged⟩
        · exact hrest hc

end ExplicitNull
