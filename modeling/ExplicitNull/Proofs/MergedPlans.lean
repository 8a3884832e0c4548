import Mathlib.Data.List.Dedup
import ExplicitNull.Proofs.ScanReports

/-!
Plans made of any issues, in any order and with their paths in any spelling. Each issue is entered
into the file with the same components, and this file keeps the spelling under which it came first.
There its start replaces the one that an earlier issue gave for the same parameter, so that in the
end a plan answers with the last issue for a parameter and lists a file for each path, once.
-/
namespace ExplicitNull

instance : Std.TransCmp Address.compare :=
  inferInstanceAs (Std.TransCmp (compareLex (compareOn Address.functionIndex)
    (compareOn Address.paramIndex)))

namespace Path

/-- A piece between two slashes that is empty or a dot does not count. -/
theorem components_idle {piece : Bytes} (h : inner? piece = none) (a b : Bytes) :
    components ⟨a ++ byte '/' :: (piece ++ byte '/' :: b)⟩ =
      components ⟨a ++ byte '/' :: b⟩ := by
  have hslash : byte '/' ∉ piece := by
    unfold inner? at h
    split at h
    · next hpiece =>
      rcases hpiece with rfl | rfl
      · exact List.not_mem_nil
      · decide
    · split at h <;> cases h
  have hhead : (a ++ byte '/' :: (piece ++ byte '/' :: b)).head? = (a ++ byte '/' :: b).head? := by
    cases a <;> rfl
  have hfirst : ∀ pieces, (Bytes.splitOn (byte '/') a ++ pieces).head? =
      (Bytes.splitOn (byte '/') a).head? :=
    fun _ => List.head?_append_of_ne_nil _ (Bytes.splitOn_ne_nil _ a)
  have hpiece : [piece].filterMap inner? = [] := by simp [h]
  unfold components
  simp only [Bytes.splitOn_append, Bytes.splitOn_of_notMem hslash, hhead, hfirst,
    List.filterMap_append, hpiece, List.nil_append]

end Path

namespace Issue

def isIn (p : Path) (i : Issue) : Bool := i.file.components = p.components

def isAt (p : Path) (a : Address) (i : Issue) : Bool := i.isIn p && i.address = a

variable {p q : Path} {i : Issue}

theorem isIn_iff : i.isIn p = true ↔ p.compare i.file = .eq := by
  rw [isIn, decide_eq_true_eq, Path.compare_eq_eq, eq_comm]

theorem isIn_congr (h : p.compare q = .eq) : isIn p = isIn q := by
  funext i
  rw [isIn, isIn, Path.compare_eq_eq.1 h]

end Issue

namespace Assoc

variable {α β : Type} {cmp : α → α → Ordering} {entries : List (α × β)} {k k' : α}

/-- A new key is entered in its own spelling. -/
theorem mem_keys_alter_of_ne (f : Option β → β) (h : ∀ a ∈ entries.map Prod.fst, cmp k a ≠ .eq) :
    k' ∈ (alter cmp k f entries).map Prod.fst ↔ k' = k ∨ k' ∈ entries.map Prod.fst := by
  induction entries with
  | nil => simp [alter]
  | cons entry rest ih =>
    obtain ⟨a, v⟩ := entry
    obtain ⟨hne, hrest⟩ := List.forall_mem_cons.1 h
    unfold alter
    cases hcmp : cmp k a with
    | lt => simp
    | eq => exact absurd hcmp hne
    | gt =>
      simp only [List.map_cons, List.mem_cons, ih hrest]
      exact or_left_comm

/-- A key that is there in some spelling keeps it. -/
theorem Ascending.keys_alter_of_mem [Std.TransCmp cmp] (h : Ascending cmp entries)
    (f : Option β → β) (hmem : k' ∈ entries.map Prod.fst) (heq : cmp k k' = .eq) :
    (Assoc.alter cmp k f entries).map Prod.fst = entries.map Prod.fst := by
  induction entries with
  | nil => cases hmem
  | cons entry rest ih =>
    obtain ⟨a, v⟩ := entry
    obtain ⟨hfirst, hrest⟩ := List.pairwise_cons.1 h
    unfold Assoc.alter
    rcases List.mem_cons.1 hmem with rfl | hmem
    · rw [heq]
      rfl
    · have hgt : cmp k a = .gt := by
        rw [Std.TransCmp.congr_left heq]
        exact Std.OrientedCmp.gt_of_lt (hfirst k' hmem)
      rw [hgt]
      exact congrArg (List.cons a) (ih hrest hmem)

theorem get?_eq_find? (k : α) (entries : List (α × β)) :
    get? cmp k entries = (entries.find? fun e => cmp k e.1 == .eq).map Prod.snd := by
  induction entries with
  | nil => rfl
  | cons entry rest ih =>
    obtain ⟨a, v⟩ := entry
    by_cases heq : cmp k a = .eq <;> simp [get?, heq, ih]

end Assoc

/-- A plan that gathers issues: a file for each path, in the order of the paths and under the
spelling of its first issue, with the start that the last issue for a parameter gives. -/
structure Plan.Merges (plan : Plan) (issues : List Issue) : Prop where
  ascending : plan.paths.Pairwise fun p q => p.compare q = .lt
  mem_paths : ∀ p, p ∈ plan.paths ↔ (issues.find? (·.isIn p)).map Issue.file = some p
  file?_eq : ∀ p, plan.file? p =
    (plan.files.find? (·.1.components = p.components)).map Prod.snd
  targets_ascending : ∀ p filePlan, plan.file? p = some filePlan →
    (filePlan.map Prod.fst).Pairwise fun a b => a.compare b = .lt
  get?_eq : ∀ p a, (plan.file? p).bind (·.get? a) =
    (issues.reverse.find? (·.isAt p a)).map Issue.typeStart

namespace Plan

variable {plan : Plan} {issues : List Issue} {i : Issue} {p q : Path}

theorem file?_eq_find? (plan : Plan) (p : Path) : plan.file? p =
    (plan.files.find? (·.1.components = p.components)).map Prod.snd := by
  have hsame : (fun e : Path × FilePlan => p.compare e.1 == .eq) =
      fun e => decide (e.1.components = p.components) := by
    funext e
    rw [Bool.eq_iff_iff, beq_iff_eq, decide_eq_true_eq, Path.compare_eq_eq, eq_comm]
  rw [file?, Assoc.get?_eq_find?, hsame]

theorem merges_empty : empty.Merges [] where
  ascending := .nil
  mem_paths _ := by simp [empty, paths]
  file?_eq := file?_eq_find? empty
  targets_ascending _ _ h := by cases h
  get?_eq _ _ := rfl

theorem Merges.exists_isIn (h : plan.Merges issues) (hp : p ∈ plan.paths) :
    ∃ j ∈ issues, j.isIn p = true := by
  obtain ⟨j, hfind, -⟩ := Option.map_eq_some_iff.1 ((h.mem_paths p).1 hp)
  exact ⟨j, List.mem_of_find?_eq_some hfind, List.find?_some hfind⟩

/-- The first issue of a path is the one whose spelling the plan has. -/
theorem Merges.exists_mem_paths (h : plan.Merges issues) (hi : i ∈ issues) (hp : i.isIn p = true) :
    ∃ q ∈ plan.paths, p.compare q = .eq := by
  obtain ⟨j, hfind⟩ := Option.isSome_iff_exists.1 (List.find?_isSome.2 ⟨i, hi, hp⟩)
  have heq : p.compare j.file = .eq := Issue.isIn_iff.1 (List.find?_some hfind)
  refine ⟨j.file, (h.mem_paths _).2 ?_, heq⟩
  rw [← Issue.isIn_congr heq, hfind]
  rfl

theorem Merges.mem_paths_insert (h : plan.Merges issues) (i : Issue) (p : Path) :
    p ∈ (plan.insert i).paths ↔
      ((issues ++ [i]).find? (·.isIn p)).map Issue.file = some p := by
  have hself : i.isIn i.file = true := Issue.isIn_iff.2 Std.ReflCmp.compare_self
  rw [List.find?_append]
  by_cases hold : ∃ j ∈ issues, j.isIn i.file = true
  · -- the path of the issue is there already
    obtain ⟨j, hj, hin⟩ := hold
    obtain ⟨q, hq, heq⟩ := h.exists_mem_paths hj hin
    have hpaths : (plan.insert i).paths = plan.paths :=
      Assoc.Ascending.keys_alter_of_mem h.ascending _ hq heq
    rw [hpaths, h.mem_paths]
    cases hfind : issues.find? (·.isIn p) with
    | some k => rfl
    | none =>
      have hp : i.isIn p = false := by
        by_contra hp
        rw [Bool.not_eq_false, Issue.isIn_iff] at hp
        rw [← Issue.isIn_congr hp] at hin
        exact List.find?_eq_none.1 hfind j hj hin
      simp [hp]
  · have hne : ∀ q ∈ plan.paths, i.file.compare q ≠ .eq := by
      intro q hq heq
      obtain ⟨j, hj, hin⟩ := h.exists_isIn hq
      exact hold ⟨j, hj, by rwa [Issue.isIn_congr heq]⟩
    have hmem : p ∈ (plan.insert i).paths ↔ p = i.file ∨ p ∈ plan.paths :=
      Assoc.mem_keys_alter_of_ne _ hne
    rw [hmem, h.mem_paths]
    by_cases hp : i.isIn p = true
    · have hnone : issues.find? (·.isIn p) = none := by
        refine List.find?_eq_none.2 fun j hj hin => hold ⟨j, hj, ?_⟩
        rwa [← Issue.isIn_congr (Issue.isIn_iff.1 hp)]
      simp [hnone, hp, eq_comm]
    · have hpi : p ≠ i.file := fun heq => hp (heq ▸ hself)
      simp [hp, hpi]

theorem Merges.get?_insert (h : plan.Merges issues) (i : Issue) (p : Path) (a : Address) :
    ((plan.insert i).file? p).bind (·.get? a) =
      ((issues ++ [i]).reverse.find? (·.isAt p a)).map Issue.typeStart := by
  have hold := h.get?_eq p a
  rw [List.reverse_concat, List.find?_cons, file?_insert h.ascending]
  by_cases hp : p.compare i.file = .eq
  · have hin : i.isIn p = true := Issue.isIn_iff.2 hp
    have hget : ((plan.file? p).getD []).get? a = (plan.file? p).bind (·.get? a) := by
      cases plan.file? p <;> rfl
    rw [if_pos hp, Option.bind_some, FilePlan.get?_insert, hget, hold]
    by_cases ha : a = i.address
    · simp [Issue.isAt, hin, ha]
    · simp [Issue.isAt, hin, ha, Ne.symm ha]
  · have hin : i.isIn p = false := by
      rw [Bool.eq_false_iff]
      exact fun hin => hp (Issue.isIn_iff.1 hin)
    rw [if_neg hp, hold]
    simp [Issue.isAt, hin]

/-- One more issue. -/
theorem Merges.insert (h : plan.Merges issues) (i : Issue) :
    (plan.insert i).Merges (issues ++ [i]) where
  ascending := ascending_insert h.ascending i
  mem_paths := h.mem_paths_insert i
  file?_eq := file?_eq_find? _
  targets_ascending p filePlan hfile := by
    rw [file?_insert h.ascending] at hfile
    split at hfile
    · cases hfile
      refine Assoc.Ascending.alter ?_ i.address _
      cases hold : plan.file? p with
      | none => exact .nil
      | some old => exact h.targets_ascending p old hold
    · exact h.targets_ascending p filePlan hfile
  get?_eq := h.get?_insert i

theorem merges_ofIssues (issues : List Issue) : (ofIssues issues).Merges issues := by
  induction issues using List.reverseRecOn with
  | nil => exact merges_empty
  | append_singleton issues i ih =>
    have hinsert : ofIssues (issues ++ [i]) = (ofIssues issues).insert i := List.foldl_concat ..
    rw [hinsert]
    exact ih.insert i

/-- The paths of a plan stand for the paths of its issues, each once. -/
theorem Merges.perm_components (h : plan.Merges issues) :
    (plan.paths.map Path.components).Perm (issues.map (·.file.components)).dedup := by
  have hnodup : (plan.paths.map Path.components).Nodup := by
    refine List.pairwise_map.2 (h.ascending.imp fun {p q} hlt heq => ?_)
    rw [Path.compare_eq_eq.2 heq] at hlt
    cases hlt
  refine (List.perm_ext_iff_of_nodup hnodup (List.nodup_dedup _)).2 fun c => ?_
  rw [List.mem_dedup, List.mem_map, List.mem_map]
  constructor
  · rintro ⟨p, hp, rfl⟩
    obtain ⟨j, hj, hin⟩ := h.exists_isIn hp
    exact ⟨j, hj, (Path.compare_eq_eq.1 (Issue.isIn_iff.1 hin)).symm⟩
  · rintro ⟨i, hi, rfl⟩
    obtain ⟨q, hq, heq⟩ :=
      h.exists_mem_paths hi (Issue.isIn_iff.2 (Std.ReflCmp.compare_self (a := i.file)))
    exact ⟨q, hq, (Path.compare_eq_eq.1 heq).symm⟩

/-- The order of paths tells them apart by their components, for which repeated slashes, dots behind
the start and slashes at the end do not count. A plan made of issues has just their paths, each
once, and answers for each parameter with the last issue. -/
theorem ofIssues_gathers (issues : List Issue) :
    Std.TransCmp Path.compare ∧ (∀ p q, Path.compare p q = .eq ↔ p.components = q.components) ∧
      (∀ a b, Path.components ⟨a ++ utf8 "//" ++ b⟩ = Path.components ⟨a ++ utf8 "/" ++ b⟩) ∧
      (∀ a b, Path.components ⟨a ++ utf8 "/./" ++ b⟩ = Path.components ⟨a ++ utf8 "/" ++ b⟩) ∧
      (∀ c a, Path.components ⟨c :: a ++ utf8 "/"⟩ = Path.components ⟨c :: a⟩) ∧
      (ofIssues issues).Merges issues ∧
      ((ofIssues issues).isEmpty = true ↔ issues = []) ∧
      (ofIssues issues).fileCount = (issues.map (·.file.components)).dedup.length := by
  have hmerges := merges_ofIssues issues
  have hcount : (ofIssues issues).fileCount = (issues.map (·.file.components)).dedup.length := by
    rw [← hmerges.perm_components.length_eq, List.length_map, paths, List.length_map]
    rfl
  refine ⟨inferInstance, fun p q => Path.compare_eq_eq, fun a b => ?_, fun a b => ?_, fun c a => ?_,
    hmerges, ?_, hcount⟩
  · rw [List.append_assoc, List.append_assoc]
    exact Path.components_idle (rfl : Path.inner? [] = none) a b
  · rw [List.append_assoc, List.append_assoc]
    exact Path.components_idle (rfl : Path.inner? (utf8 ".") = none) a b
  · exact Path.components_append_slash (List.cons_ne_nil c a)
  · calc (ofIssues issues).isEmpty = true ↔ (ofIssues issues).fileCount = 0 := by
          rw [isEmpty, fileCount, List.isEmpty_iff, List.length_eq_zero_iff]
      _ ↔ issues = [] := by
          rw [hcount, List.length_eq_zero_iff, List.dedup_eq_nil, List.map_eq_nil_iff]

/-- Two spellings of one path, and two issues for one parameter. -/
example : (ofIssues [⟨⟨utf8 "a//b"⟩, ⟨0, 1⟩, 2, 1, [], []⟩, ⟨⟨utf8 "a"⟩, ⟨0, 0⟩, 3, 1, [], []⟩,
    ⟨⟨utf8 "a/./b/"⟩, ⟨0, 1⟩, 4, 1, [], []⟩]).files =
      [(⟨utf8 "a"⟩, [(⟨0, 0⟩, 3)]), (⟨utf8 "a//b"⟩, [(⟨0, 1⟩, 4)])] := by decide

end Plan

end ExplicitNull
