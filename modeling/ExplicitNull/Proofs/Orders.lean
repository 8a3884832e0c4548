import ExplicitNull.Proofs.Listings
import ExplicitNull.Proofs.PlannedFiles

/-!
The order in which a listing comes. Sorting puts a list in order. Below one root paths are compared
name by name, so that a file comes before its backup, which has a longer name in the same directory,
and that before a backup of the backup.
-/
namespace ExplicitNull

namespace Sorting

variable {α : Type} {le : α → α → Bool}

section Sorted

variable (htotal : ∀ a b, le a b = true ∨ le b a = true)
  (htrans : ∀ a b c, le a b = true → le b c = true → le a c = true)

include htotal htrans

theorem pairwise_mergeCons {x : α} {xs : List α} {merge : List α → List α}
    (hx : ∀ y ∈ xs, le x y = true) (hperm : ∀ ys, (merge ys).Perm (xs ++ ys))
    (hmerge : ∀ ys, ys.Pairwise (le · · = true) → (merge ys).Pairwise (le · · = true))
    (ys : List α) (hys : ys.Pairwise (le · · = true)) :
    (mergeCons le x merge ys).Pairwise (le · · = true) := by
  induction ys with
  | nil =>
    refine List.pairwise_cons.2 ⟨fun z hz => ?_, hmerge [] .nil⟩
    have hmem := (hperm []).mem_iff.1 hz
    rw [List.append_nil] at hmem
    exact hx z hmem
  | cons y ys ih =>
    obtain ⟨hy, hrest⟩ := List.pairwise_cons.1 hys
    unfold mergeCons
    by_cases hxy : le x y = true
    · rw [if_pos hxy]
      refine List.pairwise_cons.2 ⟨fun z hz => ?_, hmerge _ hys⟩
      rcases List.mem_append.1 ((hperm _).mem_iff.1 hz) with hmem | hmem
      · exact hx z hmem
      rcases List.mem_cons.1 hmem with heq | hmem
      · rw [heq]
        exact hxy
      · exact htrans x y z hxy (hy z hmem)
    · rw [if_neg hxy]
      have hyx : le y x = true := (htotal x y).resolve_left hxy
      refine List.pairwise_cons.2 ⟨fun z hz => ?_, ih hrest⟩
      rcases List.mem_append.1 ((perm_mergeCons le x hperm ys).mem_iff.1 hz) with hmem | hmem
      · rcases List.mem_cons.1 hmem with heq | hmem
        · rw [heq]
          exact hyx
        · exact htrans y x z hyx (hx z hmem)
      · exact hy z hmem

theorem pairwise_merge {xs ys : List α} (hxs : xs.Pairwise (le · · = true))
    (hys : ys.Pairwise (le · · = true)) : (merge le xs ys).Pairwise (le · · = true) := by
  induction xs generalizing ys with
  | nil => exact hys
  | cons x xs ih =>
    obtain ⟨hx, hrest⟩ := List.pairwise_cons.1 hxs
    exact pairwise_mergeCons htotal htrans hx (perm_merge le xs) (fun _ => ih hrest) ys hys

theorem pairwise_mergePairs {runs : List (List α)}
    (hruns : ∀ run ∈ runs, run.Pairwise (le · · = true)) :
    ∀ run ∈ mergePairs le runs, run.Pairwise (le · · = true) := by
  fun_induction mergePairs le runs with
  | case1 a b rest ih =>
    intro run hrun
    rcases List.mem_cons.1 hrun with heq | hrun
    · rw [heq]
      exact pairwise_merge htotal htrans (hruns a (by simp)) (hruns b (by simp))
    · exact ih (fun run hmem => hruns run (by simp [hmem])) run hrun
  | case2 run => exact hruns
  | case3 => exact hruns

theorem pairwise_rounds (n : Nat) {runs : List (List α)}
    (hruns : ∀ run ∈ runs, run.Pairwise (le · · = true)) :
    ∀ run ∈ rounds le n runs, run.Pairwise (le · · = true) := by
  induction n generalizing runs with
  | zero => exact hruns
  | succ n ih => exact ih (pairwise_mergePairs htotal htrans hruns)

end Sorted

theorem length_mergePairs (le : α → α → Bool) (runs : List (List α)) :
    (mergePairs le runs).length = (runs.length + 1) / 2 := by
  fun_induction mergePairs le runs with
  | case1 a b rest ih =>
    simp only [List.length_cons, ih]
    omega
  | case2 run => simp
  | case3 => simp

/-- Enough rounds leave one run, or none. -/
theorem length_rounds_le {n : Nat} {runs : List (List α)} (h : runs.length ≤ n + 1) :
    (rounds le n runs).length ≤ 1 := by
  induction n generalizing runs with
  | zero => exact h
  | succ n ih =>
    apply ih
    rw [length_mergePairs]
    omega

theorem pairwise_sort (htotal : ∀ a b, le a b = true ∨ le b a = true)
    (htrans : ∀ a b c, le a b = true → le b c = true → le a c = true) (xs : List α) :
    (sort le xs).Pairwise (le · · = true) := by
  have hsingle : ∀ run ∈ xs.map fun x => [x], run.Pairwise (le · · = true) := by
    intro run hrun
    obtain ⟨x, -, hx⟩ := List.mem_map.1 hrun
    rw [← hx]
    exact List.pairwise_singleton _ x
  have hruns := pairwise_rounds htotal htrans xs.length hsingle
  have hlength : (rounds le xs.length (xs.map fun x => [x])).length ≤ 1 :=
    length_rounds_le (by simp)
  unfold sort
  generalize rounds le xs.length (xs.map fun x => [x]) = runs at hruns hlength
  match runs with
  | [] => exact .nil
  | [run] =>
    rw [List.flatten_singleton]
    exact hruns run (List.mem_singleton_self run)

end Sorting

theorem Bytes.compare_append {suffix : Bytes} (h : suffix ≠ []) (a : Bytes) :
    Bytes.compare a (a ++ suffix) = .lt := by
  induction a with
  | nil =>
    obtain ⟨b, rest, hcons⟩ := List.exists_cons_of_ne_nil h
    rw [hcons]
    rfl
  | cons b a ih =>
    have hself : Ord.compare b b = .eq := Std.ReflCmp.compare_self
    simp only [List.cons_append, Bytes.compare, hself, ih]
    rfl

namespace Path

theorem compareComponents_append (above a b : List Component) :
    compareComponents (above ++ a) (above ++ b) = compareComponents a b := by
  induction above with
  | nil => rfl
  | cons c above ih =>
    have hself : c.compare c = .eq := Std.ReflCmp.compare_self
    simp only [List.cons_append, compareComponents, hself, ih]
    rfl

theorem filterMap_inner?_concat (pieces : List Bytes) (name : Bytes) :
    (pieces ++ [name]).filterMap inner? = pieces.filterMap inner? ++ (inner? name).toList := by
  rw [List.filterMap_append]
  cases h : inner? name <;> simp [h]

theorem components_slash (a : Bytes) {name : Bytes} (h : byte '/' ∉ name) :
    components ⟨a ++ byte '/' :: name⟩ =
      components ⟨a ++ [byte '/']⟩ ++ (inner? name).toList := by
  have hraw : (a ++ byte '/' :: name).head? = (a ++ [byte '/']).head? := by cases a <;> rfl
  have hpieces : ∀ last, (Bytes.splitOn (byte '/') a ++ [last]).head? =
      (Bytes.splitOn (byte '/') a).head? :=
    fun _ => List.head?_append_of_ne_nil _ (Bytes.splitOn_ne_nil _ a)
  have hslash : Bytes.splitOn (byte '/') [] = [[]] := rfl
  have hempty : inner? [] = none := rfl
  unfold components
  simp only [Bytes.splitOn_append, Bytes.splitOn_of_notMem h, hslash, hraw, hpieces,
    filterMap_inner?_concat, hempty, Option.toList_none, List.append_nil, List.append_assoc]

/-- A slash behind a path makes no difference. -/
theorem components_append_slash {a : Bytes} (h : a ≠ []) :
    components ⟨a ++ [byte '/']⟩ = components ⟨a⟩ := by
  have hslash : Bytes.splitOn (byte '/') [] = [[]] := rfl
  have hempty : inner? [] = none := rfl
  unfold components
  simp only [Bytes.splitOn_append, hslash, filterMap_inner?_concat, hempty, Option.toList_none,
    List.append_nil, List.head?_append_of_ne_nil _ h,
    List.head?_append_of_ne_nil _ (Bytes.splitOn_ne_nil (byte '/') a)]

variable {p : Path} {name : Bytes}

theorem components_join (hp : p.raw ≠ []) (h : byte '/' ∉ name) :
    (p.join name).components = p.components ++ (inner? name).toList := by
  obtain ⟨a, b, hraw⟩ := (List.eq_nil_or_concat p.raw).resolve_left hp
  by_cases hb : b = byte '/'
  · have hp' : p = ⟨a ++ [byte '/']⟩ := by rw [← hb, ← List.concat_eq_append, ← hraw]
    have hjoin : p.join name = ⟨a ++ byte '/' :: name⟩ := by simp [join, hraw, hb]
    rw [hjoin, components_slash a h, ← hp']
  · have hjoin : p.join name = ⟨p.raw ++ byte '/' :: name⟩ := by simp [join, hraw, hb]
    rw [hjoin, components_slash p.raw h, components_append_slash hp]

theorem IsName.inner? (h : IsName name) : Path.inner? name = some (.name name) := by
  simp [Path.inner?, h.nonempty, h.not_here, h.not_parent]

theorem components_foldl_join {above : List Bytes} (hp : p.raw ≠ [])
    (h : ∀ name ∈ above, IsName name) :
    (above.foldl join p).components = p.components ++ above.map .name := by
  induction above generalizing p with
  | nil => simp
  | cons name above ih =>
    have hname : IsName name := h name (List.mem_cons_self ..)
    have habove : ∀ n ∈ above, IsName n := fun n hn => h n (List.mem_cons_of_mem name hn)
    rw [List.foldl_cons, ih (join_ne_nil p hname.nonempty) habove, components_join hp hname.no_slash,
      hname.inner?]
    simp

instance : Std.LawfulEqCmp Component.compare where
  eq_of_compare {a b} h := by
    cases a <;> cases b <;> try first | rfl | cases h
    next a b =>
      have hbytes : Bytes.compare a b = .eq := h
      rw [Std.LawfulEqCmp.eq_of_compare hbytes]

instance : Std.LawfulEqCmp compareComponents := by
  rw [show compareComponents = List.compareLex Component.compare from
    funext fun a => funext fun b => compareComponents_eq_compareLex a b]
  infer_instance

/-- Paths are the same if their components are. -/
theorem compare_eq_eq {q : Path} : p.compare q = .eq ↔ p.components = q.components := by
  unfold Path.compare
  exact Std.LawfulEqCmp.compare_eq_iff_eq

end Path

theorem Spot.components_path {root : Path} {x : Spot} (hroot : root.raw ≠ []) (hx : x.IsNamed) :
    (x.path root).components =
      root.components ++ x.above.map .name ++ (Path.inner? x.name).toList := by
  rw [Spot.path, Path.components_join (Path.foldl_join_ne_nil hroot hx.above) hx.no_slash,
    Path.components_foldl_join hroot hx.above]

/-- A file comes before its backup. -/
theorem Spot.compare_backup {root : Path} {x : Spot} {suffix : Bytes} (hroot : root.raw ≠ [])
    (hx : x.IsProper) (hbackup : (x.backup suffix).IsProper) (hsuffix : suffix ≠ []) :
    (x.path root).compare ((x.backup suffix).path root) = .lt := by
  have habove : (x.above.foldl Path.join root).raw ≠ [] := Path.foldl_join_ne_nil hroot hx.above
  have hname : Path.inner? (x.backup suffix).name = some (.name (x.backup suffix).name) :=
    hbackup.name.inner?
  unfold Path.compare Spot.path
  rw [Path.components_join habove hx.name.no_slash, hx.name.inner?,
    show (x.backup suffix).above = x.above from rfl,
    Path.components_join habove hbackup.name.no_slash, hname, Path.compareComponents_append]
  have hbytes := Bytes.compare_append hsuffix x.name
  simp only [Option.toList_some, Path.compareComponents, Path.Component.compare, Spot.backup, hbytes]
  rfl

end ExplicitNull
