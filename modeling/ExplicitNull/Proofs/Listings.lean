import Mathlib.Data.List.Pairwise
import ExplicitNull.Proofs.Resolution

/-!
What a listing of the files below a root holds. In a well-formed tree these are the files whose
directories may be entered, each of them once, and sorting them keeps them all.
-/
namespace ExplicitNull

namespace Sorting

variable {α : Type} (le : α → α → Bool)

theorem perm_mergeCons (x : α) {merge : List α → List α} {xs : List α}
    (hmerge : ∀ ys, (merge ys).Perm (xs ++ ys)) (ys : List α) :
    (mergeCons le x merge ys).Perm (x :: xs ++ ys) := by
  induction ys with
  | nil => exact (hmerge []).cons x
  | cons y ys ih =>
    unfold mergeCons
    split
    · exact (hmerge (y :: ys)).cons x
    · exact (ih.cons y).trans List.perm_middle.symm

theorem perm_merge (xs ys : List α) : (merge le xs ys).Perm (xs ++ ys) := by
  induction xs generalizing ys with
  | nil => exact List.Perm.refl ys
  | cons x xs ih => exact perm_mergeCons le x ih ys

theorem perm_mergePairs (runs : List (List α)) :
    (mergePairs le runs).flatten.Perm runs.flatten := by
  fun_induction mergePairs le runs with
  | case1 a b rest ih =>
    rw [List.flatten_cons, List.flatten_cons, List.flatten_cons, ← List.append_assoc]
    exact (perm_merge le a b).append ih
  | case2 run => exact List.Perm.refl _
  | case3 => exact List.Perm.refl _

theorem perm_rounds (n : Nat) (runs : List (List α)) :
    (rounds le n runs).flatten.Perm runs.flatten := by
  induction n generalizing runs with
  | zero => exact List.Perm.refl _
  | succ n ih => exact (ih (mergePairs le runs)).trans (perm_mergePairs le runs)

theorem perm_sort (xs : List α) : (sort le xs).Perm xs := by
  have hsingle : (xs.map fun x => [x]).flatten = xs := by
    induction xs with
    | nil => rfl
    | cons x xs ih => rw [List.map_cons, List.flatten_cons, ih, List.singleton_append]
  have hrounds := perm_rounds le xs.length (xs.map fun x => [x])
  rw [hsingle] at hrounds
  exact hrounds

end Sorting

namespace Tree

theorem exists_eq_map {α β : Type} {f : α → β} {q : α → Prop} {bs : List β}
    (h : ∀ b ∈ bs, ∃ a, q a ∧ b = f a) : ∃ as : List α, bs = as.map f ∧ ∀ a ∈ as, q a := by
  induction bs with
  | nil => exact ⟨[], rfl, fun _ ha => absurd ha List.not_mem_nil⟩
  | cons b bs ih =>
    obtain ⟨a, ha, hb⟩ := h b (List.mem_cons_self ..)
    obtain ⟨as, has, hall⟩ := ih fun b' hb' => h b' (List.mem_cons_of_mem b hb')
    exact ⟨a :: as, by rw [List.map_cons, hb, has], List.forall_mem_cons.2 ⟨ha, hall⟩⟩

structure Lists (t : Tree) (enter : Bytes → Bool) (root : Path) (here : Location) (x : Spot) :
    Prop where
  enter : x.above.all enter = true
  short : (x.path root).raw.length < Path.tooLong
  isFile : ∃ bytes, t.get? (x.location here) = some (.file bytes)

variable {t : Tree} {enter : Bytes → Bool} {root : Path} {here loc : Location} {x y : Spot}
  {e : Entry} {p : Path}

theorem pathBelow?_eq_some : pathBelow? enter root here (loc, e) = some p ↔
    ∃ x : Spot, loc = x.location here ∧ (∃ bytes, e = .file bytes) ∧ x.above.all enter = true ∧
      (x.path root).raw.length < Path.tooLong ∧ p = x.path root := by
  have hspot : ∀ x : Spot, (x.above ++ [x.name]).foldl Path.join root = x.path root := fun x => by
    rw [List.foldl_append]
    rfl
  constructor
  · intro h
    unfold pathBelow? at h
    split at h
    · next name names bytes hbelow he =>
      have hloc : loc = here ++ (name :: names) := below?_eq_some.1 hbelow
      obtain ⟨above, last, hlast⟩ :=
        (List.eq_nil_or_concat (name :: names)).resolve_left (List.cons_ne_nil name names)
      rw [List.concat_eq_append] at hlast
      rw [hlast] at h hloc
      rw [hspot ⟨above, last⟩, List.dropLast_concat] at h
      simp only [Bool.and_eq_true, decide_eq_true_eq, Option.ite_none_right_eq_some,
        Option.some.injEq] at h
      refine ⟨⟨above, last⟩, ?_, ⟨bytes, he⟩, h.1.1, h.1.2, h.2.symm⟩
      rw [hloc, Spot.location, List.append_assoc]
    · cases h
  · intro h
    obtain ⟨x, hloc, ⟨bytes, he⟩, henter, hshort, hp⟩ := h
    subst hloc he hp
    have hbelow : below? here (x.location here) = some (x.above ++ [x.name]) := by
      rw [Spot.location, List.append_assoc]
      exact below?_eq_some.2 rfl
    obtain ⟨name, names, hcons⟩ : ∃ name names, x.above ++ [x.name] = name :: names :=
      List.exists_cons_of_ne_nil (by simp)
    unfold pathBelow?
    simp only [hbelow, hcons]
    rw [← hcons, hspot, List.dropLast_concat, henter]
    simp [hshort]

theorem filesBelow_of_resolve (enter : Bytes → Bool)
    (hroot : t.resolve .target root = .ok (.found here .directory)) :
    t.filesBelow enter root = .ok (t.entries.filterMap (pathBelow? enter root here)) := by
  unfold filesBelow
  rw [hroot]

/-- A path is listed if it is that of a file which the listing shows. -/
theorem WellFormed.mem_filesBelow (ht : t.WellFormed) :
    p ∈ t.entries.filterMap (pathBelow? enter root here) ↔
      ∃ x, t.Lists enter root here x ∧ p = x.path root := by
  constructor
  · intro h
    obtain ⟨⟨loc, e⟩, hmem, hsome⟩ := List.mem_filterMap.1 h
    obtain ⟨x, hloc, ⟨bytes, he⟩, henter, hshort, hp⟩ := pathBelow?_eq_some.1 hsome
    subst hloc he
    have hget := get?_of_mem ht.nodup (x.location_ne_nil here) hmem
    exact ⟨x, ⟨henter, hshort, bytes, hget⟩, hp⟩
  · intro h
    obtain ⟨x, ⟨henter, hshort, bytes, hget⟩, hp⟩ := h
    have hmem := mem_entries_of_get? (x.location_ne_nil here) hget
    exact List.mem_filterMap.2 ⟨(x.location here, .file bytes), hmem,
      pathBelow?_eq_some.2 ⟨x, rfl, ⟨bytes, rfl⟩, henter, hshort, hp⟩⟩

theorem WellFormed.isProper (ht : t.WellFormed) (hget : t.get? (x.location here) = some e) :
    x.IsProper where
  above name hname := (ht.isEntryName _ _ hget name (by simp [Spot.location, hname])).toIsName
  name := (ht.isEntryName _ _ hget x.name (by simp [Spot.location])).toIsName

theorem WellFormed.get?_above (ht : t.WellFormed) (hget : t.get? (x.location here) = some e) :
    t.get? (here ++ x.above) = some .directory := by
  have hparent := ht.parent _ _ hget
  rw [Spot.location, List.dropLast_concat] at hparent
  exact hparent

theorem WellFormed.set_spot (ht : t.WellFormed)
    (habove : t.get? (here ++ x.above) = some .directory) (hname : Path.IsEntryName x.name)
    (hframe : t.frame (x.location here) = none) (bytes : Bytes) :
    (t.set (x.location here) (.file bytes)).WellFormed := by
  apply ht.set_file hframe
  · rw [Spot.location, List.dropLast_concat]
    exact habove
  · intro name hmem
    rcases List.mem_append.1 hmem with hmem | hmem
    · exact ht.isEntryName _ _ habove name hmem
    · rw [List.mem_singleton.1 hmem]
      exact hname

/-- The path of an entry comes to its directory. -/
theorem WellFormed.reaches_of_get? (ht : t.WellFormed)
    (hroot : t.resolve .target root = .ok (.found here .directory))
    (hget : t.get? (x.location here) = some e) : t.Reaches root here x :=
  ht.reaches hroot (ht.isProper hget) (ht.get?_above hget)

theorem WellFormed.nodup_filesBelow (ht : t.WellFormed) (hroot : root.raw ≠ []) :
    (t.entries.filterMap (pathBelow? enter root here)).Nodup := by
  have hkeys : t.entries.Pairwise fun a b => a.1 ≠ b.1 := List.pairwise_map.1 ht.nodup
  apply List.pairwise_filterMap.2
  refine hkeys.imp_of_mem ?_
  intro (loc, e) (loc', e') ha hb hne p hp q hq hpq
  obtain ⟨x, hx, -, -, -, hpath⟩ := pathBelow?_eq_some.1 hp
  obtain ⟨y, hy, -, -, -, hpath'⟩ := pathBelow?_eq_some.1 hq
  subst hx hy
  have hgetx := get?_of_mem ht.nodup (x.location_ne_nil here) ha
  have hgety := get?_of_mem ht.nodup (y.location_ne_nil here) hb
  have hxy : x = y := Spot.path_injective hroot (ht.isProper hgetx).isNamed
    (ht.isProper hgety).isNamed
    (hpath.symm.trans (hpq.trans hpath'))
  exact hne (congrArg (Spot.location here) hxy)

end Tree

end ExplicitNull
