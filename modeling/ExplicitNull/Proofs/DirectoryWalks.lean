import ExplicitNull.Proofs.Homecoming
import ExplicitNull.Proofs.ScanPlans
import ExplicitNull.Proofs.Spellings

/-!
The walk below a root. It lists one directory after another, each in an order of its own, passes
over links and takes up the files that it is to keep. What it finds does not depend on the order:
it is just the files whose ways lead through directories that may be entered, each of them once. So
sorting comes to one list, and no link is on the way to a path in it.
-/
namespace ExplicitNull

namespace Path

theorem length_join_le (p : Path) (name : Bytes) :
    p.raw.length + name.length ≤ (p.join name).raw.length := by
  simp only [join, List.length_append]
  omega

/-- How much longer a path may become and still be used. -/
def room (p : Path) : Nat := tooLong - p.raw.length

theorem room_join_lt {p : Path} {name : Bytes} (hname : name ≠ [])
    (hshort : (p.join name).raw.length < tooLong) : (p.join name).room < p.room := by
  have hjoin := length_join_le p name
  have hpos := List.length_pos_iff.2 hname
  unfold room
  omega

theorem length_foldl_join_le (above : List Bytes) (p : Path) :
    p.raw.length ≤ (above.foldl join p).raw.length := by
  induction above generalizing p with
  | nil => exact Nat.le_refl _
  | cons name above ih =>
    have hjoin := length_join_le p name
    exact Nat.le_trans (by omega) (ih (p.join name))

end Path

theorem Discovery.mayEnter_iff {name : Bytes} :
    mayEnter name = true ↔ name ≠ utf8 ".git" ∧ name ≠ utf8 "node_modules" := by
  simp [mayEnter, Selection.skippedDirectories]

/-- The directories on the way to a file: the names that lead to each are the first of those above
the file. -/
def Spot.Crosses (x y : Spot) : Prop := y.above ++ [y.name] <+: x.above

theorem Spot.Crosses.length_le {x y : Spot} (h : x.Crosses y) (root : Path) :
    (y.path root).raw.length ≤ (x.path root).raw.length := by
  obtain ⟨rest, hrest⟩ := h
  have hpath : x.path root = (rest.foldl Path.join (y.path root)).join x.name := by
    rw [Spot.path, ← hrest, List.foldl_append, List.foldl_append]
    rfl
  have hfold := Path.length_foldl_join_le rest (y.path root)
  have hjoin := Path.length_join_le (rest.foldl Path.join (y.path root)) x.name
  rw [hpath]
  omega

namespace Tree

def entryAt? (t : Tree) (p : Path) : Option Entry :=
  match t.resolve .entry p with
  | .ok (.found _ e) => some e
  | .ok (.vacant _) | .error _ => none

/-- An order in which each directory lists the names of its entries. -/
structure DirectoryOrder (t : Tree) where
  names : Location → List Bytes
  nodup : ∀ here, (names here).Nodup
  ne_nil : ∀ here, [] ∉ names here
  mem_names : ∀ here name, name ∈ names here ↔ (t.get? (here ++ [name])).isSome

variable {t : Tree} {root dir p : Path} {here : Location} {name : Bytes} {x y : Spot} {e : Entry}
  {enter : Bytes → Bool} {keep : Path → Bool}

theorem length_lt_of_entryAt? (h : t.entryAt? p = some e) : p.raw.length < Path.tooLong := by
  unfold entryAt? at h
  split at h
  · next hresolve => exact Path.length_lt_of_fault? (fault?_of_resolve hresolve)
  · cases h
  · cases h

def DirectoryOrder.read (order : t.DirectoryOrder) (dir : Path) : List Bytes :=
  match t.resolve .target dir with
  | .ok (.found here .directory) => order.names here
  | _ => []

theorem DirectoryOrder.ne_nil_of_mem_read {order : t.DirectoryOrder}
    (h : name ∈ order.read dir) : name ≠ [] := by
  unfold DirectoryOrder.read at h
  split at h
  · rintro rfl
    exact order.ne_nil _ h
  · cases h

/-- The files to keep below a directory. Each entry is looked at as it stands there, so that links
are passed over. A path ends the walk at the latest where it becomes too long. -/
def DirectoryOrder.walk (order : t.DirectoryOrder) (enter : Bytes → Bool) (keep : Path → Bool)
    (dir : Path) : List Path :=
  (order.read dir).attach.flatMap fun (name : { name // name ∈ order.read dir }) =>
    match _h : t.entryAt? (dir.join name) with
    | some .directory =>
      if (dir.join name).fileName?.all enter then order.walk enter keep (dir.join name) else []
    | some (.file _) => if keep (dir.join name) then [dir.join name] else []
    | some (.link _) | none => []
termination_by dir.room
decreasing_by
  exact Path.room_join_lt (DirectoryOrder.ne_nil_of_mem_read name.2) (length_lt_of_entryAt? _h)

def visit (t : Tree) (enter : Bytes → Bool) (keep : Path → Bool) (deeper : Path → List Path)
    (p : Path) : List Path :=
  match t.entryAt? p with
  | some .directory => if p.fileName?.all enter then deeper p else []
  | some (.file _) => if keep p then [p] else []
  | some (.link _) | none => []

theorem DirectoryOrder.walk_eq (order : t.DirectoryOrder) (enter : Bytes → Bool)
    (keep : Path → Bool) (dir : Path) : order.walk enter keep dir =
      (order.read dir).flatMap fun name =>
        t.visit enter keep (order.walk enter keep) (dir.join name) := by
  rw [DirectoryOrder.walk, List.flatMap_subtype, List.unattach_attach]
  intro name hname
  unfold visit
  dsimp only
  split <;> simp [*]

/-- A file below a root as its path shows it: all on the way are directories themselves, none of
them with a name that is not entered, and a file is at the end. A path that is too long shows
nothing. -/
structure FileBelow (t : Tree) (root : Path) (x : Spot) : Prop where
  proper : x.IsProper
  directories : ∀ y, x.Crosses y → t.entryAt? (y.path root) = some .directory
  entered : ∀ name ∈ x.above, name ≠ utf8 ".git" ∧ name ≠ utf8 "node_modules"
  isFile : ∃ bytes, t.entryAt? (x.path root) = some (.file bytes)

/-- A list of the files below a root that `keep` asks for. It is what the walk comes to in any order
of the directories, and no link is on the way to any of the files. -/
structure Discovers (t : Tree) (root : Path) (keep : Path → Bool) (files : List Path) : Prop where
  ascending : files.Pairwise fun p q => p.compare q = .lt
  mem_iff : ∀ p, p ∈ files ↔ (∃ x, t.FileBelow root x ∧ p = x.path root) ∧ keep p = true
  no_link : ∀ x : Spot, x.IsProper → x.path root ∈ files → ∀ y, y = x ∨ x.Crosses y →
    ∀ target, t.entryAt? (y.path root) ≠ some (.link target)
  any_order : ∀ order : t.DirectoryOrder,
    Discovery.sortPaths (order.walk Discovery.mayEnter keep root) = files

/-! ### What stands at the paths below a root -/

/-- A way from a directory leads to a directory. -/
theorem Leads.get?_directory {links left : Nat} {there : Location} {steps : List Bytes}
    (ht : t.WellFormed) (h : Leads t links here steps left there)
    (hhere : t.get? here = some .directory) : t.get? there = some .directory := by
  induction h with
  | stop => exact hhere
  | stay _ _ ih => exact ih hhere
  | up _ ih => exact ih (ht.parent _ _ hhere)
  | down _ hget _ ih => exact ih hget
  | jump _ _ _ ih =>
    apply ih
    split
    · exact get?_top t
    · exact hhere

theorem WellFormed.get?_prefix (ht : t.WellFormed) {more : List Bytes}
    (h : t.get? (here ++ more) = some .directory) : t.get? here = some .directory := by
  induction more using List.reverseRecOn with
  | nil => rwa [List.append_nil] at h
  | append_singleton more name ih =>
    have hparent := ht.parent _ _ h
    rw [← List.append_assoc, List.dropLast_concat] at hparent
    exact ih hparent

section Root

variable (ht : t.WellFormed) (hroot : t.resolve .target root = .ok (.found here .directory))

include ht hroot

theorem WellFormed.get?_root : t.get? here = some .directory := by
  obtain ⟨left, hleads⟩ := exists_leads_root hroot
  exact hleads.get?_directory ht (get?_top t)

/-- Below a root the path of an entry shows what the tree has at its location, if it is not too
long. -/
theorem WellFormed.entryAt?_path (hx : x.IsProper)
    (habove : t.get? (here ++ x.above) = some .directory) :
    t.entryAt? (x.path root) =
      if (x.path root).raw.length < Path.tooLong then t.get? (x.location here) else none := by
  have hreaches := ht.reaches hroot hx habove
  cases hfault : x.fault? root with
  | none =>
    have hshort := Path.length_lt_of_fault? (Spot.fault?_eq_none.1 hfault).1
    rw [if_pos hshort, entryAt?, hreaches.resolve hfault (.inl rfl)]
    cases t.get? (x.location here) <;> rfl
  | some e =>
    have hnone : (x.path root).raw.length < Path.tooLong → t.get? (x.location here) = none := by
      intro hshort
      cases hget : t.get? (x.location here) with
      | none => rfl
      | some e' => simp [ht.fits hroot hget hshort] at hfault
    rw [entryAt?, hreaches.resolve_of_fault hfault, eq_comm]
    exact ite_eq_right_iff.2 hnone

/-- A directory in a root is a root itself. -/
theorem WellFormed.resolve_join (hget : t.get? (here ++ [name]) = some .directory)
    (hshort : (root.join name).raw.length < Path.tooLong) :
    t.resolve .target (root.join name) = .ok (.found (here ++ [name]) .directory) := by
  have hlocation : Spot.location here ⟨[], name⟩ = here ++ [name] := by simp [Spot.location]
  rw [← hlocation] at hget ⊢
  have hfits := ht.fits hroot hget hshort
  have hresolve : t.resolve .target (Spot.path root ⟨[], name⟩) = _ :=
    (ht.reaches_of_get? hroot hget).resolve hfits (.inr (by simp [hget]))
  rw [hget] at hresolve
  exact hresolve

end Root

/-! ### What a walk finds -/

theorem lists_cons {above : List Bytes} {last : Bytes} :
    t.Lists enter root here ⟨name :: above, last⟩ ↔
      enter name = true ∧ t.Lists enter (root.join name) (here ++ [name]) ⟨above, last⟩ := by
  have hlocation : Spot.location here ⟨name :: above, last⟩ =
      Spot.location (here ++ [name]) ⟨above, last⟩ := by simp [Spot.location]
  constructor
  · rintro ⟨henter, hshort, hfile⟩
    rw [List.all_cons, Bool.and_eq_true] at henter
    exact ⟨henter.1, henter.2, hshort, hlocation ▸ hfile⟩
  · rintro ⟨hname, henter, hshort, hfile⟩
    exact ⟨by rw [List.all_cons, hname, henter]; rfl, hshort, hlocation ▸ hfile⟩

section Root

variable (ht : t.WellFormed) (hroot : t.resolve .target root = .ok (.found here .directory))

include ht hroot

theorem WellFormed.entryAt?_join (hget : t.get? (here ++ [name]) = some e) :
    t.entryAt? (root.join name) =
      if (root.join name).raw.length < Path.tooLong then some e else none := by
  have hlocation : Spot.location here ⟨[], name⟩ = here ++ [name] := by simp [Spot.location]
  rw [← hget, ← hlocation]
  exact ht.entryAt?_path hroot (ht.isProper (hlocation ▸ hget))
    (by simpa using ht.get?_root hroot)

theorem WellFormed.mem_visit {deeper : Path → List Path}
    (hget : t.get? (here ++ [name]) = some e) :
    p ∈ t.visit enter keep deeper (root.join name) ↔
      (root.join name).raw.length < Path.tooLong ∧
        (e = .directory ∧ enter name = true ∧ p ∈ deeper (root.join name) ∨
          (∃ bytes, e = .file bytes) ∧ keep p = true ∧ p = root.join name) := by
  have hproper : Path.IsName name := (ht.isEntryName _ _ hget name (by simp)).toIsName
  have hname : (root.join name).fileName? = some name :=
    Path.fileName?_join (raw_ne_nil_of_resolve hroot) hproper
  unfold visit
  rw [ht.entryAt?_join hroot hget, hname]
  by_cases hshort : (root.join name).raw.length < Path.tooLong
  · cases e with
    | directory => simp [hshort]
    | link target => simp [hshort]
    | file bytes =>
      simp only [hshort, if_pos, List.mem_ite_nil_right, List.mem_singleton, reduceCtorEq,
        Entry.file.injEq, exists_eq', false_and, false_or, true_and]
      exact and_congr_left fun hp => by rw [hp]
  · simp [hshort]

end Root

theorem DirectoryOrder.read_of_resolve (order : t.DirectoryOrder)
    (h : t.resolve .target dir = .ok (.found here .directory)) :
    order.read dir = order.names here := by
  unfold DirectoryOrder.read
  rw [h]

/-- What holds of a directory if it holds of those in it, holds of all. -/
theorem WellFormed.induction_below (ht : t.WellFormed) {motive : Path → Location → Prop}
    (step : ∀ dir here, t.resolve .target dir = .ok (.found here .directory) →
      (∀ name, t.get? (here ++ [name]) = some .directory →
        (dir.join name).raw.length < Path.tooLong → motive (dir.join name) (here ++ [name])) →
      motive dir here)
    (hdir : t.resolve .target dir = .ok (.found here .directory)) : motive dir here := by
  induction hn : dir.room using Nat.strong_induction_on generalizing dir here with
  | _ n ih =>
    subst hn
    refine step dir here hdir fun name hget hshort => ?_
    have hname : name ≠ [] := (ht.isEntryName _ _ hget name (by simp)).nonempty
    exact ih _ (Path.room_join_lt hname hshort) (ht.resolve_join hdir hget hshort) rfl

/-- A walk finds the files below a directory that it is to keep. -/
theorem WellFormed.mem_walk (ht : t.WellFormed) (order : t.DirectoryOrder)
    (hdir : t.resolve .target dir = .ok (.found here .directory)) :
    p ∈ order.walk enter keep dir ↔
      (∃ x, t.Lists enter dir here x ∧ p = x.path dir) ∧ keep p = true := by
  refine ht.induction_below (motive := fun dir here => p ∈ order.walk enter keep dir ↔
    (∃ x, t.Lists enter dir here x ∧ p = x.path dir) ∧ keep p = true) ?_ hdir
  intro dir here hdir ih
  rw [order.walk_eq, List.mem_flatMap, order.read_of_resolve hdir]
  constructor
  · rintro ⟨name, hname, hp⟩
    obtain ⟨e, hget⟩ := Option.isSome_iff_exists.1 ((order.mem_names here name).1 hname)
    rcases (ht.mem_visit hdir hget).1 hp with
      ⟨hshort, ⟨rfl, henter, hp⟩ | ⟨⟨bytes, rfl⟩, hkeep, rfl⟩⟩
    · obtain ⟨⟨⟨above, last⟩, hx, hpath⟩, hkeep⟩ := (ih name hget hshort).1 hp
      exact ⟨⟨⟨name :: above, last⟩, lists_cons.2 ⟨henter, hx⟩, hpath⟩, hkeep⟩
    · refine ⟨⟨⟨[], name⟩, ⟨rfl, hshort, bytes, ?_⟩, rfl⟩, hkeep⟩
      rw [Spot.location, List.append_nil]
      exact hget
  · rintro ⟨⟨⟨above, last⟩, hx, rfl⟩, hkeep⟩
    obtain ⟨bytes, hfile⟩ := hx.isFile
    cases above with
    | nil =>
      rw [Spot.location, List.append_nil] at hfile
      refine ⟨last, (order.mem_names here last).2 (by simp [hfile]), ?_⟩
      exact (ht.mem_visit hdir hfile).2 ⟨hx.short, .inr ⟨⟨bytes, rfl⟩, hkeep, rfl⟩⟩
    | cons name above =>
      have hcrosses : Spot.Crosses ⟨name :: above, last⟩ ⟨[], name⟩ := ⟨above, rfl⟩
      have hshort : (dir.join name).raw.length < Path.tooLong :=
        Nat.lt_of_le_of_lt (hcrosses.length_le dir) hx.short
      have hget : t.get? (here ++ [name]) = some .directory := by
        have habove := ht.get?_above hfile
        rw [List.append_cons] at habove
        exact ht.get?_prefix habove
      obtain ⟨henter, hx⟩ := lists_cons.1 hx
      refine ⟨name, (order.mem_names here name).2 (by simp [hget]), ?_⟩
      refine (ht.mem_visit hdir hget).2 ⟨hshort, .inl ⟨rfl, henter, ?_⟩⟩
      exact (ih name hget hshort).2 ⟨⟨⟨above, last⟩, hx, rfl⟩, hkeep⟩

/-- The paths that one entry of a directory adds to a walk have its name next. -/
theorem WellFormed.head?_of_mem_visit (ht : t.WellFormed) (order : t.DirectoryOrder)
    (hdir : t.resolve .target dir = .ok (.found here .directory)) (hname : name ∈ order.names here)
    (hp : p ∈ t.visit enter keep (order.walk enter keep) (dir.join name)) :
    (p.names.drop dir.names.length).head? = some name := by
  have hraw := raw_ne_nil_of_resolve hdir
  obtain ⟨e, hget⟩ := Option.isSome_iff_exists.1 ((order.mem_names here name).1 hname)
  have hproper : Path.IsName name := (ht.isEntryName _ _ hget name (by simp)).toIsName
  rcases (ht.mem_visit hdir hget).1 hp with ⟨hshort, ⟨rfl, henter, hp⟩ | ⟨-, -, rfl⟩⟩
  · obtain ⟨⟨x, hx, rfl⟩, -⟩ := (ht.mem_walk order (ht.resolve_join hdir hget hshort)).1 hp
    obtain ⟨bytes, hfile⟩ := hx.isFile
    rw [Spot.names_path (Path.join_ne_nil dir hproper.nonempty) (ht.isProper hfile).isNamed,
      Path.names_join hraw hproper.nonempty hproper.no_slash]
    simp
  · rw [Path.names_join hraw hproper.nonempty hproper.no_slash]
    simp

/-- A walk finds no file twice. -/
theorem WellFormed.nodup_walk (ht : t.WellFormed) (order : t.DirectoryOrder)
    (hdir : t.resolve .target dir = .ok (.found here .directory)) :
    (order.walk enter keep dir).Nodup := by
  refine ht.induction_below (motive := fun dir _ => (order.walk enter keep dir).Nodup) ?_ hdir
  intro dir here hdir ih
  rw [order.walk_eq, order.read_of_resolve hdir, List.Nodup, List.pairwise_flatMap]
  constructor
  · intro name hname
    obtain ⟨e, hget⟩ := Option.isSome_iff_exists.1 ((order.mem_names here name).1 hname)
    unfold visit
    split
    · next hentry =>
      rw [ht.entryAt?_join hdir hget, Option.ite_none_right_eq_some, Option.some.injEq] at hentry
      obtain ⟨hshort, rfl⟩ := hentry
      split
      · exact ih name hget hshort
      · exact .nil
    · split
      · exact List.pairwise_singleton ..
      · exact .nil
    · exact .nil
    · exact .nil
  · refine (order.nodup here).imp_of_mem fun hname hname' hne p hp q hq heq => hne ?_
    subst heq
    have hfirst := ht.head?_of_mem_visit order hdir hname hp
    rw [ht.head?_of_mem_visit order hdir hname' hq] at hfirst
    exact (Option.some.inj hfirst).symm

/-! ### Sorted listings -/

/-- Among paths of which no two are the same, sorting leaves each before the next. -/
theorem ascending_sortPaths {paths : List Path}
    (h : paths.Pairwise fun p q => p.compare q ≠ .eq) :
    (Discovery.sortPaths paths).Pairwise fun p q => p.compare q = .lt := by
  have hne : (Discovery.sortPaths paths).Pairwise fun p q => p.compare q ≠ .eq := by
    refine ((Sorting.perm_sort _ paths).pairwise_iff fun {p q} hpq heq => ?_).2 h
    exact hpq (Std.OrientedCmp.eq_symm heq)
  refine ((pairwise_sortPaths paths).and hne).imp fun {p q} ⟨hle, hne⟩ => ?_
  cases hcmp : p.compare q with
  | lt => rfl
  | eq => exact absurd hcmp hne
  | gt => simp [hcmp] at hle

theorem sortPaths_eq_of_perm {paths paths' : List Path} (hperm : paths.Perm paths')
    (h : paths.Pairwise fun p q => p.compare q ≠ .eq) :
    Discovery.sortPaths paths = Discovery.sortPaths paths' := by
  have h' : paths'.Pairwise fun p q => p.compare q ≠ .eq :=
    (hperm.pairwise_iff fun {p q} hpq heq => hpq (Std.OrientedCmp.eq_symm heq)).1 h
  have hsorted : (Discovery.sortPaths paths).Perm (Discovery.sortPaths paths') :=
    ((Sorting.perm_sort _ paths).trans hperm).trans (Sorting.perm_sort _ paths').symm
  refine hsorted.eq_of_pairwise (fun p q _ _ hpq hqp => ?_) (ascending_sortPaths h)
    (ascending_sortPaths h')
  rw [Std.OrientedCmp.gt_of_lt hpq] at hqp
  cases hqp

section Root

variable (ht : t.WellFormed) (hroot : t.resolve .target root = .ok (.found here .directory))

include ht hroot

/-- Whatever the order, a walk finds the same files. -/
theorem WellFormed.perm_walk (order : t.DirectoryOrder) (keep : Path → Bool) :
    (order.walk Discovery.mayEnter keep root).Perm ((t.reached root).filter keep) := by
  refine (List.perm_ext_iff_of_nodup (ht.nodup_walk order hroot) ?_).2 fun p => ?_
  · refine (ht.pairwise_reached hroot keep).imp fun {p q} hne heq => ?_
    subst heq
    exact hne Std.ReflCmp.compare_self
  · rw [ht.mem_walk order hroot, List.mem_filter, ht.mem_reached hroot]

theorem WellFormed.fileBelow_of_lists (hx : t.Lists Discovery.mayEnter root here x) :
    t.FileBelow root x := by
  obtain ⟨bytes, hget⟩ := hx.isFile
  have hproper := ht.isProper hget
  refine ⟨hproper, fun y hy => ?_, fun name hname => ?_, bytes, ?_⟩
  · have hlocation : t.get? (y.location here) = some .directory := by
      obtain ⟨rest, hrest⟩ := hy
      have habove := ht.get?_above hget
      rw [← hrest, ← List.append_assoc, ← List.append_assoc] at habove
      exact ht.get?_prefix habove
    have hshort := Nat.lt_of_le_of_lt (hy.length_le root) hx.short
    rw [ht.entryAt?_path hroot (ht.isProper hlocation) (ht.get?_above hlocation), if_pos hshort,
      hlocation]
  · exact Discovery.mayEnter_iff.1 (List.all_eq_true.1 hx.enter name hname)
  · rw [ht.entryAt?_path hroot hproper (ht.get?_above hget), if_pos hx.short, hget]

/-- Paths that show directories lead through directories. -/
theorem FileBelow.get?_above (hx : t.FileBelow root x) {above : List Bytes}
    (hstart : above <+: x.above) : t.get? (here ++ above) = some .directory := by
  induction above using List.reverseRecOn with
  | nil =>
    rw [List.append_nil]
    exact ht.get?_root hroot
  | append_singleton above name ih =>
    have habove := ih ((List.prefix_append above [name]).trans hstart)
    have hproper : (⟨above, name⟩ : Spot).IsProper :=
      ⟨fun n hn => hx.proper.above n (hstart.subset (by simp [hn])),
        hx.proper.above name (hstart.subset (by simp))⟩
    have hentry := hx.directories ⟨above, name⟩ hstart
    rw [ht.entryAt?_path hroot hproper habove, Option.ite_none_right_eq_some] at hentry
    rw [← List.append_assoc]
    exact hentry.2

theorem FileBelow.lists (hx : t.FileBelow root x) : t.Lists Discovery.mayEnter root here x := by
  obtain ⟨bytes, hentry⟩ := hx.isFile
  rw [ht.entryAt?_path hroot hx.proper (hx.get?_above ht hroot List.prefix_rfl),
    Option.ite_none_right_eq_some] at hentry
  refine ⟨List.all_eq_true.2 fun name hname => ?_, hentry.1, bytes, hentry.2⟩
  exact Discovery.mayEnter_iff.2 (hx.entered name hname)

/-- The files that the paths show are those at the locations below. -/
theorem WellFormed.lists_iff : t.Lists Discovery.mayEnter root here x ↔ t.FileBelow root x :=
  ⟨ht.fileBelow_of_lists hroot, fun hx => hx.lists ht hroot⟩

theorem WellFormed.discovers (keep : Path → Bool) :
    t.Discovers root keep (Discovery.sortPaths ((t.reached root).filter keep)) := by
  have hmem : ∀ p, p ∈ Discovery.sortPaths ((t.reached root).filter keep) ↔
      (∃ x, t.FileBelow root x ∧ p = x.path root) ∧ keep p = true := by
    intro p
    unfold Discovery.sortPaths
    rw [(Sorting.perm_sort _ _).mem_iff, List.mem_filter, ht.mem_reached hroot]
    simp only [ht.lists_iff hroot]
  refine ⟨ascending_sortPaths (ht.pairwise_reached hroot keep), hmem, ?_, fun order => ?_⟩
  · intro x hproper hx y hy target hlink
    obtain ⟨⟨z, hz, hpath⟩, -⟩ := (hmem _).1 hx
    obtain rfl := Spot.path_injective (raw_ne_nil_of_resolve hroot) hproper.isNamed
      hz.proper.isNamed hpath
    rcases hy with rfl | hy
    · obtain ⟨bytes, hfile⟩ := hz.isFile
      simp [hfile] at hlink
    · simp [hz.directories y hy] at hlink
  · exact (sortPaths_eq_of_perm (ht.perm_walk hroot order keep).symm
      (ht.pairwise_reached hroot keep)).symm

end Root

end Tree

open ExplicitNull.Tree

/-- Below a directory the files that a selection asks for are found, and the backups. -/
theorem discovery_exact {t : Tree} (ht : t.WellFormed) {root : Path}
    (hroot : t.kind root = .ok .directory) (selection : Selection) (suffix : Bytes) :
    ∃ files backups,
      (collectFiles root selection : StateM Tree (Except Failure (List Path))).run t =
        (.ok files, t) ∧ t.Discovers root selection.shouldInclude files ∧
      (collectBackups root suffix : StateM Tree (List Path)).run t = (backups, t) ∧
        t.Discovers root (Discovery.isBackup suffix) backups := by
  obtain ⟨here, hresolve⟩ := kind_eq_directory.1 hroot
  exact ⟨_, _, run_collectFiles selection hroot, ht.discovers hresolve _,
    run_collectBackups suffix hroot, ht.discovers hresolve _⟩

def nameIn? (here loc : Location) : Option Bytes :=
  match below? here loc with
  | some [name] => some name
  | _ => none

theorem nameIn?_eq_some {here loc : Location} {name : Bytes} :
    nameIn? here loc = some name ↔ loc = here ++ [name] := by
  rw [← below?_eq_some]
  unfold nameIn?
  split <;> simp_all

def Tree.WellFormed.entryOrder {t : Tree} (ht : t.WellFormed) : t.DirectoryOrder where
  names here := t.entries.filterMap fun entry => nameIn? here entry.1
  nodup here := by
    refine List.pairwise_filterMap.2 ((List.pairwise_map.1 ht.nodup).imp ?_)
    rintro ⟨loc, e⟩ ⟨loc', e'⟩ hne name hname name' hname' rfl
    exact hne ((nameIn?_eq_some.1 hname).trans (nameIn?_eq_some.1 hname').symm)
  ne_nil here hmem := by
    obtain ⟨⟨loc, e⟩, hentry, hname⟩ := List.mem_filterMap.1 hmem
    obtain rfl := nameIn?_eq_some.1 hname
    have hget := get?_of_mem ht.nodup (by simp) hentry
    exact (ht.isEntryName _ _ hget [] (by simp)).nonempty rfl
  mem_names here name := by
    rw [Option.isSome_iff_exists, List.mem_filterMap]
    constructor
    · rintro ⟨⟨loc, e⟩, hentry, hname⟩
      obtain rfl := nameIn?_eq_some.1 hname
      exact ⟨e, get?_of_mem ht.nodup (by simp) hentry⟩
    · rintro ⟨e, hget⟩
      exact ⟨(here ++ [name], e), mem_entries_of_get? (by simp) hget, nameIn?_eq_some.2 rfl⟩

def loopedTree : Tree :=
  ⟨[([utf8 "r"], .directory), ([utf8 "r", utf8 "up"], .link ⟨utf8 "../r"⟩),
    ([utf8 "r", utf8 "b.php"], .file []), ([utf8 "r", utf8 "a"], .directory),
    ([utf8 "r", utf8 "a", utf8 "c.php"], .file []),
    ([utf8 "r", utf8 "a", utf8 "c.php.bak"], .file []), ([utf8 "r", utf8 ".git"], .directory),
    ([utf8 "r", utf8 ".git", utf8 "d.php"], .file [])]⟩

theorem discovery_exact_loopedTree :
    loopedTree.WellFormed ∧ loopedTree.kind ⟨utf8 "r"⟩ = .ok .directory ∧
      Nonempty loopedTree.DirectoryOrder ∧ ∀ order : loopedTree.DirectoryOrder,
        Discovery.sortPaths (order.walk Discovery.mayEnter
          (excluding (utf8 "vendor")).shouldInclude ⟨utf8 "r"⟩) =
            [⟨utf8 "r/a/c.php"⟩, ⟨utf8 "r/b.php"⟩] ∧
        Discovery.sortPaths (order.walk Discovery.mayEnter
          (Discovery.isBackup (utf8 ".bak")) ⟨utf8 "r"⟩) = [⟨utf8 "r/a/c.php.bak"⟩] := by
  have ht : loopedTree.WellFormed := by decide
  have hroot : loopedTree.kind ⟨utf8 "r"⟩ = .ok .directory := by decide
  obtain ⟨files, backups, hfiles, hdiscovers, hbackups, hdiscovers'⟩ :=
    discovery_exact ht hroot (excluding (utf8 "vendor")) (utf8 ".bak")
  have hfound : (collectFiles ⟨utf8 "r"⟩ (excluding (utf8 "vendor")) :
      StateM Tree (Except Failure (List Path))).run loopedTree =
        (.ok [⟨utf8 "r/a/c.php"⟩, ⟨utf8 "r/b.php"⟩], loopedTree) := by
    rw [run_collectFiles _ hroot]
    rfl
  have hfound' : (collectBackups ⟨utf8 "r"⟩ (utf8 ".bak") : StateM Tree (List Path)).run
      loopedTree = ([⟨utf8 "r/a/c.php.bak"⟩], loopedTree) := by
    rw [run_collectBackups _ hroot]
    rfl
  rw [hfiles, Prod.mk.injEq, Except.ok.injEq] at hfound
  rw [hbackups, Prod.mk.injEq] at hfound'
  refine ⟨ht, hroot, ⟨ht.entryOrder⟩, fun order => ⟨?_, ?_⟩⟩
  · rw [hdiscovers.any_order order, hfound.1]
  · rw [hdiscovers'.any_order order, hfound'.1]

end ExplicitNull
