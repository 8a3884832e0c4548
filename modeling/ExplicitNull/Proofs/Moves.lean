import ExplicitNull.Proofs.Backups
import ExplicitNull.Proofs.Runs

/-!
Moves in a tree that has changed under way. A file that is moved over a link takes its place, and
where that link was on the way to the root, no path below the root leads anywhere from then on. So a
path below the root comes to its location in the later tree, or to nothing. The move of a backup
then is made at the locations that the paths had in the first tree, or fails.
-/
namespace ExplicitNull

namespace Tree

/-- A later tree with the same directories, in which links may be gone but none is new. -/
structure LosesLinks (t t' : Tree) : Prop where
  directory : ∀ loc, t'.get? loc = some .directory ↔ t.get? loc = some .directory
  link : ∀ loc target, t'.get? loc = some (.link target) → t.get? loc = some (.link target)

variable {t t' t'' : Tree} {links left : Nat} {here there : Location} {steps rest : List Bytes}
  {purpose : Purpose} {root : Path} {x y : Spot}

theorem LosesLinks.refl (t : Tree) : LosesLinks t t := ⟨fun _ => Iff.rfl, fun _ _ h => h⟩

theorem LosesLinks.trans (h : LosesLinks t t') (h' : LosesLinks t' t'') : LosesLinks t t'' where
  directory loc := (h'.directory loc).trans (h.directory loc)
  link loc target hlink := h.link loc target (h'.link loc target hlink)

/-- A way that is left was there before. -/
theorem Leads.of_losesLinks (hlost : LosesLinks t t') (h : Leads t' links here steps left there) :
    Leads t links here steps left there := by
  induction h with
  | stop links here => exact .stop links here
  | stay hstay _ ih => exact .stay hstay ih
  | up _ ih => exact .up ih
  | down hdown hget _ ih => exact .down hdown ((hlost.directory _).1 hget) ih
  | jump hdown hget _ ih => exact .jump hdown (hlost.link _ _ hget) ih

/-- Where a walk comes to anything, each stretch of it leads to a directory. -/
theorem exists_leads_of_append (hrest : rest ≠ []) {target : Target}
    (h : resolveFrom t purpose links here (steps ++ rest) = .ok target) :
    ∃ left there, Leads t links here steps left there := by
  have hwalks := walks_of_resolveFrom h
  generalize hall : steps ++ rest = all at hwalks
  clear h
  induction hwalks generalizing steps with
  | stop => exact absurd (List.append_eq_nil_iff.1 hall).2 hrest
  | vacant | file | link =>
    rcases List.append_eq_singleton_iff.1 hall with ⟨hsteps, -⟩ | ⟨-, hnil⟩
    · rw [hsteps]
      exact ⟨_, _, .stop ..⟩
    · exact absurd hnil hrest
  | stay hstay _ ih =>
    cases steps with
    | nil => exact ⟨_, _, .stop ..⟩
    | cons step steps =>
      cases hall
      obtain ⟨left, there, hleads⟩ := ih rfl
      exact ⟨left, there, .stay hstay hleads⟩
  | up _ ih =>
    cases steps with
    | nil => exact ⟨_, _, .stop ..⟩
    | cons step steps =>
      cases hall
      obtain ⟨left, there, hleads⟩ := ih rfl
      exact ⟨left, there, .up hleads⟩
  | down hdown hget _ ih =>
    cases steps with
    | nil => exact ⟨_, _, .stop ..⟩
    | cons step steps =>
      cases hall
      obtain ⟨left, there, hleads⟩ := ih rfl
      exact ⟨left, there, .down hdown hget hleads⟩
  | jump hdown hget _ ih =>
    cases steps with
    | nil => exact ⟨_, _, .stop ..⟩
    | cons step steps =>
      cases hall
      obtain ⟨left, there, hleads⟩ := ih (List.append_assoc ..)
      exact ⟨left, there, .jump hdown hget hleads⟩

theorem Leads.location_unique {left' : Nat} {there' : Location}
    (h : Leads t links here steps left there) (h' : Leads t links here steps left' there') :
    there = there' := by
  have heq := h.resolveFrom_nil.symm.trans h'.resolveFrom_nil
  cases heq
  rfl

theorem resolve_root_of_leads (hfault : root.fault? = none)
    (h : Leads t maxLinks [] root.names left there) :
    t.resolve .target root = .ok (.found there .directory) := by
  unfold resolve
  rw [hfault]
  unfold Path.steps
  cases root.endsInSlash with
  | true => exact h.resolveFrom_slash
  | false =>
    simp only [Bool.false_eq_true, if_false, List.append_nil]
    exact h.resolveFrom_nil

theorem fault?_of_resolve {target : Target} (h : t.resolve purpose root = .ok target) :
    root.fault? = none := by
  unfold resolve at h
  split at h
  · cases h
  · assumption

/-- The path of an entry below a root can be used unless it is too long. -/
theorem WellFormed.fits (ht : t.WellFormed)
    (hroot : t.resolve .target root = .ok (.found here .directory)) {e : Entry}
    (hget : t.get? (x.location here) = some e)
    (hshort : (x.path root).raw.length < Path.tooLong) : x.fault? root = none := by
  have hnames := ht.isEntryName _ _ hget
  have hname : Path.IsEntryName x.name := hnames _ (by simp [Spot.location])
  have hzero : 0 ∉ root.raw := Path.zero_notMem_of_fault? (fault?_of_resolve hroot)
  have habove : 0 ∉ (x.above.foldl Path.join root).raw :=
    Path.zero_notMem_foldl_join hzero fun name hmem =>
      (hnames name (by simp [Spot.location, hmem])).no_zero
  refine Spot.fault?_eq_none.2 ⟨Path.fault?_eq_none.2 ⟨?_, ?_, hshort⟩, hname.short⟩
  · exact Path.zero_notMem_join habove hname.no_zero
  · exact Spot.path_ne_nil root (ht.isProper hget).isNamed

/-- A root that is left in the later tree is the directory that it was. -/
theorem LosesLinks.resolve_root (hlost : LosesLinks t t')
    (hroot : t.resolve .target root = .ok (.found here .directory))
    (h : t'.kind root = .ok .directory) :
    t'.resolve .target root = .ok (.found here .directory) := by
  obtain ⟨there, hthere⟩ := kind_eq_directory.1 h
  obtain ⟨left, hleads⟩ := exists_leads_root hroot
  obtain ⟨left', hleads'⟩ := exists_leads_root hthere
  rw [hthere, (hleads'.of_losesLinks hlost).location_unique hleads]

theorem LosesLinks.kind_root (hlost : LosesLinks t t') (hfault : root.fault? = none)
    (h : t'.kind root = .ok .directory) : t.kind root = .ok .directory := by
  obtain ⟨there, hthere⟩ := kind_eq_directory.1 h
  obtain ⟨left, hleads⟩ := exists_leads_root hthere
  exact kind_eq_directory.2 ⟨there, resolve_root_of_leads hfault (hleads.of_losesLinks hlost)⟩

/-- In the later tree the path of a file comes to its directory, or the root is lost. -/
theorem LosesLinks.reaches (hlost : LosesLinks t t') (ht' : t'.WellFormed)
    (hroot : t.resolve .target root = .ok (.found here .directory))
    (h : t'.kind root = .ok .directory) (hx : x.IsProper)
    (habove : t.get? (here ++ x.above) = some .directory) : t'.Reaches root here x :=
  ht'.reaches (hlost.resolve_root hroot h) hx ((hlost.directory _).2 habove)

/-- A path below a root that is no directory leads nowhere. -/
theorem resolve_eq_error (hroot : root.raw ≠ []) (hfault : root.fault? = none) (hx : x.IsNamed)
    (h : t.kind root ≠ .ok .directory) (purpose : Purpose) :
    ∃ e, t.resolve purpose (x.path root) = .error e := by
  cases hresolve : t.resolve purpose (x.path root) with
  | error e => exact ⟨e, rfl⟩
  | ok target =>
    exfalso
    unfold resolve at hresolve
    rw [fault?_of_resolve hresolve, Spot.steps_path hroot hx, List.append_assoc] at hresolve
    obtain ⟨left, there, hleads⟩ := exists_leads_of_append (by simp) hresolve
    exact h (kind_eq_directory.2 ⟨there, resolve_root_of_leads hfault hleads⟩)

/-- Nothing can be moved to or from a path below a root that is no directory, nor to or from one
that ends in dots. -/
theorem place_eq_error (hroot : root.raw ≠ []) (hfault : root.fault? = none) (hx : x.IsNamed)
    (h : t.kind root ≠ .ok .directory ∨ x.name = utf8 "." ∨ x.name = utf8 "..")
    (nameless : FileError) : ∃ e, t.place nameless (x.path root) = .error e := by
  unfold place
  split
  · exact ⟨_, rfl⟩
  rw [Spot.names_path hroot hx, List.dropLast_concat, List.getLast?_concat]
  cases hresolve : resolveFrom t .target maxLinks [] (root.names ++ x.above ++ [[]]) with
  | error e => exact ⟨e, rfl⟩
  | ok target =>
    obtain ⟨left, there, hleads⟩ := exists_leads_of_append (by simp) hresolve
    rw [hleads.resolveFrom_slash] at hresolve
    cases hresolve
    rcases h with hlost | hdots
    · exfalso
      have hresolve := hleads.resolveFrom_slash
      rw [List.append_assoc] at hresolve
      obtain ⟨left, there, hleads⟩ := exists_leads_of_append (by simp) hresolve
      exact hlost (kind_eq_directory.2 ⟨there, resolve_root_of_leads hfault hleads⟩)
    · exact ⟨nameless, if_pos hdots⟩

theorem rename_of_place_error {source target : Path} {e : FileError}
    (h : t.place .busy target = .error e) : ∃ e', t.rename source target = .error e' := by
  unfold rename
  rw [h]
  cases t.place .busy source <;> exact ⟨_, rfl⟩

/-- In `t'` the bytes of one location are at another instead, and all else is as it was. -/
def Moves (t t' : Tree) (source home : Location) (bytes : Bytes) : Prop :=
  ∀ loc, t'.get? loc = if loc = home then some (.file bytes)
    else if loc = source then none else t.get? loc

theorem Moves.losesLinks {source home : Location} {bytes : Bytes}
    (h : Moves t t' source home bytes) (hsource : t.get? source = some (.file bytes))
    (hhome : t.get? home ≠ some .directory) : LosesLinks t t' := by
  constructor
  · intro loc
    rw [h loc]
    split
    · next heq => simp [heq, hhome]
    split
    · next heq => simp [heq, hsource]
    · exact Iff.rfl
  · intro loc target hlink
    rw [h loc] at hlink
    split at hlink
    · cases hlink
    split at hlink
    · cases hlink
    · exact hlink

/-- A file comes from one place to another that no directory has. -/
theorem Reaches.rename_moves (ht : t.WellFormed) (hx : t.Reaches root here x)
    (hy : t.Reaches root here y) (hfits : x.fault? root = none) (hfits' : y.fault? root = none)
    {bytes : Bytes} (hget : t.get? (x.location here) = some (.file bytes))
    (habove : t.get? (here ++ y.above) = some .directory)
    (hhome : t.get? (y.location here) ≠ some .directory) :
    ∃ t', t.rename (x.path root) (y.path root) = .ok t' ∧ t'.WellFormed ∧
      Moves t t' (x.location here) (y.location here) bytes := by
  rcases hx.rename_cases hy hfits hfits' hget with ⟨hdirectory, -⟩ | ⟨-, hrename⟩
  · exact absurd hdirectory hhome
  refine ⟨_, hrename, ?_, ?_⟩
  all_goals by_cases heq : y = x
  · rw [if_pos heq]
    exact ht
  · rw [if_neg heq]
    have hframe : t.frame (x.location here) = none := frame_eq_none.2 (.inr ⟨bytes, hget⟩)
    have hne : y.location here ≠ x.location here := fun h => heq (Spot.location_injective h)
    have hsame := frame_erase hframe
    apply (ht.erase hframe).set_over
    · rw [get?_erase t (x.location_ne_nil here), if_neg hne]
      exact hhome
    · have hdrop : (y.location here).dropLast = here ++ y.above := List.dropLast_concat
      rw [hdrop]
      exact get?_directory_congr hsame.symm habove
    · intro name hmem
      rcases List.mem_append.1 hmem with hmem | hmem
      · exact ht.isEntryName _ _ habove name hmem
      · rw [List.mem_singleton.1 hmem]
        exact Spot.isEntryName_of_fault? hy.proper hfits'
  · intro loc
    rw [if_pos heq, heq]
    split
    · next hloc => rw [hloc, hget]
    · rfl
  · intro loc
    rw [if_neg heq, get?_set _ (y.location_ne_nil here), get?_erase t (x.location_ne_nil here)]

def regular? (t : Tree) (p : Path) : Option Bytes :=
  match t.resolve .entry p with
  | .ok (.found _ (.file bytes)) => some bytes
  | _ => none

/-- The location that a path names, whatever is there; a link at its end is not followed. -/
def site? (t : Tree) (p : Path) : Option Location :=
  match t.resolve .entry p with
  | .ok (.found loc _) | .ok (.vacant loc) => some loc
  | .error _ => none

theorem Reaches.site? (h : t.Reaches root here x) (hfits : x.fault? root = none) :
    t.site? (x.path root) = some (x.location here) := by
  unfold Tree.site?
  rw [h.resolve hfits (.inl rfl)]
  cases t.get? (x.location here) <;> rfl

theorem Reaches.regular?_eq_some (h : t.Reaches root here x) (hfits : x.fault? root = none)
    {bytes : Bytes} :
    t.regular? (x.path root) = some bytes ↔ t.get? (x.location here) = some (.file bytes) := by
  unfold Tree.regular?
  rw [h.resolve hfits (.inl rfl)]
  cases t.get? (x.location here) with
  | none => simp [Target.atLocation]
  | some e => cases e <;> simp [Target.atLocation]

/-- In a later tree a file is found by its path if it is at its location and the root is left. -/
theorem LosesLinks.regular?_eq_some (hlost : LosesLinks t t') (ht' : t'.WellFormed)
    (hroot : t.resolve .target root = .ok (.found here .directory)) (hx : x.IsProper)
    (hfits : x.fault? root = none) (habove : t.get? (here ++ x.above) = some .directory)
    {bytes : Bytes} :
    t'.regular? (x.path root) = some bytes ↔
      t'.kind root = .ok .directory ∧ t'.get? (x.location here) = some (.file bytes) := by
  by_cases hkind : t'.kind root = .ok .directory
  · rw [(hlost.reaches ht' hroot hkind hx habove).regular?_eq_some hfits]
    simp [hkind]
  · obtain ⟨e, he⟩ := resolve_eq_error (raw_ne_nil_of_resolve hroot) (fault?_of_resolve hroot)
      hx.isNamed hkind .entry
    simp [Tree.regular?, he, hkind]

end Tree

end ExplicitNull
