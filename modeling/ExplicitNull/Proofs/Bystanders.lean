import ExplicitNull.Proofs.DirectoryWalks
import ExplicitNull.Proofs.MergedPlans

/-!
Trees that differ in the bytes of one file. A path leads to the same place in both, so the same
files are found and all but one of them have the same bytes. What a run makes of the others does not
depend on that one: each stage commutes with leaving it out, be it a text in one tree and none in
the other.
-/
namespace ExplicitNull

namespace Tree

/-- The same entries stand in two trees, but for the bytes of one file. -/
structure DiffersAt (t t' : Tree) (f : Location) : Prop where
  elsewhere : ∀ loc, loc ≠ f → t.get? loc = t'.get? loc
  isFile : ∃ bytes, t.get? f = some (.file bytes)
  isFile' : ∃ bytes, t'.get? f = some (.file bytes)

def leadsTo (t : Tree) (f : Location) (p : Path) : Bool :=
  (t.file p).toOption.any fun found => found.1 = f

variable {t t' : Tree} {f here : Location} {root p : Path} {purpose : Purpose}

theorem DiffersAt.get?_cases (h : t.DiffersAt t' f) (loc : Location) :
    t.get? loc = t'.get? loc ∨ loc = f ∧ ∃ bytes bytes',
      t.get? loc = some (.file bytes) ∧ t'.get? loc = some (.file bytes') := by
  by_cases hloc : loc = f
  · obtain ⟨bytes, hget⟩ := h.isFile
    obtain ⟨bytes', hget'⟩ := h.isFile'
    exact .inr ⟨hloc, bytes, bytes', hloc ▸ hget, hloc ▸ hget'⟩
  · exact .inl (h.elsewhere loc hloc)

theorem DiffersAt.frame (h : t.DiffersAt t' f) : t.frame = t'.frame := by
  funext loc
  rcases h.get?_cases loc with heq | ⟨-, bytes, bytes', hget, hget'⟩
  · rw [Tree.frame, Tree.frame, heq]
  · rw [Tree.frame, Tree.frame, hget, hget']
    rfl

/-- Two ways come to the same, or both to the file in which the trees differ. -/
def Meets (f : Location) (r r' : Except FileError Target) : Prop :=
  r = r' ∨ ∃ bytes bytes', r = .ok (.found f (.file bytes)) ∧ r' = .ok (.found f (.file bytes'))

theorem DiffersAt.resolveFrom_of_beyond (h : t.DiffersAt t' f) (links : Nat)
    (hbeyond : ∀ start steps,
      Meets f (beyond t purpose links start steps) (beyond t' purpose links start steps))
    (here : Location) (steps : List Bytes) :
    Meets f (resolveFrom t purpose links here steps) (resolveFrom t' purpose links here steps) := by
  induction steps generalizing here with
  | nil => exact .inl (by rw [resolveFrom_nil, resolveFrom_nil])
  | cons name rest ih =>
    rw [resolveFrom_cons, resolveFrom_cons]
    split
    · exact ih here
    split
    · exact ih here.dropLast
    split
    · exact .inl rfl
    split
    · exact .inl rfl
    rcases h.get?_cases (here ++ [name]) with heq | ⟨hloc, bytes, bytes', hget, hget'⟩
    · rw [heq]
      split
      · exact .inl rfl
      · exact ih _
      · exact .inl rfl
      · split
        · exact .inl rfl
        · exact hbeyond _ _
    · rw [hget, hget', hloc]
      by_cases hrest : rest = []
      · exact .inr ⟨bytes, bytes', if_pos hrest, if_pos hrest⟩
      · exact .inl ((if_neg hrest).trans (if_neg hrest).symm)

theorem DiffersAt.resolveFrom (h : t.DiffersAt t' f) (links : Nat) (here : Location)
    (steps : List Bytes) : Meets f (Tree.resolveFrom t purpose links here steps)
      (Tree.resolveFrom t' purpose links here steps) := by
  induction links generalizing here steps with
  | zero => exact h.resolveFrom_of_beyond 0 (fun _ _ => .inl rfl) here steps
  | succ links ih => exact h.resolveFrom_of_beyond (links + 1) ih here steps

theorem DiffersAt.resolve (h : t.DiffersAt t' f) (purpose : Purpose) (p : Path) :
    Meets f (t.resolve purpose p) (t'.resolve purpose p) := by
  unfold Tree.resolve
  split
  · exact .inl rfl
  · exact h.resolveFrom maxLinks [] p.steps

theorem DiffersAt.kind (h : t.DiffersAt t' f) (p : Path) : t.kind p = t'.kind p := by
  unfold Tree.kind
  rcases h.resolve .target p with heq | ⟨bytes, bytes', hresolve, hresolve'⟩
  · rw [heq]
  · rw [hresolve, hresolve']

/-- A path leads to the same file in both trees, with the same bytes unless it is the one. -/
theorem DiffersAt.file_cases (h : t.DiffersAt t' f) (p : Path) : t.file p = t'.file p ∨
    ∃ bytes bytes', t.file p = .ok (f, bytes) ∧ t'.file p = .ok (f, bytes') := by
  unfold Tree.file
  rcases h.resolve .target p with heq | ⟨bytes, bytes', hresolve, hresolve'⟩
  · exact .inl (by rw [heq])
  · exact .inr ⟨bytes, bytes', by rw [hresolve], by rw [hresolve']⟩

theorem DiffersAt.leadsTo_eq (h : t.DiffersAt t' f) : t.leadsTo f = t'.leadsTo f := by
  funext p
  unfold leadsTo
  rcases h.file_cases p with heq | ⟨bytes, bytes', hfile, hfile'⟩
  · rw [heq]
  · rw [hfile, hfile']
    rfl

theorem DiffersAt.reading_eq (h : t.DiffersAt t' f) (hp : t.leadsTo f p = false) :
    t.reading p = t'.reading p := by
  rcases h.file_cases p with heq | ⟨bytes, bytes', hfile, -⟩
  · rw [reading, reading, Tree.readText, Tree.readText, Tree.read, Tree.read, heq]
  · rw [leadsTo, hfile] at hp
    simp [Except.toOption] at hp

theorem DiffersAt.lists_iff {enter : Bytes → Bool} {x : Spot} (h : t.DiffersAt t' f) :
    t.Lists enter root here x ↔ t'.Lists enter root here x := by
  have hfile : (∃ bytes, t.get? (x.location here) = some (.file bytes)) ↔
      ∃ bytes, t'.get? (x.location here) = some (.file bytes) := by
    rcases h.get?_cases (x.location here) with heq | ⟨-, bytes, bytes', hget, hget'⟩
    · rw [heq]
    · exact ⟨fun _ => ⟨bytes', hget'⟩, fun _ => ⟨bytes, hget⟩⟩
  exact ⟨fun hx => ⟨hx.enter, hx.short, hfile.1 hx.isFile⟩,
    fun hx => ⟨hx.enter, hx.short, hfile.2 hx.isFile⟩⟩

/-- The same files are found in both trees. -/
theorem DiffersAt.selected_eq (h : t.DiffersAt t' f) (ht : t.WellFormed) (ht' : t'.WellFormed)
    (hroot : t.resolve .target root = .ok (.found here .directory)) (selection : Selection) :
    t.selected root selection = t'.selected root selection := by
  have hroot' := resolve_root_congr h.frame hroot
  have hraw := raw_ne_nil_of_resolve hroot
  have hperm : (t.reached root).Perm (t'.reached root) := by
    have hnodup : (t.reached root).Nodup := by
      rw [reached_of_resolve hroot]
      exact ht.nodup_filesBelow hraw
    have hnodup' : (t'.reached root).Nodup := by
      rw [reached_of_resolve hroot']
      exact ht'.nodup_filesBelow hraw
    refine (List.perm_ext_iff_of_nodup hnodup hnodup').2 fun p => ?_
    rw [ht.mem_reached hroot, ht'.mem_reached hroot']
    exact exists_congr fun x => and_congr_left' h.lists_iff
  exact sortPaths_eq_of_perm (hperm.filter _) (ht.pairwise_reached hroot selection.shouldInclude)

end Tree

/-! ### Leaving out files -/

namespace ScanReport

variable (g : Path → Bool) (readings : List Reading)

theorem filter_issues : (ofReadings readings).issues.filter (g ·.file) =
    (ofReadings (readings.filter (g ·.1))).issues := by
  induction readings with
  | nil => rfl
  | cons reading rest ih =>
    obtain ⟨path, text⟩ := reading
    have hown : ∀ i ∈ (text.toOption.map (scanSource path)).getD [], i.file = path := by
      intro i hi
      cases text with
      | error e => cases hi
      | ok src => exact file_of_mem_scanSource hi
    rw [issues_cons, List.filter_append, ih]
    by_cases hg : g path = true
    · rw [List.filter_eq_self.2 fun i hi => (congrArg g (hown i hi)).trans hg, List.filter_cons,
        if_pos hg, issues_cons]
    · rw [List.filter_eq_nil_iff.2 fun i hi => (congrArg g (hown i hi)).symm ▸ hg,
        List.filter_cons, if_neg hg, List.nil_append]

theorem filter_skipped : (ofReadings readings).skipped.filter (g ·.path) =
    (ofReadings (readings.filter (g ·.1))).skipped := by
  induction readings with
  | nil => rfl
  | cons reading rest ih =>
    obtain ⟨path, text⟩ := reading
    cases text <;> by_cases hg : g path = true <;> simp [ofReadings, hg, ih]

end ScanReport

namespace Prepared

def restrict (g : Path → Bool) (p : Prepared) : Prepared :=
  ⟨p.changes.filter (g ·.path), p.failures.filter (g ·.path)⟩

theorem restrict_add (g : Path → Bool) (style : Style) (plan : FilePlan) (reading : Reading)
    (p : Prepared) : (add style plan reading p).restrict g =
      if g reading.1 then add style plan reading (p.restrict g) else p.restrict g := by
  obtain ⟨path, text⟩ := reading
  cases text with
  | error e => by_cases hg : g path = true <;> simp [add, restrict, hg]
  | ok text =>
    unfold add
    dsimp only
    split
    · rw [ite_self]
    · by_cases hg : g path = true <;> simp [restrict, hg]

theorem restrict_ofReadings (g : Path → Bool) (style : Style)
    (readings : List (FilePlan × Reading)) : (ofReadings style readings).restrict g =
      ofReadings style (readings.filter (g ·.2.1)) := by
  induction readings with
  | nil => rfl
  | cons reading rest ih =>
    rw [ofReadings, restrict_add, ih, List.filter_cons]
    split <;> rfl

end Prepared

namespace Plan

variable {issues issues' : List Issue} {p : Path} {filePlan : FilePlan} {g : Path → Bool}

theorem isOf_eq_isIn (p : Path) : isOf p = Issue.isIn p := by
  funext i
  rw [Bool.eq_iff_iff, Issue.isIn_iff, isOf, beq_iff_eq]

/-- A file of a plan is told by the issues of its path. -/
theorem mem_files_ofIssues : (p, filePlan) ∈ (ofIssues issues).files ↔
    (issues.filter (·.isIn p)).head?.map Issue.file = some p ∧
      filePlan = FilePlan.ofList ((issues.filter (·.isIn p)).map Issue.target) := by
  have hpaths := (merges_ofIssues issues).mem_paths p
  rw [← List.head?_filter] at hpaths
  have hvalue : ∀ filePlan, (p, filePlan) ∈ (ofIssues issues).files →
      filePlan = FilePlan.ofList ((issues.filter (·.isIn p)).map Issue.target) := by
    intro filePlan hmem
    have hfile : (ofIssues issues).file? p = some filePlan :=
      (ascending_ofIssues issues).get?_of_mem hmem
    rw [file?_ofIssues, isOf_eq_isIn] at hfile
    split at hfile
    · cases hfile
    · exact (Option.some.inj hfile).symm
  constructor
  · exact fun hmem => ⟨hpaths.1 (List.mem_map.2 ⟨_, hmem, rfl⟩), hvalue filePlan hmem⟩
  · rintro ⟨hfirst, rfl⟩
    obtain ⟨⟨_, old⟩, hmem, rfl⟩ := List.mem_map.1 (hpaths.2 hfirst)
    rwa [← hvalue old hmem]

/-- No path stands among some issues in two spellings. -/
def SpelledOnce (issues : List Issue) : Prop :=
  ∀ i ∈ issues, ∀ j ∈ issues, j.isIn i.file = true → j.file = i.file

theorem SpelledOnce.filter_isIn {i : Issue} (h : SpelledOnce issues) (hi : i ∈ issues)
    (hg : g i.file = true) : issues.filter (·.isIn i.file) =
      (issues.filter (g ·.file)).filter (·.isIn i.file) := by
  rw [List.filter_filter]
  refine List.filter_congr fun j hj => ?_
  cases hin : j.isIn i.file with
  | false => rfl
  | true => rw [h i hi j hj hin, hg, Bool.true_and]

theorem SpelledOnce.mem_files_of_filter_eq (h : SpelledOnce issues) (h' : SpelledOnce issues')
    (hfilter : issues.filter (g ·.file) = issues'.filter (g ·.file)) (hg : g p = true)
    (hmem : (p, filePlan) ∈ (ofIssues issues).files) :
    (p, filePlan) ∈ (ofIssues issues').files := by
  obtain ⟨i, hi, rfl⟩ := exists_issue_of_mem_paths (List.mem_map.2 ⟨_, hmem, rfl⟩)
  have hi' : i ∈ issues'.filter (g ·.file) := hfilter ▸ List.mem_filter.2 ⟨hi, hg⟩
  rw [mem_files_ofIssues, h.filter_isIn hi hg, hfilter,
    ← h'.filter_isIn (List.mem_filter.1 hi').1 hg] at hmem
  exact mem_files_ofIssues.2 hmem

/-- The plans of some files are made of their issues alone. -/
theorem SpelledOnce.filter_files (h : SpelledOnce issues) (h' : SpelledOnce issues')
    (hfilter : issues.filter (g ·.file) = issues'.filter (g ·.file)) :
    (ofIssues issues).files.filter (g ·.1) = (ofIssues issues').files.filter (g ·.1) := by
  have hascending : ∀ issues, ((ofIssues issues).files.filter (g ·.1)).Pairwise
      fun e e' => e.1.compare e'.1 = .lt :=
    fun issues => (List.pairwise_map.1 (ascending_ofIssues issues)).filter _
  have hnodup : ∀ issues, ((ofIssues issues).files.filter (g ·.1)).Nodup :=
    fun issues => (nodup_paths_ofIssues issues).of_map.filter _
  have hperm : ((ofIssues issues).files.filter (g ·.1)).Perm
      ((ofIssues issues').files.filter (g ·.1)) := by
    refine (List.perm_ext_iff_of_nodup (hnodup issues) (hnodup issues')).2 fun ⟨p, filePlan⟩ => ?_
    rw [List.mem_filter, List.mem_filter]
    exact and_congr_left fun hg => ⟨h.mem_files_of_filter_eq h' hfilter hg,
      h'.mem_files_of_filter_eq h hfilter.symm hg⟩
  refine hperm.eq_of_pairwise (fun e e' _ _ hlt hgt => ?_) (hascending issues) (hascending issues')
  rw [Std.OrientedCmp.gt_of_lt hlt] at hgt
  cases hgt

end Plan

/-! ### Two runs -/

/-- Two reports and the changes prepared from them that say the same of the files that `g` asks
for, in the same order. -/
structure ScanReport.AgreeOn (g : Path → Bool) (r r' : ScanReport) (p p' : Prepared) : Prop where
  issues : r.issues.filter (g ·.file) = r'.issues.filter (g ·.file)
  skipped : r.skipped.filter (g ·.path) = r'.skipped.filter (g ·.path)
  changes : p.changes.filter (g ·.path) = p'.changes.filter (g ·.path)
  failures : p.failures.filter (g ·.path) = p'.failures.filter (g ·.path)

namespace Tree

variable {t t' : Tree} {f here : Location} {root : Path} {g : Path → Bool}

theorem filter_readings (t : Tree) (g : Path → Bool) (paths : List Path) :
    (paths.map t.reading).filter (g ·.1) = (paths.filter g).map t.reading := by
  rw [List.filter_map]
  rfl

theorem restrict_prepared (t : Tree) (g : Path → Bool) (plan : Plan) (style : Style) :
    (t.prepared plan style).restrict g = Prepared.ofReadings style
      ((plan.files.filter (g ·.1)).map fun e => (e.2, t.reading e.1)) := by
  have hreadings : (plan.files.map Prod.snd).zip (plan.paths.map t.reading) =
      plan.files.map fun e => (e.2, t.reading e.1) := by
    rw [Plan.paths, List.map_map, List.zip_map']
    rfl
  rw [prepared, hreadings, Prepared.restrict_ofReadings, List.filter_map]
  rfl

theorem WellFormed.spelledOnce (ht : t.WellFormed)
    (hroot : t.resolve .target root = .ok (.found here .directory)) (selection : Selection) :
    Plan.SpelledOnce
      (ScanReport.ofReadings ((t.selected root selection).map t.reading)).issues := by
  have hselected : ∀ i ∈ (ScanReport.ofReadings ((t.selected root selection).map t.reading)).issues,
      i.file ∈ t.selected root selection := by
    intro i hi
    obtain ⟨reading, hmem, hfile⟩ := ScanReport.exists_reading_of_mem hi
    obtain ⟨p, hp, rfl⟩ := List.mem_map.1 hmem
    rwa [← hfile]
  intro i hi j hj hin
  exact (ht.eq_of_compare_selected hroot (hselected i hi) (hselected j hj)
    (Issue.isIn_iff.1 hin)).symm

/-- Files to which none of the paths asked for leads do not count, neither for a report nor for the
changes prepared from it. -/
theorem DiffersAt.agreeOn (h : t.DiffersAt t' f) (ht : t.WellFormed) (ht' : t'.WellFormed)
    (hroot : t.resolve .target root = .ok (.found here .directory)) (selection : Selection)
    (style : Style) (hg : ∀ p, g p = true → t.leadsTo f p = false) {r r' : ScanReport}
    (hr : r = .ofReadings ((t.selected root selection).map t.reading))
    (hr' : r' = .ofReadings ((t'.selected root selection).map t'.reading)) :
    r.AgreeOn g r' (t.prepared r.plan style) (t'.prepared r'.plan style) := by
  have hreadings : ((t.selected root selection).map t.reading).filter (g ·.1) =
      ((t'.selected root selection).map t'.reading).filter (g ·.1) := by
    rw [filter_readings, filter_readings, h.selected_eq ht ht' hroot selection]
    exact List.map_congr_left fun p hp => h.reading_eq (hg p (List.mem_filter.1 hp).2)
  have hissues : r.issues.filter (g ·.file) = r'.issues.filter (g ·.file) := by
    rw [hr, hr', ScanReport.filter_issues, hreadings, ScanReport.filter_issues]
  have hskipped : r.skipped.filter (g ·.path) = r'.skipped.filter (g ·.path) := by
    rw [hr, hr', ScanReport.filter_skipped, hreadings, ScanReport.filter_skipped]
  have hfiles : r.plan.files.filter (g ·.1) = r'.plan.files.filter (g ·.1) := by
    refine Plan.SpelledOnce.filter_files ?_ ?_ hissues
    · exact hr ▸ ht.spelledOnce hroot selection
    · exact hr' ▸ ht'.spelledOnce (resolve_root_congr h.frame hroot) selection
  have hprepared : (t.prepared r.plan style).restrict g =
      (t'.prepared r'.plan style).restrict g := by
    rw [restrict_prepared, restrict_prepared, hfiles]
    refine congrArg _ (List.map_congr_left fun e he => ?_)
    rw [h.reading_eq (hg e.1 (List.mem_filter.1 he).2)]
  exact ⟨hissues, hskipped, congrArg Prepared.changes hprepared,
    congrArg Prepared.failures hprepared⟩

/-- A root fails for what its path leads to. -/
theorem run_validateRoot_congr (h : t.kind root = t'.kind root) :
    ((validateRoot root : StateM Tree (Except Failure Unit)).run t).1 =
      ((validateRoot root : StateM Tree (Except Failure Unit)).run t').1 := by
  have hkind : ∀ t : Tree, (FileSystem.kind root : StateM Tree (Except FileError EntryKind)).run t =
      (t.kind root, t) := fun _ => rfl
  unfold validateRoot
  rw [run_bind, run_bind, hkind t, hkind t', h]
  cases t'.kind root with
  | error e => rfl
  | ok kind => cases kind <;> rfl

end Tree

open ExplicitNull.Tree

/-- Trees that differ in the bytes of one file, text or not, are scanned in the same way: with the
same failure, or with the same said of all other files, and so it is with the changes prepared. -/
theorem scan_prepare_bystanders {t t' : Tree} (ht : t.WellFormed) (ht' : t'.WellFormed)
    {f : Location} (h : t.DiffersAt t' f) (root : Path) (selection : Selection) (style : Style) :
    t.leadsTo f = t'.leadsTo f ∧
    ((∃ failure,
      (scan root selection : StateM Tree (Except Failure ScanReport)).run t =
        (.error failure, t) ∧
      (scan root selection : StateM Tree (Except Failure ScanReport)).run t' =
        (.error failure, t')) ∨
    ∃ r r' p p',
      (scan root selection : StateM Tree (Except Failure ScanReport)).run t = (.ok r, t) ∧
      (scan root selection : StateM Tree (Except Failure ScanReport)).run t' = (.ok r', t') ∧
      (prepare r.plan style : StateM Tree Prepared).run t = (p, t) ∧
      (prepare r'.plan style : StateM Tree Prepared).run t' = (p', t') ∧
      r.AgreeOn (fun path => !t.leadsTo f path) r' p p') := by
  refine ⟨h.leadsTo_eq, ?_⟩
  by_cases hkind : t.kind root = .ok .directory
  · obtain ⟨here, hroot⟩ := kind_eq_directory.1 hkind
    refine .inr ⟨_, _, _, _, run_scan selection hkind, run_scan selection (h.kind root ▸ hkind),
      run_prepare _ style t, run_prepare _ style t', ?_⟩
    refine h.agreeOn ht ht' hroot selection style (fun p hp => ?_) rfl rfl
    rwa [Bool.not_eq_true'] at hp
  · obtain ⟨failure, hfails⟩ := run_validateRoot_of_ne hkind
    obtain ⟨failure', hfails'⟩ := run_validateRoot_of_ne (h.kind root ▸ hkind)
    have hsame : failure = failure' := by
      have hfirst := run_validateRoot_congr (h.kind root)
      rw [hfails, hfails'] at hfirst
      exact Except.error.inj hfirst
    refine .inl ⟨failure, ?_, ?_⟩
    · unfold scan
      rw [run_bind, hfails]
      rfl
    · unfold scan
      rw [run_bind, hfails', ← hsame]
      rfl

def textsTree : Tree :=
  ⟨[([utf8 "r"], .directory), ([utf8 "r", utf8 "b.php"], .file (Token.source linedSample)),
    ([utf8 "r", utf8 "a.php"], .file (Token.source linedSample))]⟩

theorem differsAt_textsTree : mixedTree.DiffersAt textsTree [utf8 "r", utf8 "b.php"] where
  elsewhere loc hloc := by simp only [mixedTree, textsTree, Tree.get?, lookup, if_neg hloc]
  isFile := ⟨[0xff], by decide⟩
  isFile' := ⟨Token.source linedSample, by decide⟩

theorem scan_prepare_bystanders_mixedTree :
    ∃ r r' p p',
      (scan ⟨utf8 "r"⟩ (excluding (utf8 "vendor")) :
        StateM Tree (Except Failure ScanReport)).run mixedTree = (.ok r, mixedTree) ∧
      (scan ⟨utf8 "r"⟩ (excluding (utf8 "vendor")) :
        StateM Tree (Except Failure ScanReport)).run textsTree = (.ok r', textsTree) ∧
      r.skipped = [⟨⟨utf8 "r/b.php"⟩, .notText⟩] ∧ r'.skipped = [] ∧
      mixedTree.leadsTo [utf8 "r", utf8 "b.php"] ⟨utf8 "r/b.php"⟩ = true ∧
      mixedTree.leadsTo [utf8 "r", utf8 "b.php"] ⟨utf8 "r/a.php"⟩ = false ∧
      r.AgreeOn (fun path => !mixedTree.leadsTo [utf8 "r", utf8 "b.php"] path) r' p p' := by
  have hkind : mixedTree.kind ⟨utf8 "r"⟩ = .ok .directory := by decide
  have hkind' : textsTree.kind ⟨utf8 "r"⟩ = .ok .directory := by decide
  obtain ⟨-, ⟨failure, hfails, -⟩ | ⟨r, r', p, p', hscan, hscan', -, -, hagree⟩⟩ :=
    scan_prepare_bystanders (by decide) (by decide) differsAt_textsTree ⟨utf8 "r"⟩
      (excluding (utf8 "vendor")) .mark
  · rw [run_scan _ hkind] at hfails
    cases hfails
  · rw [run_scan _ hkind] at hscan
    rw [run_scan _ hkind'] at hscan'
    obtain rfl := Except.ok.inj (Prod.mk.inj hscan).1
    obtain rfl := Except.ok.inj (Prod.mk.inj hscan').1
    refine ⟨_, _, p, p', run_scan _ hkind, run_scan _ hkind', rfl, rfl, by decide, by decide,
      hagree⟩

end ExplicitNull
