import ExplicitNull.Proofs.Operations
import ExplicitNull.Proofs.Listings
import ExplicitNull.Proofs.PlannedFiles

/-!
Runs on a tree. Looking at a root, scanning and preparing leave the tree as it is, and what they
come to is a function of the tree. A change is made by copying and writing or not at all, and each
backup is moved on its own.
-/
namespace ExplicitNull

namespace Tree

variable {α β : Type} {t t' t'' : Tree} {root : Path}

theorem run_bind (a : StateM Tree α) (f : α → StateM Tree β) (t : Tree) :
    (a >>= f).run t = (f (a.run t).1).run (a.run t).2 := rfl

def readText (t : Tree) (p : Path) : Except FileError Bytes :=
  match t.read p with
  | .error e => .error e
  | .ok bytes => if Utf8.isValid bytes then .ok bytes else .error .notText

def reading (t : Tree) (p : Path) : Reading := (p, t.readText p)

theorem run_readText (t : Tree) (p : Path) :
    (ExplicitNull.readText p : StateM Tree (Except FileError Bytes)).run t =
      (t.readText p, t) := by
  have hread : (FileSystem.read p : StateM Tree (Except FileError Bytes)).run t = (t.read p, t) :=
    rfl
  unfold ExplicitNull.readText Tree.readText
  rw [run_bind, hread]
  cases t.read p <;> rfl

theorem run_readAll (t : Tree) (paths : List Path) :
    (readAll paths : StateM Tree (List Reading)).run t = (paths.map t.reading, t) := by
  induction paths with
  | nil => rfl
  | cons p paths ih =>
    unfold readAll
    rw [run_bind, run_readText, run_bind, ih]
    rfl

/-- A root is a directory if its path leads to one. -/
theorem kind_eq_directory : t.kind root = .ok .directory ↔
    ∃ here, t.resolve .target root = .ok (.found here .directory) := by
  unfold kind
  constructor
  · intro h
    split at h
    · cases h
    · next here hresolve => exact ⟨here, hresolve⟩
    · cases h
    · cases h
  · intro h
    obtain ⟨here, hresolve⟩ := h
    rw [hresolve]

def reached (t : Tree) (root : Path) : List Path :=
  (t.filesBelow Discovery.mayEnter root).toOption.getD []

def selected (t : Tree) (root : Path) (selection : Selection) : List Path :=
  Discovery.sortPaths ((t.reached root).filter selection.shouldInclude)

theorem filesBelow_of_kind (h : t.kind root = .ok .directory) :
    t.filesBelow Discovery.mayEnter root = .ok (t.reached root) := by
  obtain ⟨here, hresolve⟩ := kind_eq_directory.1 h
  unfold reached
  rw [filesBelow_of_resolve Discovery.mayEnter hresolve]
  rfl

theorem reached_of_resolve {here : Location}
    (h : t.resolve .target root = .ok (.found here .directory)) :
    t.reached root = t.entries.filterMap (pathBelow? Discovery.mayEnter root here) := by
  unfold reached
  rw [filesBelow_of_resolve Discovery.mayEnter h]
  rfl

theorem WellFormed.mem_reached {here : Location} {p : Path} (ht : t.WellFormed)
    (h : t.resolve .target root = .ok (.found here .directory)) :
    p ∈ t.reached root ↔ ∃ x, t.Lists Discovery.mayEnter root here x ∧ p = x.path root := by
  rw [reached_of_resolve h]
  exact ht.mem_filesBelow

theorem mem_selected {selection : Selection} {p : Path} :
    p ∈ t.selected root selection ↔ p ∈ t.reached root ∧ selection.shouldInclude p = true := by
  unfold selected Discovery.sortPaths
  rw [(Sorting.perm_sort _ _).mem_iff, List.mem_filter]

theorem run_validateRoot (h : t.kind root = .ok .directory) :
    (validateRoot root : StateM Tree (Except Failure Unit)).run t = (.ok (), t) := by
  have hkind : (FileSystem.kind root : StateM Tree (Except FileError EntryKind)).run t =
      (.ok .directory, t) := Prod.ext h rfl
  unfold validateRoot
  rw [run_bind, hkind]
  rfl

theorem run_validateRoot_of_ne (h : t.kind root ≠ .ok .directory) :
    ∃ f, (validateRoot root : StateM Tree (Except Failure Unit)).run t = (.error f, t) := by
  have hkind : (FileSystem.kind root : StateM Tree (Except FileError EntryKind)).run t =
      (t.kind root, t) := rfl
  unfold validateRoot
  rw [run_bind, hkind]
  cases hroot : t.kind root with
  | error e => exact ⟨.badRoot root e, rfl⟩
  | ok kind =>
    cases kind with
    | file => exact ⟨.rootNotDirectory root, rfl⟩
    | directory => exact absurd hroot h

theorem run_collect (keep : Path → Bool) (h : t.kind root = .ok .directory) :
    (Discovery.collect root keep : StateM Tree (Except FileError (List Path))).run t =
      (.ok (Discovery.sortPaths ((t.reached root).filter keep)), t) := by
  have hfiles : (FileSystem.filesBelow Discovery.mayEnter root :
      StateM Tree (Except FileError (List Path))).run t = (.ok (t.reached root), t) :=
    Prod.ext (filesBelow_of_kind h) rfl
  unfold Discovery.collect
  rw [run_bind, hfiles]
  rfl

theorem run_scan (selection : Selection) (h : t.kind root = .ok .directory) :
    (scan root selection : StateM Tree (Except Failure ScanReport)).run t =
      (.ok (ScanReport.ofReadings ((t.selected root selection).map t.reading)), t) := by
  have hfiles : (collectFiles root selection : StateM Tree (Except Failure (List Path))).run t =
      (.ok (t.selected root selection), t) := by
    unfold collectFiles
    rw [run_bind, run_collect selection.shouldInclude h]
    rfl
  unfold scan
  rw [run_bind, run_validateRoot h]
  dsimp only
  rw [run_bind, hfiles]
  dsimp only
  rw [run_bind, run_readAll]
  rfl

def prepared (t : Tree) (plan : Plan) (style : Style) : Prepared :=
  Prepared.ofReadings style ((plan.files.map Prod.snd).zip (plan.paths.map t.reading))

theorem run_prepare (plan : Plan) (style : Style) (t : Tree) :
    (prepare plan style : StateM Tree Prepared).run t = (t.prepared plan style, t) := by
  unfold prepare
  rw [run_bind, run_readAll]
  rfl

theorem sublist_prepared (t : Tree) (plan : Plan) (style : Style) :
    ((t.prepared plan style).changes.map Change.path).Sublist plan.paths := by
  have hlength : (plan.paths.map t.reading).length ≤ (plan.files.map Prod.snd).length := by
    simp [Plan.paths]
  have hpaths : ((plan.files.map Prod.snd).zip (plan.paths.map t.reading)).map (fun r => r.2.1) =
      plan.paths := by
    calc
      _ = (((plan.files.map Prod.snd).zip (plan.paths.map t.reading)).map Prod.snd).map Prod.fst :=
        List.map_map.symm
      _ = (plan.paths.map t.reading).map Prod.fst := by rw [List.map_snd_zip hlength]
      _ = plan.paths := by simp [Function.comp_def, reading]
  have hsublist := Prepared.sublist_ofReadings style
    ((plan.files.map Prod.snd).zip (plan.paths.map t.reading))
  rw [hpaths] at hsublist
  exact hsublist

theorem read_of_mem_prepared {plan : Plan} {style : Style} {c : Change}
    (h : c ∈ (t.prepared plan style).changes) : t.read c.path = .ok c.before := by
  obtain ⟨filePlan, hmem, -⟩ := Prepared.exists_reading_of_mem h
  obtain ⟨q, -, hreading⟩ := List.mem_map.1 (List.of_mem_zip hmem).2
  have hpath : q = c.path := congrArg Prod.fst hreading
  have htext : t.readText q = .ok c.before := congrArg Prod.snd hreading
  rw [hpath] at htext
  unfold readText at htext
  split at htext
  · cases htext
  · next bytes hread =>
    split at htext
    · cases htext
      exact hread
    · cases htext

theorem run_change_of_error {operation : Tree → Except FileError Tree} {e : FileError}
    (h : operation t = .error e) : (change operation).run t = (.error e, t) := by
  simp only [change, StateT.run, h]

theorem run_change_of_ok {operation : Tree → Except FileError Tree} (h : operation t = .ok t') :
    (change operation).run t = (.ok (), t') := by
  simp only [change, StateT.run, h]

variable {c : Change} {suffix : Bytes}

theorem run_applyChange_of_error {e : FileError}
    (h : t.copy c.path (Change.backupPath c.path suffix) = .error e) :
    (applyChange c suffix : StateM Tree ApplyOutcome).run t = (.backupFailed c.path e, t) := by
  have hcopy : (FileSystem.copy c.path (Change.backupPath c.path suffix) :
      StateM Tree (Except FileError Unit)).run t = (.error e, t) := run_change_of_error h
  unfold applyChange
  rw [run_bind, hcopy]
  rfl

theorem run_applyChange_of_ok (h : t.copy c.path (Change.backupPath c.path suffix) = .ok t')
    (h' : t'.write c.path c.after = .ok t'') :
    (applyChange c suffix : StateM Tree ApplyOutcome).run t =
      (.applied (Change.backupPath c.path suffix), t'') := by
  have hcopy : (FileSystem.copy c.path (Change.backupPath c.path suffix) :
      StateM Tree (Except FileError Unit)).run t = (.ok (), t') := run_change_of_ok h
  have hwrite : (FileSystem.write c.path c.after : StateM Tree (Except FileError Unit)).run t' =
      (.ok (), t'') := run_change_of_ok h'
  unfold applyChange
  rw [run_bind, hcopy]
  dsimp only
  rw [run_bind, hwrite]
  rfl

theorem run_applyAll_cons (c : Change) (rest : List Change) (suffix : Bytes) (t : Tree) :
    (applyAll suffix (c :: rest) : StateM Tree (List ApplyOutcome)).run t =
      let (outcome, t') := (applyChange c suffix : StateM Tree ApplyOutcome).run t
      let (outcomes, t'') := (applyAll suffix rest : StateM Tree (List ApplyOutcome)).run t'
      (outcome :: outcomes, t'') := rfl

/-- Moving a backup home, when it has a home and the move does not fail. -/
theorem run_moveAll_cons {backup home : Path} (rest : List Path)
    (hhome : Restore.homeOf? suffix backup = some home) (h : t.rename backup home = .ok t') :
    (Restore.moveAll suffix (backup :: rest) : StateM Tree (List RestoreOutcome)).run t =
      let (outcomes, t'') := (Restore.moveAll suffix rest : StateM Tree (List RestoreOutcome)).run t'
      (⟨home, backup, none⟩ :: outcomes, t'') := by
  have hrename : (FileSystem.rename backup home : StateM Tree (Except FileError Unit)).run t =
      (.ok (), t') := run_change_of_ok h
  rw [Restore.moveAll, hhome]
  dsimp only
  rw [run_bind, hrename]
  rfl

theorem run_moveAll_cons_of_error {backup home : Path} {e : FileError} (rest : List Path)
    (hhome : Restore.homeOf? suffix backup = some home) (h : t.rename backup home = .error e) :
    (Restore.moveAll suffix (backup :: rest) : StateM Tree (List RestoreOutcome)).run t =
      let (outcomes, t') := (Restore.moveAll suffix rest : StateM Tree (List RestoreOutcome)).run t
      (⟨home, backup, some e⟩ :: outcomes, t') := by
  have hrename : (FileSystem.rename backup home : StateM Tree (Except FileError Unit)).run t =
      (.error e, t) := run_change_of_error h
  rw [Restore.moveAll, hhome]
  dsimp only
  rw [run_bind, hrename]
  rfl

theorem moveAll_cons_of_none {backup : Path} (rest : List Path)
    (hhome : Restore.homeOf? suffix backup = none) :
    (Restore.moveAll suffix (backup :: rest) : StateM Tree (List RestoreOutcome)) =
      Restore.moveAll suffix rest := by
  rw [Restore.moveAll, hhome]

def backups (t : Tree) (root : Path) (suffix : Bytes) : List Path :=
  Discovery.sortPaths ((t.reached root).filter (Discovery.isBackup suffix))

theorem mem_backups_iff {suffix : Bytes} {p : Path} : p ∈ t.backups root suffix ↔
    p ∈ t.reached root ∧ Discovery.isBackup suffix p = true := by
  unfold backups Discovery.sortPaths
  rw [(Sorting.perm_sort _ _).mem_iff, List.mem_filter]

theorem WellFormed.nodup_backups {here : Location} (ht : t.WellFormed)
    (hroot : t.resolve .target root = .ok (.found here .directory)) (suffix : Bytes) :
    (t.backups root suffix).Nodup := by
  unfold backups Discovery.sortPaths
  rw [(Sorting.perm_sort _ _).nodup_iff, reached_of_resolve hroot]
  exact (ht.nodup_filesBelow (raw_ne_nil_of_resolve hroot)).filter _

theorem run_collectBackups (suffix : Bytes) (h : t.kind root = .ok .directory) :
    (collectBackups root suffix : StateM Tree (List Path)).run t = (t.backups root suffix, t) := by
  unfold collectBackups
  rw [run_bind, run_collect (Discovery.isBackup suffix) h]
  rfl

theorem run_restore (suffix : Bytes) (h : t.kind root = .ok .directory) :
    (restore root suffix : StateM Tree (Except Failure (List RestoreOutcome))).run t =
      let (outcomes, t') := (Restore.moveAll suffix (t.backups root suffix) :
        StateM Tree (List RestoreOutcome)).run t
      (.ok outcomes, t') := by
  unfold restore
  rw [run_bind, run_validateRoot h]
  dsimp only
  rw [run_bind, run_collectBackups suffix h]
  rfl

end Tree

end ExplicitNull
