import ExplicitNull.Proofs.Previews
import ExplicitNull.Proofs.Stages

/-!
Backups that fail. A file is copied in stages, and each leaves behind what it has done: the source
is opened and has to be a file, the target is opened, which makes or empties it, and then the bytes
are written that the source has by that time. Behind the opening of the target nothing fails, and
what fails before has changed nothing. So a change is made together with its backup, or it leaves
the tree as it is, whatever stands at the path of the file, at that of the backup or on the way to
them.
-/
namespace ExplicitNull

namespace Tree

def openSource (p : Path) : StateM Tree (Except FileError Location) := fun t =>
  match t.file p with
  | .error .isADirectory => (.error .notRegular, t)
  | .error e => (.error e, t)
  | .ok (loc, _) => (.ok loc, t)

/-- Opens a file to write it. It is made if it is missing, and is empty from then on. -/
def openTarget (p : Path) : StateM Tree (Except FileError Location) := fun t =>
  match t.writable p with
  | .error e => (.error e, t)
  | .ok loc => (.ok loc, t.set loc (.file []))

def transfer (source target : Location) : StateM Tree Unit := fun t =>
  match t.get? source with
  | some (.file bytes) => ((), t.set target (.file bytes))
  | _ => ((), t)

def copyInStages (source target : Path) : StateM Tree (Except FileError Unit) := do
  match ← openSource source with
  | .error e => return .error e
  | .ok loc =>
    match ← openTarget target with
    | .error e => return .error e
    | .ok loc' =>
      transfer loc loc'
      return .ok ()

def writeInStages (p : Path) (bytes : Bytes) : StateM Tree (Except FileError Unit) := do
  match ← openTarget p with
  | .error e => return .error e
  | .ok loc =>
    modify (·.set loc (.file bytes))
    return .ok ()

variable {t : Tree} {loc : Location} {c : Change} {suffix : Bytes}

theorem put_put (loc : Location) (e e' : Entry) (entries : List (Location × Entry)) :
    put loc e (put loc e' entries) = put loc e entries := by
  induction entries with
  | nil => simp [put]
  | cons entry rest ih =>
    obtain ⟨loc', e''⟩ := entry
    by_cases hloc : loc = loc' <;> simp [put, hloc, ih]

theorem set_set (t : Tree) (loc : Location) (e e' : Entry) :
    (t.set loc e').set loc e = t.set loc e := congrArg Tree.mk (put_put loc e e' t.entries)

theorem run_openTarget_of_ok {p : Path} (h : t.writable p = .ok loc) :
    (openTarget p).run t = (.ok loc, t.set loc (.file [])) := by
  simp only [openTarget, StateT.run, h]

theorem run_openTarget_of_error {p : Path} {e : FileError} (h : t.writable p = .error e) :
    (openTarget p).run t = (.error e, t) := by
  simp only [openTarget, StateT.run, h]

/-- What an open file has when another one, or the same, has been emptied. -/
theorem run_transfer {source target : Location} {bytes : Bytes}
    (hsource : t.get? source = some (.file bytes)) (htarget : t.frame target = none) :
    (transfer source target).run (t.set target (.file [])) =
      ((), t.set target (.file (if target = source then [] else bytes))) := by
  have hget := get?_set t (ne_nil_of_frame htarget) (.file []) source
  by_cases hsame : target = source
  · subst hsame
    rw [if_pos rfl] at hget
    simp only [transfer, StateT.run, hget, set_set, if_true]
  · rw [if_neg (Ne.symm hsame), hsource] at hget
    simp only [transfer, StateT.run, hget, set_set, if_neg hsame]

/-- A source that is no file is the end of a copy. -/
theorem exists_error_of_file {p q : Path} {e : FileError} (h : t.file p = .error e) :
    ∃ e', (openSource p).run t = (.error e', t) ∧ t.copy p q = .error e' := by
  unfold copy
  simp only [openSource, StateT.run, h]
  cases e <;> exact ⟨_, rfl, rfl⟩

theorem copy_eq_copyInStages (source target : Path) :
    (FileSystem.copy source target : StateM Tree (Except FileError Unit)) =
      copyInStages source target := by
  funext t
  change (change (·.copy source target)).run t = (copyInStages source target).run t
  unfold copyInStages
  rw [run_bind]
  cases hfile : t.file source with
  | error e =>
    obtain ⟨e', hopen, hcopy⟩ := exists_error_of_file (q := target) hfile
    rw [hopen]
    exact run_change_of_error hcopy
  | ok found =>
    obtain ⟨loc, bytes⟩ := found
    have hopen : (openSource source).run t = (.ok loc, t) := by
      simp only [openSource, StateT.run, hfile]
    rw [hopen]
    dsimp only
    rw [run_bind]
    cases hwritable : t.writable target with
    | error e =>
      rw [run_openTarget_of_error hwritable]
      refine run_change_of_error ?_
      rw [copy, hfile, hwritable]
      rfl
    | ok loc' =>
      rw [run_openTarget_of_ok hwritable]
      dsimp only
      rw [run_bind, run_transfer (file_eq_ok.1 hfile).2 (frame_of_writable hwritable)]
      refine run_change_of_ok ?_
      rw [copy, hfile, hwritable]
      rfl

theorem write_eq_writeInStages (p : Path) (bytes : Bytes) :
    (FileSystem.write p bytes : StateM Tree (Except FileError Unit)) = writeInStages p bytes := by
  funext t
  change (change (·.write p bytes)).run t = (writeInStages p bytes).run t
  unfold writeInStages
  rw [run_bind]
  cases hwritable : t.writable p with
  | error e =>
    rw [run_openTarget_of_error hwritable]
    refine run_change_of_error ?_
    rw [write, hwritable]
    rfl
  | ok loc =>
    rw [run_openTarget_of_ok hwritable]
    refine run_change_of_ok ?_ |>.trans (congrArg (Prod.mk _) (set_set t loc _ _).symm)
    rw [write, hwritable]
    rfl

/-- A change does not depend on the text that its file had when it was prepared. -/
theorem applyChange_before (c : Change) (bytes : Bytes) (suffix : Bytes) :
    (applyChange { c with before := bytes } suffix : StateM Tree ApplyOutcome) =
      applyChange c suffix := rfl

end Tree

open ExplicitNull.Tree

/-- Copying and writing come to what their stages do one after another. A change is made if its path
leads to a file and that of its backup to a place for one, wherever that is, and then the path of
the change leads to its text and nothing but these two places is different; otherwise the tree is as
it was. -/
theorem applyChange_allOrNothing (t : Tree) (c : Change) (suffix : Bytes) :
    (∀ p q, (FileSystem.copy p q : StateM Tree (Except FileError Unit)) = copyInStages p q) ∧
      (∀ p bytes, (FileSystem.write p bytes : StateM Tree (Except FileError Unit)) =
        writeInStages p bytes) ∧
      ((∃ cause, (applyChange c suffix : StateM Tree ApplyOutcome).run t =
          (.backupFailed c.path cause, t) ∧
          ((t.file c.path).isOk = false ∨
            (t.writable (Change.backupPath c.path suffix)).isOk = false)) ∨
        ∃ file bytes backup t',
          (applyChange c suffix : StateM Tree ApplyOutcome).run t =
            (.applied (Change.backupPath c.path suffix), t') ∧
          t.file c.path = .ok (file, bytes) ∧
          t.writable (Change.backupPath c.path suffix) = .ok backup ∧
          t'.read c.path = .ok c.after ∧
          (readText c.path : StateM Tree (Except FileError Bytes)).run t' =
            (if Utf8.isValid c.after then .ok c.after else .error .notText, t') ∧
          ∀ loc, t'.get? loc = if loc = file then some (.file c.after)
            else if loc = backup then some (.file bytes) else t.get? loc) := by
  refine ⟨copy_eq_copyInStages, write_eq_writeInStages, ?_⟩
  cases hfile : t.file c.path with
  | error e =>
    obtain ⟨e', -, hcopy⟩ := exists_error_of_file (q := Change.backupPath c.path suffix) hfile
    exact .inl ⟨e', run_applyChange_of_error hcopy, .inl rfl⟩
  | ok found =>
    obtain ⟨file, bytes⟩ := found
    rw [← applyChange_before c bytes suffix]
    rcases run_applyChange_cases (c := { c with before := bytes }) rfl hfile (file_eq_ok.1 hfile).2
      with ⟨hnone, e, hrun⟩ | ⟨backup, t', hplaced, hrun, -, hget⟩
    · left
      refine ⟨e, hrun, .inr ?_⟩
      cases hwritable : t.writable (Change.backupPath c.path suffix) with
      | error e => rfl
      | ok backup => exact absurd ⟨hfile, hwritable⟩ (hnone backup)
    · right
      have hread := read_of_applied hrun
      refine ⟨file, bytes, backup, t', hrun, rfl, hplaced.backup, hread, ?_, hget⟩
      rw [run_readText, Tree.readText, hread]

/-- A link to itself stands where the backup would go. -/
example : (applyChange ⟨⟨utf8 "a"⟩, utf8 "1", utf8 "2"⟩ (utf8 "~") : StateM Tree ApplyOutcome).run
    ⟨[([utf8 "a"], .file (utf8 "1")), ([utf8 "a~"], .link ⟨utf8 "a~"⟩)]⟩ =
      (.backupFailed ⟨utf8 "a"⟩ .tooManyLinks,
        ⟨[([utf8 "a"], .file (utf8 "1")), ([utf8 "a~"], .link ⟨utf8 "a~"⟩)]⟩) := rfl

end ExplicitNull
