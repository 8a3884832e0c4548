import ExplicitNull.Discovery

/-!
Moving backups home. The backups are listed first and then moved one by one, in the order of their
paths, each over the file that it was made of; a move that fails is put on record and the rest
goes on.
-/
namespace ExplicitNull

structure RestoreOutcome where
  /-- The path that the backup was made of. -/
  home : Path
  backup : Path
  error : Option FileError
  deriving DecidableEq, Repr

namespace Restore

/-- The path that a backup was made of, if the path of the backup is text. -/
def homeOf? (suffix : Bytes) (backup : Path) : Option Path :=
  if Utf8.isValid backup.raw then
    match Bytes.dropSuffix? suffix backup.raw with
    | none | some [] => none
    | some raw => some ⟨raw⟩
  else none

end Restore

variable {m : Type → Type} [Monad m] [FileSystem m]

namespace Restore

def moveAll (suffix : Bytes) : List Path → m (List RestoreOutcome)
  | [] => return []
  | backup :: rest =>
    match homeOf? suffix backup with
    | none => moveAll suffix rest
    | some home => do
      let moved ← FileSystem.rename backup home
      let outcomes ← moveAll suffix rest
      let error := match moved with
        | .ok () => none
        | .error e => some e
      return ⟨home, backup, error⟩ :: outcomes

end Restore

def restore (root : Path) (suffix : Bytes) : m (Except Failure (List RestoreOutcome)) := do
  match ← validateRoot root with
  | .error f => return .error f
  | .ok () =>
    let backups ← collectBackups root suffix
    let outcomes ← Restore.moveAll suffix backups
    return .ok outcomes

end ExplicitNull
