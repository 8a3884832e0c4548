import ExplicitNull.Preview
import ExplicitNull.Scan

/-!
Changes of files: what a plan comes to for the texts as they are, and putting it into effect. A
file is written only behind its backup, and what goes wrong with one file does not stop the others.
-/
namespace ExplicitNull

/-- A file whose text a plan changes. -/
structure Change where
  path : Path
  before : Bytes
  after : Bytes
  deriving DecidableEq, Repr

structure Prepared where
  changes : List Change
  failures : List FileFailure
  deriving DecidableEq, Repr

namespace Prepared

/-- Adds the outcome of one planned file. A text that the plan leaves as it is gives no change. -/
def add (style : Style) (plan : FilePlan) (reading : Reading) (p : Prepared) : Prepared :=
  match reading with
  | (path, .error e) => { p with failures := ⟨path, e⟩ :: p.failures }
  | (path, .ok text) =>
    let fixed := fixSource text plan style
    if fixed = text then p else { p with changes := ⟨path, text, fixed⟩ :: p.changes }

def ofReadings (style : Style) : List (FilePlan × Reading) → Prepared
  | [] => ⟨[], []⟩
  | (plan, reading) :: rest => add style plan reading (ofReadings style rest)

end Prepared

namespace Change

def preview (c : Change) : Bytes := Preview.render c.before c.after

def backupPath (path : Path) (suffix : Bytes) : Path := path.append suffix

end Change

inductive ApplyOutcome
  | applied (backup : Path)
  /-- There is no backup, and the file is as it was. -/
  | backupFailed (path : Path) (cause : FileError)
  /-- The file could not be written; `restored` says whether its backup was copied back. -/
  | writeFailed (path : Path) (cause : FileError) (restored : Bool)
  deriving DecidableEq, Repr

namespace ApplyOutcome

def reason : ApplyOutcome → Bytes
  | .applied _ => []
  | .backupFailed path e => utf8 "failed to back up " ++ path.display ++ utf8 ": " ++ e.message
  | .writeFailed path e _ => utf8 "failed to write " ++ path.display ++ utf8 ": " ++ e.message

end ApplyOutcome

variable {m : Type → Type} [Monad m] [FileSystem m]

def prepare (plan : Plan) (style : Style) : m Prepared := do
  let readings ← readAll (plan.files.map Prod.fst)
  return Prepared.ofReadings style ((plan.files.map Prod.snd).zip readings)

/-- Makes the backup of a file, then writes its new text. -/
def applyChange (c : Change) (suffix : Bytes) : m ApplyOutcome := do
  let backup := Change.backupPath c.path suffix
  match ← FileSystem.copy c.path backup with
  | .error e => return .backupFailed c.path e
  | .ok () =>
    match ← FileSystem.write c.path c.after with
    | .ok () => return .applied backup
    | .error e =>
      let copied ← FileSystem.copy backup c.path
      return .writeFailed c.path e copied.isOk

def applyAll (suffix : Bytes) : List Change → m (List ApplyOutcome)
  | [] => return []
  | c :: rest => do
    let outcome ← applyChange c suffix
    let outcomes ← applyAll suffix rest
    return outcome :: outcomes

end ExplicitNull
