import ExplicitNull.Text.Bytes

/-!
What a run does with the issues that it finds.
-/
namespace ExplicitNull

inductive Mode
  /-- Lists the issues. -/
  | list
  /-- Shows the changes. -/
  | dryRun
  /-- Makes the changes, with backups. -/
  | apply
  /-- Moves the backups home. -/
  | restore
  deriving DecidableEq, Repr, Inhabited

namespace Mode

def name : Mode → Bytes
  | .list => utf8 "list"
  | .dryRun => utf8 "dry-run"
  | .apply => utf8 "apply"
  | .restore => utf8 "restore"

def needsChanges : Mode → Bool
  | .dryRun | .apply => true
  | .list | .restore => false

end Mode

end ExplicitNull
