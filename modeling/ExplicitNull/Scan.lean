import ExplicitNull.Discovery

/-!
Scanning the files below a root. A file that is no text is put on record and does not disturb the
others.
-/
namespace ExplicitNull

structure FileFailure where
  path : Path
  cause : FileError
  deriving DecidableEq, Repr

abbrev Reading := Path × Except FileError Bytes

structure ScanReport where
  filesScanned : Nat
  issues : List Issue
  skipped : List FileFailure
  deriving DecidableEq, Repr

namespace ScanReport

def empty : ScanReport := ⟨0, [], []⟩

def ofReadings : List Reading → ScanReport
  | [] => empty
  | (path, .ok src) :: rest =>
    let r := ofReadings rest
    { r with filesScanned := r.filesScanned + 1, issues := scanSource path src ++ r.issues }
  | (path, .error e) :: rest =>
    let r := ofReadings rest
    { r with skipped := ⟨path, e⟩ :: r.skipped }

def plan (r : ScanReport) : Plan := Plan.ofIssues r.issues

end ScanReport

variable {m : Type → Type} [Monad m] [FileSystem m]

def readAll : List Path → m (List Reading)
  | [] => return []
  | p :: rest => do
    let text ← readText p
    let readings ← readAll rest
    return (p, text) :: readings

def scan (root : Path) (selection : Selection) : m (Except Failure ScanReport) := do
  match ← validateRoot root with
  | .error f => return .error f
  | .ok () =>
    match ← collectFiles root selection with
    | .error f => return .error f
    | .ok files =>
      let readings ← readAll files
      return .ok (ScanReport.ofReadings readings)

end ExplicitNull
