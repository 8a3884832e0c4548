import ExplicitNull.Failure
import ExplicitNull.Sorting

/-!
Finding things below a root: the settings that lie there, the files to scan and the backups. Files
come in the order of their paths, whatever the order in which a directory is listed.
-/
namespace ExplicitNull

variable {m : Type → Type} [Monad m] [FileSystem m]

def validateRoot (root : Path) : m (Except Failure Unit) := do
  match ← FileSystem.kind root with
  | .error e => return .error (.badRoot root e)
  | .ok .file => return .error (.rootNotDirectory root)
  | .ok .directory => return .ok ()

namespace Discovery

def sortPaths (paths : List Path) : List Path :=
  Sorting.sort (fun p q => (p.compare q).isLE) paths

def mayEnter (name : Bytes) : Bool := !Selection.skippedDirectories.contains name

def collect (root : Path) (keep : Path → Bool) : m (Except FileError (List Path)) := do
  match ← FileSystem.filesBelow mayEnter root with
  | .error e => return .error e
  | .ok paths => return .ok (sortPaths (paths.filter keep))

/-- Whether a file name is text, and a suffix with something before it. -/
def isBackup (suffix : Bytes) (p : Path) : Bool :=
  p.fileName?.any fun name =>
    Utf8.isValid name && suffix.length < name.length && suffix.isSuffixOf name

end Discovery

def collectFiles (root : Path) (selection : Selection) : m (Except Failure (List Path)) := do
  match ← Discovery.collect root selection.shouldInclude with
  | .error e => return .error (.unlistable root e)
  | .ok paths => return .ok paths

/-- The backups below a root; none if it is no directory. No filter applies, so all that were ever
made are found. -/
def collectBackups (root : Path) (suffix : Bytes) : m (List Path) := do
  match ← Discovery.collect root (Discovery.isBackup suffix) with
  | .error _ => return []
  | .ok paths => return paths

namespace Settings

def fileNames : List Bytes := [".nullfixrc.json", "nullfix.config.json"].map utf8

def load (file : Path) : m (Except Failure Settings) := do
  match ← readText file with
  | .error e => return .error (.settingsUnreadable file e)
  | .ok text =>
    match Settings.read? text with
    | none => return .error (.settingsMalformed file)
    | some s =>
      match s.validate with
      | .error e => return .error (.settingsInvalid file e)
      | .ok () => return .ok s

def firstExisting : List Path → m (Option Path)
  | [] => return none
  | p :: rest => do
    match ← FileSystem.kind p with
    | .ok _ => return some p
    | .error _ => firstExisting rest

/-- The file of settings to use: the given one, or the first that lies in the root. -/
def chooseFile (root : Path) (given : Option Path) : m (Option Path) :=
  match given with
  | some file => return some file
  | none => firstExisting (fileNames.map root.join)

def loadSelection (root : Path) (given : Option Path) (overrides : Overrides) :
    m (Except Failure (Selection × Option Path)) := do
  let file ← chooseFile root given
  let loaded : Except Failure Settings ← match file with
    | none => pure (.ok {})
    | some p => load p
  match loaded with
  | .error f => return .error f
  | .ok settings =>
    match (settings.withOverrides overrides).resolve with
    | .error e => return .error (.invalid e)
    | .ok selection => return .ok (selection, file)

end Settings

end ExplicitNull
