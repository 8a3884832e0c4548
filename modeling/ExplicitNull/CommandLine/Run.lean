import ExplicitNull.Change
import ExplicitNull.CommandLine.Options
import ExplicitNull.Report
import ExplicitNull.Restore

/-!
A run of the command: from its arguments to its output and its exit code, which is 0 for a run that
went through or only answered a question, 1 for one that a failure ended and 2 for arguments that
make no sense.
-/
namespace ExplicitNull.CommandLine

structure Output where
  code : Nat
  stdout : Bytes
  stderr : Bytes
  deriving DecidableEq, Repr

namespace Output

def line (parts : List Bytes) : Bytes := parts.flatten ++ utf8 "\n"

def done (stdout stderr : Bytes) : Output := ⟨0, stdout, stderr⟩

def after (stdout stderr : Bytes) (o : Output) : Output :=
  { o with stdout := stdout ++ o.stdout, stderr := stderr ++ o.stderr }

def indented (first further : Bytes) (message : Bytes) : Bytes :=
  first ++ Bytes.joinWith (utf8 "\n" ++ further) (Bytes.splitOn (byte '\n') message)

def causes : List Bytes → Bytes
  | [] => []
  | [cause] => utf8 "\n\nCaused by:\n" ++ indented (utf8 "    ") (utf8 "    ") cause
  | cause :: more =>
    utf8 "\n\nCaused by:" ++
      ((cause :: more).mapIdx fun n c =>
        utf8 "\n" ++ indented (utf8 "    " ++ decimal n ++ utf8 ": ") (utf8 "       ") c).flatten

def failed (f : Failure) : Output :=
  match f.messages with
  | [] => ⟨1, [], utf8 "Error\n"⟩
  | message :: rest => ⟨1, [], utf8 "Error: " ++ message ++ causes rest ++ utf8 "\n"⟩

-- The three texts below stand for those of the option parser, which words them by itself.

def usage : Output :=
  ⟨2, [], utf8 "error: the arguments are not understood\n"⟩

def help : Output :=
  done (utf8 "Find and fix implicitly nullable typed parameters in PHP sources\n") []

def version : Output := done (utf8 "nullfix\n") []

end Output

open Output

def skippedLine (f : FileFailure) : Bytes :=
  line [utf8 "warning: skipping file ", f.path.display, utf8 ": ", f.cause.message]

def skippedLines (skipped : List FileFailure) : Bytes :=
  (skipped.map skippedLine).flatten ++
    (if skipped.isEmpty then []
      else line [utf8 "Skipped ", decimal skipped.length, utf8 " file(s) that could not be read"])

def changeLine (c : Change) : Bytes :=
  line [utf8 "File: ", c.path.display, utf8 " -- changes detected"]

def outcomeOutput (c : Change) (o : ApplyOutcome) : Output :=
  match o with
  | .applied backup =>
    done (line [utf8 "Applied fix and backed up original to ", backup.display]) []
  | .backupFailed _ _ =>
    done (line [utf8 "Failed to backup ", c.path.display])
      (line [utf8 "warning: ", o.reason])
  | .writeFailed _ _ restored =>
    done (line [utf8 "Failed to write modified file ", c.path.display])
      ((if restored then []
        else line [utf8 "warning: ", c.path.display,
          utf8 " could not be restored from its backup"]) ++
        line [utf8 "warning: ", o.reason])

def applyOutput : List Change → List ApplyOutcome → Output
  | c :: cs, o :: os =>
    let first := outcomeOutput c o
    (applyOutput cs os).after (changeLine c ++ first.stdout) first.stderr
  | _, _ => done [] []

def previewOutput (changes : List Change) : Output :=
  done (changes.map fun c => changeLine c ++ c.preview).flatten []

def listHint : Bytes :=
  utf8 "\nList mode. To preview changes use --dry-run, to apply use --apply.\n"

def restoreOutput (outcomes : List RestoreOutcome) : Output :=
  let one (o : RestoreOutcome) : Bytes × Bytes :=
    let moving := line [utf8 "Restoring ", o.home.display]
    match o.error with
    | none => (moving, [])
    | some e =>
      (moving ++ line [utf8 "Failed to restore ", o.home.display],
        line [utf8 "warning: ", o.backup.display, utf8 ": ", e.message])
  let lines := outcomes.map one
  done ((lines.map Prod.fst).flatten ++ utf8 "Restore done.\n") (lines.map Prod.snd).flatten

variable {m : Type → Type} [Monad m] [FileSystem m]

def runRestore (root : Path) (suffix : Bytes) : m Output := do
  match ← restore root suffix with
  | .error f => return failed f
  | .ok outcomes => return restoreOutput outcomes

def runChanges (report : ScanReport) (selection : Selection) (mode : Mode) : m Output := do
  let prepared ← prepare report.plan selection.style
  let warnings := (prepared.failures.map skippedLine).flatten
  let shown ←
    if mode = .dryRun then pure (previewOutput prepared.changes)
    else do
      let outcomes ← applyAll selection.suffix prepared.changes
      pure (applyOutput prepared.changes outcomes)
  return done (shown.stdout ++ utf8 "Done.\n") (warnings ++ shown.stderr)

def runScan (o : Options) (selection : Selection) : m Output := do
  match ← scan o.path selection with
  | .error f => return failed f
  | .ok report =>
    let warnings := skippedLines report.skipped
    if o.format = .json then
      match Report.renderJson? report.issues with
      | none => return (failed .unrenderable).after [] warnings
      | some json => return done (line [json]) warnings
    else
      let listing := Report.renderText report.issues
      if report.issues.isEmpty then return done listing warnings
      else if o.mode = .list then return done (listing ++ listHint) warnings
      else
        let changed ← runChanges report selection o.mode
        return changed.after listing warnings

def runOptions (o : Options) : m Output := do
  if o.format = .json ∧ o.mode ≠ .list then return failed .formatMode
  else
    match ← validateRoot o.path with
    | .error f => return failed f
    | .ok () =>
      match ← Settings.loadSelection o.path o.config o.overrides with
      | .error f => return failed (.loading f)
      | .ok (selection, file) =>
        let notice := match file with
          | none => []
          | some p => line [utf8 "Using config: ", p.display]
        let output ←
          if o.mode = .restore then runRestore o.path selection.suffix
          else runScan o selection
        return output.after [] notice

def run (args : List Bytes) : m Output :=
  match request? args with
  | none => return usage
  | some .help => return help
  | some .version => return version
  | some (.options o) => runOptions o

end ExplicitNull.CommandLine
