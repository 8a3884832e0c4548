import ExplicitNull.CommandLine.Run

/-!
The command on the files of the machine. This module only hands over: each operation of a run
becomes the one of the machine, and its error the cause that it stands for.
-/
namespace ExplicitNull.Machine

def name (p : Path) : String := String.ofList (Utf8.decode p.raw)

def entry (p : Path) : IO.FS.DirEntry := ⟨name p, ""⟩

/-- The cause for an error number of the machine, which may come negated. -/
def causeOf (number : UInt32) (message : String) : FileError :=
  let code := if number < 0x80000000 then number else 0 - number
  if code = 2 then .notFound
  else if code = 16 then .busy
  else if code = 17 then .alreadyExists
  else if code = 20 then .notADirectory
  else if code = 21 then .isADirectory
  else if code = 22 then .invalidArgument
  else if code = 36 then .nameTooLong
  else if code = 39 then .notEmpty
  else if code = 40 then .tooManyLinks
  else .other (utf8 message)

def cause (e : IO.Error) : FileError :=
  match e with
  | .noFileOrDirectory _ code _ | .inappropriateType _ code _ | .invalidArgument _ code _
  | .alreadyExists _ code _ | .permissionDenied _ code _ => causeOf code (toString e)
  | .resourceBusy code _ | .otherError code _ => causeOf code (toString e)
  | _ => .other (utf8 (toString e))

def attempt {α : Type} (action : IO α) : IO (Except FileError α) := do
  try
    return .ok (← action)
  catch e =>
    return .error (cause e)

def attemptAt {α : Type} (p : Path) (action : IO α) : IO (Except FileError α) :=
  match p.fault? with
  | some e => return .error e
  | none => attempt action

def kind (p : Path) : IO EntryKind := do
  let data ← (entry p).root.metadata
  return if data.type == .dir then .directory else .file

partial def filesBelow (enter : Bytes → Bool) (p : Path) : IO (List Path) := do
  let mut found := []
  for e in ← (entry p).root.readDir do
    let below := p.join (utf8 e.fileName)
    match ← attemptAt below (entry below).root.symlinkMetadata with
    | .error _ => pure ()
    | .ok data =>
      match data.type with
      | .dir =>
        if enter (utf8 e.fileName) then
          match ← attempt (filesBelow enter below) with
          | .ok more => found := found ++ more
          | .error _ => pure ()
      | .file => found := found ++ [below]
      | _ => pure ()
  return found

def read (p : Path) : IO Bytes := do
  return (← IO.FS.readBinFile (name p)).toList

def write (p : Path) (bytes : Bytes) : IO Unit :=
  IO.FS.writeBinFile (name p) ⟨bytes.toArray⟩

def copy (source target : Path) : IO (Except FileError Unit) := do
  match ← attemptAt source (kind source) with
  | .error e => return .error e
  | .ok .directory => return .error .notRegular
  | .ok .file => attemptAt target (do write target (← read source))

instance : FileSystem IO where
  kind p := attemptAt p (kind p)
  filesBelow enter root := attemptAt root (filesBelow enter root)
  read p := attemptAt p (read p)
  write p bytes := attemptAt p (write p bytes)
  copy := copy
  rename source target := attempt (IO.FS.rename (name source) (name target))

end ExplicitNull.Machine

open ExplicitNull in
def main (args : List String) : IO UInt32 := do
  let output ← (CommandLine.run (args.map utf8) : IO CommandLine.Output)
  (← IO.getStdout).write ⟨output.stdout.toArray⟩
  (← IO.getStderr).write ⟨output.stderr.toArray⟩
  return output.code.toUInt32
