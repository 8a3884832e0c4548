import ExplicitNull.Path

/-!
What a run needs from a file system, and why an operation on it fails. The same program runs on
the files of the machine and on a tree of files that is a value.
-/
namespace ExplicitNull

inductive FileError
  | notFound
  | notADirectory
  | isADirectory
  | nameTooLong
  | tooManyLinks
  | alreadyExists
  | busy
  | invalidArgument
  | notEmpty
  /-- A path has a zero byte in it. -/
  | zeroByte
  /-- The bytes of a file are no text. -/
  | notText
  /-- What is to be copied is not a file. -/
  | notRegular
  | other (message : Bytes)
  deriving DecidableEq, Repr

def FileError.message : FileError → Bytes
  | .notFound => utf8 "No such file or directory (os error 2)"
  | .notADirectory => utf8 "Not a directory (os error 20)"
  | .isADirectory => utf8 "Is a directory (os error 21)"
  | .nameTooLong => utf8 "File name too long (os error 36)"
  | .tooManyLinks => utf8 "Too many levels of symbolic links (os error 40)"
  | .alreadyExists => utf8 "File exists (os error 17)"
  | .busy => utf8 "Device or resource busy (os error 16)"
  | .invalidArgument => utf8 "Invalid argument (os error 22)"
  | .notEmpty => utf8 "Directory not empty (os error 39)"
  | .zeroByte => utf8 "file name contained an unexpected NUL byte"
  | .notText => utf8 "stream did not contain valid UTF-8"
  | .notRegular =>
    utf8 "the source path is neither a regular file nor a symlink to a regular file"
  | .other message => message

/-- A path of so many bytes is too long, whatever it leads to. -/
def Path.tooLong : Nat := 4096

/-- Why a path cannot be used, if that shows in the path by itself. -/
def Path.fault? (p : Path) : Option FileError :=
  if p.raw.contains 0 then some .zeroByte
  else if p.raw = [] then some .notFound
  else if tooLong ≤ p.raw.length then some .nameTooLong
  else none

inductive EntryKind
  | file
  | directory
  deriving DecidableEq, Repr

/-- The operations of a run. All of them follow symbolic links on their way, and all but `rename`
at the end of a path. -/
class FileSystem (m : Type → Type) where
  kind : Path → m (Except FileError EntryKind)
  /-- The files below a directory, in any order. Links below it are passed over, and so are paths
  that become too long and the directories whose names `enter` refuses. -/
  filesBelow : (enter : Bytes → Bool) → Path → m (Except FileError (List Path))
  read : Path → m (Except FileError Bytes)
  /-- Writes a file, which need not exist before. -/
  write : Path → Bytes → m (Except FileError Unit)
  /-- Copies the bytes of a file to a second path. -/
  copy : Path → Path → m (Except FileError Unit)
  /-- Moves a file, over another one if need be. -/
  rename : Path → Path → m (Except FileError Unit)

def readText {m : Type → Type} [Monad m] [FileSystem m] (p : Path) :
    m (Except FileError Bytes) := do
  match ← FileSystem.read p with
  | .error e => return .error e
  | .ok bytes => return if Utf8.isValid bytes then .ok bytes else .error .notText

end ExplicitNull
