import ExplicitNull.Text.Utf8

/-!
File paths. A path keeps its spelling, and two spellings are the same path if their components
are: repeated and trailing slashes do not count, nor does a `.` behind the first component.
Paths are ordered by their components; a root comes before a leading `.`, that before `..`, and
that before all names.
-/
namespace ExplicitNull

structure Path where
  raw : Bytes
  deriving DecidableEq, Repr

namespace Path

inductive Component
  | root
  | here
  | parent
  | name (text : Bytes)
  deriving DecidableEq, Repr

def Component.compare : Component → Component → Ordering
  | .root, .root => .eq
  | .root, _ => .lt
  | _, .root => .gt
  | .here, .here => .eq
  | .here, _ => .lt
  | _, .here => .gt
  | .parent, .parent => .eq
  | .parent, _ => .lt
  | _, .parent => .gt
  | .name a, .name b => Bytes.compare a b

/-- The component that a piece between slashes stands for behind the start of a path. -/
def inner? (piece : Bytes) : Option Component :=
  if piece = [] ∨ piece = utf8 "." then none
  else if piece = utf8 ".." then some .parent
  else some (.name piece)

def components (p : Path) : List Component :=
  let pieces := Bytes.splitOn (byte '/') p.raw
  let start :=
    if p.raw.head? = some (byte '/') then [.root]
    else if pieces.head? = some (utf8 ".") then [.here]
    else []
  start ++ pieces.filterMap inner?

def compareComponents : List Component → List Component → Ordering
  | [], [] => .eq
  | [], _ :: _ => .lt
  | _ :: _, [] => .gt
  | a :: as, b :: bs => (a.compare b).then (compareComponents as bs)

def compare (p q : Path) : Ordering := compareComponents p.components q.components

def join (p : Path) (name : Bytes) : Path :=
  ⟨p.raw ++ (if p.raw.getLast?.all (· == byte '/') then [] else [byte '/']) ++ name⟩

def fileName? (p : Path) : Option Bytes :=
  match p.components.getLast? with
  | some (.name text) => some text
  | _ => none

/-- What follows the last dot of a file name, unless that dot is its first character. -/
def extensionOf? (name : Bytes) : Option Bytes :=
  let extension := (name.reverse.takeWhile (· != byte '.')).reverse
  if extension.length + 1 < name.length then some extension else none

def extension? (p : Path) : Option Bytes := p.fileName?.bind extensionOf?

def append (p : Path) (text : Bytes) : Path := ⟨p.raw ++ text⟩

def display (p : Path) : Bytes := Utf8.repair p.raw

end Path

end ExplicitNull
