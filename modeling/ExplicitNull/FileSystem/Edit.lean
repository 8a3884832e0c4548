import ExplicitNull.FileSystem.Tree
import ExplicitNull.Sorting

/-!
Building trees by hand: entries are put at paths, with the directories that they need, and taken
away with all that is below them. What such a step has done before it fails stays done. The listing
shows every entry in the order of its path.
-/
namespace ExplicitNull

namespace Path

/-- The stretches from the start of a path to the end of each of its names, shortest first. A `.`
counts as a name at the start only. -/
def stretches (before : Bytes) : (pieces : List Bytes) → List Path
  | [] => []
  | piece :: rest =>
    let longer := stretches (before ++ piece ++ [byte '/']) rest
    if piece = [] ∨ (piece = utf8 "." ∧ before ≠ []) then longer
    else ⟨before ++ piece⟩ :: longer

def ancestors (p : Path) : List Path :=
  ((stretches [] (Bytes.splitOn (byte '/') p.raw)).dropLast).reverse

end Path

namespace Tree

def makeDirectory (t : Tree) (p : Path) : Except FileError Tree :=
  match t.place .alreadyExists p with
  | .error e => .error e
  | .ok (.found _ _) => .error .alreadyExists
  | .ok (.vacant loc) => .ok (t.set loc .directory)

def isDirectory (t : Tree) (p : Path) : Bool :=
  match t.kind p with
  | .ok .directory => true
  | _ => false

def makeDirectories (t : Tree) : List Path → Except FileError Unit × Tree
  | [] => (.ok (), t)
  | p :: above =>
    match t.makeDirectory p with
    | .ok t' => (.ok (), t')
    | .error .notFound =>
      match makeDirectories t above with
      | (.error e, t') => (.error e, t')
      | (.ok (), t') =>
        match t'.makeDirectory p with
        | .ok t'' => (.ok (), t'')
        | .error e => (if t'.isDirectory p then .ok () else .error e, t')
    | .error e => (if t.isDirectory p then .ok () else .error e, t)

def makeLink (t : Tree) (p target : Path) : Except FileError Tree :=
  match target.fault? with
  | some e => .error e
  | none =>
    match t.place .alreadyExists p with
    | .error e => .error e
    | .ok (.found _ _) => .error .alreadyExists
    | .ok (.vacant loc) =>
      if p.endsInSlash then .error .notFound else .ok (t.set loc (.link target))

/-- Puts an entry at a path, behind the directories above it. A file is written through links; a
link needs a free place. -/
def create (p : Path) (e : Entry) : StateM Tree (Except FileError Unit) := fun t =>
  match t.makeDirectories p.ancestors with
  | (.error e, t') => (.error e, t')
  | (.ok (), t') =>
    match e with
    | .directory => t'.makeDirectories (if p.raw = [] then [] else p :: p.ancestors)
    | .file bytes => change (·.write p bytes) t'
    | .link target => change (·.makeLink p target) t'

def clear (t : Tree) (here : Location) : Tree :=
  ⟨t.entries.filter fun entry => entry.1 = here || (below? here entry.1).isNone⟩

/-- The cause for which a directory cannot be taken away by a path without a last name. -/
def namelessDirectory (p : Path) : FileError :=
  match p.names.getLast? with
  | none => .busy
  | some name => if name = utf8 "." then .invalidArgument else .notEmpty

def removeDirectory (t : Tree) (p : Path) : Except FileError Tree :=
  match t.place (namelessDirectory p) p with
  | .error e => .error e
  | .ok (.vacant _) => .error .notFound
  | .ok (.found loc .directory) => .ok (t.erase loc)
  | .ok (.found _ _) => .error .notADirectory

/-- Takes away what is at a path, a link without its target. The entries of a directory go first;
should these hold the path to it, it stays. -/
def remove (p : Path) : StateM Tree (Except FileError Unit) := fun t =>
  match t.resolve .entry p with
  | .error e => (.error e, t)
  | .ok (.vacant _) => (.error .notFound, t)
  | .ok (.found loc .directory) =>
    match (t.clear loc).removeDirectory p with
    | .ok t' => (.ok (), t')
    | .error .notFound => (.ok (), t.clear loc)
    | .error e => (.error e, t.clear loc)
  | .ok (.found loc _) => (.ok (), t.erase loc)

def listing (t : Tree) : List (Bytes × Entry) :=
  Sorting.sort (fun a b => (Bytes.compare a.1 b.1).isLE)
    (t.entries.map fun (loc, e) => (Bytes.joinWith [byte '/'] loc, e))

end Tree

end ExplicitNull
