import ExplicitNull.Assoc
import ExplicitNull.Issue

/-!
Plans: which parameters of which files are to be fixed, and where their types start. A plan
gathers issues by the identity of their paths. Of two issues for one parameter the later counts.
-/
namespace ExplicitNull

/-- The planned parameters of one file in ascending order, each with the start of its type. -/
abbrev FilePlan := List (Address × Nat)

def FilePlan.get? (plan : FilePlan) (a : Address) : Option Nat := Assoc.get? Address.compare a plan

def FilePlan.insert (plan : FilePlan) (a : Address) (typeStart : Nat) : FilePlan :=
  Assoc.alter Address.compare a (fun _ => typeStart) plan

def FilePlan.ofList (targets : List (Address × Nat)) : FilePlan :=
  targets.foldl (fun plan (a, t) => FilePlan.insert plan a t) []

/-- The planned files in ascending order. -/
structure Plan where
  files : List (Path × FilePlan)
  deriving DecidableEq, Repr

namespace Plan

def empty : Plan := ⟨[]⟩

def insert (plan : Plan) (i : Issue) : Plan :=
  ⟨Assoc.alter Path.compare i.file
    (fun old => FilePlan.insert (old.getD []) i.address i.typeStart) plan.files⟩

def ofIssues (issues : List Issue) : Plan := issues.foldl insert empty

def isEmpty (plan : Plan) : Bool := plan.files.isEmpty

def fileCount (plan : Plan) : Nat := plan.files.length

/-- The plan of the file that a path names, whatever its spelling. -/
def file? (plan : Plan) (p : Path) : Option FilePlan := Assoc.get? Path.compare p plan.files

end Plan

end ExplicitNull
