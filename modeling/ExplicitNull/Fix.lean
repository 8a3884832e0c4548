import ExplicitNull.Plan

/-!
Making types explicit. The source is read anew, and a planned parameter is changed only if it is
still a candidate with its type at the planned place. All that is ever done is to put one
piece of text before some of the tokens.
-/
namespace ExplicitNull

/-- How a type is made explicitly nullable: `?Foo` or `Foo|null`. -/
inductive Style
  | mark
  | union
  deriving DecidableEq, Repr

namespace Style

def name : Style → Bytes
  | .mark => utf8 "mark"
  | .union => utf8 "union"

def piece : Style → Bytes
  | .mark => utf8 "?"
  | .union => utf8 "|null"

end Style

namespace Fix

def isBetween (t : Token) (rest : List Token) : Bool :=
  t.isTrivia || t.isPunct "..." || Candidate.isReference t rest

/-- The last position before `i` and not before `start` that holds a token of the type, going back
over what may stand between it and the variable; `start` itself ends the search. -/
def typeEnd (body : List Token) (start : Nat) : (i : Nat) → Nat
  | 0 => 0
  | i + 1 =>
    if start < i ∧ (body[i]?.any fun t => isBetween t (body.drop (i + 1))) then typeEnd body start i
    else i

def isNullName (t : Token) : Bool :=
  t.kind == .name &&
    Bytes.eqIgnoringCase (t.text.reverse.takeWhile (· != byte '\\')).reverse (utf8 "null")

/-- A union sign or the name `null`; a type with such a token is left as it is. -/
def admitsNull (t : Token) : Bool := t.text.contains (byte '|') || isNullName t

def insertionPoint (style : Style) (ts : List Token) (c : Candidate) : Option Nat :=
  match style with
  | .mark => some c.typeIndex
  | .union =>
    let body := c.body ts
    let start := c.finding.type.start
    match Candidate.variableIndex? body with
    | none => none
    | some v =>
      let last := typeEnd body start v
      if last < start ∨ (Interval.slice ⟨start, last + 1⟩ body).any admitsNull then none
      else some (c.finding.regions.body.start + last + 1)

/-- The candidates that a plan names, with their types at the planned places. -/
def planned (plan : FilePlan) (ts : List Token) : List Candidate :=
  (candidates ts).filter fun c => plan.get? c.address == some c.finding.type.start

def insertionPoints (style : Style) (plan : FilePlan) (ts : List Token) : List Nat :=
  (planned plan ts).filterMap (insertionPoint style ts)

/-- The text of tokens that start at position `i`, with a piece before each of the given
positions. -/
def insertFrom (piece : Bytes) (points : List Nat) (i : Nat) : List Token → Bytes
  | [] => []
  | t :: rest =>
    (if i ∈ points then piece else []) ++ t.text ++ insertFrom piece points (i + 1) rest

end Fix

def fixSource (src : Bytes) (plan : FilePlan) (style : Style) : Bytes :=
  let ts := tokenize src
  Fix.insertFrom style.piece (Fix.insertionPoints style plan ts) 0 ts

end ExplicitNull
