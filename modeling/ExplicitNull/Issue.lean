import ExplicitNull.Candidate
import ExplicitNull.Path

/-!
Issues: the candidates of a file as they are reported. The address and the start of the type
lead back to the parameter as long as the file has not changed; line, variable and type
are for the reader.
-/
namespace ExplicitNull

structure Issue where
  file : Path
  address : Address
  /-- The first token of the type, counted from the start of the parameter's body. -/
  typeStart : Nat
  /-- The line of that token, counted from one. -/
  line : Nat
  parameter : Bytes
  typeName : Bytes
  deriving DecidableEq, Repr

namespace Issue

/-- The lines on which tokens start, when the first starts on `line`. They are counted in 32 bits.
-/
def tokenLines (line : UInt32) : List Token → List UInt32
  | [] => []
  | t :: rest => line :: tokenLines (line + (t.text.count (byte '\n')).toUInt32) rest

def lineAt (ts : List Token) (i : Nat) : Nat := ((tokenLines 1 ts)[i]?.map UInt32.toNat).getD 0

def ofCandidate (file : Path) (ts : List Token) (c : Candidate) : Issue where
  file := file
  address := c.address
  typeStart := c.finding.type.start
  line := lineAt ts c.typeIndex
  parameter := (((c.body ts).find? (·.kind == .variableName)).map Token.text).getD []
  typeName := c.finding.typeName

end Issue

def scanSource (file : Path) (src : Bytes) : List Issue :=
  let ts := tokenize src
  (candidates ts).map (Issue.ofCandidate file ts)

end ExplicitNull
