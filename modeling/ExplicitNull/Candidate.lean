import ExplicitNull.Source.Lexer
import ExplicitNull.Source.Signature
import ExplicitNull.Text.Blank

/-!
Parameters with a type and the default `null` whose type does not say so. The type is looked for
between the modifiers and the variable; a parameter that carries an attribute is never a
candidate, nor one whose type has a nullable mark, is a union or an intersection, or admits
null by itself.
-/
namespace ExplicitNull

structure Address where
  functionIndex : Nat
  paramIndex : Nat
  deriving DecidableEq, Repr

def Address.compare (a b : Address) : Ordering :=
  (Ord.compare a.functionIndex b.functionIndex).then (Ord.compare a.paramIndex b.paramIndex)

/-- What the inspection of a parameter found. -/
structure Finding where
  regions : Regions
  /-- The tokens of the type, counted from the start of the body. -/
  type : Interval
  typeName : Bytes
  deriving DecidableEq, Repr

structure Candidate where
  address : Address
  finding : Finding
  deriving DecidableEq, Repr

namespace Candidate

def isPlainWord : Bytes → Bool
  | [] => false
  | b :: rest =>
    let first := Ascii.isAlpha b || b == byte '_' || b == byte '\\'
    first && rest.all fun c => Ascii.isAlphanum c || c == byte '_' || c == byte '\\'

def startsType (t : Token) : Bool :=
  !t.isTrivia && t.kind != .modifier &&
    (t.kind == .name || t.text == utf8 "?" || isPlainWord t.text)

/-- A `&` before the variable or its `...`, which is no part of the type. -/
def isReference (t : Token) (rest : List Token) : Bool :=
  t.isPunct "&" &&
    (rest.find? (!·.isTrivia)).any fun u => u.kind == .variableName || u.isPunct "..."

/-- The number of tokens of a type: up to the variable, a marker of it or a modifier. -/
def typeLength : List Token → Nat
  | [] => 0
  | t :: rest =>
    if t.kind = .variableName ∨ isReference t rest ∨ t.isPunct "..." ∨ t.kind = .modifier then 0
    else 1 + typeLength rest

def variableIndex? (body : List Token) : Option Nat := body.findIdx? (·.kind == .variableName)

def locateType (body : List Token) : Option Interval :=
  match variableIndex? body with
  | none => none
  | some v =>
    ((body.take v).findIdx? startsType).map fun start =>
      ⟨start, start + typeLength (body.drop start)⟩

def isNullWord (text : Bytes) : Bool :=
  let bare := if text.head? = some (byte '\\') then text.drop 1 else text
  Bytes.eqIgnoringCase bare (utf8 "null")

def hasNullDefault (body : List Token) : Bool :=
  let afterVariable := (body.dropWhile (·.kind != .variableName)).drop 1
  let afterEquals := (afterVariable.dropWhile (!·.isPunct "=")).drop 1
  (afterEquals.find? (!·.isTrivia)).any fun t => isNullWord t.text

def isFixable (typeName : Bytes) : Bool :=
  !(typeName.isEmpty || typeName.head? == some (byte '?') ||
    typeName.contains (byte '|') || typeName.contains (byte '&') ||
    Bytes.eqIgnoringCase typeName (utf8 "mixed") || isNullWord typeName)

def typeText (body : List Token) (type : Interval) : Bytes :=
  Blank.trim (Token.source (type.slice body))

def inspect (ts : List Token) (param : Interval) : Option Finding :=
  let regions := Signature.splitLeading ts param
  let body := regions.body.slice ts
  if regions.hasAttribute || !hasNullDefault body then none
  else match locateType body with
    | none => none
    | some type =>
      let typeName := typeText body type
      if isFixable typeName then some ⟨regions, type, typeName⟩ else none

def ofList (ts : List Token) (l : ParamList) : List Candidate :=
  (l.params.mapIdx fun k param =>
    (inspect ts param).map fun f => ⟨⟨l.functionIndex, k⟩, f⟩).filterMap id

def body (c : Candidate) (ts : List Token) : List Token := c.finding.regions.body.slice ts

def typeIndex (c : Candidate) : Nat := c.finding.regions.body.start + c.finding.type.start

end Candidate

def candidates (ts : List Token) : List Candidate :=
  (parameterLists ts).flatMap (Candidate.ofList ts)

end ExplicitNull
