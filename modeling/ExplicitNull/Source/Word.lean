import ExplicitNull.Source.Token

/-!
Identifier bytes, names and the words that matter to the reader of parameter lists. Every byte
from 0x80 on may stand in an identifier.
-/
namespace ExplicitNull.Word

def startsIdentifier (b : UInt8) : Bool := Ascii.isAlpha b || b == byte '_' || 0x80 ≤ b

def continuesIdentifier (b : UInt8) : Bool := Ascii.isAlphanum b || b == byte '_' || 0x80 ≤ b

def isSpace (b : UInt8) : Bool := (0x09 ≤ b && b ≤ 0x0D) || b == byte ' '

/-- How many bytes go on a name: identifier bytes, and each backslash that starts a further
segment. -/
def nameLength : Bytes → Nat
  | [] => 0
  | b :: rest =>
    if continuesIdentifier b then 1 + nameLength rest
    else if b = byte '\\' ∧ rest.head?.any startsIdentifier then 1 + nameLength rest
    else 0

def introducers : List Bytes := ["function", "fn"].map utf8

def modifiers : List Bytes :=
  ["public", "protected", "private", "readonly", "var", "static", "final"].map utf8

def isIntroducer (text : Bytes) : Bool := introducers.any (Bytes.eqIgnoringCase text)

def isModifier (text : Bytes) : Bool := modifiers.any (Bytes.eqIgnoringCase text)

/-- Whether a word after this text is a plain name, as a member or a declared function has. -/
def namesNext (text : Bytes) : Bool :=
  ["->", "?->", "::"].any (utf8 · == text) || isIntroducer text

/-- The kind of a word; `declared` says that a plain name is expected in its place. -/
def classify (declared : Bool) (text : Bytes) : Kind :=
  if declared || text.contains (byte '\\') then .name
  else if isIntroducer text then .keyword
  else if isModifier text then .modifier
  else .name

end ExplicitNull.Word
