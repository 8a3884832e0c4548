/-!
Text is held as its bytes: sources, file names, settings and everything that is printed.
A constant is written as a string and encoded by `utf8`, a single ASCII character by `byte`.
Letter case and the punctuation class concern ASCII alone; a byte from 0x80 on belongs to
none of the ASCII classes.
-/
namespace ExplicitNull

abbrev Bytes := List UInt8

def utf8 (s : String) : Bytes := s.toList.flatMap String.utf8EncodeChar

def byte (c : Char) : UInt8 := c.val.toUInt8

namespace Ascii

def isUpper (b : UInt8) : Bool := byte 'A' ≤ b && b ≤ byte 'Z'

def isLower (b : UInt8) : Bool := byte 'a' ≤ b && b ≤ byte 'z'

def isAlpha (b : UInt8) : Bool := isUpper b || isLower b

def isDigit (b : UInt8) : Bool := byte '0' ≤ b && b ≤ byte '9'

def isAlphanum (b : UInt8) : Bool := isAlpha b || isDigit b

def isPunctuation (b : UInt8) : Bool :=
  (byte '!' ≤ b && b ≤ byte '/') || (byte ':' ≤ b && b ≤ byte '@') ||
    (byte '[' ≤ b && b ≤ byte '\x60') || (byte '\x7b' ≤ b && b ≤ byte '~')

def toLower (b : UInt8) : UInt8 := if isUpper b then b + 32 else b

end Ascii

namespace Bytes

def toLower (bs : Bytes) : Bytes := bs.map Ascii.toLower

def eqIgnoringCase (a b : Bytes) : Bool := toLower a == toLower b

def containsPart (part : Bytes) : Bytes → Bool
  | [] => part.isEmpty
  | b :: rest => part.isPrefixOf (b :: rest) || containsPart part rest

/-- The pieces between the separators, empty ones included: one more than there are separators. -/
def splitOn (sep : UInt8) : Bytes → List Bytes
  | [] => [[]]
  | b :: rest =>
    if b = sep then [] :: splitOn sep rest
    else match splitOn sep rest with
      | [] => [[b]]
      | piece :: pieces => (b :: piece) :: pieces

def joinWith (sep : Bytes) : List Bytes → Bytes
  | [] => []
  | [piece] => piece
  | piece :: pieces => piece ++ sep ++ joinWith sep pieces

def compare : Bytes → Bytes → Ordering
  | [], [] => .eq
  | [], _ :: _ => .lt
  | _ :: _, [] => .gt
  | a :: as, b :: bs => (Ord.compare a b).then (compare as bs)

def dropSuffix? (part bs : Bytes) : Option Bytes :=
  if part.isSuffixOf bs then some (bs.take (bs.length - part.length)) else none

end Bytes

def decimal (n : Nat) : Bytes :=
  if n < 10 then [byte '0' + n.toUInt8] else decimal (n / 10) ++ [byte '0' + (n % 10).toUInt8]
termination_by n

end ExplicitNull
