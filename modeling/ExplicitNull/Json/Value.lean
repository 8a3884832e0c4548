import ExplicitNull.Text.Bytes

/-!
JSON values and the quoting of strings. A number keeps its digits, and an object its members
in the order in which they stand.
-/
namespace ExplicitNull

inductive Json
  | null
  | bool (b : Bool)
  | number (digits : Bytes)
  | string (text : Bytes)
  | array (items : List Json)
  | object (members : List (Bytes × Json))

namespace Json

def hexDigit (n : Nat) : UInt8 :=
  if n < 10 then byte '0' + n.toUInt8 else byte 'a' + (n - 10).toUInt8

def escape (b : UInt8) : Bytes :=
  if b = byte '\x22' then utf8 "\\\x22"
  else if b = byte '\\' then utf8 "\\\\"
  else if b = 0x08 then utf8 "\\b"
  else if b = 0x0C then utf8 "\\f"
  else if b = 0x0A then utf8 "\\n"
  else if b = 0x0D then utf8 "\\r"
  else if b = 0x09 then utf8 "\\t"
  else if b < 0x20 then utf8 "\\u00" ++ [hexDigit (b.toNat / 16), hexDigit (b.toNat % 16)]
  else [b]

def quote (text : Bytes) : Bytes := [byte '\x22'] ++ text.flatMap escape ++ [byte '\x22']

end Json

end ExplicitNull
