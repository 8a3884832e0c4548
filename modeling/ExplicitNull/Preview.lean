import ExplicitNull.Text.Bytes

/-!
The preview of a change: each line whose text differs, old and new, under its number.
-/
namespace ExplicitNull.Preview

def lines (text : Bytes) : List Bytes := Bytes.splitOn (byte '\n') text

def lineNumber (n : Nat) : Bytes :=
  let digits := decimal n
  List.replicate (4 - digits.length) (byte ' ') ++ digits

def row (sign : String) (n : Nat) (line : Bytes) : Bytes :=
  utf8 sign ++ lineNumber n ++ utf8 ": " ++ line ++ utf8 "\n"

/-- The rows of two texts from line `n` on; a line that one of them lacks counts as empty. -/
def rowsFrom (n : Nat) : List Bytes → List Bytes → Bytes
  | [], [] => []
  | a :: old, [] => pair n a [] ++ rowsFrom (n + 1) old []
  | [], b :: new => pair n [] b ++ rowsFrom (n + 1) [] new
  | a :: old, b :: new => pair n a b ++ rowsFrom (n + 1) old new
where
  pair (n : Nat) (a b : Bytes) : Bytes :=
    if a = b then [] else row "-" n a ++ row "+" n b

def footer : Bytes := utf8 "---- end preview ----\n"

def render (before after : Bytes) : Bytes :=
  rowsFrom 1 (lines before) (lines after) ++ footer

end ExplicitNull.Preview
