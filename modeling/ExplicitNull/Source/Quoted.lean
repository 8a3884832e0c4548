import ExplicitNull.Text.Bytes

/-!
Where a quoted string ends. A backslash takes the next byte with it. In a string of double
quotes or backticks a brace before a dollar sign opens an interpolation, which is code: braces
nest in it, and its single- and double-quoted strings are strings of their own. The scan keeps
the strings and braces that are open, innermost first, and stops when all are closed or the
text is used up.
-/
namespace ExplicitNull.Quoted

/-- Something open: a string with its quote, or a brace of interpolated code. -/
inductive Frame
  | string (quote : UInt8)
  | brace
  deriving DecidableEq, Repr

def length : List Frame → Bytes → Nat
  | [], _ => 0
  | _ :: _, [] => 0
  | .string q :: outer, b :: rest =>
    if b = byte '\\' then
      match rest with
      | [] => 1
      | _ :: rest' => 2 + length (.string q :: outer) rest'
    else if b = q then 1 + length outer rest
    else if b = byte '\x7b' ∧ q ≠ byte '\'' ∧ rest.head? = some (byte '$') then
      1 + length (.brace :: .string q :: outer) rest
    else 1 + length (.string q :: outer) rest
  | .brace :: outer, b :: rest =>
    if b = byte '\x7b' then 1 + length (.brace :: .brace :: outer) rest
    else if b = byte '\x7d' then 1 + length outer rest
    else if b = byte '\'' ∨ b = byte '\x22' then 1 + length (.string b :: .brace :: outer) rest
    else 1 + length (.brace :: outer) rest

end ExplicitNull.Quoted
