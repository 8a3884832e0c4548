import ExplicitNull.Source.Word

/-!
Heredoc and nowdoc strings, from behind their `<<<`. The opener is a label, bare or in quotes of
either kind, and a line end; the string ends behind the first label that stands first on a
line, indentation aside, and is not the start of a longer word. Lines are counted by line feeds.
-/
namespace ExplicitNull.Heredoc

/-- An opener: its label and the number of bytes from `<<<` to the end of its line. -/
structure Opener where
  label : Bytes
  width : Nat
  deriving DecidableEq, Repr

def isIndent (b : UInt8) : Bool := b == byte ' ' || b == byte '\t'

def lineEnd? : Bytes → Option Nat
  | b :: rest =>
    if b = byte '\n' then some 1
    else if b = byte '\r' then
      if rest.head? = some (byte '\n') then some 2 else some 1
    else none
  | [] => none

def quote? : Bytes → Option UInt8
  | b :: _ => if b = byte '\'' ∨ b = byte '\x22' then some b else none
  | [] => none

def opener? (bs : Bytes) : Option Opener :=
  let indent := (bs.takeWhile isIndent).length
  let quoted := bs.drop indent
  let quote := quote? quoted
  let quoteWidth := if quote.isSome then 1 else 0
  let labelled := quoted.drop quoteWidth
  let label := labelled.takeWhile Word.continuesIdentifier
  let closed := labelled.drop label.length
  if labelled.head?.any Word.startsIdentifier && (quote.isNone || closed.head? == quote) then
    (lineEnd? (closed.drop quoteWidth)).map fun w =>
      ⟨label, indent + quoteWidth + label.length + quoteWidth + w⟩
  else none

/-- At the start of a line: the width of its indentation and the label, if the label closes here.
-/
def closing? (label line : Bytes) : Option Nat :=
  let indent := (line.takeWhile isIndent).length
  let text := line.drop indent
  if label.isPrefixOf text && !(text.drop label.length).head?.any Word.continuesIdentifier then
    some (indent + label.length)
  else none

/-- The number of bytes up to the closing label and with it, or all if there is none. -/
def bodyLength (label : Bytes) : (atLineStart : Bool) → Bytes → Nat
  | _, [] => 0
  | true, b :: rest =>
    match closing? label (b :: rest) with
    | some n => n
    | none => 1 + bodyLength label (b == byte '\n') rest
  | false, b :: rest => 1 + bodyLength label (b == byte '\n') rest

def length? (bs : Bytes) : Option Nat :=
  (opener? bs).map fun o => o.width + bodyLength o.label true (bs.drop o.width)

end ExplicitNull.Heredoc
