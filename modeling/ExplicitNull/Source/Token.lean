import ExplicitNull.Text.Bytes

/-!
The tokens of a PHP source. White space, comments and the text outside of the code are tokens
like all others, so a source is the texts of its tokens one after another.
-/
namespace ExplicitNull

inductive Kind
  | inlineHtml
  | openTag
  | closeTag
  | whitespace
  | comment
  | docComment
  /-- An identifier or a qualified name. -/
  | name
  /-- A word that introduces a function, `function` or `fn`. -/
  | keyword
  /-- A modifier of a parameter or property, such as `readonly`. -/
  | modifier
  | variableName
  /-- A number or a string of any form. -/
  | literal
  /-- The opening `#[` of a group of attributes. -/
  | attributeOpen
  | punct
  | other
  deriving DecidableEq, Repr

structure Token where
  kind : Kind
  text : Bytes
  deriving DecidableEq, Repr

namespace Token

def isTrivia (t : Token) : Bool :=
  t.kind == .whitespace || t.kind == .comment || t.kind == .docComment

def isPunct (t : Token) (s : String) : Bool := t.kind == .punct && t.text == utf8 s

def source (ts : List Token) : Bytes := ts.flatMap Token.text

end Token

end ExplicitNull
