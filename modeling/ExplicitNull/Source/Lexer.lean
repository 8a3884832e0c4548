import ExplicitNull.Source.Heredoc
import ExplicitNull.Source.Quoted

/-!
From a source to its tokens. Each step looks at the first byte of what is left and says which
kind of token begins there and how many further bytes belong to it, so that no token is empty
and their texts make up the source. Two things are carried along: whether the text is code, and
whether the last token other than white space and comments asks for a plain name. Nothing is an
error; what is not closed runs to the end of the source.
-/
namespace ExplicitNull.Lexer

/-- What the reading of the next token depends on. -/
structure State where
  inCode : Bool
  /-- A word here is a plain name, whatever it spells. -/
  nameNext : Bool
  deriving DecidableEq, Repr

/-- The kind of a token and the number of its bytes behind the first. -/
structure Lexeme where
  kind : Kind
  extra : Nat
  deriving DecidableEq, Repr

def htmlLength : Bytes → Nat
  | [] => 0
  | b :: rest =>
    if b = byte '<' ∧ rest.head? = some (byte '?') then 0 else 1 + htmlLength rest

def tagLength (bs : Bytes) : Nat :=
  if Bytes.eqIgnoringCase (bs.take 3) (utf8 "php") ∧ (bs.drop 3).head?.all Word.isSpace then 3
  else if bs.head? = some (byte '=') then 1
  else 0

def lineLength : Bytes → Nat
  | [] => 0
  | b :: rest =>
    if b = byte '\n' ∨ b = byte '\r' then 0
    else if b = byte '?' ∧ rest.head? = some (byte '>') then 0
    else 1 + lineLength rest

def blockLength : Bytes → Nat
  | [] => 0
  | b :: rest =>
    if b = byte '*' ∧ rest.head? = some (byte '/') then 2 else 1 + blockLength rest

/-- How many bytes go on a number whose last byte so far is `last`. Letters, digits, underscores
and dots do, and outside of a hexadecimal number the sign of an exponent. -/
def numberLength (hex : Bool) (last : UInt8) : Bytes → Nat
  | [] => 0
  | b :: rest =>
    if Ascii.isAlphanum b ∨ b = byte '_' ∨ b = byte '.' then 1 + numberLength hex b rest
    else if hex = false ∧ (b = byte '+' ∨ b = byte '-') ∧ (last = byte 'e' ∨ last = byte 'E') ∧
        rest.head?.any Ascii.isDigit then
      1 + numberLength hex b rest
    else 0

/-- The operators of more than one byte, longer ones first. -/
def operators : List Bytes :=
  ["===", "!==", "<=>", "**=", "...", "<<=", ">>=", "??=", "?->",
    "==", "!=", "<>", "<=", ">=", "&&", "||", "??", "->", "=>", "::", "++", "--", "+=", "-=",
    "*=", "/=", ".=", "%=", "&=", "|=", "^=", "<<", ">>", "**"].map utf8

def operatorLength (bs : Bytes) : Nat :=
  match operators.find? (·.isPrefixOf bs) with
  | some op => op.length - 1
  | none => 0

def number (b : UInt8) (rest : Bytes) : Lexeme :=
  let hex := b == byte '0' && (rest.head? == some (byte 'x') || rest.head? == some (byte 'X'))
  ⟨.literal, numberLength hex b rest⟩

def blockComment (rest : Bytes) : Lexeme :=
  let body := rest.drop 1
  let isDoc := body.head? == some (byte '*') && (body.drop 1).head?.any Word.isSpace
  ⟨if isDoc then .docComment else .comment, 1 + blockLength body⟩

def word (declared : Bool) (b : UInt8) (rest : Bytes) : Lexeme :=
  let n := Word.nameLength rest
  ⟨Word.classify declared (b :: rest.take n), n⟩

def operator (b : UInt8) (rest : Bytes) : Lexeme := ⟨.punct, operatorLength (b :: rest)⟩

def codeLexeme (nameNext : Bool) (b : UInt8) (rest : Bytes) : Lexeme :=
  let next := rest.head?
  if Word.isSpace b then ⟨.whitespace, (rest.takeWhile Word.isSpace).length⟩
  else if b = byte '?' ∧ next = some (byte '>') then ⟨.closeTag, 1⟩
  else if b = byte '#' ∧ next = some (byte '[') then ⟨.attributeOpen, 1⟩
  else if b = byte '#' ∨ (b = byte '/' ∧ next = some (byte '/')) then
    ⟨.comment, lineLength rest⟩
  else if b = byte '/' ∧ next = some (byte '*') then blockComment rest
  else if b = byte '$' ∧ next.any Word.startsIdentifier then
    ⟨.variableName, (rest.takeWhile Word.continuesIdentifier).length⟩
  else if Word.startsIdentifier b ∨ (b = byte '\\' ∧ next.any Word.startsIdentifier) then
    word nameNext b rest
  else if Ascii.isDigit b ∨ (b = byte '.' ∧ next.any Ascii.isDigit) then number b rest
  else if b = byte '\'' ∨ b = byte '\x22' ∨ b = byte '\x60' then
    ⟨.literal, Quoted.length [.string b] rest⟩
  else if b = byte '<' ∧ (utf8 "<<").isPrefixOf rest then
    match Heredoc.length? (rest.drop 2) with
    | some n => ⟨.literal, 2 + n⟩
    | none => operator b rest
  else if Ascii.isPunctuation b then operator b rest
  else ⟨.other, 0⟩

def htmlLexeme (b : UInt8) (rest : Bytes) : Lexeme :=
  if b = byte '<' ∧ rest.head? = some (byte '?') then ⟨.openTag, 1 + tagLength (rest.drop 1)⟩
  else ⟨.inlineHtml, htmlLength rest⟩

def lexeme (s : State) (b : UInt8) (rest : Bytes) : Lexeme :=
  if s.inCode then codeLexeme s.nameNext b rest else htmlLexeme b rest

def State.after (s : State) (t : Token) : State where
  inCode := t.kind == .openTag || (s.inCode && t.kind != .closeTag)
  nameNext := if t.isTrivia then s.nameNext else Word.namesNext t.text

def tokensFrom (s : State) : Bytes → List Token
  | [] => []
  | b :: rest =>
    let l := lexeme s b rest
    let t : Token := ⟨l.kind, b :: rest.take l.extra⟩
    t :: tokensFrom (s.after t) (rest.drop l.extra)
termination_by bs => bs.length

end ExplicitNull.Lexer

namespace ExplicitNull

def tokenize (src : Bytes) : List Token := Lexer.tokensFrom ⟨false, false⟩ src

end ExplicitNull
