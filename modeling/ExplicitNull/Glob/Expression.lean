import ExplicitNull.Glob.Basic

/-!
Globs as expressions. Groups, classes, repetitions, choices of two or more and sequences of two or
more are nested in each other, and an expression nested too deep is refused. A sequence within a
sequence counts as one with it, and so does a choice within a choice; a group keeps them apart.
-/
namespace ExplicitNull.Glob

def nestingLimit : Nat := 250

/-- How deep a pattern is nested, by the place where it stands. -/
structure Depth where
  alone : Nat
  inSequence : Nat
  inChoice : Nat
  deriving DecidableEq, Repr

def Depth.everywhere (n : Nat) : Depth := ⟨n, n, n⟩

namespace Pattern

def depth : Pattern → Depth
  | .empty | .one _ | .any => .everywhere 0
  | .oneIn set => .everywhere (if set.ranges.length ≤ 1 then 1 else 2)
  | .anything => .everywhere 1
  | .optional p | .group p => .everywhere (p.depth.alone + 1)
  | .seq p q =>
    let n := max p.depth.inSequence q.depth.inSequence
    ⟨n + 1, n, n + 1⟩
  | .either p q =>
    let n := max p.depth.inChoice q.depth.inChoice
    ⟨n + 1, n + 1, n⟩

def special : Bytes := utf8 "\\.+*?()|[]\x7b\x7d^$#&-~"

def hexDigit (n : UInt8) : UInt8 := if n < 10 then byte '0' + n else byte 'a' + (n - 10)

def writeByte (b : UInt8) : Bytes :=
  if 0x80 ≤ b then utf8 "\\x" ++ [hexDigit (b / 16), hexDigit (b % 16)]
  else if special.contains b then [byte '\\', b]
  else [b]

def writeRange (range : UInt8 × UInt8) : Bytes :=
  if range.1 = range.2 then writeByte range.1
  else writeByte range.1 ++ utf8 "-" ++ writeByte range.2

def write : Pattern → Bytes
  | .empty => []
  | .one b => writeByte b
  | .any => utf8 "."
  | .oneIn set =>
    utf8 (if set.negated then "[^" else "[") ++ set.ranges.flatMap writeRange ++ utf8 "]"
  | .anything => utf8 ".*"
  | .optional p => p.write ++ utf8 "?"
  | .seq p q => p.write ++ q.write
  | .either p q => p.write ++ utf8 "|" ++ q.write
  | .group p => utf8 "(?:" ++ p.write ++ utf8 ")"

end Pattern

def expression (g : Glob) : Bytes := utf8 "(?-u)^" ++ g.pattern.write ++ utf8 "$"

/-- The expression as a whole is a sequence, of its two ends if of nothing else. -/
def isTooDeep (g : Glob) : Bool := nestingLimit < g.pattern.depth.inSequence + 1

inductive NestingError
  /-- The expression of a glob that is matched by itself. -/
  | alone (expression : Bytes)
  /-- One of the expressions that are tried together, counted from zero. -/
  | together (position : Nat)
  deriving DecidableEq, Repr

/-- Refuses globs whose expressions are nested too deep, those matched by themselves first. -/
def checkNesting (globs : List Glob) : Except NestingError Unit :=
  match (globs.filter (·.method = .alone)).find? isTooDeep with
  | some g => .error (.alone g.expression)
  | none =>
    match (globs.filter (·.method = .together)).findIdx? isTooDeep with
    | some i => .error (.together i)
    | none => .ok ()

end ExplicitNull.Glob
