import ExplicitNull.Glob.Pattern

/-!
A glob as the parts that it is written in, and the pattern that they come to. Most globs only ask
how a path begins or ends or what its last name is, which shows in the order of their parts; the
others are matched as expressions.
-/
namespace ExplicitNull

namespace Glob

inductive Part
  /-- A character that stands for itself. -/
  | char (c : Char)
  | star
  /-- Two stars at the start, with the slash behind them. -/
  | leadingStars
  /-- A slash and the two stars that end a branch. -/
  | trailingStars
  | other (p : Pattern)
  deriving DecidableEq, Repr

def slash : Pattern := .one (byte '/')

def leading : Pattern := .group (.either (.optional slash) (.seq .anything slash))

def middle : Pattern := .group (.either slash (.seq slash (.seq .anything slash)))

def Part.pattern : Part → Pattern
  | .char c => .text (String.utf8EncodeChar c)
  | .star => .anything
  | .leadingStars => leading
  | .trailingStars => .seq slash .anything
  | .other p => p

def Part.isChar : Part → Bool
  | .char _ => true
  | _ => false

def branch (parts : List Part) : Pattern := .concat (parts.map Part.pattern)

end Glob

structure Glob where
  parts : List Glob.Part
  deriving DecidableEq, Repr

namespace Glob

/-- The pattern of a whole glob; two stars alone match everything. -/
def pattern (g : Glob) : Pattern :=
  if g.parts = [.leadingStars] then .anything else branch g.parts

inductive Method
  /-- By comparing a path, its beginning, its end or its last name, byte by byte. -/
  | comparison
  /-- As an expression by itself, tried on the paths with one extension. -/
  | alone
  /-- As one of the expressions that are tried together. -/
  | together
  deriving DecidableEq, Repr

def isBeginning (parts : List Part) : Bool :=
  match parts.dropWhile Part.isChar with
  | [.star] => decide (1 < parts.length)
  | [.trailingStars] => true
  | _ => false

def isEnding (parts : List Part) : Bool :=
  match parts with
  | .leadingStars :: .star :: rest | .star :: rest =>
    rest.all Part.isChar && rest != [] && rest != [.char '/']
  | .leadingStars :: rest => rest.all Part.isChar && rest != []
  | rest => rest.all Part.isChar && rest != []

/-- A character or a class, but nothing that a slash could be taken for. -/
def Part.isWithinName : Part → Bool
  | .char c => c != '/'
  | .other (.oneIn set) => !set.holds (byte '/')
  | _ => false

def isLastName (parts : List Part) : Bool :=
  match parts with
  | .leadingStars :: rest => rest.all Part.isWithinName && rest != []
  | _ => false

def hasExtension (parts : List Part) : Bool :=
  let last := parts.reverse
  (last.dropWhile fun part => part.isChar && part != .char '.').head? == some (.char '.') &&
    !((last.takeWhile (· != .char '.')).contains (.char '/'))

def method (g : Glob) : Method :=
  if isBeginning g.parts || isEnding g.parts || isLastName g.parts then .comparison
  else if hasExtension g.parts then .alone
  else .together

end Glob

end ExplicitNull
