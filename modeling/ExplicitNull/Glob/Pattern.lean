import ExplicitNull.Text.Bytes

/-!
What a glob stands for: a set of texts, built from single bytes. A text is matched by marks. There
is one place before each of its bytes and one behind the last, and a pattern takes the marked
places on to those at which its texts can end. The first place is marked to begin with, and the
text is in the set if the mark reaches the last.
-/
namespace ExplicitNull.Glob

/-- A set of bytes: those in one of the ranges or, negated, all others. -/
structure ByteSet where
  negated : Bool
  ranges : List (UInt8 × UInt8)
  deriving DecidableEq, Repr

def ByteSet.holds (s : ByteSet) (b : UInt8) : Bool :=
  (s.ranges.any fun (low, high) => low ≤ b && b ≤ high) != s.negated

inductive Pattern
  /-- The empty text. -/
  | empty
  | one (b : UInt8)
  /-- Any single byte. -/
  | any
  | oneIn (set : ByteSet)
  /-- Every text. -/
  | anything
  | optional (p : Pattern)
  | seq (first second : Pattern)
  | either (left right : Pattern)
  /-- A pattern in brackets, which stands for the same texts. -/
  | group (p : Pattern)
  deriving DecidableEq, Repr

namespace Pattern

/-- A sequence in which the empty text does not show. -/
def append : Pattern → Pattern → Pattern
  | .empty, q => q
  | p, .empty => p
  | p, q => .seq p q

def concat (ps : List Pattern) : Pattern := ps.foldr append .empty

def text (bs : Bytes) : Pattern := concat (bs.map .one)

def choice : List Pattern → Pattern
  | [] => .empty
  | [p] => p
  | p :: ps => .either p (choice ps)

def overByte (holds : UInt8 → Bool) (bs : Bytes) (marks : List Bool) : List Bool :=
  false :: List.zipWith (fun b mark => mark && holds b) bs marks

def onward (seen : Bool) : List Bool → List Bool
  | [] => []
  | mark :: marks => (seen || mark) :: onward (seen || mark) marks

/-- The places of a text at which a part that is in the pattern can end, if it begins at a marked
one. -/
def advance (bs : Bytes) : Pattern → List Bool → List Bool
  | .empty, marks => marks
  | .one b, marks => overByte (· == b) bs marks
  | .any, marks => overByte (fun _ => true) bs marks
  | .oneIn set, marks => overByte set.holds bs marks
  | .anything, marks => onward false marks
  | .optional p, marks => List.zipWith or marks (advance bs p marks)
  | .seq p q, marks => advance bs q (advance bs p marks)
  | .either p q, marks => List.zipWith or (advance bs p marks) (advance bs q marks)
  | .group p, marks => advance bs p marks

def accepts (p : Pattern) (bs : Bytes) : Bool :=
  (advance bs p (true :: bs.map fun _ => false)).getLast?.any id

end Pattern

end ExplicitNull.Glob
