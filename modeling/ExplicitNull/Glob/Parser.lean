import ExplicitNull.Glob.Basic

/-!
Reading globs. `?` is any byte and `*` any bytes, slashes included; `[...]` is a set of bytes, a
backslash takes the next character as it is, and `{a,b}` offers branches, of which empty ones do
not count. Two stars that fill a path segment stand for any number of segments: at the start of
a branch, at its end, or between slashes. The reader goes over the characters once, with the
parts of the branch under way and the groups around it, innermost first.
-/
namespace ExplicitNull.Glob

inductive ParseError
  | danglingEscape
  | invalidRange (first last : Char)
  | unclosedClass
  | unopenedGroup
  | unclosedGroup
  deriving DecidableEq, Repr

def ParseError.text : ParseError → Bytes
  | .danglingEscape => utf8 "dangling '\\'"
  | .invalidRange a b =>
    utf8 "invalid range; '" ++ String.utf8EncodeChar a ++ utf8 "' > '" ++
      String.utf8EncodeChar b ++ utf8 "'"
  | .unclosedClass => utf8 "unclosed character class; missing ']'"
  | .unopenedGroup =>
    utf8 "unopened alternate group; missing '\x7b' (maybe escape '\x7d' with '[\x7d]'?)"
  | .unclosedGroup =>
    utf8 "unclosed alternate group; missing '\x7d' (maybe escape '\x7b' with '[\x7b]'?)"

/-- An open group: the parts before it and its finished branches, both last first. -/
structure Group where
  before : List Part
  branches : List Pattern
  deriving DecidableEq, Repr

def Group.close (g : Group) (parts : List Part) : List Part :=
  match (branch parts.reverse :: g.branches).reverse.filter (· ≠ .empty) with
  | [] => .other .empty :: g.before
  | branches => .other (.group (.choice branches)) :: g.before

/-- A class under way: its ranges, last first, and whether a `-` waits for the end of one. -/
structure ClassState where
  negated : Bool
  ranges : List (Char × Char)
  pending : Bool
  deriving DecidableEq, Repr

/-- The bytes of a range of characters. A character of more than one byte counts as each of its
bytes, and the range runs from the last byte of its start to the first of its end. -/
def byteRanges (r : Char × Char) : List (UInt8 × UInt8) :=
  let first := String.utf8EncodeChar r.1
  let last := String.utf8EncodeChar r.2
  let single (bs : Bytes) : List (UInt8 × UInt8) := bs.map fun b => (b, b)
  if r.1 = r.2 then single first
  else match first.getLast?, last.head? with
    | some low, some high => single first.dropLast ++ [(low, high)] ++ single (last.drop 1)
    | _, _ => []

def ClassState.set (c : ClassState) : ByteSet :=
  let ranges := if c.pending then ('-', '-') :: c.ranges else c.ranges
  ⟨c.negated, ranges.reverse.flatMap byteRanges⟩

def ClassState.add (c : ClassState) (ch : Char) : Except ParseError ClassState :=
  if c.pending then
    match c.ranges with
    | (first, _) :: ranges =>
      if ch < first then .error (.invalidRange first ch)
      else .ok ⟨c.negated, (first, ch) :: ranges, false⟩
    | [] => .ok ⟨c.negated, [(ch, ch)], false⟩
  else if ch = '-' ∧ c.ranges ≠ [] then .ok { c with pending := true }
  else .ok { c with ranges := (ch, ch) :: c.ranges }

inductive StarRole
  | plain
  | leading
  | trailing
  | between
  deriving DecidableEq, Repr

def starRole (atStart inGroup : Bool) (previous next : Option Char) : StarRole :=
  if atStart then if next = none ∨ next = some '/' then .leading else .plain
  else if previous ≠ some '/' ∧
      ¬ (inGroup = true ∧ (previous = some ',' ∨ previous = some '\x7b')) then .plain
  else match next with
    | none => .trailing
    | some c =>
      if c = '/' then .between
      else if inGroup = true ∧ (c = ',' ∨ c = '\x7d') then .trailing
      else .plain

/-- Puts two stars behind the parts of a branch. At its end and between slashes they replace the
part before them, unless that is itself such a pair. -/
def addStars (role : StarRole) (parts : List Part) : List Part :=
  match role with
  | .plain => .star :: .star :: parts
  | .leading => .leadingStars :: parts
  | .trailing | .between =>
    match parts with
    | .leadingStars :: _ | .trailingStars :: _ => parts
    | _ => (if role = .trailing then .trailingStars else .other middle) :: parts.drop 1

/-- Where the reader is. Behind stars it remembers the character before them. -/
inductive Mode
  | text
  | star (before : Option Char)
  | stars (before : Option Char)
  | escaped
  /-- Behind the bracket that opens a class, where a negation may stand. -/
  | classStart
  | inClass (c : ClassState)
  deriving DecidableEq, Repr

structure ParseState where
  mode : Mode
  previous : Option Char
  /-- The parts of the branch under way, last first. -/
  parts : List Part
  /-- The open groups, innermost first. -/
  groups : List Group
  deriving DecidableEq, Repr

namespace ParseState

def start : ParseState := ⟨.text, none, [], []⟩

def push (s : ParseState) (part : Part) : ParseState := { s with parts := part :: s.parts }

def role (s : ParseState) (before next : Option Char) : StarRole :=
  starRole s.parts.isEmpty (!s.groups.isEmpty) before next

def withStars (s : ParseState) (r : StarRole) : ParseState :=
  { s with parts := addStars r s.parts }

def stepText (s : ParseState) (c : Char) : Except ParseError ParseState :=
  let s' : ParseState := { s with mode := .text, previous := some c }
  if c = '?' then .ok (s'.push (.other .any))
  else if c = '*' then .ok { s' with mode := .star s.previous }
  else if c = '[' then .ok { s' with mode := .classStart }
  else if c = '\\' then .ok { s' with mode := .escaped }
  else if c = '\x7b' then .ok { s' with parts := [], groups := ⟨s.parts, []⟩ :: s.groups }
  else if c = '\x7d' then
    match s.groups with
    | [] => .error .unopenedGroup
    | g :: outer => .ok { s' with parts := g.close s.parts, groups := outer }
  else if c = ',' then
    match s.groups with
    | [] => .ok (s'.push (.char ','))
    | g :: outer =>
      .ok { s' with parts := [], groups := ⟨g.before, branch s.parts.reverse :: g.branches⟩ :: outer }
  else .ok (s'.push (.char c))

def step (s : ParseState) (c : Char) : Except ParseError ParseState :=
  let s' : ParseState := { s with mode := .text, previous := some c }
  match s.mode with
  | .text => s.stepText c
  | .star before =>
    if c = '*' then .ok { s' with mode := .stars before }
    else (s.push .star).stepText c
  | .stars before =>
    let r := s.role before (some c)
    if c = '/' ∧ (r = .leading ∨ r = .between) then .ok (s'.withStars r)
    else (s.withStars r).stepText c
  | .escaped => .ok (s'.push (.char c))
  | .classStart =>
    if c = '!' ∨ c = '^' then .ok { s' with mode := .inClass ⟨true, [], false⟩ }
    else .ok { s' with mode := .inClass ⟨false, [(c, c)], false⟩ }
  | .inClass cls =>
    if c = ']' ∧ cls.ranges ≠ [] then .ok (s'.push (.other (.oneIn cls.set)))
    else (cls.add c).map fun cls' => { s' with mode := .inClass cls' }

def finish (s : ParseState) : Except ParseError Glob :=
  let close (s : ParseState) : Except ParseError Glob :=
    if s.groups.isEmpty then .ok ⟨s.parts.reverse⟩ else .error .unclosedGroup
  match s.mode with
  | .text => close s
  | .star _ => close (s.push .star)
  | .stars before => close (s.withStars (s.role before none))
  | .escaped => .error .danglingEscape
  | .classStart | .inClass _ => .error .unclosedClass

end ParseState

def parse (cs : List Char) : Except ParseError Glob :=
  match cs.foldlM ParseState.step ParseState.start with
  | .error e => .error e
  | .ok s => s.finish

end ExplicitNull.Glob
