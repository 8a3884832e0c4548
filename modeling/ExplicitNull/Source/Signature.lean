import ExplicitNull.Source.Interval
import ExplicitNull.Source.Token

/-!
Parameter lists. A function occurrence is a function keyword, an optional `&`, an optional name
and an opening parenthesis that has a closing one; occurrences are numbered in the order of
their keywords, those inside of others included. The tokens between the parentheses are cut into
parameters at the commas outside of all brackets, and a parameter into its leading part, which
is trivia and groups of attributes, and its body.
-/
namespace ExplicitNull

structure ParamList where
  /-- The number of function occurrences before this one. -/
  functionIndex : Nat
  /-- The position of the opening parenthesis. -/
  opening : Nat
  closing : Nat
  params : List Interval
  deriving DecidableEq, Repr

structure Regions where
  leading : Interval
  body : Interval
  /-- Whether an attribute group opens anywhere in the parameter. -/
  hasAttribute : Bool
  deriving DecidableEq, Repr

namespace Signature

def skipTrivia (ts : List Token) : List Token := ts.dropWhile Token.isTrivia

def skipOptional (p : Token → Bool) : List Token → List Token
  | [] => []
  | t :: rest => if p t then skipTrivia rest else t :: rest

def fromOpening? (ts : List Token) : Option (List Token) :=
  let rest := skipOptional (·.kind == .name) (skipOptional (·.isPunct "&") (skipTrivia ts))
  if rest.head?.any (·.isPunct "(") then some rest else none

/-- The position of the parenthesis that closes the last of `depth` open ones. -/
def closingOffset? (depth : Nat) : List Token → Option Nat
  | [] => none
  | t :: rest =>
    if t.isPunct "(" then (closingOffset? (depth + 1) rest).map (· + 1)
    else if t.isPunct ")" then
      if depth ≤ 1 then some 0 else (closingOffset? (depth - 1) rest).map (· + 1)
    else (closingOffset? depth rest).map (· + 1)

def parentheses? (i : Nat) (rest : List Token) : Option (Nat × Nat) :=
  match fromOpening? rest with
  | none => none
  | some list =>
    let opening := i + 1 + (rest.length - list.length)
    (closingOffset? 0 list).map fun offset => (opening, opening + offset)

def occurrencesFrom (i : Nat) : List Token → List (Nat × Nat)
  | [] => []
  | t :: rest =>
    if t.kind = .keyword then
      match parentheses? i rest with
      | some o => o :: occurrencesFrom (i + 1) rest
      | none => occurrencesFrom (i + 1) rest
    else occurrencesFrom (i + 1) rest

def nesting (t : Token) : Int :=
  if t.kind = .attributeOpen then 1
  else if t.isPunct "(" || t.isPunct "[" || t.isPunct "\x7b" then 1
  else if t.isPunct ")" || t.isPunct "]" || t.isPunct "\x7d" then -1
  else 0

/-- Cuts tokens that start at position `i` with `depth` brackets open; the parameter under way
began at `start`. The depth has no bounds here, where the program counts with 32 bits and a sign;
the two differ only behind more than `2 ^ 31 - 1` brackets that are open, or closed too many. -/
def splitFrom (depth : Int) (start i : Nat) : List Token → List Interval
  | [] => if start < i then [⟨start, i⟩] else []
  | t :: rest =>
    if t.isPunct "," ∧ depth = 0 then ⟨start, i⟩ :: splitFrom depth (i + 1) (i + 1) rest
    else splitFrom (depth + nesting t) start (i + 1) rest

/-- The parameters of a stretch of tokens. An empty one is kept unless it is the last. -/
def splitParameters (ts : List Token) (inner : Interval) : List Interval :=
  splitFrom 0 inner.start inner.start (inner.slice ts)

/-- The number of leading tokens of a parameter, when `depth` brackets of an attribute group are
open. A group that is not closed takes all. -/
def leadingLength : (depth : Nat) → List Token → Nat
  | _, [] => 0
  | 0, t :: rest =>
    if t.isTrivia then 1 + leadingLength 0 rest
    else if t.kind = .attributeOpen then 1 + leadingLength 1 rest
    else 0
  | depth + 1, t :: rest =>
    if t.kind = .attributeOpen ∨ t.isPunct "[" then 1 + leadingLength (depth + 2) rest
    else if t.isPunct "]" then 1 + leadingLength depth rest
    else 1 + leadingLength (depth + 1) rest

def splitLeading (ts : List Token) (param : Interval) : Regions :=
  let tokens := param.slice ts
  let bodyStart := param.start + leadingLength 0 tokens
  { leading := ⟨param.start, bodyStart⟩
    body := ⟨bodyStart, param.stop⟩
    hasAttribute := tokens.any (·.kind == .attributeOpen) }

end Signature

def parameterLists (ts : List Token) : List ParamList :=
  (Signature.occurrencesFrom 0 ts).mapIdx fun k (opening, closing) =>
    ⟨k, opening, closing, Signature.splitParameters ts ⟨opening + 1, closing⟩⟩

end ExplicitNull
