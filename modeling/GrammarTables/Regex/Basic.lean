import GrammarTables.CharSet

/-!
# Regular expressions

What a pattern means, with every flag of its text already applied. A repetition with no upper bound
has none, and a look asks about the characters on both sides of a place without taking one.

The least length of a match is read off the expression. An expression over an empty set of
characters has no least length, and neither has what is built on it.
-/

namespace GrammarTables

/-- What a word boundary asks of the places before and after it. -/
inductive WordEdge where
  | boundary
  | interior
  | start
  | stop
  | startHalf
  | stopHalf
  deriving DecidableEq, Repr

inductive Look where
  | textStart
  | textEnd
  /-- After a line break; carriage returns count when `crlf` is set. -/
  | lineStart (crlf : Bool)
  | lineEnd (crlf : Bool)
  /-- At an edge of a word, of ASCII or of all characters. -/
  | word (edge : WordEdge) (ascii : Bool)
  deriving DecidableEq, Repr

inductive Regex where
  | empty
  | chars (set : CharSet)
  | look (kind : Look)
  | group (body : Regex)
  | concat (left right : Regex)
  | alternate (left right : Regex)
  | repeated (body : Regex) (least : Nat) (most : Option Nat)
  deriving DecidableEq, Repr, Inhabited

namespace Regex

/-- Whether the bounds let a body be left out, be taken once or be taken without end, and ask for no
other number of times. -/
def isSimpleBound (least : Nat) (most : Option Nat) : Bool :=
  least ≤ 1 && (most.isNone || most == some 1)

/-- A body between `least` and `most` times. Where the bounds of both are simple, a repetition of a
repetition is one repetition of the inner body. -/
def repetition (body : Regex) (least : Nat) (most : Option Nat) : Regex :=
  if most = some 0 then .empty
  else if least = 1 ∧ most = some 1 then body
  else
    match body with
    | .repeated inner l m =>
      if isSimpleBound l m && isSimpleBound least most then
        .repeated inner (l * least) (if m = some 1 then most else none)
      else .repeated body least most
    | _ => .repeated body least most

def isEmpty : Regex → Bool
  | .empty => true
  | _ => false

/-- One part after the other. -/
def joinParts : List Regex → Regex
  | [] => .empty
  | [r] => r
  | r :: rest => .concat r (joinParts rest)

/-- One part after the other, leaving out those that match nothing but the empty text. -/
def sequence (parts : List Regex) : Regex := joinParts (parts.filter fun r => !r.isEmpty)

def joinBranches : List Regex → Regex
  | [] => .empty
  | [r] => r
  | r :: rest => .alternate r (joinBranches rest)

/-- The set of an expression that takes one of a set of characters. -/
def charSet? : Regex → Option CharSet
  | .chars s => some s
  | _ => none

/-- One of the branches. Branches of one character each make up a set, and so do branches of proper
sets. -/
def choice (branches : List Regex) : Regex :=
  match branches.mapM charSet? with
  | some sets =>
    if sets.all (·.isSingle) || sets.all (!·.isSingle) then
      .chars (sets.foldl CharSet.union .empty)
    else joinBranches branches
  | none => joinBranches branches

/-- The least length of a match. -/
def minLength : Regex → Option Nat
  | .empty => some 0
  | .chars s => if s.isEmpty then none else some 1
  | .look _ => some 0
  | .group r => r.minLength
  | .concat l r => do some ((← l.minLength) + (← r.minLength))
  | .alternate l r => do some (min (← l.minLength) (← r.minLength))
  | .repeated r least _ => r.minLength.map (· * least)

end Regex

end GrammarTables
