import GrammarTables.Regex.Basic

/-!
# Patterns

A regular expression as it is written. Flags are still part of the tree, and so is every bracket.
-/

namespace GrammarTables

namespace Pattern

inductive Flag where
  | caseless
  | multiLine
  | dotAll
  | swapGreed
  | unicode
  | crlf
  | verbose
  deriving DecidableEq, Repr

/-- A flag with whether it is turned on. -/
abbrev FlagChange := Flag × Bool

/-- A character, and whether it was written as two hexadecimal digits, which may be a byte. -/
structure Literal where
  char : Char
  isByte : Bool := false
  deriving DecidableEq, Repr

inductive Anchor where
  | lineStart
  | lineEnd
  | textStart
  | textEnd
  | word (edge : WordEdge)
  deriving DecidableEq, Repr

inductive ShortClass where
  | digit
  | space
  | word
  deriving DecidableEq, Repr

inductive SetOperator where
  | intersection
  | difference
  | symmetricDifference
  deriving DecidableEq, Repr

/-- What stands between brackets. -/
inductive ClassTree where
  | empty
  | literal (value : Literal)
  | range (lo hi : Literal)
  /-- A class of ASCII characters by its ranges. -/
  | ascii (ranges : List (Nat × Nat)) (negated : Bool)
  | short (kind : ShortClass) (negated : Bool)
  | bracket (negated : Bool) (body : ClassTree)
  | union (items : List ClassTree)
  | binary (op : SetOperator) (lhs rhs : ClassTree)
  deriving Repr, Inhabited

end Pattern

open Pattern in
inductive Pattern where
  | empty
  | flags (changes : List FlagChange)
  | literal (value : Literal)
  | dot
  | anchor (kind : Anchor)
  | short (kind : ShortClass) (negated : Bool)
  | bracket (negated : Bool) (body : ClassTree)
  | repeated (body : Pattern) (least : Nat) (most : Option Nat)
  | group (capturing : Bool) (changes : List FlagChange) (body : Pattern)
  | alternation (branches : List Pattern)
  | concat (parts : List Pattern)
  deriving Repr, Inhabited

namespace Pattern

mutual

/-- How deep brackets, unions and operators are nested. -/
def ClassTree.depth : ClassTree → Nat
  | .bracket _ body => body.depth + 1
  | .union items => ClassTree.depths items + 1
  | .binary _ lhs rhs => max lhs.depth rhs.depth + 1
  | _ => 0

def ClassTree.depths : List ClassTree → Nat
  | [] => 0
  | t :: rest => max t.depth (ClassTree.depths rest)

end

mutual

/-- How deep the pattern is nested. Single characters, anchors and flags are no level. -/
def depth : Pattern → Nat
  | .bracket _ body => body.depth + 1
  | .repeated body _ _ => body.depth + 1
  | .group _ _ body => body.depth + 1
  | .alternation branches => depths branches + 1
  | .concat parts => depths parts + 1
  | _ => 0

def depths : List Pattern → Nat
  | [] => 0
  | p :: rest => max p.depth (depths rest)

end

/-- Patterns may be nested this deep. -/
def maxDepth : Nat := 250

/-- What some changes say of a flag. No flag is changed twice. -/
def change? (flag : Flag) (changes : List FlagChange) : Option Bool := changes.lookup flag

end Pattern

end GrammarTables
