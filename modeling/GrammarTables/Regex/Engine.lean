import GrammarTables.Regex.Basic

/-!
# Engines of regular expressions

What a pattern is and what it matches is up to a library of regular expressions. What the tables of
a grammar ask of the library is an engine; nothing but the answers of an engine tells how it reads
patterns. The characters that a match can start with are read off the expression that it answers.
-/

namespace GrammarTables

/-- A library of regular expressions. -/
class RegexEngine where
  /-- The pattern of a literal text. -/
  escape (text : String) : String
  /-- The expression that a pattern means, if the pattern is accepted. Parts that stand side by side
  and branches are nested to the right. -/
  parse? (pattern : String) : Option Regex
  /-- The least length of what an expression matches, if it matches anything. -/
  minLength (r : Regex) : Option Nat
  /-- Whether there is a match of a pattern anywhere in a text, if the pattern is accepted. -/
  isMatch? (pattern text : String) : Option Bool

namespace Regex

variable [RegexEngine]

def isNullable (r : Regex) : Bool := RegexEngine.minLength r == some 0

/-- The characters that a match can start with. -/
def first : Regex → CharSet
  | .empty => .empty
  | .chars s => s
  | .look _ => .empty
  | .group r => r.first
  | .concat l r => if l.isNullable then l.first.union r.first else l.first
  | .alternate l r => l.first.union r.first
  | .repeated r _ _ => r.first

end Regex

end GrammarTables
