import GrammarTables.Text.Alphabetic
import GrammarTables.Text.Mark
import GrammarTables.Text.Number

/-!
# Word characters

A word character is alphabetic, a mark, a decimal digit, connecting punctuation or a join control.
-/

namespace GrammarTables.Text

/-- Code points of general category Pc and the two join controls, ascending. -/
def connectorRanges : List (Nat × Nat) := [
  (0x5F, 0x5F), (0x200C, 0x200D), (0x203F, 0x2040), (0x2054, 0x2054), (0xFE33, 0xFE34),
  (0xFE4D, 0xFE4F), (0xFF3F, 0xFF3F)]

/-- The ranges of word characters, not in order. -/
def wordRanges : List (Nat × Nat) :=
  alphabeticRanges ++ markRanges ++ digitRanges ++ connectorRanges

def isWord (c : Char) : Bool := inRanges wordRanges c.toNat

/-- Letters and digits of ASCII, and the underscore. -/
def isAsciiWord (c : Char) : Bool := c.isAlphanum || c == '_'

end GrammarTables.Text
