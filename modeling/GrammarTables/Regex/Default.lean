import GrammarTables.Regex.Engine
import GrammarTables.Regex.Match
import GrammarTables.Regex.Meaning

/-!
# The engine of this library

The reader and the matcher of patterns as an engine. It refuses classes that are named by a property
of characters.
-/

namespace GrammarTables

/-- The text with a backslash before each character that has a meaning in patterns. -/
def Pattern.escape (text : String) : String :=
  String.ofList (text.toList.flatMap fun c =>
    if Pattern.Reader.isMeta c then ['\\', c] else [c])

instance Regex.engine : RegexEngine where
  escape := Pattern.escape
  parse? := Regex.parse?
  minLength := Regex.minLength
  isMatch? pattern text := (Regex.parse? pattern).map (·.isMatch text)

end GrammarTables
