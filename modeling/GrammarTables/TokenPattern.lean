import GrammarTables.Error
import GrammarTables.Regex.Engine
import GrammarTables.Rule.Basic

/-!
# Patterns of tokens

The regular expression of a token rule. It is put together as text, so a pattern's own parentheses
may close what the rules around it opened. No lexer runs it: it tells which characters can start a
token and which texts are words.
-/

namespace GrammarTables

structure TokenPattern where
  source : String
  /-- The characters that the token can start with. -/
  first : CharSet

namespace TokenPattern

/-- A pattern's text in a group of its own. -/
def patternSource (value : String) (flags : Option String) : String :=
  let foldsCase := flags.any fun f => f.toList.contains 'i'
  (if foldsCase then "(?i:" else "(?:") ++ value ++ ")"

/-- Whether two tokens can start with the same character. -/
def overlaps (p q : TokenPattern) : Bool := p.first.overlaps q.first

variable [RegexEngine]

mutual

/-- The text of a token rule as a pattern. Wrappers that do not repeat are left out. -/
def sourceOf (token : String) : Rule → Except Error String
  | .blank => .ok ""
  | .string value => .ok (RegexEngine.escape value)
  | .pattern value flags => .ok (patternSource value flags)
  | .symbol name => .error (.symbolInToken token name)
  | .seq members => do return String.join (← sourcesOf token members)
  | .choice members => do return "(?:" ++ "|".intercalate (← sourcesOf token members) ++ ")"
  | .wrap .repeat0 content => do return "(?:" ++ (← sourceOf token content) ++ ")*"
  | .wrap .repeat1 content => do return "(?:" ++ (← sourceOf token content) ++ ")+"
  | .wrap _ content => sourceOf token content

def sourcesOf (token : String) : List Rule → Except Error (List String)
  | [] => .ok []
  | r :: rest => do return (← sourceOf token r) :: (← sourcesOf token rest)

end

/-- The pattern of a token rule. -/
def ofRule (token : String) (rule : Rule) : Except Error TokenPattern := do
  let source ← sourceOf token rule
  match RegexEngine.parse? source with
  | some r => return ⟨source, r.first⟩
  | none => throw (.invalidPattern token)

/-- Whether the pattern matches the text from its start to its end. -/
def matchesWhole (p : TokenPattern) (text : String) : Except Error Bool :=
  match RegexEngine.isMatch? ("^(?:" ++ p.source ++ ")$") text with
  | some found => .ok found
  | none => .error (.invalidPattern text)

end TokenPattern

end GrammarTables
