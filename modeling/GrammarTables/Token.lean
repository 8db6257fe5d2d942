import GrammarTables.TokenPattern

/-!
# Tokens

The lexical tokens of a grammar, and how a symbol shows in syntax trees.
-/

namespace GrammarTables

/-- How a symbol shows in syntax trees. -/
inductive SymbolKind where
  /-- A node with the name of its rule. -/
  | named
  /-- A rule that leaves its children to the node above it. -/
  | hidden
  /-- A node for a literal text. -/
  | anonymous
  /-- A symbol that no rule declares. -/
  | auxiliary
  deriving DecidableEq, Repr, Inhabited

namespace SymbolKind

def isVisible : SymbolKind → Bool
  | .named | .anonymous => true
  | .hidden | .auxiliary => false

def isNamed : SymbolKind → Bool
  | .named | .hidden => true
  | .anonymous | .auxiliary => false

/-- A rule whose name starts with an underscore is hidden. -/
def ofRuleName (name : String) : SymbolKind :=
  if name.startsWith "_" then .hidden else .named

def text : SymbolKind → String
  | .named => "named"
  | .hidden => "hidden"
  | .anonymous => "anonymous"
  | .auxiliary => "auxiliary"

end SymbolKind

/-- A token's rule under its wrappers, and what they say. -/
structure TokenBody where
  rule : Rule
  /-- The token takes no padding before it. -/
  immediate : Bool
  precedence : Int
  deriving DecidableEq

structure Token extends TokenBody where
  name : String
  kind : SymbolKind
  pattern : TokenPattern

/-- A precedence has to be a number. -/
def Precedence.number : Precedence → Except Error Int
  | .integer value => .ok value
  | .name value => .error (.namedPrecedence value)

namespace TokenBody

/-- Takes the wrappers off a token's rule. The innermost precedence stays. -/
def unwrap (immediate : Bool) (precedence : Int) : Rule → Except Error TokenBody
  | .wrap (.token now) content => unwrap (immediate || now) precedence content
  | .wrap (.prec _ value) content => do unwrap immediate (← value.number) content
  | rule => .ok { rule, immediate, precedence }

def ofRule (rule : Rule) : Except Error TokenBody := unwrap false 0 rule

end TokenBody

/-- The token of a body. -/
def Token.ofBody [RegexEngine] (name : String) (kind : SymbolKind) (body : TokenBody) :
    Except Error Token := do
  return { body with name, kind, pattern := ← TokenPattern.ofRule name body.rule }

end GrammarTables
