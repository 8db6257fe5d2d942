/-!
# Causes of failure

Everything that can stop a grammar from becoming parse tables, and what is said about it.
-/

namespace GrammarTables

inductive Error where
  /-- The grammar text is no JSON or not shaped like a grammar. -/
  | malformedGrammar
  | invalidRule (name : String)
  | noRules
  | undefinedSymbol (symbol rule : String)
  | unsupported (feature : String)
  | namedPrecedence (name : String)
  | emptyRule (name : String)
  | tokenStartRule (name : String)
  | symbolInToken (token symbol : String)
  | invalidPattern (token : String)
  | nonTerminalExtra (rule : String)
  | invalidConflict (entry : String)
  | invalidWordToken (name : String)
  | tableLimit (what : String) (count limit : Nat)
  /-- The package text is no JSON or not shaped like a package. -/
  | malformedPackage
  | noGrammars
  | unlistedGrammar (name : String)
  | invalidVersion (version : String)
  deriving DecidableEq, Repr

def Error.message : Error → String
  | .malformedGrammar => "invalid grammar JSON"
  | .invalidRule name => s!"invalid rule `{name}`"
  | .noRules => "the grammar has no rules"
  | .undefinedSymbol symbol rule =>
    s!"undefined symbol `{symbol}` referenced from rule `{rule}`"
  | .unsupported feature => s!"grammar feature `{feature}` is not supported by this generator"
  | .namedPrecedence name => s!"named precedence `{name}` is not supported; use an integer"
  | .emptyRule name => s!"rule `{name}` matches the empty string"
  | .tokenStartRule name => s!"the start rule `{name}` must not be a token"
  | .symbolInToken token symbol => s!"token rule `{token}` refers to symbol `{symbol}`"
  | .invalidPattern token => s!"invalid pattern for token `{token}`"
  | .nonTerminalExtra rule => s!"extra `{rule}` must be a token"
  | .invalidConflict entry => s!"conflict entry `{entry}` does not name a syntax rule"
  | .invalidWordToken name => s!"word token `{name}` must be a token rule"
  | .tableLimit what count limit => s!"too many {what}: {count} exceeds {limit}"
  | .malformedPackage => "invalid configuration: tree-sitter.json"
  | .noGrammars => "invalid configuration: tree-sitter.json declares no grammars"
  | .unlistedGrammar name =>
    s!"invalid configuration: grammar `{name}` is not listed in tree-sitter.json"
  | .invalidVersion version => s!"invalid configuration: invalid version `{version}`"

end GrammarTables
