import GrammarTables.Encoding.Source
import GrammarTables.NodeType.Basic

/-!
# Parsers from grammars

From the texts of a grammar and its package to the source text of its tables and the description of
its nodes.
-/

namespace GrammarTables

/-- What is written out for a grammar. -/
structure Parser where
  source : String
  nodeTypes : String
  /-- The conflicts that nothing settles. -/
  conflicts : List Conflict

/-- The description of a grammar's nodes as a text. -/
def FlatGrammar.nodeTypesText (g : FlatGrammar) : String :=
  (Json.array (g.nodeTypes.map NodeInfo.toJson)).pretty

/-- The parser of a grammar that is listed in a package. -/
def Parser.generate [RegexEngine] (grammar : String) (package : Package) :
    Except Error Parser := do
  let grammar ← Grammar.parse grammar
  let _ ← package.find grammar.name
  let version ← package.version
  let flat ← FlatGrammar.ofGrammar grammar
  let tables ← Tables.ofGrammar flat
  let encoding ← Encoding.ofTables flat tables version
  return {
    source := encoding.source
    nodeTypes := flat.nodeTypesText
    conflicts := tables.conflicts }

end GrammarTables
