import GrammarTables.Generator
import GrammarTables.Regex.Default
import GrammarTables.Trace
import GrammarTables.Yaral.Grammar
import GrammarTables.Yaral.Highlights
import GrammarTables.Yaral.Lexer

/-!
# The language YARA-L

The tables of its grammar with its lexers.
-/

namespace GrammarTables.Yaral

/-- The grammar's tables as arrays. -/
def language : Except Error Language := do
  let flat ← FlatGrammar.ofGrammar grammar
  let tables ← Tables.ofGrammar flat
  return .ofEncoding (← Encoding.ofTables flat tables version)

/-- The description of the grammar's nodes. -/
def nodeTypesText : Except Error String :=
  (FlatGrammar.ofGrammar grammar).map (·.nodeTypesText)

/-- A token in a lexer state. In a state that is none nothing is read. -/
def lex (l : Language) (lexState : Nat) (text : Input) (place : Nat) : Lexeme :=
  match l.lexSet? lexState with
  | some valid => (Lexer.lex valid (.new text place)).lexeme
  | none => (Cursor.new text place).lexeme

def keyword (l : Language) (text : Input) (place : Nat) : Lexeme :=
  (Keyword.lex l.keywords l.maxKeywordLength (.new text place)).lexeme

def lexers (l : Language) : Lexers where
  lex := lex l
  keyword := keyword l

end GrammarTables.Yaral
