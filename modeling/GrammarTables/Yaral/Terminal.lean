import GrammarTables.TokenSet

/-!
# The tokens of YARA-L

The terminals that the lexer returns, as the grammar numbers them. Keywords are not among them: they
are lexed as identifiers and looked up.
-/

namespace GrammarTables.Yaral.Terminal

def identifier : Symbol := .terminal 1
def leftBrace : Symbol := .terminal 2
def rightBrace : Symbol := .terminal 3
def colon : Symbol := .terminal 10
def equal : Symbol := .terminal 11
def integer : Symbol := .terminal 12
def float : Symbol := .terminal 13
def regex : Symbol := .terminal 14
def star : Symbol := .terminal 19
def slash : Symbol := .terminal 20
def plus : Symbol := .terminal 21
def minus : Symbol := .terminal 22
def notEqual : Symbol := .terminal 23
def less : Symbol := .terminal 24
def lessEqual : Symbol := .terminal 25
def greater : Symbol := .terminal 26
def greaterEqual : Symbol := .terminal 27
def percent : Symbol := .terminal 33
def comma : Symbol := .terminal 34
def leftBracket : Symbol := .terminal 38
def rightBracket : Symbol := .terminal 39
def leftParen : Symbol := .terminal 40
def rightParen : Symbol := .terminal 41
def dollar : Symbol := .terminal 42
def attributeName : Symbol := .terminal 43
def rawString : Symbol := .terminal 44
def quote : Symbol := .terminal 45
/-- A run of plain characters inside a string. -/
def stringContent : Symbol := .terminal 46
def escapeSequence : Symbol := .terminal 47
/-- The quote that ends a string. -/
def closingQuote : Symbol := .terminal 48
def dot : Symbol := .terminal 54
def comment : Symbol := .terminal 55
def whitespace : Symbol := .terminal 56
def notOperator : Symbol := .terminal 58

/-- The token of a character that is a token by itself and starts no other one. -/
def single? : Char → Option Symbol
  | '\x7b' => some leftBrace
  | '\x7d' => some rightBrace
  | ':' => some colon
  | '=' => some equal
  | '*' => some star
  | '+' => some plus
  | '-' => some minus
  | '%' => some percent
  | ',' => some comma
  | '[' => some leftBracket
  | ']' => some rightBracket
  | '(' => some leftParen
  | ')' => some rightParen
  | '$' => some dollar
  | _ => none

end GrammarTables.Yaral.Terminal
