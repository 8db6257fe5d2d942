import GrammarTables.FlatGrammar
import GrammarTables.Text.Quoted

/-!
# Names of constants

Every symbol and every field has a constant in the source text of the tables. What cannot stand in
an identifier is spelled out.
-/

namespace GrammarTables

namespace Constant

/-- Whether a character stands for itself in an identifier. -/
def isPlain (c : Char) : Bool := c.isAlphanum || c == '_'

/-- The words for punctuation. -/
def words : List (Char × String) :=
  [('~', "TILDE"), ('\x60', "BQUOTE"), ('!', "BANG"), ('@', "AT"), ('#', "POUND"), ('$', "DOLLAR"),
    ('%', "PERCENT"), ('^', "CARET"), ('&', "AMP"), ('*', "STAR"), ('(', "LPAREN"),
    (')', "RPAREN"), ('-', "DASH"), ('+', "PLUS"), ('=', "EQ"), ('\x7b', "LBRACE"),
    ('\x7d', "RBRACE"), ('[', "LBRACK"), (']', "RBRACK"), ('\\', "BSLASH"), ('|', "PIPE"),
    (':', "COLON"), (';', "SEMI"), ('\x22', "DQUOTE"), ('\x27', "SQUOTE"), ('<', "LT"), ('>', "GT"),
    (',', "COMMA"), ('.', "DOT"), ('?', "QMARK"), ('/', "SLASH"), ('\n', "LF"), ('\r', "CR"),
    ('\t', "TAB"), ('\x00', "NULL")]

/-- The word for a character. A blank has one only where it stands alone. -/
def word? (alone : Bool) (c : Char) : Option String :=
  if alone && c == ' ' then some "SPACE" else words.lookup c

/-- Puts an underscore between a word and what is written before it, in reverse. -/
def separate : List Char → List Char
  | [] => []
  | '_' :: written => '_' :: written
  | c :: written => '_' :: c :: written

/-- Writes a character behind what is written, in reverse. -/
def spellChar (alone : Bool) (written : List Char) (c : Char) : List Char :=
  if isPlain c then c :: written
  else
    match word? alone c with
    | some word => word.toList.reverse ++ separate written
    | none => (Text.hexPadded 4 c.toNat).reverse ++ 'u' :: written

/-- The name with everything spelled out that cannot stand in an identifier. -/
def spell (name : String) : String :=
  String.ofList (name.toList.foldl (spellChar (name.utf8ByteSize == 1)) []).reverse

/-- The constant of a symbol, before it is told apart from others. -/
def ofSymbol (g : FlatGrammar) (s : Symbol) : String :=
  match s with
  | .eof => "ts_builtin_sym_end"
  | s =>
    let name := spell (g.symbolName s)
    match g.symbolKind s with
    | .auxiliary => "aux_sym_" ++ name
    | .anonymous => "anon_sym_" ++ name
    | .named | .hidden => "sym_" ++ name

/-- The first of the name with `n`, `n + 1`, … behind it that is not taken. -/
def numberedFrom (taken : List String) (base : String) : Nat → Nat → String
  | 0, n => s!"{base}{n}"
  | fuel + 1, n =>
    let name := s!"{base}{n}"
    if taken.contains name then numberedFrom taken base fuel (n + 1) else name

/-- The name, with a number behind it if it is taken. -/
def fresh (taken : List String) (base : String) : String :=
  if taken.contains base then numberedFrom taken base taken.length 2 else base

/-- The constants of a grammar's symbols. No two are the same. -/
def ofSymbols (g : FlatGrammar) : List String :=
  (g.symbols.foldl (fun taken s => fresh taken (ofSymbol g s) :: taken) []).reverse

/-- The constant of a field. -/
def ofField (name : String) : String := "field_" ++ spell name

end Constant

end GrammarTables
