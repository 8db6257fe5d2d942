import GrammarTables.Keyword
import GrammarTables.Text.WhiteSpace
import GrammarTables.Yaral.Terminal

/-!
# The lexer of YARA-L

Reads the longest token that is valid in a lexer state. Where a token from the inside of a string is
valid only such tokens are read, and blanks count there.
-/

namespace GrammarTables.Yaral.Lexer

open Terminal

def isDigit (c : Char) : Bool := c.isDigit

def isHexDigit (c : Char) : Bool := c.isDigit || ('a' ≤ c && c ≤ 'f') || ('A' ≤ c && c ≤ 'F')

/-- Whether the inside of a string can go on here. -/
def inString (valid : TokenSet) : Bool :=
  valid.contains stringContent || valid.contains escapeSequence || valid.contains closingQuote

mutual

/-- The length of a line comment's text: up to the end of the line, which a run of backslashes
carries over the line break behind it. -/
def lineComment : Input → Nat
  | some '\n' :: _ => 0
  | some '\\' :: rest => afterBackslash rest + 1
  | some _ :: rest => lineComment rest + 1
  | none :: _ => 0
  | [] => 0

def afterBackslash : Input → Nat
  | some '\\' :: rest => afterBackslash rest + 1
  | some '\r' :: some '\n' :: rest => lineComment rest + 2
  | _ :: rest => lineComment rest + 1
  | [] => 0

end

/-- How far a block comment's text was read, and whether it is closed. -/
def blockComment (afterStar : Bool) : Input → Nat × Bool
  | some c :: rest =>
    if afterStar && c == '/' then (1, true)
    else (blockComment (c == '*') rest).map (· + 1) id
  | none :: _ => (0, false)
  | [] => (0, false)

/-- How far a regular expression was read behind its first character, and whether it is closed. -/
def regexRest : Input → Nat × Bool
  | some '/' :: _ => (1, true)
  | some '\\' :: some c :: rest => if c = '\n' then (1, false) else (regexRest rest).map (· + 2) id
  | some '\\' :: _ => (1, false)
  | some _ :: rest => (regexRest rest).map (· + 1) id
  | none :: _ => (0, false)
  | [] => (0, false)

/-- Reads as far as a scanner went, and accepts the token if it is closed. -/
def closing (c : Cursor) (s : Symbol) (scan : Input → Nat × Bool) : Cursor :=
  let (length, closed) := scan c.rest
  (c.advance length).acceptIf closed s

/-- Reads hexadecimal digits behind a letter: as many as there are, or no more than needed. -/
def lexHex (needed : Nat) (exact : Bool) (c : Cursor) : Cursor :=
  let c := c.advance 1
  let count := c.count isHexDigit
  let count := if exact then min count needed else count
  (c.advance count).acceptIf (needed ≤ count) escapeSequence

/-- Reads an escape sequence: a backslash and a character, up to three digits, or a code. -/
def lexEscape (c : Cursor) : Cursor :=
  let c := c.advance 1
  match c.peek? with
  | none => c
  | some 'x' => lexHex 2 false c
  | some 'u' => lexHex 4 true c
  | some 'U' => lexHex 8 true c
  | some d =>
    let length := if isDigit d then min (c.count isDigit) 3 else 1
    (c.advance length).accept escapeSequence

/-- Reads a quote, which the first of two tokens takes if it is valid. -/
def lexQuote (valid : TokenSet) (first second : Symbol) (c : Cursor) : Cursor :=
  let c := c.advance 1
  if valid.contains first then c.accept first else c.acceptIf (valid.contains second) second

/-- Reads a token inside a string. A line break cannot stand there, so it is skipped. -/
def lexInString (valid : TokenSet) (c : Cursor) : Cursor :=
  let c := c.skipWhile fun x => x == '\n' || x == '\r'
  match c.peek? with
  | none => c.acceptIf (valid.contains .eof) .eof
  | some '\x22' => lexQuote valid closingQuote quote c
  | some x =>
    if x == '\\' && valid.contains escapeSequence then lexEscape c
    else if valid.contains stringContent then
      let length := c.count fun y => y != '\x22' && y != '\n' && y != '\\'
      (c.advance length).acceptIf (0 < length) stringContent
    else c

def lexNumber (valid : TokenSet) (c : Cursor) : Cursor :=
  let c := c.advanceWhile isDigit
  let c :=
    if valid.contains integer then c.accept integer else c.acceptIf (valid.contains float) float
  if c.sees (· == '.') && valid.contains float then
    ((c.advance 1).advanceWhile isDigit).accept float
  else c

/-- Reads what starts with a dot: an attribute, a fraction, or the dot. -/
def lexDot (valid : TokenSet) (c : Cursor) : Cursor :=
  let c := (c.advance 1).acceptIf (valid.contains dot) dot
  if c.sees Char.isAlpha && valid.contains attributeName then
    (c.advanceWhile fun x => Keyword.isWordPart x || x == '.').accept attributeName
  else if c.sees isDigit && valid.contains float then (c.advanceWhile isDigit).accept float
  else c

/-- Reads what starts with a slash: a comment, a regular expression, or the slash. -/
def lexSlash (valid : TokenSet) (c : Cursor) : Cursor :=
  let c := (c.advance 1).acceptIf (valid.contains slash) slash
  match c.peek? with
  | none => c
  | some x =>
    if x == '/' && valid.contains comment then
      let c := c.advance 1
      (c.advance (lineComment c.rest)).accept comment
    else if x == '*' && valid.contains comment then
      closing (c.advance 1) comment (blockComment false)
    else if x != '\\' && valid.contains regex then closing (c.advance 1) regex regexRest
    else c

def lexRawString (c : Cursor) : Cursor :=
  let c := (c.advance 1).advanceWhile (· != '\x60')
  if c.sees (· == '\x60') then (c.advance 1).accept rawString else c

/-- Reads a character that an equals sign may follow. -/
def lexWithEqual (valid : TokenSet) (short long : Symbol) (c : Cursor) : Cursor :=
  let c := (c.advance 1).acceptIf (valid.contains short) short
  if c.sees (· == '=') && valid.contains long then (c.advance 1).accept long else c

/-- Reads a token that starts with the given character. -/
def lexFrom (valid : TokenSet) (c : Cursor) (x : Char) : Cursor :=
  match single? x with
  | some s => if valid.contains s then (c.advance 1).accept s else c
  | none =>
    if Keyword.isWordStart x then
      if valid.contains identifier then (c.advanceWhile Keyword.isWordPart).accept identifier else c
    else if isDigit x then lexNumber valid c
    else
      match x with
      | '.' => lexDot valid c
      | '/' => lexSlash valid c
      | '\x60' => if valid.contains rawString then lexRawString c else c
      | '\x22' => lexQuote valid quote closingQuote c
      | '!' => lexWithEqual valid notOperator notEqual c
      | '<' => lexWithEqual valid less lessEqual c
      | '>' => lexWithEqual valid greater greaterEqual c
      | _ => c

/-- Reads a token outside of strings. -/
def lexOutside (valid : TokenSet) (c : Cursor) : Cursor :=
  let c := c.skipWhile Text.isWhiteSpace
  match c.peek? with
  | none => c.acceptIf (valid.contains .eof) .eof
  | some x => lexFrom valid c x

/-- Reads one of the valid tokens. -/
def lex (valid : TokenSet) (c : Cursor) : Cursor :=
  if inString valid then lexInString valid c else lexOutside valid c

end GrammarTables.Yaral.Lexer
