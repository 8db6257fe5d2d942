import GrammarTables.Text.Printable

/-!
# Quoted text

Text between double quotes, as messages show it: a few characters have short escapes, and what
cannot be printed is written by its code point.
-/

namespace GrammarTables.Text

/-- The lower-case hexadecimal digits of a number. -/
def hex (n : Nat) : List Char := Nat.toDigits 16 n

/-- Hexadecimal digits with zeros in front up to the given width. -/
def hexPadded (width n : Nat) : List Char :=
  List.replicate (width - (hex n).length) '0' ++ hex n

namespace Quoted

/-- How a character is written between the quotes. -/
def escape (c : Char) : List Char :=
  match c with
  | '\x00' => ['\\', '0']
  | '\t' => ['\\', 't']
  | '\r' => ['\\', 'r']
  | '\n' => ['\\', 'n']
  | '\\' => ['\\', '\\']
  | '"' => ['\\', '"']
  | c =>
    if isPrintable c && !extendsGrapheme c then [c]
    else ['\\', 'u', '\x7b'] ++ hex c.toNat ++ ['\x7d']

end Quoted

/-- The text in double quotes. -/
def quote (s : String) : String :=
  String.ofList (['"'] ++ s.toList.flatMap Quoted.escape ++ ['"'])

end GrammarTables.Text
