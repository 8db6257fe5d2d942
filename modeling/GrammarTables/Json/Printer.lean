import GrammarTables.Json.Basic
import GrammarTables.Text.Quoted

/-!
# Printing JSON

Two layouts: everything on one line, and one member or element a line, indented by two spaces.
-/

namespace GrammarTables.Json

namespace Printer

/-- How a character is written inside a string. -/
def escape (c : Char) : List Char :=
  match c with
  | '"' => ['\\', '"']
  | '\\' => ['\\', '\\']
  | '\n' => ['\\', 'n']
  | '\r' => ['\\', 'r']
  | '\t' => ['\\', 't']
  | '\x08' => ['\\', 'b']
  | '\x0c' => ['\\', 'f']
  | c => if c.toNat < 0x20 then ['\\', 'u'] ++ Text.hexPadded 4 c.toNat else [c]

def string (s : String) : String :=
  String.ofList (['"'] ++ s.toList.flatMap escape ++ ['"'])

def newline (indent : Nat) : String := "\n" ++ "".pushn ' ' (2 * indent)

mutual

/-- Appends the value on one line. -/
def compact (out : String) : Json → String
  | .null => out ++ "null"
  | .bool b => out ++ if b then "true" else "false"
  | .integer n => out ++ toString n
  | .decimal text => out ++ text
  | .string s => out ++ string s
  | .array vs => (compactElements (out ++ "[") true vs) ++ "]"
  | .object ms => (compactMembers (out ++ "\x7b") true ms) ++ "\x7d"
  | .unreadable => out ++ "null"

def compactElements (out : String) (isFirst : Bool) : List Json → String
  | [] => out
  | v :: rest => compactElements (compact (if isFirst then out else out ++ ",") v) false rest

def compactMembers (out : String) (isFirst : Bool) : List (String × Json) → String
  | [] => out
  | (n, v) :: rest =>
    let out := if isFirst then out else out ++ ","
    compactMembers (compact (out ++ string n ++ ":") v) false rest

end

mutual

/-- Appends the value over several lines, the lines inside it indented one step further. -/
def pretty (out : String) (indent : Nat) : Json → String
  | .array [] => out ++ "[]"
  | .array vs => (prettyElements (out ++ "[") (indent + 1) true vs) ++ newline indent ++ "]"
  | .object [] => out ++ "\x7b\x7d"
  | .object ms => (prettyMembers (out ++ "\x7b") (indent + 1) true ms) ++ newline indent ++ "\x7d"
  | v => compact out v

def prettyElements (out : String) (indent : Nat) (isFirst : Bool) : List Json → String
  | [] => out
  | v :: rest =>
    let out := (if isFirst then out else out ++ ",") ++ newline indent
    prettyElements (pretty out indent v) indent false rest

def prettyMembers (out : String) (indent : Nat) (isFirst : Bool) : List (String × Json) → String
  | [] => out
  | (n, v) :: rest =>
    let out := (if isFirst then out else out ++ ",") ++ newline indent ++ string n ++ ": "
    prettyMembers (pretty out indent v) indent false rest

end

end Printer

/-- The value on one line. -/
def compress (v : Json) : String := Printer.compact "" v

/-- The value over several lines. -/
def pretty (v : Json) : String := Printer.pretty "" 0 v

end GrammarTables.Json
