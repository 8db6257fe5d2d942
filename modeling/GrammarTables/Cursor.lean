import GrammarTables.Symbol

/-!
# Cursors

How a lexer goes through a text. A text is a list of codes, and a code that is no character shows as
nothing. The token that is accepted last counts, so a failed attempt at a longer token falls back to
it.
-/

namespace GrammarTables

/-- A text as a lexer sees it. -/
abbrev Input := List (Option Char)

namespace Input

def ofString (text : String) : Input := text.toList.map some

/-- The text of codes. -/
def ofCodes (codes : List Int) : Input :=
  codes.map fun code =>
    if 0 ≤ code ∧ code.toNat.isValidChar then some (Char.ofNat code.toNat) else none

end Input

/-- What a lexer answers. -/
structure Lexeme where
  /-- Nothing where no token was accepted. -/
  symbol : Option Symbol
  /-- The place behind what was skipped. -/
  start : Nat
  stop : Nat
  /-- How far the lexer went. -/
  position : Nat
  deriving DecidableEq, Repr

structure Cursor where
  rest : Input
  position : Nat
  /-- The place behind what was skipped. -/
  start : Nat
  /-- The token that was accepted last, and where it ends. -/
  accepted : Option (Symbol × Nat) := none

namespace Cursor

/-- A cursor at a place of a text. -/
def new (text : Input) (place : Nat) : Cursor :=
  { rest := text.drop place, position := place, start := place }

/-- The next character, if there is one. -/
def peek? (c : Cursor) : Option Char := c.rest.head?.join

/-- Whether there is a next character that satisfies the test. -/
def sees (c : Cursor) (p : Char → Bool) : Bool := c.peek?.any p

/-- How many characters from here on satisfy the test. -/
def count (c : Cursor) (p : Char → Bool) : Nat := (c.rest.takeWhile fun x => x.any p).length

def advance (c : Cursor) (n : Nat) : Cursor :=
  { c with rest := c.rest.drop n, position := c.position + min n c.rest.length }

def advanceWhile (c : Cursor) (p : Char → Bool) : Cursor := c.advance (c.count p)

/-- Goes past characters that are not part of the token. -/
def skipWhile (c : Cursor) (p : Char → Bool) : Cursor :=
  let c := c.advanceWhile p
  { c with start := c.position }

/-- Accepts what was read as a token. -/
def accept (c : Cursor) (s : Symbol) : Cursor := { c with accepted := some (s, c.position) }

def acceptIf (c : Cursor) (condition : Bool) (s : Symbol) : Cursor :=
  if condition then c.accept s else c

/-- The token that was accepted last. -/
def lexeme (c : Cursor) : Lexeme where
  symbol := c.accepted.map (·.1)
  start := c.start
  stop := (c.accepted.map (·.2)).getD c.position
  position := c.position

end Cursor

end GrammarTables
