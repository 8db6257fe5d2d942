import GrammarTables.Cursor
import GrammarTables.TokenSet

/-!
# Keywords

A word is a keyword if the whole word is in the table of keywords, which ascends by text. The word
is read into a buffer that has room for the longest keyword.
-/

namespace GrammarTables.Keyword

def isWordStart (c : Char) : Bool := c.isAlpha || c == '_'

def isWordPart (c : Char) : Bool := c.isAlphanum || c == '_'

theorem isAlpha_iff (c : Char) : c.isAlpha = true ↔
    65 ≤ c.toNat ∧ c.toNat ≤ 90 ∨ 97 ≤ c.toNat ∧ c.toNat ≤ 122 := by
  change (decide ('A'.val ≤ c.val ∧ c.val ≤ 'Z'.val) ||
    (decide ('a'.val ≤ c.val) && decide (c.val ≤ 'z'.val))) = true ↔ _
  simp [UInt32.le_iff_toNat_le]

theorem isWordStart_iff (c : Char) : isWordStart c = true ↔
    (65 ≤ c.toNat ∧ c.toNat ≤ 90 ∨ 97 ≤ c.toNat ∧ c.toNat ≤ 122) ∨ c.toNat = 95 := by
  simp [isWordStart, isAlpha_iff, ← Char.toNat_inj]

theorem isWordPart_iff (c : Char) : isWordPart c = true ↔
    ((65 ≤ c.toNat ∧ c.toNat ≤ 90 ∨ 97 ≤ c.toNat ∧ c.toNat ≤ 122) ∨
      48 ≤ c.toNat ∧ c.toNat ≤ 57) ∨ c.toNat = 95 := by
  have hdigit : c.isDigit = true ↔ 48 ≤ c.toNat ∧ c.toNat ≤ 57 := by
    simp [Char.isDigit, UInt32.le_iff_toNat_le]
  simp [isWordPart, Char.isAlphanum, isAlpha_iff, hdigit, ← Char.toNat_inj]

theorem isWordPart_of_isAlpha {c : Char} (h : c.isAlpha = true) : isWordPart c = true := by
  simp [isWordPart, Char.isAlphanum, h]

theorem isWordPart_of_isWordStart {c : Char} (h : isWordStart c = true) : isWordPart c = true := by
  rcases Bool.or_eq_true_iff.1 h with h | h
  · exact isWordPart_of_isAlpha h
  · simp [isWordPart, h]

/-- The last of `size` rows from `base` on whose text is not above the word, if there is one;
otherwise the first. -/
def lastNotAbove (table : Array (String × Nat)) (word : String) (base size : Nat) : Nat :=
  if _h : 1 < size then
    let half := size / 2
    let middle := base + half
    let next :=
      match table[middle]? with
      | some (text, _) => if compare text word = .gt then base else middle
      | none => base
    lastNotAbove table word next (size - half)
  else base
termination_by size
decreasing_by omega

/-- The symbol of a keyword, found by halving the table. -/
def search (table : Array (String × Nat)) (word : String) : Option Nat :=
  match table[lastNotAbove table word 0 table.size]? with
  | some (text, symbol) => if text = word then some symbol else none
  | none => none

/-- Writes the characters of a word into a buffer, from a place on, and counts them. A character
behind the buffer's end is only counted. -/
def fill (buffer : Array UInt8) (place : Nat) : Input → Array UInt8 × Nat
  | some x :: rest =>
    if isWordPart x then fill (buffer.setIfInBounds place x.toUInt8) (place + 1) rest
    else (buffer, place)
  | none :: _ => (buffer, place)
  | [] => (buffer, place)

/-- The text of ASCII characters. -/
def textOf (bytes : List UInt8) : String :=
  String.ofList (bytes.map fun b => Char.ofNat b.toNat)

/-- Reads a whole word and looks it up, unless it is longer than every keyword. -/
def lex (table : Array (String × Nat)) (longest : Nat) (c : Cursor) : Cursor :=
  if c.sees isWordStart then
    let (buffer, length) := fill (Array.replicate longest 0) 0 c.rest
    let c := c.advance length
    if length ≤ longest then
      match search table (textOf (buffer.toList.take length)) with
      | some symbol => c.accept (TokenSet.symbolAt symbol)
      | none => c
    else c
  else c

end GrammarTables.Keyword
