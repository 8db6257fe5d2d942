import GrammarTables.Regex.Basic
import GrammarTables.Text.Word

/-!
# Matching

An expression takes a set of places in a text to the set of places where a match that starts at one
of them can end. Sets of places are masks: bit `i` stands for the place before the character `i`.
-/

namespace GrammarTables

/-- Whether a character is there and satisfies the test. -/
def Look.holdsOf (p : Char → Bool) (c : Option Char) : Bool := c.elim false p

def WordEdge.holds (edge : WordEdge) (before after : Bool) : Bool :=
  match edge with
  | .boundary => before != after
  | .interior => before == after
  | .start => !before && after
  | .stop => before && !after
  | .startHalf => !before
  | .stopHalf => !after

/-- Whether a look is satisfied between two characters; at an end of the text there is none. -/
def Look.holds (look : Look) (before after : Option Char) : Bool :=
  match look with
  | .textStart => before.isNone
  | .textEnd => after.isNone
  | .lineStart false => before.isNone || before == some '\n'
  | .lineEnd false => after.isNone || after == some '\n'
  | .lineStart true =>
    before.isNone || before == some '\n' || (before == some '\r' && after != some '\n')
  | .lineEnd true =>
    after.isNone || after == some '\r' || (after == some '\n' && before != some '\r')
  | .word edge ascii =>
    let isWord := if ascii then Text.isAsciiWord else Text.isWord
    edge.holds (Look.holdsOf isWord before) (Look.holdsOf isWord after)

namespace Regex

/-- The places before characters that satisfy the test. -/
def placesBefore (p : Char → Bool) : List Char → Nat
  | [] => 0
  | c :: rest => (if p c then 1 else 0) ||| (placesBefore p rest <<< 1)

/-- The places where a look is satisfied. -/
def placesOfLook (look : Look) (before : Option Char) : List Char → Nat
  | [] => if look.holds before none then 1 else 0
  | c :: rest =>
    (if look.holds before (some c) then 1 else 0) ||| (placesOfLook look (some c) rest <<< 1)

/-- A step taken a number of times. From no place at all it leads nowhere. -/
def iterate (step : Nat → Nat) : Nat → Nat → Nat
  | 0, places => places
  | n + 1, places => if places = 0 then 0 else iterate step n (step places)

/-- A step taken any number of times up to a bound. The places `fresh` are those reached last, from
where a step can still lead to a new place; once there is none, going on changes nothing. -/
def upTo (step : Nat → Nat) : Nat → Nat → Nat → Nat
  | 0, places, _ => places
  | n + 1, places, fresh =>
    let next := (step fresh ||| places) ^^^ places
    if next = 0 then places else upTo step n (places ||| next) next

/-- Where matches that start at the given places end. A text with `n` characters has `n + 1` places,
so a repetition that goes on longer than that comes back to a place and changes nothing. -/
def ends (text : List Char) : Regex → Nat → Nat
  | .empty, places => places
  | .chars s, places => (places &&& placesBefore s.contains text) <<< 1
  | .look l, places => places &&& placesOfLook l none text
  | .group r, places => ends text r places
  | .concat l r, places => ends text r (ends text l places)
  | .alternate l r, places => ends text l places ||| ends text r places
  | .repeated r least most, places =>
    let bound := text.length + 1
    let more :=
      match most with
      | none => bound
      | some most => min (most - least) bound
    let start := iterate (ends text r) (min least bound) places
    upTo (ends text r) more start start

/-- Whether there is a match anywhere in the text. -/
def isMatch (r : Regex) (text : String) : Bool :=
  let cs := text.toList
  ends cs r (Nat.pow 2 (cs.length + 1) - 1) != 0

end Regex

end GrammarTables
