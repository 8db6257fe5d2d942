import GrammarTables.FlatGrammar
import GrammarTables.TokenSet

/-!
# Items

An item is a production with a dot in it. Beside the productions of the grammar there is one more,
whose only step is the start symbol.
-/

namespace GrammarTables

/-- What an item's production belongs to. -/
inductive Head where
  | nonterminal (index : Nat)
  /-- The production whose only step is the start symbol. -/
  | start
  deriving DecidableEq, Ord, Hashable, Repr, Inhabited

structure Item where
  head : Head
  production : Nat
  /-- How many steps stand before the dot. -/
  dot : Nat
  deriving DecidableEq, Ord, Hashable, Repr, Inhabited

/-- Items with their lookaheads. -/
abbrev ItemSet := List (Item × TokenSet)

def Production.start : Production where
  steps := [{ symbol := FlatGrammar.start, precedence := 0, associativity := none, field := none }]
  dynamic := 0

namespace Item

def initial : Item := ⟨.start, 0, 0⟩

def advance (i : Item) : Item := { i with dot := i.dot + 1 }

def isStart (i : Item) : Bool := i.head == .start

def productionIn (g : FlatGrammar) (i : Item) : Production :=
  match i.head with
  | .start => .start
  | .nonterminal v => (g.productionsOf (.nonterminal v))[i.production]?.getD ⟨[], 0⟩

/-- The steps after the dot. -/
def rest (g : FlatGrammar) (i : Item) : List Step := (i.productionIn g).steps.drop i.dot

/-- The symbol after the dot. An item without one is complete. -/
def next? (g : FlatGrammar) (i : Item) : Option Symbol := (i.rest g).head?.map (·.symbol)

/-- The step before the dot. -/
def previous? (g : FlatGrammar) (i : Item) : Option Step :=
  match i.dot with
  | 0 => none
  | n + 1 => (i.productionIn g).steps[n]?

/-- The precedence of the step before the dot. -/
def precedence (g : FlatGrammar) (i : Item) : Int := ((i.previous? g).map (·.precedence)).getD 0

def associativity (g : FlatGrammar) (i : Item) : Option Associativity :=
  (i.previous? g).bind (·.associativity)

end Item

end GrammarTables
