import GrammarTables.ParseTable.Bypass
import GrammarTables.ParseTable.Canonical
import GrammarTables.ParseTable.Merge
import GrammarTables.ParseTable.Order

/-!
# The tables of a grammar

The parse table in its final form, and for each state what its lexer may return.
-/

namespace GrammarTables

structure Tables where
  table : ParseTable
  largeCount : Nat
  /-- For each state the first one with its core. -/
  primary : List Nat
  /-- The tokens that a lexer may return, by lexer state. -/
  lexSets : List TokenSet
  /-- The lexer state of each state. -/
  lexStates : List Nat
  /-- For each state the terminals whose entries can be used again when a text is parsed anew. -/
  reusable : List TokenSet
  conflicts : List Conflict

namespace Tables

/-- The tokens that a state's lexer may return. A keyword is lexed as a word. -/
def lexSet (g : FlatGrammar) (s : State) : TokenSet :=
  .ofList (s.tokens.toList.map fun t =>
    match g.word with
    | some word => if g.isKeyword t then word else t
    | none => t)

/-- The terminals of a set that no other one of the set can be taken for by its first character. -/
def unambiguous (overlaps : Array TokenSet) (tokens : TokenSet) : TokenSet :=
  .ofList (tokens.toList.filter fun t =>
    let others := (overlaps[TokenSet.position t]?.getD .empty).inter tokens
    others.isEmpty || others == .singleton t)

/-- The tables of a grammar. -/
def ofGrammar (g : FlatGrammar) : Except Error Tables := do
  let (canonical, conflicts) ← ParseTable.canonical g
  let states := StateOrder.states (Bypass.states g (Merge.states g canonical.states))
  let lexed := states.toList.map (lexSet g)
  let lexSets := lexed.eraseDups
  let overlaps := g.overlaps
  return {
    table := { canonical with states }
    largeCount := StateOrder.largeCount g states
    primary := StateOrder.primary states
    lexSets
    lexStates := lexed.map lexSets.idxOf
    reusable := states.toList.map fun s => unambiguous overlaps s.tokens
    conflicts }

end Tables

end GrammarTables
