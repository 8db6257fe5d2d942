import GrammarTables.ParseTable.Basic

/-!
# Passing by unit states

A unit state only makes a symbol that does not show of one child. Whatever would enter it goes to
where that symbol leads instead. States that nothing leads to any more are left out.
-/

namespace GrammarTables

namespace Bypass

/-- The symbol that an action reduces one child to, if that is all it does and the symbol is no
named variable. -/
def unitSymbol? (g : FlatGrammar) : Action → Option Symbol
  | .reduce r =>
    if r.children = 1 ∧ r.production = 0 ∧ g.symbolKind r.symbol ≠ .named ∧ !g.isExtra r.symbol
    then some r.symbol else none
  | _ => none

/-- The symbol that all of a state's actions reduce one child to. -/
def unit? (g : FlatGrammar) (s : State) : Option Symbol :=
  let actions := (s.actions.toList.flatMap id).filter (· != .shiftExtra)
  match actions.head?.bind (unitSymbol? g) with
  | some unit => if actions.all (unitSymbol? g · == some unit) then some unit else none
  | none => none

/-- Follows a target through unit states, at most the given number of times. -/
def follow (units : Array (Option Symbol)) (s : State) : Nat → Nat → Nat
  | 0, target => target
  | fuel + 1, target =>
    match (units[target]?).join with
    | some (.nonterminal v) =>
      match s.goto? v with
      | some next => if next = target then target else follow units s fuel next
      | none => target
    | _ => target

/-- The states with no target that is a unit state. -/
def redirect (g : FlatGrammar) (states : Array State) : Array State :=
  let units := states.map (unit? g)
  states.map fun s => s.mapTargets (follow units s units.size)

/-- Whether each state is the error state, the start state or one that a state leads to. -/
def used (states : Array State) : Array Bool :=
  states.foldl (fun used s => s.successors.foldl (fun used i => used.setIfInBounds i true) used)
    (states.mapIdx fun i _ => i ≤ ParseTable.startState)

/-- The numbers of the states when only those that are used count. -/
def renumber (used : List Bool) : Array Nat :=
  (used.foldl (fun (n, table) u => (if u then n + 1 else n, table.push n))
    (0, (#[] : Array Nat))).2

/-- The states that are used. -/
def prune (states : Array State) : Array State :=
  let used := used states
  let table := renumber used.toList
  ((states.zip used).filter (·.2)).map fun (s, _) => s.mapTargets fun i => table[i]?.getD 0

/-- The states without unit states. -/
def states (g : FlatGrammar) (states : Array State) : Array State := prune (redirect g states)

end Bypass

end GrammarTables
