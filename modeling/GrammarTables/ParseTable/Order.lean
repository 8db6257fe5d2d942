import GrammarTables.ParseTable.Basic

/-!
# The order of states

States with more entries come first, behind the error and the start state. The first of them are
large enough to be stored as whole rows.
-/

namespace GrammarTables

namespace StateOrder

/-- The numbers of the states in their new order. -/
def order (states : Array State) : List Nat :=
  let rest := ((states.toList.zipIdx.map fun (s, i) => (i, s.entryCount)).drop 2).mergeSort
    fun x y => y.2 ≤ x.2
  (List.range states.size).take 2 ++ rest.map (·.1)

/-- The place of each number in a list of numbers. -/
def places (order : List Nat) : Array Nat :=
  order.zipIdx.foldl (fun table (old, new) => table.setIfInBounds old new)
    (Array.replicate order.length 0)

/-- The states with the larger ones first. -/
def states (states : Array State) : Array State :=
  let order := order states
  let table := places order
  (order.filterMap fun i => states[i]?.map (·.mapTargets fun s => table[s]?.getD 0)).toArray

/-- States with more entries than this are large. -/
def threshold (g : FlatGrammar) : Nat := min 64 (g.symbolCount / 2)

/-- How many states at the front are large. The error state and the start state always are. -/
def largeCount (g : FlatGrammar) (states : Array State) : Nat :=
  (states.toList.zipIdx.takeWhile fun (s, i) =>
    i ≤ ParseTable.startState || threshold g < s.entryCount).length

/-- For each state the first one with its core. -/
def primary (states : Array State) : List Nat :=
  let cores := states.toList.map (·.core)
  cores.map cores.idxOf

end StateOrder

end GrammarTables
