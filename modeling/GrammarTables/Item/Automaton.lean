import GrammarTables.Item.Closure
import GrammarTables.Numbering
import GrammarTables.Ordered

/-!
# The automaton of item sets

Its states are kernels, numbered as they are met. State 0 has the empty kernel and state 1 the
initial item before the end of the input. A symbol after a dot leads to the kernel of the items with
the dot moved past it.
-/

namespace GrammarTables

namespace ItemSet

/-- The items in ascending order, so that equal sets are equal lists. -/
def sort (items : ItemSet) : ItemSet :=
  items.mergeSort fun x y => (compare x.1 y.1).isLE

/-- The items with the dot moved on, by the symbols it moves past. -/
def moves (g : FlatGrammar) (items : ItemSet) : List (Symbol × Item × TokenSet) :=
  items.filterMap fun (i, given) => (i.next? g).map fun s => (s, i.advance, given)

/-- The kernels that symbols lead to, in the order of the symbols. -/
def successors (g : FlatGrammar) (items : ItemSet) : List (Symbol × ItemSet) :=
  let moves := moves g items
  (Ordered.ofList (moves.map (·.1))).map fun s =>
    (s, sort (moves.filterMap fun (t, moved) => if t = s then some moved else none))

/-- The items without their lookaheads. -/
def core (items : ItemSet) : List Item := items.map (·.1)

end ItemSet

namespace Automaton

structure State where
  kernel : ItemSet
  closure : ItemSet
  /-- The states that symbols lead to, in the order of the symbols. -/
  successors : List (Symbol × Nat)

/-- The kernels of states 0 and 1. -/
def initialKernels : Numbering ItemSet :=
  ((({} : Numbering ItemSet).number []).2.number [(Item.initial, .singleton .eof)]).2

/-- Visits the kernels in the order of their numbers until each one's state is known. -/
def explore (a : Analysis) : Nat → Array State → Numbering ItemSet → Array State
  | 0, done, _ => done
  | fuel + 1, done, kernels =>
    match kernels.members[done.size]? with
    | none => done
    | some kernel =>
      let closure := a.closure kernel
      let (successors, kernels) := Numbering.numberAll (closure.successors a.grammar) kernels
      explore a fuel (done.push { kernel, closure, successors }) kernels

/-- How many items a grammar has. -/
def itemCount (g : FlatGrammar) : Nat :=
  2 + (g.vars.toList.flatMap (·.productions)).foldl (fun n p => n + p.steps.length + 1) 0

/-- The states of a grammar. An item is in a kernel or not, with any set of lookaheads, which bounds
the number of kernels. -/
def states (a : Analysis) : Array State :=
  explore a (Nat.pow 2 (itemCount a.grammar * (a.grammar.tokenCount + 1)) + 2) #[] initialKernels

/-- The numbers of the states' cores, in the order in which they are met. -/
def cores (states : Array State) : List Nat :=
  (Numbering.ofList (states.toList.map (·.kernel.core))).1

end Automaton

end GrammarTables
