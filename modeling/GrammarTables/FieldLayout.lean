import GrammarTables.Fixpoint
import GrammarTables.FlatGrammar

/-!
# Field layouts

Where the fields of a node are found among the children of its production. A child that does not
show in the tree exposes its own fields through the node.
-/

namespace GrammarTables

structure FieldPlace where
  index : Nat
  /-- The child exposes the field from inside. -/
  inherited : Bool
  deriving DecidableEq, Repr

/-- The places of each field, the fields in ascending order. -/
abbrev FieldLayout := List (String × List FieldPlace)

namespace FlatGrammar

/-- Whether a symbol is a variable that leaves its children to the node above it. -/
def isInvisible (g : FlatGrammar) (s : Symbol) : Bool :=
  s.isNonterminal && !(g.symbolKind s).isVisible

end FlatGrammar

namespace FieldLayout

/-- The fields that a symbol exposes to the node above it, given those of the variables. -/
def exposedBy (g : FlatGrammar) (exposed : Array (List String)) (s : Symbol) : List String :=
  match s with
  | .nonterminal v => if g.isInvisible s then exposed[v]?.getD [] else []
  | _ => []

/-- The fields that a step brings, its own and those of its symbol. -/
def stepFields (g : FlatGrammar) (exposed : Array (List String)) (s : Step) : List String :=
  s.field.toList ++ exposedBy g exposed s.symbol

/-- The fields of the variables by those of the symbols in their productions. -/
def sweep (g : FlatGrammar) (exposed : Array (List String)) : Array (List String) :=
  g.vars.map fun v =>
    Ordered.ofList (v.productions.flatMap fun p => p.steps.flatMap (stepFields g exposed))

/-- All fields of a grammar. -/
def allFields (g : FlatGrammar) : List String :=
  Ordered.ofList (g.vars.toList.flatMap fun v =>
    v.productions.flatMap fun p => p.steps.filterMap (·.field))

/-- The fields of each variable, in ascending order. -/
def exposed (g : FlatGrammar) : Array (List String) :=
  settle (sweep g) (g.vars.size * (allFields g).length + 1)
    (Array.replicate g.vars.size [])

/-- Adds a place to a field. -/
def add (layout : FieldLayout) (field : String) (place : FieldPlace) : FieldLayout :=
  Ordered.update field (fun places => places.getD [] ++ [place]) layout

/-- Adds what a step brings at its place. -/
def addStep (g : FlatGrammar) (exposed : Array (List String)) (layout : FieldLayout)
    (step : Step × Nat) : FieldLayout :=
  let (s, index) := step
  let layout :=
    match s.field with
    | some field => layout.add field { index, inherited := false }
    | none => layout
  (exposedBy g exposed s.symbol).foldl
    (fun layout field => layout.add field { index, inherited := true }) layout

/-- The layout of a production. -/
def ofProduction (g : FlatGrammar) (exposed : Array (List String)) (p : Production) :
    FieldLayout :=
  p.steps.zipIdx.foldl (addStep g exposed) []

end FieldLayout

end GrammarTables
