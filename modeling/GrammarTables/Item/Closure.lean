import GrammarTables.Item.Basic
import GrammarTables.Opening

/-!
# Closures

Where an item has a variable after its dot, the closure of an item set holds the variable's
productions too, with the lookaheads that can follow the variable there. All productions of a
variable get the same lookaheads, so a closure is found by variables.
-/

namespace GrammarTables

/-- A variable after a dot, and what follows it in the production. -/
structure Demand where
  target : Nat
  follow : Opening
  deriving DecidableEq, Repr

namespace Demand

def ofSteps (openings : Array Opening) : List Step → Option Demand
  | [] => none
  | s :: rest =>
    match s.symbol with
    | .nonterminal v => some ⟨v, .ofSymbols openings (rest.map (·.symbol))⟩
    | _ => none

/-- The lookaheads of the variable, given those of the item. -/
def lookaheads (d : Demand) (given : TokenSet) : TokenSet :=
  (d.follow.andThen ⟨given, false⟩).first

end Demand

/-- A flat grammar with its openings and with what its productions demand at their starts. -/
structure Analysis where
  grammar : FlatGrammar
  openings : Array Opening
  demands : Array (List Demand)

namespace Analysis

def ofGrammar (g : FlatGrammar) : Analysis :=
  let openings := g.openings
  { grammar := g
    openings
    demands := g.vars.map fun v =>
      (v.productions.filterMap fun p => Demand.ofSteps openings p.steps).eraseDups }

/-- The terminals that a symbol can begin with. -/
def first (a : Analysis) (s : Symbol) : TokenSet := (Opening.ofSymbol a.openings s).first

end Analysis

/-- The lookaheads of variables; a variable without any is not in the closure. -/
abbrev Lookaheads := Array (Option TokenSet)

namespace Lookaheads

/-- Gives a variable more lookaheads. -/
def add (known : Lookaheads) (v : Nat) (more : TokenSet) : Lookaheads :=
  known.modify v fun old => some ((old.getD .empty).union more)

/-- Gives the variables their lookaheads that are demanded of an item with the given lookaheads. -/
def meet (known : Lookaheads) (demands : List Demand) (given : TokenSet) : Lookaheads :=
  demands.foldl (fun known d => known.add d.target (d.lookaheads given)) known

/-- What the kernel demands. -/
def ofKernel (a : Analysis) (kernel : ItemSet) : Lookaheads :=
  kernel.foldl
    (fun known (i, given) => known.meet (Demand.ofSteps a.openings (i.rest a.grammar)).toList given)
    (Array.replicate a.grammar.vars.size none)

/-- What a variable with lookaheads demands. -/
def visit (a : Analysis) (known : Lookaheads) (v : Nat) : Lookaheads :=
  match known[v]? with
  | some (some given) =>
    if given.isEmpty then known else known.meet (a.demands[v]?.getD []) given
  | _ => known

def sweep (a : Analysis) (known : Lookaheads) : Lookaheads :=
  (List.range known.size).foldl (visit a) known

/-- The items at the starts of the productions of variables. -/
def items (g : FlatGrammar) (known : Lookaheads) : ItemSet :=
  (known.toList.zip g.vars.toList).zipIdx.flatMap fun ((given, v), i) =>
    match given with
    | none => []
    | some given => (List.range v.productions.length).map fun p => (⟨.nonterminal i, p, 0⟩, given)

end Lookaheads

/-- The items of a kernel and those that they demand. -/
def Analysis.closure (a : Analysis) (kernel : ItemSet) : ItemSet :=
  let fuel := a.grammar.vars.size * (a.grammar.tokenCount + 1) + 1
  let known := settle (Lookaheads.sweep a) fuel (.ofKernel a kernel)
  kernel ++ known.items a.grammar

end GrammarTables
