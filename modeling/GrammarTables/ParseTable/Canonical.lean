import GrammarTables.ParseTable.Contest

/-!
# The canonical table

The parse table with a state for each kernel of the automaton.
-/

namespace GrammarTables

namespace Canonical

/-- The layouts of productions by variable and production. -/
def layouts (g : FlatGrammar) : Array (Array FieldLayout) :=
  let exposed := FieldLayout.exposed g
  g.vars.map fun v => (v.productions.map (FieldLayout.ofProduction g exposed)).toArray

/-- Looks an item's production up. -/
def lookup {α : Type} (table : Array (Array α)) (default : α) (i : Item) : α :=
  match i.head with
  | .nonterminal v => (table[v]?.getD #[])[i.production]?.getD default
  | .start => default

/-- The complete items whose productions are reduced. -/
def reduced (completed : ItemSet) : List Item := completed.core.filter fun i => !i.isStart

/-- The layouts by production number: no fields, then each other layout as it is first reduced. -/
def numbered (layouts : Array (Array FieldLayout)) (reduced : List Item) : List FieldLayout :=
  ([] :: reduced.map (lookup layouts [])).eraseDups

/-- The reductions of productions by variable and production. -/
def reductions (g : FlatGrammar) (layouts : Array (Array FieldLayout))
    (numbered : List FieldLayout) : Array (Array Action) :=
  (g.vars.zip layouts).mapIdx fun i (v, layouts) =>
    (v.productions.toArray.zip layouts).map fun (p, layout) =>
      .reduce
        { symbol := .nonterminal i
          children := p.steps.length
          dynamic := p.dynamic
          production := numbered.idxOf layout }

/-- The actions of a state for a terminal, and what they conflict in. -/
def entry (a : Analysis) (reductionOf : Item → Action) (s : Automaton.State) (completed : ItemSet)
    (t : Symbol) : List Action × Option (List Symbol) :=
  let offer := completed.offer a.grammar reductionOf t
  let shift := (s.successors.lookup t).map fun n => Action.shift n false
  a.contest s.closure t offer.rank (offer.actions ++ shift.toList)

/-- An extra without other actions is passed over. -/
def withExtra (g : FlatGrammar) (t : Symbol) (actions : List Action) : List Action :=
  if actions.isEmpty && g.isExtra t then [.shiftExtra] else actions

/-- In the error state a token without other actions starts recovery. A token that takes no padding
before it makes sense only after another, so it does not. -/
def withRecovery (g : FlatGrammar) (t : Symbol) (actions : List Action) : List Action :=
  if actions.isEmpty && !((g.token? t).map (·.immediate)).getD false then [.recover] else actions

/-- A state, and its conflicts with their lookaheads. -/
def state (a : Analysis) (reductionOf : Item → Action) (number core : Nat) (s : Automaton.State)
    (completed : ItemSet) : State × List (Symbol × List Symbol) :=
  let g := a.grammar
  let entries := g.terminals.map fun t => (t, entry a reductionOf s completed t)
  let actions := entries.map fun (t, actions, _) =>
    let actions := withExtra g t actions
    if number = ParseTable.errorState then withRecovery g t actions else actions
  ({ actions := actions.toArray
     gotos := (g.nonterminals.map (s.successors.lookup ·)).toArray
     core },
    entries.filterMap fun (t, _, conflict) => conflict.map (t, ·))

def report (g : FlatGrammar) (state : Nat) (conflict : Symbol × List Symbol) : Conflict where
  symbols := conflict.2.map g.symbolName
  lookahead := g.symbolName conflict.1
  state := state

/-- The conflicts between the same names before the same name only where they come first. -/
def distinct (conflicts : List Conflict) : List Conflict :=
  conflicts.eraseDupsBy fun c d => c.symbols == d.symbols && c.lookahead == d.lookahead

end Canonical

/-- A limit on a number in the tables. -/
def checkLimit (what : String) (count limit : Nat) : Except Error Unit :=
  if limit < count then .error (.tableLimit what count limit) else .ok ()

/-- The canonical table of a grammar, and its conflicts. -/
def ParseTable.canonical (g : FlatGrammar) : Except Error (ParseTable × List Conflict) := do
  let a := Analysis.ofGrammar g
  let states := Automaton.states a
  let completed := states.toList.map fun s => s.closure.completed g
  let layouts := Canonical.layouts g
  let reduced := completed.flatMap Canonical.reduced
  let numbered := Canonical.numbered layouts reduced
  let reductions := Canonical.reductions g layouts numbered
  let reductionOf := Canonical.lookup reductions .accept
  let built := ((states.toList.zip completed).zip (Automaton.cores states)).mapIdx
    fun i ((s, completed), core) => Canonical.state a reductionOf i core s completed
  let conflicts := built.zipIdx.flatMap fun ((_, conflicts), i) =>
    conflicts.map (Canonical.report g i)
  checkLimit "parse states" states.size 65535
  checkLimit "production ids" numbered.length 65535
  return (
    { states := (built.map (·.1)).toArray
      layouts := numbered
      maxChildren := reduced.foldl (fun n i => max n (i.productionIn g).steps.length) 0 },
    Canonical.distinct conflicts)

end GrammarTables
