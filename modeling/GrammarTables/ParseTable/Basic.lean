import GrammarTables.FieldLayout
import GrammarTables.TokenSet

/-!
# Parse tables

A parse table gives a state what to do for each terminal, and where to go once a variable is
complete. State 0 is for recovery from errors, and parsing starts in state 1.
-/

namespace GrammarTables

/-- What is made of the topmost children. -/
structure Reduction where
  symbol : Symbol
  children : Nat
  dynamic : Int
  /-- The number of the field layout. -/
  production : Nat
  deriving DecidableEq, Hashable, Repr

inductive Action where
  | accept
  | shift (state : Nat) (repetition : Bool)
  /-- Passes over a token that may stand anywhere. -/
  | shiftExtra
  | recover
  | reduce (reduction : Reduction)
  deriving DecidableEq, Hashable, Repr

namespace Action

def isShift : Action → Bool
  | .shift _ _ => true
  | _ => false

def target? : Action → Option Nat
  | .shift state _ => some state
  | _ => none

/-- The number of an action's sort. -/
def code : Action → Nat
  | .shift _ _ | .shiftExtra => 0
  | .reduce _ => 1
  | .accept => 2
  | .recover => 3

/-- The action with its target renamed. -/
def mapTarget (f : Nat → Nat) : Action → Action
  | .shift state repetition => .shift (f state) repetition
  | a => a

@[simp] theorem mapTarget_id (a : Action) : a.mapTarget (fun s => s) = a := by cases a <;> rfl

end Action

structure State where
  /-- The actions by terminal. A terminal without actions has no entry. -/
  actions : Array (List Action)
  /-- The targets by variable. -/
  gotos : Array (Option Nat)
  /-- States with the same items but for lookaheads have the same core. -/
  core : Nat
  deriving DecidableEq, Repr, Inhabited

namespace State

/-- The actions for a terminal. -/
def on (s : State) (t : Symbol) : List Action := s.actions[TokenSet.position t]?.getD []

/-- The target of a variable. -/
def goto? (s : State) (v : Nat) : Option Nat := (s.gotos[v]?).join

/-- The terminals that have actions. -/
def tokens (s : State) : TokenSet :=
  ⟨s.actions.toList.foldr (fun as mask => (if as.isEmpty then 0 else 1) ||| (mask <<< 1)) 0⟩

/-- The terminals and variables that have entries. -/
def entryCount (s : State) : Nat :=
  s.actions.countP (!·.isEmpty) + s.gotos.countP (·.isSome)

/-- The terminals that have actions, with them. -/
def entries (s : State) : List (Symbol × List Action) :=
  s.actions.toList.zipIdx.filterMap fun (as, i) =>
    if as.isEmpty then none else some (TokenSet.symbolAt i, as)

/-- The variables that have targets, with them. -/
def targets (s : State) : List (Nat × Nat) :=
  s.gotos.toList.zipIdx.filterMap fun (target, v) => target.map (v, ·)

/-- The state with all targets renamed. -/
def mapTargets (f : Nat → Nat) (s : State) : State :=
  { s with
    actions := s.actions.map (·.map (·.mapTarget f))
    gotos := s.gotos.map (·.map f) }

/-- The states that an action or a goto leads to. -/
def successors (s : State) : List Nat :=
  s.actions.toList.flatMap (·.filterMap Action.target?) ++ s.gotos.toList.filterMap id

end State

/-- A conflict that neither precedences nor the grammar's declarations settle. Its actions stay. -/
structure Conflict where
  symbols : List String
  lookahead : String
  /-- The number that the state has in the automaton. -/
  state : Nat
  deriving DecidableEq, Repr

def Conflict.text (c : Conflict) : String :=
  let symbols := ", ".intercalate c.symbols
  let (lookahead, state) := (c.lookahead, c.state)
  s!"unresolved conflict for symbol sequence before `{lookahead}` in state {state} " ++
    s!"between: {symbols}"

structure ParseTable where
  states : Array State
  /-- The field layouts by production number. Number 0 has no fields. -/
  layouts : List FieldLayout
  /-- The most children that a reduction takes. -/
  maxChildren : Nat

namespace ParseTable

def errorState : Nat := 0

def startState : Nat := 1

end ParseTable

end GrammarTables
