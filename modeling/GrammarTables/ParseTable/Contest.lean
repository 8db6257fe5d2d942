import GrammarTables.Item.Automaton
import GrammarTables.Item.Order
import GrammarTables.ParseTable.Basic

/-!
# Contests

Which of the actions that the items of a state offer for a lookahead stay. Reductions of lower
precedence give way to those of higher precedence; then a shift and reductions compare by
precedence, and between equals the reductions' associativity settles it. What is still open is a
conflict unless the grammar expects it.
-/

namespace GrammarTables

/-- The precedence of the reductions that stay, and the associativities among them. -/
structure Rank where
  precedence : Int
  left : Bool := false
  right : Bool := false
  /-- Some reduction has no associativity. -/
  neither : Bool := false
  deriving DecidableEq, Repr

namespace Rank

def add (r : Rank) : Option Associativity → Rank
  | some .left => { r with left := true }
  | some .right => { r with right := true }
  | none => { r with neither := true }

end Rank

/-- The actions of complete items for a lookahead. -/
structure Offer where
  actions : List Action := []
  /-- Nothing before the first reduction. -/
  rank : Option Rank := none
  deriving DecidableEq, Repr

namespace Offer

def addAccept (o : Offer) : Offer := { o with actions := o.actions ++ [.accept] }

/-- Adds a reduction. One of higher precedence than those before it takes their place. -/
def addReduction (o : Offer) (action : Action) (precedence : Int)
    (associativity : Option Associativity) : Offer :=
  match o.rank with
  | none =>
    { actions := o.actions ++ [action], rank := some ({ precedence : Rank }.add associativity) }
  | some rank =>
    match compare precedence rank.precedence with
    | .gt => { actions := [action], rank := some ({ precedence : Rank }.add associativity) }
    | .eq =>
      { actions := if o.actions.contains action then o.actions else o.actions ++ [action]
        rank := some (rank.add associativity) }
    | .lt => o

end Offer

namespace ItemSet

/-- The complete items in the order in which they give their reductions. -/
def completed (g : FlatGrammar) (closure : ItemSet) : ItemSet :=
  (closure.filter fun (i, _) => (i.next? g).isNone).mergeSort fun x y =>
    (Item.reductionOrder g x.1 y.1).isLE

/-- What complete items offer for a lookahead, given the reductions of items. -/
def offer (g : FlatGrammar) (reductionOf : Item → Action) (completed : ItemSet)
    (lookahead : Symbol) : Offer :=
  completed.foldl
    (fun o (i, given) =>
      if i.isStart then if lookahead = .eof then o.addAccept else o
      else if given.contains lookahead then
        o.addReduction (reductionOf i) (i.precedence g) (i.associativity g)
      else o)
    {}

end ItemSet

namespace Analysis

/-- Whether an item is past its start and can go on with the lookahead. -/
def continues (a : Analysis) (lookahead : Symbol) (i : Item) : Bool :=
  match i.next? a.grammar with
  | some s => 0 < i.dot && (a.first s).contains lookahead
  | none => false

/-- Whether an item is complete before the lookahead. -/
def completes (a : Analysis) (lookahead : Symbol) (x : Item × TokenSet) : Bool :=
  (x.1.next? a.grammar).isNone && x.2.contains lookahead

/-- The items that compete for a lookahead. -/
def rivals (a : Analysis) (closure : ItemSet) (lookahead : Symbol) : List Item :=
  (closure.filter fun x =>
    !x.1.isStart && (a.completes lookahead x || a.continues lookahead x.1)).map (·.1)

/-- Whether all rivals belong to the tree of one repetition. -/
def sameRepetition (a : Analysis) (rivals : List Item) : Bool :=
  match rivals with
  | [] => false
  | i :: _ =>
    match i.head with
    | .nonterminal v =>
      a.grammar.symbolKind (.nonterminal v) == .auxiliary && rivals.all (·.head == i.head)
    | .start => false

/-- Settles a shift against reductions, given the items that go on with the lookahead. -/
def settleShift (a : Analysis) (continuing : List Item) (rank : Option Rank)
    (actions : List Action) : List Action :=
  let reduction := (rank.map (·.precedence)).getD 0
  let more := continuing.any fun i => reduction < i.precedence a.grammar
  let less := continuing.any fun i => i.precedence a.grammar < reduction
  let shift := actions.filter Action.isShift
  let reductions := actions.filter fun x => !x.isShift
  match more, less, rank with
  | true, false, _ => shift
  | false, true, _ => reductions
  | false, false, some rank =>
    if rank.left && !rank.neither && !rank.right then reductions
    else if rank.right && !rank.neither && !rank.left then shift
    else actions
  | _, _, _ => actions

/-- The variable that a conflict names for an item: for the tree of a repetition, the variable it
was first met in. -/
def blamed (a : Analysis) (i : Item) : Symbol :=
  match i.head with
  | .start => FlatGrammar.start
  | .nonterminal v =>
    match a.grammar.vars[v]? with
    | some { kind := .auxiliary, parent := some p, .. } => p
    | _ => .nonterminal v

/-- The actions that stay for a lookahead, and between which variables there is a conflict that the
grammar does not expect. -/
def contest (a : Analysis) (closure : ItemSet) (lookahead : Symbol) (rank : Option Rank)
    (actions : List Action) : List Action × Option (List Symbol) :=
  if actions.length ≤ 1 then (actions, none)
  else
    let rivals := a.rivals closure lookahead
    let hasShift := actions.any Action.isShift
    if hasShift && a.sameRepetition rivals then
      (actions.map fun
        | .shift state _ => .shift state true
        | x => x, none)
    else
      let actions :=
        if hasShift then a.settleShift (rivals.filter (a.continues lookahead)) rank actions
        else actions
      let symbols := Ordered.ofList (rivals.map a.blamed)
      if actions.length ≤ 1 || a.grammar.conflicts.contains symbols then (actions, none)
      else (actions, some symbols)

end Analysis

end GrammarTables
