import GrammarTables.ParseTable.Basic

/-!
# Merging states

States with the same core become one when no text is lexed or parsed differently for it. Groups
start as the cores and are split until all states of a group are compatible.
-/

namespace GrammarTables

namespace FlatGrammar

/-- For each terminal the tokens that can start with a character it can start with. The end of the
input starts with none. -/
def overlaps (g : FlatGrammar) : Array TokenSet :=
  let firsts := g.tokens.map (·.pattern.first)
  #[TokenSet.empty] ++ firsts.map fun s =>
    TokenSet.ofList ((firsts.toList.zipIdx.filter fun (t, _) => t.overlaps s).map fun (_, i) =>
      .terminal i)

end FlatGrammar

namespace Merge

/-- Whether actions are equal up to the groups of their targets. -/
def sameActions (groupOf : Array Nat) (as bs : List Action) : Bool :=
  let rename := fun (a : Action) => a.mapTarget fun s => groupOf[s]?.getD 0
  as.map rename == bs.map rename

/-- Whether a terminal of the first set that is not in the second overlaps one of the second. -/
def confuses (overlaps : Array TokenSet) (new old : TokenSet) : Bool :=
  new.positions.any fun i =>
    !old.mask.testBit i && !((overlaps[i]?.getD .empty).inter old).isEmpty

/-- Whether two states can be one: entries that both have agree, and a token that only one has
cannot be confused with one of the other's. -/
def compatible (overlaps tokens : Array TokenSet) (states : Array State) (groupOf : Array Nat)
    (i j : Nat) : Bool :=
  match states[i]?, states[j]? with
  | some s, some t =>
    let sTokens := tokens[i]?.getD .empty
    let tTokens := tokens[j]?.getD .empty
    ((s.actions.zip t.actions).all fun (as, bs) =>
      as.isEmpty || bs.isEmpty || sameActions groupOf as bs) &&
    !confuses overlaps sTokens tTokens && !confuses overlaps tTokens sTokens &&
    (s.gotos.zip t.gotos).all fun
      | (some m, some n) => groupOf[m]?.getD 0 == groupOf[n]?.getD 0
      | _ => true
  | _, _ => true

/-- Puts a state into the first subgroup whose members are all compatible with it, or into a new
one. -/
def place (compatible : Nat → Nat → Bool) (i : Nat) : List (List Nat) → List (List Nat)
  | [] => [[i]]
  | group :: rest =>
    if group.all fun j => compatible i j then (group ++ [i]) :: rest
    else group :: place compatible i rest

/-- The subgroups of a group. -/
def split (compatible : Nat → Nat → Bool) (group : List Nat) : List (List Nat) :=
  group.foldl (fun groups i => place compatible i groups) []

/-- The group of each state. -/
def groupOf (count : Nat) (groups : List (List Nat)) : Array Nat :=
  groups.zipIdx.foldl
    (fun table (group, n) => group.foldl (fun table s => table.setIfInBounds s n) table)
    (Array.replicate count 0)

/-- The states by their cores, in the order of the cores. -/
def byCore (states : Array State) : List (List Nat) :=
  let groups := states.toList.zipIdx.foldl
    (fun groups (s, i) => groups.modify s.core (i :: ·))
    (Array.replicate states.size ([] : List Nat))
  (groups.toList.filter (!·.isEmpty)).map List.reverse

/-- Splits the groups until a round leaves their number as it is. -/
def refine (count : Nat) (compatible : Array Nat → Nat → Nat → Bool) :
    Nat → List (List Nat) → List (List Nat)
  | 0, groups => groups
  | fuel + 1, groups =>
    let table := groupOf count groups
    let next := groups.flatMap (split (compatible table))
    if next.length = groups.length then next else refine count compatible fuel next

/-- The first entry of each terminal and variable among the states of a group. -/
def union (states : List State) : State :=
  match states with
  | [] => default
  | s :: rest =>
    rest.foldl
      (fun m t =>
        { m with
          actions := m.actions.zipWith (fun as bs => if as.isEmpty then bs else as) t.actions
          gotos := m.gotos.zipWith (fun a b => a <|> b) t.gotos })
      s

/-- The groups of compatible states, each in ascending order, by their first states. -/
def groups (g : FlatGrammar) (states : Array State) : List (List Nat) :=
  let overlaps := g.overlaps
  let tokens := states.map (·.tokens)
  let count := states.size
  (refine count (compatible overlaps tokens states) (count + 1) (byCore states)).mergeSort
    fun a b => (a.head?.getD 0) ≤ (b.head?.getD 0)

/-- One state for each group of compatible states. -/
def states (g : FlatGrammar) (states : Array State) : Array State :=
  let groups := groups g states
  let table := groupOf states.size groups
  (groups.map fun group =>
    (union (group.filterMap fun i => states[i]?)).mapTargets fun s => table[s]?.getD 0).toArray

end Merge

end GrammarTables
