import GrammarTables.Item.Basic

/-!
# The order of reductions

Complete items give their reductions in this order. When a parser splits and its branches meet again
the last reduction wins, so the order settles ambiguities.
-/

namespace GrammarTables

instance : Ord Associativity where
  compare
    | .left, .left => .eq
    | .left, .right => .lt
    | .right, .left => .gt
    | .right, .right => .eq

namespace Step

def compareFields (s t : Step) : Ordering := compare s.field t.field

def compare (s t : Step) : Ordering :=
  (Ord.compare s.symbol t.symbol).then <| (Ord.compare s.precedence t.precedence).then <|
    (Ord.compare s.associativity t.associativity).then <| s.compareFields t

/-- Compares steps pairwise; of the given number of steps before the dot only the fields count. -/
def compareAll : Nat → List Step → List Step → Ordering
  | 0, s :: ss, t :: ts => (s.compare t).then (compareAll 0 ss ts)
  | n + 1, s :: ss, t :: ts => (s.compareFields t).then (compareAll n ss ts)
  | _, [], _ => .eq
  | _, _ :: _, [] => .eq

end Step

namespace Item

/-- Items compare by their dots, then by what they belong to, then by the shapes of their
productions. -/
def reductionOrder (g : FlatGrammar) (a b : Item) : Ordering :=
  let p := a.productionIn g
  let q := b.productionIn g
  (compare a.dot b.dot).then <| (compare a.head b.head).then <|
    (compare p.dynamic q.dynamic).then <|
      (compare p.steps.length q.steps.length).then <|
        (compare (a.precedence g) (b.precedence g)).then <|
          (compare (a.associativity g) (b.associativity g)).then <|
            (Step.compareAll a.dot p.steps q.steps).then <| compare a.production b.production

end Item

end GrammarTables
