import GrammarTables.Body

/-!
# Productions

A body without repetitions spelled out as productions: one for each way through its choices. Each
step of a production carries the precedence, associativity and field that its place in the body
gives it.
-/

namespace GrammarTables

structure Step where
  symbol : Symbol
  precedence : Int
  associativity : Option Associativity
  field : Option String
  deriving DecidableEq, Repr

structure Production where
  steps : List Step
  dynamic : Int
  deriving DecidableEq, Repr

namespace Production

def isEmpty (p : Production) : Bool := p.steps.isEmpty

def symbols (p : Production) : List Symbol := p.steps.map (·.symbol)

end Production

namespace Body

mutual

/-- The choice-free bodies of a body, the first choice varying slowest. -/
def alternatives : Body → List Body
  | .seq members => (alternativesAll members).map .seq
  | .choice members => alternativesAny members
  | .attr attrs content => (alternatives content).map (.attr attrs)
  | .blank => [.blank]
  | .symbol s => [.symbol s]
  | .repeat1 content => [.repeat1 content]

def alternativesAll : List Body → List (List Body)
  | [] => [[]]
  | b :: rest =>
    let tails := alternativesAll rest
    (alternatives b).flatMap fun a => tails.map (a :: ·)

def alternativesAny : List Body → List Body
  | [] => []
  | b :: rest => alternatives b ++ alternativesAny rest

end

/-- What the blocks around a place say. -/
structure Scope where
  precedence : Option Int := none
  associativity : Option Associativity := none
  field : Option String := none

namespace Scope

/-- The scope inside a block. -/
def within (scope : Scope) (attrs : Attributes) : Scope where
  precedence := attrs.precedence <|> scope.precedence
  associativity := attrs.associativity <|> scope.associativity
  field := attrs.field <|> scope.field

def step (scope : Scope) (s : Symbol) : Step where
  symbol := s
  precedence := scope.precedence.getD 0
  associativity := scope.associativity
  field := scope.field

/-- A step that ends a block before the end of the body competes with what follows the block, so it
takes what the scope around the block gives. -/
def close (scope : Scope) (attrs : Attributes) (s : Step) : Step :=
  { s with
    precedence := if attrs.precedence.isSome then scope.precedence.getD 0 else s.precedence
    associativity := if attrs.associativity.isSome then scope.associativity else s.associativity }

end Scope

/-- The list with its last member changed. -/
def modifyLast {α : Type} (f : α → α) : List α → List α
  | [] => []
  | [a] => [f a]
  | a :: b :: rest => a :: modifyLast f (b :: rest)

mutual

/-- The steps of a choice-free body. A body is at the end when nothing follows it in the sequences
around it. -/
def steps (scope : Scope) (atEnd : Bool) : Body → List Step
  | .symbol s => [scope.step s]
  | .seq members => stepsAll scope atEnd members
  | .attr attrs content =>
    let inner := steps (scope.within attrs) atEnd content
    if atEnd then inner else modifyLast (scope.close attrs) inner
  | .blank => []
  | .choice _ => []
  | .repeat1 _ => []

def stepsAll (scope : Scope) (atEnd : Bool) : List Body → List Step
  | [] => []
  | b :: rest => steps scope (atEnd && rest.isEmpty) b ++ stepsAll scope atEnd rest

end

mutual

/-- The dynamic precedences of a choice-free body's blocks, each block before those in it. -/
def dynamics : Body → List Int
  | .seq members => dynamicsAll members
  | .attr attrs content => attrs.dynamic :: dynamics content
  | .blank => []
  | .symbol _ => []
  | .choice _ => []
  | .repeat1 _ => []

def dynamicsAll : List Body → List Int
  | [] => []
  | b :: rest => dynamics b ++ dynamicsAll rest

end

/-- The size of a dynamic precedence as a word of 32 bits. The least word has no size that is one:
it stays what it is. -/
def magnitude (v : Int) : Int := (v.natAbs : Int).bmod 4294967296

/-- The dynamic precedence of greatest size, the first of those. -/
def strongest (values : List Int) : Int :=
  values.foldl (fun best v => if magnitude best < magnitude v then v else best) 0

/-- The production of a choice-free body. -/
def production (b : Body) : Production where
  steps := steps {} true b
  dynamic := strongest b.dynamics

/-- The productions of a body, each once. -/
def productions (b : Body) : List Production := (b.alternatives.map production).eraseDups

end Body

end GrammarTables
