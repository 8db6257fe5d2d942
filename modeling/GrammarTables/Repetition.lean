import GrammarTables.Body
import GrammarTables.Token

/-!
# Repetitions

A repetition becomes a variable of its own that is a tree of the repeated content. Repetitions of
the same content share a variable. A hidden rule that is nothing but a repetition becomes the tree
itself.
-/

namespace GrammarTables

/-- A variable by its body. -/
structure Definition where
  name : String
  kind : SymbolKind
  body : Body
  /-- The variable whose body a repetition was first met in. -/
  parent : Option Symbol := none

/-- The variable for a repetition. -/
structure Repetition where
  name : String
  content : Body
  /-- The number of the variable that it was first met in. -/
  owner : Nat

namespace Repetition

/-- Where a repetition stands, and the number that the first variable for one has. -/
structure Site where
  base : Nat
  owner : Nat
  name : String

/-- The repetitions so far, and how many of them were first met at this site. -/
structure Found where
  all : Array Repetition := #[]
  here : Nat := 0

/-- The variable for a repetition of the given content. -/
def Found.variableOf (site : Site) (found : Found) (content : Body) : Symbol × Found :=
  match found.all.findIdx? (·.content == content) with
  | some i => (.nonterminal (site.base + i), found)
  | none =>
    let number := found.here + 1
    let name := s!"{site.name}_repeat{number}"
    (.nonterminal (site.base + found.all.size),
      { all := found.all.push { name, content, owner := site.owner }, here := number })

mutual

/-- The body with variables for its repetitions, the inner ones first. -/
def expand (site : Site) : Body → Found → Body × Found
  | .blank, found => (.blank, found)
  | .symbol s, found => (.symbol s, found)
  | .seq members, found => (expandAll site members found).map .seq id
  | .choice members, found => (expandAll site members found).map .choice id
  | .attr attrs content, found => (expand site content found).map (.attr attrs) id
  | .repeat1 content, found =>
    let (content, found) := expand site content found
    (found.variableOf site content).map .symbol id

def expandAll (site : Site) : List Body → Found → List Body × Found
  | [], found => ([], found)
  | b :: rest, found =>
    let (body, found) := expand site b found
    let (bodies, found) := expandAll site rest found
    (body :: bodies, found)

end

/-- A definition without repetitions. -/
def expandDefinition (base owner : Nat) (d : Definition) (found : Found) : Definition × Found :=
  let site : Site := { base, owner, name := d.name }
  let found := { found with here := 0 }
  match d.kind, d.body with
  | .hidden, .repeat1 content =>
    let (content, found) := expand site content found
    ({ d with kind := .auxiliary, body := .tree (.nonterminal owner) content }, found)
  | _, body =>
    let (body, found) := expand site body found
    ({ d with body }, found)

def expandDefinitions (base : Nat) : Nat → List Definition → Found → List Definition × Found
  | _, [], found => ([], found)
  | owner, d :: rest, found =>
    let (d, found) := expandDefinition base owner d found
    let (rest, found) := expandDefinitions base (owner + 1) rest found
    (d :: rest, found)

def definition (r : Repetition) (number : Nat) : Definition where
  name := r.name
  kind := .auxiliary
  body := .tree (.nonterminal number) r.content
  parent := some (.nonterminal r.owner)

/-- The definitions without repetitions, followed by those of the repetitions' variables. -/
def expandAllDefinitions (definitions : List Definition) : List Definition :=
  let base := definitions.length
  let (definitions, found) := expandDefinitions base 0 definitions {}
  definitions ++ found.all.toList.mapIdx fun i r => r.definition (base + i)

end Repetition

end GrammarTables
