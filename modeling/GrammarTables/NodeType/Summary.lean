import GrammarTables.FieldLayout

/-!
# What stands under nodes

For each variable a summary of the visible nodes that can stand directly under its node: in each
field, outside of fields, and anywhere. Variables that do not show pass what stands under them on.
-/

namespace GrammarTables

/-- A kind of visible node. -/
structure NodeType where
  name : String
  named : Bool
  deriving DecidableEq, Ord, Repr

def NodeType.ofSymbol (g : FlatGrammar) (s : Symbol) : NodeType where
  name := g.symbolName s
  named := (g.symbolKind s).isNamed

/-- How often something occurs. -/
structure Quantity where
  /-- It can occur. -/
  occurs : Bool := false
  /-- It always occurs. -/
  required : Bool := false
  /-- It can occur more than once. -/
  multiple : Bool := false
  deriving DecidableEq, Repr

namespace Quantity

def one : Quantity := { occurs := true, required := true }

/-- Both occur, one after the other. -/
def append (a b : Quantity) : Quantity where
  occurs := a.occurs || b.occurs
  required := a.required || b.required
  multiple := a.multiple || b.multiple || (a.occurs && b.occurs)

/-- One of both occurs. -/
def union (a b : Quantity) : Quantity where
  occurs := a.occurs || b.occurs
  required := a.required && b.required
  multiple := a.multiple || b.multiple

end Quantity

/-- Nodes by how often they occur and by their types, in ascending order. -/
structure Children where
  quantity : Quantity := {}
  types : List NodeType := []
  deriving DecidableEq, Repr

namespace Children

def append (a b : Children) : Children where
  quantity := a.quantity.append b.quantity
  types := Ordered.union a.types b.types

def union (a b : Children) : Children where
  quantity := a.quantity.union b.quantity
  types := Ordered.union a.types b.types

/-- One node of one of the given types. -/
def oneOf (types : List NodeType) : Children where
  quantity := .one
  types := types

end Children

/-- What stands under a node. -/
structure Summary where
  /-- The nodes in each field, the fields in ascending order. -/
  fields : List (String × Children) := []
  /-- The named nodes outside of fields. -/
  children : Children := {}
  /-- The types of all visible nodes. -/
  types : List NodeType := []
  deriving DecidableEq, Repr

namespace Summary

def field (s : Summary) (name : String) : Children := (Ordered.get? name s.fields).getD {}

/-- One of both. -/
def union (a b : Summary) : Summary where
  fields := (Ordered.union (a.fields.map (·.1)) (b.fields.map (·.1))).map fun name =>
    (name, (a.field name).union (b.field name))
  children := a.children.union b.children
  types := Ordered.union a.types b.types

/-- Adds nodes to a field. -/
def addField (s : Summary) (name : String) (nodes : Children) : Summary :=
  { s with fields := Ordered.update name (fun old => (old.getD {}).append nodes) s.fields }

def addChildren (s : Summary) (nodes : Children) : Summary :=
  { s with children := s.children.append nodes }

def addTypes (s : Summary) (types : List NodeType) : Summary :=
  { s with types := Ordered.union s.types types }

/-- What is under a symbol that does not show, given the summaries of the variables. -/
def hidden? (g : FlatGrammar) (summaries : Array Summary) (s : Symbol) : Option Summary :=
  match s with
  | .nonterminal v => if g.isInvisible s then some (summaries[v]?.getD {}) else none
  | _ => none

/-- The types of the visible nodes that a symbol brings. -/
def typesOf (g : FlatGrammar) (summaries : Array Summary) (s : Symbol) : List NodeType :=
  match hidden? g summaries s with
  | some inner => inner.types
  | none => if (g.symbolKind s).isVisible then [NodeType.ofSymbol g s] else []

/-- Adds what a step brings. -/
def addStep (g : FlatGrammar) (summaries : Array Summary) (result : Summary) (step : Step) :
    Summary :=
  let inner := hidden? g summaries step.symbol
  let types := typesOf g summaries step.symbol
  let result := result.addTypes types
  let result :=
    match inner with
    | some inner => inner.fields.foldl (fun r (name, nodes) => r.addField name nodes) result
    | none => result
  match step.field, inner with
  | some name, _ => if types.isEmpty then result else result.addField name (.oneOf types)
  | none, some inner => result.addChildren inner.children
  | none, none =>
    if g.symbolKind step.symbol = .named then result.addChildren (.oneOf types) else result

def ofProduction (g : FlatGrammar) (summaries : Array Summary) (p : Production) : Summary :=
  p.steps.foldl (addStep g summaries) {}

/-- The summary of a variable by those of the symbols in its productions. -/
def ofProductions (g : FlatGrammar) (summaries : Array Summary) : List Production → Summary
  | [] => {}
  | p :: rest =>
    rest.foldl (fun s q => s.union (ofProduction g summaries q)) (ofProduction g summaries p)

def sweep (g : FlatGrammar) (summaries : Array Summary) : Array Summary :=
  g.vars.map fun v => ofProductions g summaries v.productions

/-- How often a summary can grow: by a type, by a field, or by one of the three marks of nodes. -/
def height (g : FlatGrammar) : Nat :=
  let types := g.symbolCount
  let fields := (FieldLayout.allFields g).length
  types + (types + 3) + fields * (types + 4)

/-- The summaries of the variables: the least that the productions demand. -/
def ofGrammar (g : FlatGrammar) : Array Summary :=
  settle (sweep g) (g.vars.size * height g + 1) (Array.replicate g.vars.size {})

end Summary

end GrammarTables
