import GrammarTables.Json.Printer
import GrammarTables.NodeType.Summary

/-!
# Node types

The description of every node that a parser can produce, for readers of syntax trees.
-/

namespace GrammarTables

/-- A node that a parser can produce. -/
structure NodeInfo where
  type : NodeType
  root : Bool := false
  extra : Bool := false
  /-- The fields in ascending order. A token has none at all. -/
  fields : Option (List (String × Children)) := none
  children : Option Children := none

namespace NodeInfo

def isLeaf (n : NodeInfo) : Bool :=
  n.children.isNone && (n.fields.getD []).isEmpty

/-- Nodes with children come first, then names ascend, then named nodes come first. -/
def compare (a b : NodeInfo) : Ordering :=
  (Ord.compare a.isLeaf b.isLeaf).then <| (Ord.compare a.type.name b.type.name).then <|
    Ord.compare b.type.named a.type.named

end NodeInfo

namespace FlatGrammar

/-- The symbols in a symbol's productions. -/
def parts (g : FlatGrammar) (s : Symbol) : List Symbol :=
  (g.productionsOf s).flatMap (·.symbols)

/-- The symbols that can occur in a tree: those that the start leads to, and the extras. -/
def reachable (g : FlatGrammar) : List Symbol :=
  settle (fun reached => Ordered.union reached (reached.flatMap g.parts)) (g.symbolCount + 1)
    (Ordered.ofList (start :: g.extras))

/-- The node of a variable that is named. -/
def variableNode (summaries : Array Summary) (i : Nat) (v : Variable) : NodeInfo :=
  let summary := summaries[i]?.getD {}
  { type := { name := v.name, named := true }
    root := .nonterminal i = start
    fields := some summary.fields
    children := if summary.children.types.isEmpty then none else some summary.children }

def variableNodes (g : FlatGrammar) (reachable : List Symbol) : List NodeInfo :=
  let summaries := Summary.ofGrammar g
  g.vars.toList.zipIdx.filterMap fun (v, i) =>
    if v.kind = .named && reachable.contains (.nonterminal i) then
      some (variableNode summaries i v)
    else none

/-- The nodes of visible tokens. Tokens that look the same have one node, the first one's. -/
def tokenNodes (g : FlatGrammar) (reachable : List Symbol) : List NodeInfo :=
  (g.tokens.toList.zipIdx.filterMap fun (t, i) =>
    if t.kind.isVisible && reachable.contains (.terminal i) then
      let node : NodeInfo :=
        { type := NodeType.ofSymbol g (.terminal i), extra := g.isExtra (.terminal i) }
      some node
    else none).eraseDupsBy fun a b => a.type == b.type

def nodeTypes (g : FlatGrammar) : List NodeInfo :=
  let reachable := g.reachable
  (g.variableNodes reachable ++ g.tokenNodes reachable).mergeSort fun a b =>
    (NodeInfo.compare a b).isLE

end FlatGrammar

def NodeType.toJson (t : NodeType) : Json :=
  .object [("type", .string t.name), ("named", .bool t.named)]

def Children.toJson (c : Children) : Json :=
  .object [("multiple", .bool c.quantity.multiple), ("required", .bool c.quantity.required),
    ("types", .array (c.types.map NodeType.toJson))]

/-- The node as an object; what does not hold of it is left out. -/
def NodeInfo.toJson (n : NodeInfo) : Json :=
  let mark := fun (name : String) (holds : Bool) =>
    if holds then [(name, Json.bool true)] else []
  let fields := n.fields.map fun fields =>
    ("fields", Json.object (fields.map fun (name, nodes) => (name, nodes.toJson)))
  let children := n.children.map fun nodes => ("children", nodes.toJson)
  .object ([("type", .string n.type.name), ("named", .bool n.type.named)] ++ mark "root" n.root ++
    mark "extra" n.extra ++ fields.toList ++ children.toList)

end GrammarTables
