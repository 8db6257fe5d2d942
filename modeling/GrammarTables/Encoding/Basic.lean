import GrammarTables.Encoding.Constant
import GrammarTables.Package
import GrammarTables.Tables

/-!
# Encoded tables

Tables as lists of numbers. The rows of large states have a number for every symbol: for a terminal
the place of its actions in the list of all actions, for a variable its target, and zero for
nothing. Small states list the symbols of each number instead, and share what they have in common.
-/

namespace GrammarTables

namespace Encoding

structure SymbolInfo where
  name : String
  constant : String
  visible : Bool
  named : Bool
  /-- The first symbol that looks the same in trees. -/
  publicId : Nat

structure FieldInfo where
  name : String
  constant : String

/-- A place of the field with the given number. -/
structure FieldEntry where
  field : Nat
  place : FieldPlace
  deriving DecidableEq

/-- The actions of a state for a terminal, as they are listed. -/
structure ActionEntry where
  reusable : Bool
  actions : List Action
  deriving Hashable

/-- Entries are compared part by part, which a proof by evaluation can do. -/
instance : DecidableEq ActionEntry := fun ⟨reusable, actions⟩ ⟨reusable', actions'⟩ =>
  decidable_of_iff (reusable = reusable' ∧ actions = actions') (by rw [ActionEntry.mk.injEq])

/-- A number and the symbols that have it. -/
structure Group where
  value : Nat
  symbols : List Nat
  deriving DecidableEq, Hashable

/-- The row of a small state. -/
structure SmallRow where
  /-- The place of the row among the numbers of all small rows. -/
  offset : Nat
  groups : List Group

end Encoding

open Encoding in
structure Encoding where
  name : String
  version : Version
  symbols : Array SymbolInfo
  tokenCount : Nat
  word : Option Nat
  fields : List FieldInfo
  /-- Where the fields of each production number start, and how many there are. -/
  slices : List (Nat × Nat)
  fieldEntries : List FieldEntry
  maxChildren : Nat
  largeRows : List (List Nat)
  smallRows : List SmallRow
  /-- The offset of each small state's row. -/
  smallOffsets : List Nat
  /-- The entries of the list of actions. The first one has none. -/
  actionEntries : List ActionEntry
  lexModes : List Nat
  primary : List Nat
  lexSets : List TokenSet
  /-- The texts of the keywords in ascending order, with their symbols. -/
  keywords : List (String × Nat)

namespace Encoding

/-- Whether two symbols look the same in trees. -/
def looksLike (g : FlatGrammar) (s t : Symbol) : Bool :=
  let sameSort :=
    match s, t with
    | .eof, .eof => true
    | .terminal _, .terminal _ => true
    | .nonterminal _, .nonterminal _ => true
    | _, _ => false
  sameSort && g.symbolName s == g.symbolName t && g.symbolKind s == g.symbolKind t

def symbolInfo (g : FlatGrammar) (constant : String) (s : Symbol) : SymbolInfo where
  name := g.symbolName s
  constant := constant
  visible := (g.symbolKind s).isVisible
  named := (g.symbolKind s).isNamed
  publicId := g.symbolId ((g.symbols.find? (looksLike g s)).getD s)

/-- The fields that layouts have, in ascending order. -/
def fieldInfos (layouts : List FieldLayout) : List FieldInfo :=
  (Ordered.ofList (layouts.flatMap (·.map (·.1)))).map fun name =>
    { name, constant := Constant.ofField name }

/-- The entries of a layout. -/
def layoutEntries (fields : List FieldInfo) (layout : FieldLayout) : List FieldEntry :=
  layout.flatMap fun (name, places) =>
    let constant := Constant.ofField name
    let field := fields.findIdx (·.constant == constant) + 1
    places.map fun place => { field, place }

/-- The entries that layouts have, each run of entries once. -/
def runs (entries : List (List FieldEntry)) : List (List FieldEntry) :=
  (entries.filter (!·.isEmpty)).eraseDups

def total (lengths : List Nat) : Nat := lengths.foldr (· + ·) 0

/-- Where a run starts, and its length. -/
def slice (runs : List (List FieldEntry)) (entries : List FieldEntry) : Nat × Nat :=
  if entries.isEmpty then (0, 0)
  else (total ((runs.takeWhile (· != entries)).map (·.length)), entries.length)

/-- The entries of a state's terminals by their symbols' numbers. -/
def stateEntries (g : FlatGrammar) (s : State) (reusable : TokenSet) : List (Nat × ActionEntry) :=
  s.entries.map fun (t, actions) => (g.symbolId t, { reusable := reusable.contains t, actions })

/-- The states' entries by their numbers, and the entries in the order they are first met. -/
def numberEntries (states : List (List (Nat × ActionEntry))) :
    List (List (Nat × Nat)) × List ActionEntry :=
  let (numbered, n) := states.foldl
    (fun (numbered, n) entries =>
      let (entries, n) := Numbering.numberAll entries n
      (numbered.push entries, n))
    ((#[] : Array (List (Nat × Nat))), ({} : Numbering ActionEntry))
  (numbered.toList, n.members.toList)

/-- The places where runs of the given lengths start, one after the other. -/
def offsets (start : Nat) (lengths : List Nat) : Array Nat :=
  (lengths.foldl (fun (places, next) n => (places.push next, next + n))
    ((#[] : Array Nat), start)).1

/-- A dynamic precedence has to fit into 16 bits. -/
def checkAction : Action → Except Error Unit
  | .reduce r =>
    if -32768 ≤ r.dynamic ∧ r.dynamic ≤ 32767 then .ok ()
    else .error (.tableLimit "dynamic precedence" r.dynamic.natAbs 32767)
  | _ => .ok ()

/-- Checks entries in order, given the place of the first one. -/
def checkEntries : Nat → List ActionEntry → Except Error Unit
  | _, [] => .ok ()
  | place, e :: rest => do
    e.actions.forM checkAction
    let next := place + 1 + e.actions.length
    checkLimit "parse action entries" next 65535
    checkEntries next rest

/-- A row with a number for every symbol. -/
def largeRow (symbolCount : Nat) (values : List (Nat × Nat)) : List Nat :=
  (values.foldl (fun row (symbol, value) => row.setIfInBounds symbol value)
    (Array.replicate symbolCount 0)).toList

/-- The symbols of each number. -/
def groupsOf (values : List (Nat × Nat)) : List Group :=
  ((values.map (·.2)).eraseDups).map fun value =>
    { value, symbols := values.filterMap fun (s, v) => if v = value then some s else none }

/-- The groups of a small state: those of fewer symbols first, then terminals before variables, then
smaller numbers first. -/
def smallGroups (actions gotos : List (Nat × Nat)) : List Group :=
  let groups := (groupsOf actions).map (·, false) ++ (groupsOf gotos).map (·, true)
  (groups.mergeSort fun (a, aVariable) (b, bVariable) =>
    ((compare a.symbols.length b.symbols.length).then <| (compare aVariable bVariable).then <|
      compare a.value b.value).isLE).map (·.1)

/-- How many numbers a small row takes. -/
def smallLength (groups : List Group) : Nat :=
  1 + total (groups.map fun g => 2 + g.symbols.length)

/-- The keywords by their texts, then by their constants. -/
def keywordTable (g : FlatGrammar) (constants : List String) : List (String × Nat) :=
  let named := g.keywords.map fun k =>
    (g.symbolName k, constants[g.symbolId k]?.getD "", g.symbolId k)
  (named.mergeSort fun a b =>
    ((compare a.1 b.1).then (compare a.2.1 b.2.1)).isLE).map fun (text, _, id) => (text, id)

/-- Numbers that have to fit into the tables' slots. -/
def checkCounts (g : FlatGrammar) (t : Tables) (fields : List FieldInfo) : Except Error Unit := do
  checkLimit "symbols" g.symbolCount 65535
  checkLimit "parse states" t.table.states.size 65535
  checkLimit "fields" fields.length 65535
  checkLimit "production ids" t.table.layouts.length 65535
  checkLimit "production length" t.table.maxChildren 255
  checkLimit "lex states" t.lexSets.length 65535

/-- The encoded tables of a grammar. -/
def ofTables (g : FlatGrammar) (t : Tables) (version : Version) : Except Error Encoding := do
  let fields := fieldInfos t.table.layouts
  checkCounts g t fields
  let entries := t.table.layouts.map (layoutEntries fields)
  let runs := runs entries
  checkLimit "field map entries" (total (runs.map (·.length))) 65535
  let states := t.table.states.toList
  let (numbered, actionEntries) := numberEntries
    ((states.zip t.reusable).map fun (s, reusable) => stateEntries g s reusable)
  checkEntries 1 actionEntries
  let places := offsets 1 (actionEntries.map fun e => 1 + e.actions.length)
  let actions := numbered.map (·.map fun (symbol, n) => (symbol, places[n]?.getD 0))
  let gotos := states.map (·.targets.map fun (v, target) => (g.symbolId (.nonterminal v), target))
  let rows := actions.zip gotos
  let (smallNumbers, small) := Numbering.ofList
    ((rows.drop t.largeCount).map fun (actions, gotos) => smallGroups actions gotos)
  let lengths := small.map smallLength
  checkLimit "small parse table entries" (total lengths) 4294967295
  let smallPlaces := offsets 0 lengths
  let constants := Constant.ofSymbols g
  return {
    name := g.name
    version
    symbols := ((g.symbols.zip constants).map fun (s, constant) => symbolInfo g constant s).toArray
    tokenCount := g.tokenCount
    word := g.word.map g.symbolId
    fields
    slices := entries.map (slice runs)
    fieldEntries := runs.flatten
    maxChildren := t.table.maxChildren
    largeRows := (rows.take t.largeCount).map fun (actions, gotos) =>
      largeRow g.symbolCount (actions ++ gotos)
    smallRows := (small.zip smallPlaces.toList).map fun (groups, offset) => { offset, groups }
    smallOffsets := smallNumbers.map fun n => smallPlaces[n]?.getD 0
    actionEntries := { reusable := false, actions := [] } :: actionEntries
    lexModes := t.lexStates
    primary := t.primary
    lexSets := t.lexSets
    keywords := keywordTable g constants }

/-- The number of a symbol among all symbols. -/
def symbolId (e : Encoding) : Symbol → Nat
  | .eof => 0
  | .terminal i => i + 1
  | .nonterminal i => e.tokenCount + i

def symbolCount (e : Encoding) : Nat := e.symbols.size

def stateCount (e : Encoding) : Nat := e.lexModes.length

def largeCount (e : Encoding) : Nat := e.largeRows.length

/-- How many words of 64 bits a set of tokens takes. -/
def setWords (e : Encoding) : Nat := (e.tokenCount + 63) / 64

/-- The length of the longest keyword in bytes. -/
def maxKeywordLength (e : Encoding) : Nat :=
  e.keywords.foldl (fun n (text, _) => max n text.utf8ByteSize) 0

/-- How many numbers the small rows take. -/
def smallSize (e : Encoding) : Nat := total (e.smallRows.map fun r => smallLength r.groups)

/-- How long the list of all actions is. -/
def actionsSize (e : Encoding) : Nat := total (e.actionEntries.map fun x => 1 + x.actions.length)

end Encoding

end GrammarTables
