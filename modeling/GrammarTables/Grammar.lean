import GrammarTables.Error
import GrammarTables.Json.Printer
import GrammarTables.Rule.Json
import GrammarTables.Rule.Text

/-!
# Grammars

A grammar as its file declares it: named rules in order, the first of them the start rule, and the
declarations beside them.
-/

namespace GrammarTables

structure NamedRule where
  name : String
  rule : Rule
  deriving DecidableEq

structure Grammar where
  name : String
  rules : List NamedRule
  extras : List Rule := []
  /-- The rules that each expected conflict is between. -/
  conflicts : List (List String) := []
  word : Option String := none
  externals : List Rule := []
  inline : List String := []
  supertypes : List String := []
  precedences : List (List Rule) := []
  reserved : List (String × Json) := []

namespace Grammar

/-- What a grammar's text holds before its rules are looked at. -/
structure Outline where
  name : String
  rules : List (String × Json)
  extras : List Rule
  conflicts : List (List Rule)
  word : Option String
  externals : List Rule
  inline : List String
  supertypes : List String
  precedences : List (List Rule)
  reserved : List (String × Json)

open Json (required optional nullable string? list?)

/-- A map: of members of one name the last value stays, in the first one's place. -/
def map? (v : Json) : Option (List (String × Json)) :=
  if v.readable then v.lastWins.object? else none

def Outline.ofJson? (v : Json) : Option Outline := do
  let given ← v.fields? ["name", "rules", "extras", "conflicts", "word", "externals", "inline",
    "supertypes", "precedences", "reserved"]
  match given with
  | [name, rules, extras, conflicts, word, externals, inline, supertypes, precedences, reserved] =>
    some
      { name := ← required string? name
        rules := ← required map? rules
        extras := ← optional [] (list? Rule.ofJson?) extras
        conflicts := ← optional [] (list? (list? Rule.ofJson?)) conflicts
        word := ← optional none (nullable string?) word
        externals := ← optional [] (list? Rule.ofJson?) externals
        inline := ← optional [] (list? string?) inline
        supertypes := ← optional [] (list? string?) supertypes
        precedences := ← optional [] (list? (list? Rule.ofJson?)) precedences
        reserved := ← optional [] map? reserved }
  | _ => none

def readRule (entry : String × Json) : Except Error NamedRule :=
  match Rule.ofJson? entry.2 with
  | some rule => .ok ⟨entry.1, rule⟩
  | none => .error (.invalidRule entry.1)

def conflictName (rule : Rule) : Except Error String :=
  match rule.symbolName? with
  | some name => .ok name
  | none => .error (.invalidConflict rule.text)

/-- The grammar of a text. The text's shape comes first, then its rules in order, then what its
conflicts name. -/
def parse (text : String) : Except Error Grammar := do
  let some outline := (Json.parse? text).bind Outline.ofJson?
    | throw .malformedGrammar
  let rules ← outline.rules.mapM readRule
  if rules.isEmpty then throw .noRules
  let conflicts ← outline.conflicts.mapM (·.mapM conflictName)
  return {
    name := outline.name
    rules
    extras := outline.extras
    conflicts
    word := outline.word
    externals := outline.externals
    inline := outline.inline
    supertypes := outline.supertypes
    precedences := outline.precedences
    reserved := outline.reserved }

/-- The grammar as an object that names its schema, every declaration written. -/
def toJson (g : Grammar) (schema : String) : Json :=
  let strings := fun (names : List String) => Json.array (names.map .string)
  let word :=
    match g.word with
    | some name => [("word", Json.string name)]
    | none => []
  .object ([("$schema", .string schema), ("name", .string g.name)] ++ word ++
    [("rules", .object (g.rules.map fun r => (r.name, r.rule.toJson))),
      ("extras", .array (Rule.toJsons g.extras)),
      ("conflicts", .array (g.conflicts.map fun names =>
        .array (names.map fun n => (Rule.symbol n).toJson))),
      ("precedences", .array (g.precedences.map fun rs => .array (Rule.toJsons rs))),
      ("externals", .array (Rule.toJsons g.externals)),
      ("inline", strings g.inline),
      ("supertypes", strings g.supertypes),
      ("reserved", .object g.reserved)])

end Grammar

end GrammarTables
