import GrammarTables.Json.Fields
import GrammarTables.Json.Reader
import GrammarTables.Rule.Basic

/-!
# Rules in JSON

A rule is an object whose `type` names its kind, or an array that starts with the kind. A rule
inside another one may also give its kind by number.
-/

namespace GrammarTables

/-- The whole numbers of 32 bits. -/
def Json.int32? (v : Json) : Option Int := do
  let n ← v.integer?
  if -2147483648 ≤ n ∧ n < 2147483648 then some n else none

def Precedence.ofJson? : Json → Option Precedence
  | .string s => some (.name s)
  | v => v.int32?.map .integer

def Precedence.toJson : Precedence → Json
  | .integer n => .integer n
  | .name s => .string s

namespace Rule

/-- The kinds of rules in the order of their numbers. -/
def kinds : List String :=
  ["BLANK", "STRING", "PATTERN", "SYMBOL", "SEQ", "CHOICE", "REPEAT", "REPEAT1", "FIELD", "PREC",
    "PREC_LEFT", "PREC_RIGHT", "PREC_DYNAMIC", "TOKEN", "IMMEDIATE_TOKEN", "ALIAS", "RESERVED"]

def kind? (outermost : Bool) : Json → Option String
  | .string s => if s ∈ kinds then some s else none
  | .integer n => if outermost || n < 0 then none else kinds[n.toNat]?
  | _ => none

/-- The fields of each kind of rule. -/
def fieldNames (kind : String) : List String :=
  match kind with
  | "BLANK" => []
  | "STRING" => ["value"]
  | "PATTERN" => ["value", "flags"]
  | "SYMBOL" => ["name"]
  | "SEQ" | "CHOICE" => ["members"]
  | "FIELD" => ["name", "content"]
  | "PREC" | "PREC_LEFT" | "PREC_RIGHT" | "PREC_DYNAMIC" => ["value", "content"]
  | "ALIAS" => ["content", "named", "value"]
  | "RESERVED" => ["context_name", "content"]
  | _ => ["content"]

open Json (required optional nullable string?)

/-- A rule from what is given for the fields of its kind; `inner` reads the rules in it. -/
def ofFields? (inner : Json → Option Rule) (kind : String) (given : List (Option Json)) :
    Option Rule :=
  match kind, given with
  | "BLANK", [] => some .blank
  | "STRING", [value] => .string <$> required string? value
  | "PATTERN", [value, flags] => do
    some (.pattern (← required string? value) (← optional none (nullable string?) flags))
  | "SYMBOL", [name] => .symbol <$> required string? name
  | "SEQ", [members] => .seq <$> required (Json.list? inner) members
  | "CHOICE", [members] => .choice <$> required (Json.list? inner) members
  | "REPEAT", [content] => .wrap .repeat0 <$> required inner content
  | "REPEAT1", [content] => .wrap .repeat1 <$> required inner content
  | "FIELD", [name, content] => do
    some (.wrap (.field (← required string? name)) (← required inner content))
  | "PREC", [value, content] => do
    some (.wrap (.prec none (← required Precedence.ofJson? value)) (← required inner content))
  | "PREC_LEFT", [value, content] => do
    some (.wrap (.prec (some .left) (← required Precedence.ofJson? value))
      (← required inner content))
  | "PREC_RIGHT", [value, content] => do
    some (.wrap (.prec (some .right) (← required Precedence.ofJson? value))
      (← required inner content))
  | "PREC_DYNAMIC", [value, content] => do
    some (.wrap (.dynamic (← required Json.int32? value)) (← required inner content))
  | "TOKEN", [content] => .wrap (.token false) <$> required inner content
  | "IMMEDIATE_TOKEN", [content] => .wrap (.token true) <$> required inner content
  | "ALIAS", [content, named, value] => do
    some (.wrap (.renamed (← required Json.bool? named) (← required string? value))
      (← required inner content))
  | "RESERVED", [context, content] => do
    some (.wrap (.reserved (← required string? context)) (← required inner content))
  | _, _ => none

/-- Reads a rule that is nested no deeper than the given number. -/
def ofJsonWithin : Nat → Bool → Json → Option Rule
  | 0, _, _ => none
  | depth + 1, outermost, v => do
    let (tag, rest) ←
      match v with
      | .object members => do some ((← (← Json.field? members "type")), v)
      | .array (tag :: rest) => some (tag, .array rest)
      | _ => none
    let kind ← kind? outermost tag
    let given ← rest.fields? (fieldNames kind)
    ofFields? (ofJsonWithin depth false) kind given

/-- The rule that a value is. Readable values are nested no deeper than `Json.maxDepth`. -/
def ofJson? (v : Json) : Option Rule :=
  if v.readable then ofJsonWithin (Json.maxDepth + 1) true v else none

/-- An object of a kind of rule. -/
def tagged (kind : String) (members : List (String × Json)) : Json :=
  .object (("type", .string kind) :: members)

def wrapJson (content : Json) : Wrapper → Json
  | .repeat0 => tagged "REPEAT" [("content", content)]
  | .repeat1 => tagged "REPEAT1" [("content", content)]
  | .field name => tagged "FIELD" [("name", .string name), ("content", content)]
  | .prec none value => tagged "PREC" [("value", value.toJson), ("content", content)]
  | .prec (some .left) value => tagged "PREC_LEFT" [("value", value.toJson), ("content", content)]
  | .prec (some .right) value => tagged "PREC_RIGHT" [("value", value.toJson), ("content", content)]
  | .dynamic value => tagged "PREC_DYNAMIC" [("value", .integer value), ("content", content)]
  | .token false => tagged "TOKEN" [("content", content)]
  | .token true => tagged "IMMEDIATE_TOKEN" [("content", content)]
  | .renamed named value =>
    tagged "ALIAS" [("content", content), ("named", .bool named), ("value", .string value)]
  | .reserved context =>
    tagged "RESERVED" [("context_name", .string context), ("content", content)]

mutual

/-- The rule as an object. Flags are written only where there are some. -/
def toJson : Rule → Json
  | .blank => tagged "BLANK" []
  | .string value => tagged "STRING" [("value", .string value)]
  | .pattern value none => tagged "PATTERN" [("value", .string value)]
  | .pattern value (some flags) =>
    tagged "PATTERN" [("value", .string value), ("flags", .string flags)]
  | .symbol name => tagged "SYMBOL" [("name", .string name)]
  | .seq members => tagged "SEQ" [("members", .array (toJsons members))]
  | .choice members => tagged "CHOICE" [("members", .array (toJsons members))]
  | .wrap wrapper content => wrapJson (toJson content) wrapper

def toJsons : List Rule → List Json
  | [] => []
  | r :: rest => toJson r :: toJsons rest

end

end Rule

end GrammarTables
