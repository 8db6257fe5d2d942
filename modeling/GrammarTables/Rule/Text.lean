import GrammarTables.Rule.Basic
import GrammarTables.Text.Quoted

/-!
# Rules in messages

The text by which a message shows a rule: the kind of the rule and its parts by name.
-/

namespace GrammarTables

open Text (quote)

/-- A kind of thing with its named parts. -/
def Text.record (kind : String) (parts : List (String × String)) : String :=
  kind ++ " \x7b " ++ ", ".intercalate (parts.map fun p => p.1 ++ ": " ++ p.2) ++ " \x7d"

def Precedence.text : Precedence → String
  | .integer n => s!"Integer({n})"
  | .name s => s!"Name({quote s})"

def Wrapper.text (content : String) : Wrapper → String
  | .repeat0 => Text.record "Repeat" [("content", content)]
  | .repeat1 => Text.record "Repeat1" [("content", content)]
  | .field name => Text.record "Field" [("name", quote name), ("content", content)]
  | .prec associativity value =>
    let kind :=
      match associativity with
      | none => "Prec"
      | some .left => "PrecLeft"
      | some .right => "PrecRight"
    Text.record kind [("value", value.text), ("content", content)]
  | .dynamic value => Text.record "PrecDynamic" [("value", toString value), ("content", content)]
  | .token immediate =>
    Text.record (if immediate then "ImmediateToken" else "Token") [("content", content)]
  | .renamed named value =>
    Text.record "Alias" [("content", content), ("named", if named then "true" else "false"),
      ("value", quote value)]
  | .reserved context =>
    Text.record "Reserved" [("context_name", quote context), ("content", content)]

namespace Rule

mutual

def text : Rule → String
  | .blank => "Blank"
  | .string value => Text.record "String" [("value", quote value)]
  | .pattern value flags =>
    Text.record "Pattern" [("value", quote value),
      ("flags", flags.elim "None" fun f => s!"Some({quote f})")]
  | .symbol name => Text.record "Symbol" [("name", quote name)]
  | .seq members => Text.record "Seq" [("members", "[" ++ ", ".intercalate (texts members) ++ "]")]
  | .choice members =>
    Text.record "Choice" [("members", "[" ++ ", ".intercalate (texts members) ++ "]")]
  | .wrap wrapper content => wrapper.text (text content)

def texts : List Rule → List String
  | [] => []
  | r :: rest => text r :: texts rest

end

end Rule

end GrammarTables
