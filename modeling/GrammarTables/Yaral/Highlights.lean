/-!
# Highlighting of YARA-L

The query by which editors colour YARA-L.
-/

namespace GrammarTables.Yaral

namespace Highlights

/-- A literal text in a query. -/
def quoted (text : String) : String := "\"" ++ text ++ "\""

/-- Everything of a list in one colour. -/
def group (colour : String) (nodes : List String) : List String :=
  "[" :: nodes.map ("  " ++ ·) ++ ["] @" ++ colour]

def literals (colour : String) (texts : List String) : List String :=
  group colour (texts.map quoted)

/-- The paragraphs of the query, each by its lines. -/
def paragraphs : List (List String) :=
  [["; Keywords"],
    ["\"rule\" @keyword"],
    ["(section_key) @keyword"],
    literals "keyword.operator"
      ["all", "any", "not", "and", "or", "in", "over", "before", "after"],
    literals "keyword.modifier" ["regex", "cidr"],
    ["; Operators and punctuation"],
    literals "operator" ["=", "!=", "<", "<=", ">", ">=", "+", "-", "*", "/", "%"],
    literals "punctuation.bracket" ["\x7b", "\x7d", "(", ")", "[", "]"],
    literals "punctuation.delimiter" [":", ",", "."],
    ["\"$\" @punctuation.special"],
    ["; Literals"],
    ["(comment) @comment"],
    group "string" ["(interpreted_string_literal)", "(raw_string_literal)"],
    ["(escape_sequence) @string.escape"],
    ["(regex_literal) @string.regexp"],
    group "number" ["(integer_literal)", "(float_literal)"],
    ["(duration_literal) @number"],
    ["(boolean_literal) @boolean"],
    ["(null) @constant.builtin"],
    ["; Names"],
    ["(rule_definition", "  name: (identifier) @function)"],
    ["(variable_identifier", "  (identifier) @variable)"],
    ["(attribute_identifier) @property"],
    ["(declaration_statement", "  left: (identifier) @property)"],
    ["(function_expression", "  operand: (identifier) @module",
      "  field: (identifier) @function.call)"],
    ["(function_expression", "  operand: (identifier) @function.call", "  !field)"],
    ["(reference_list_expression", "  (identifier) @constant)"]]

end Highlights

/-- The query, with an empty line between paragraphs. -/
def highlights : String :=
  "\n\n".intercalate (Highlights.paragraphs.map ("\n".intercalate ·)) ++ "\n"

end GrammarTables.Yaral
