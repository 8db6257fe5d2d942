import GrammarTables.Grammar
import GrammarTables.Package

/-!
# The grammar of YARA-L

YARA-L 2.0, a language for detection rules: a file is a list of rules, a rule has sections, and a
section holds statements.
-/

namespace GrammarTables.Yaral

namespace Rules

def text (value : String) : Rule := .string value

def regex (value : String) : Rule := .pattern value none

def rule (name : String) : Rule := .symbol name

def maybe (content : Rule) : Rule := .choice [content, .blank]

def many (content : Rule) : Rule := .wrap .repeat0 content

def many1 (content : Rule) : Rule := .wrap .repeat1 content

def field (name : String) (content : Rule) : Rule := .wrap (.field name) content

def prec (value : Int) (content : Rule) : Rule := .wrap (.prec none (.integer value)) content

def precLeft (value : Int) (content : Rule) : Rule :=
  .wrap (.prec (some .left) (.integer value)) content

def token (content : Rule) : Rule := .wrap (.token false) content

def immediate (content : Rule) : Rule := .wrap (.token true) content

/-- The rules of a file and their sections. -/
def files : List NamedRule :=
  [⟨"source_file", many (rule "rule_definition")⟩,
    ⟨"rule_definition",
      .seq [
        text "rule", field "name" (rule "identifier"), text "\x7b",
        maybe (many1 (.seq [rule "section"])),
        text "\x7d"]⟩,
    ⟨"section_key",
      .choice [
        text "condition", text "events", text "match", text "meta", text "options",
        text "outcome"]⟩,
    ⟨"section", .seq [rule "section_key", text ":", maybe (rule "_statements")]⟩]

/-- The statements of a section. -/
def statements : List NamedRule :=
  [⟨"_statements",
      many1 (.choice [
        rule "assignment_statement", rule "declaration_statement", rule "expression_statement",
        rule "match_statement"])⟩,
    ⟨"assignment_statement",
      .choice [
        .seq [
          field "left" (rule "variable_identifier"), text "=",
          field "right" (rule "_expression")],
        .seq [
          field "left" (rule "_expression"), text "=",
          field "right" (rule "variable_identifier")]]⟩,
    ⟨"declaration_statement",
      prec 7 (.seq [
        field "left" (rule "identifier"), text "=",
        field "right" (.choice [rule "_string_literal", rule "boolean_literal"])])⟩,
    ⟨"expression_statement", rule "_expression"⟩,
    ⟨"match_statement", rule "match_expression"⟩]

/-- Expressions, and what a match stands over. -/
def expressions : List NamedRule :=
  [⟨"_expression",
      .choice [
        rule "unary_expression", rule "binary_expression", rule "call_expression",
        rule "reference_list_expression", rule "index_expression",
        rule "parenthesized_expression", rule "variable_identifier", rule "_string_literal",
        rule "integer_literal", rule "float_literal", rule "regex_literal",
        rule "null"]⟩,
    ⟨"unary_expression",
      prec 6 (.seq [
        field "operator" (.choice [text "all", text "any", text "not"]),
        field "operand" (rule "_expression")])⟩,
    ⟨"binary_expression",
      .choice [
        precLeft 5 (.seq [
          field "left" (rule "_expression"), field "operator" (.choice [text "*", text "/"]),
          field "right" (rule "_expression")]),
        precLeft 4 (.seq [
          field "left" (rule "_expression"), field "operator" (.choice [text "+", text "-"]),
          field "right" (rule "_expression")]),
        precLeft 3 (.seq [
          field "left" (rule "_expression"),
          field "operator" (.choice [
            text "=", text "!=", text "<", text "<=", text ">", text ">="]),
          field "right" (rule "_expression")]),
        precLeft 2 (.seq [
          field "left" (rule "_expression"), field "operator" (text "and"),
          field "right" (rule "_expression")]),
        precLeft 1 (.seq [
          field "left" (rule "_expression"), field "operator" (text "or"),
          field "right" (rule "_expression")])]⟩,
    ⟨"call_expression",
      prec 7 (.choice [
        .seq [
          field "function" (rule "function_expression"),
          field "arguments" (rule "argument_list")]])⟩,
    ⟨"reference_list_expression",
      prec 1 (.seq [
        rule "variable_identifier", maybe (text "not"), text "in",
        maybe (.choice [text "regex", text "cidr"]),
        .seq [text "%", rule "identifier"]])⟩,
    ⟨"match_expression",
      precLeft 0 (.seq [
        rule "variable_identifier", maybe (many (.seq [text ",", rule "variable_identifier"])),
        maybe (.seq [
          maybe (text "not"), text "over", rule "duration_literal",
          maybe (.seq [.choice [text "before", text "after"], rule "variable_identifier"])])])⟩,
    ⟨"index_expression",
      prec 7 (.seq [
        field "operand" (rule "variable_identifier"), text "[",
        field "index" (.choice [rule "_string_literal", rule "integer_literal"]),
        text "]"])⟩,
    ⟨"parenthesized_expression", .seq [text "(", rule "_expression", text ")"]⟩,
    ⟨"variable_identifier",
      .seq [
        text "$", rule "identifier",
        maybe (field "attribute" (rule "attribute_identifier"))]⟩]

/-- Literals. -/
def literals : List NamedRule :=
  [⟨"_string_literal", .choice [rule "raw_string_literal", rule "interpreted_string_literal"]⟩,
    ⟨"raw_string_literal", token (.seq [text "\x60", many (regex "[^\x60]"), text "\x60"])⟩,
    ⟨"interpreted_string_literal",
      .seq [
        text "\"",
        many (.choice [rule "_interpreted_string_literal_basic_content", rule "escape_sequence"]),
        immediate (text "\"")]⟩,
    ⟨"_interpreted_string_literal_basic_content", immediate (prec 1 (regex "[^\"\\n\\\\]+"))⟩,
    ⟨"escape_sequence",
      immediate (.seq [
        text "\\",
        .choice [
          regex "[^xuU]", regex "\\d\x7b2,3\x7d", regex "x[0-9a-fA-F]\x7b2,\x7d",
          regex "u[0-9a-fA-F]\x7b4\x7d",
          regex "U[0-9a-fA-F]\x7b8\x7d"]])⟩,
    ⟨"integer_literal", regex "\\d+"⟩,
    ⟨"float_literal",
      token (.choice [
        .seq [regex "[0-9]+", text ".", maybe (regex "[0-9]+")], regex "[0-9]+",
        .seq [text ".", regex "[0-9]+"]])⟩,
    ⟨"duration_literal", .seq [rule "integer_literal", .choice [text "m", text "h", text "d"]]⟩,
    ⟨"regex_literal",
      token (.seq [
        text "/", regex "[^/\\\\\\*]",
        many (.choice [regex "[^/\\\\]", .seq [text "\\", regex "."]]),
        text "/"])⟩,
    ⟨"boolean_literal", .choice [text "true", text "false"]⟩,
    ⟨"null", text "null"⟩]

/-- Names, calls and what stands between tokens. -/
def names : List NamedRule :=
  [⟨"identifier", regex "[a-zA-Z_][a-zA-Z0-9_]*"⟩,
    ⟨"attribute_identifier", regex "\\.[a-zA-Z][a-zA-Z0-9_\\.]*"⟩,
    ⟨"nocase", text "nocase"⟩,
    ⟨"function_expression",
      .seq [
        field "operand" (rule "identifier"),
        maybe (field "field" (.seq [text ".", rule "identifier"]))]⟩,
    ⟨"argument_list",
      .seq [
        text "(", maybe (.seq [rule "_expression", many (.seq [text ",", rule "_expression"])]),
        text ")"]⟩,
    ⟨"comment",
      token (.choice [
        .seq [text "//", regex "(\\\\+(.|\\r?\\n)|[^\\\\\\n])*"],
        .seq [text "/*", regex "[^*]*\\*+([^/*][^*]*\\*+)*", text "/"]])⟩,
    ⟨"_whitespace", token (regex "\\s")⟩,
    ⟨"not_operator", text "!"⟩]

end Rules

open Rules in
def grammar : Grammar where
  name := "yaral"
  rules := files ++ statements ++ expressions ++ literals ++ names
  extras := [rule "comment", rule "_whitespace"]
  conflicts := [["_expression", "match_expression"], ["assignment_statement", "_expression"]]
  word := some "identifier"

/-- The grammar as its file has it. -/
def grammarText : String :=
  (grammar.toJson
    "https://tree-sitter.github.io/tree-sitter/assets/schemas/grammar.schema.json").pretty ++ "\n"

def version : Version := { major := 0, minor := 1, patch := 0 }

end GrammarTables.Yaral
