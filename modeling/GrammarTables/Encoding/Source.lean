import GrammarTables.Encoding.Basic
import GrammarTables.Text.ByteString

/-!
# Source text of tables

Encoded tables as the text of a source module.
-/

namespace GrammarTables

namespace Encoding

namespace Source

/-- Lines, each with a line break behind it. -/
def unlines (lines : List String) : String :=
  lines.foldl (fun text line => text ++ line ++ "\n") ""

def commas (parts : List String) : String := ", ".intercalate parts

def numbers (ns : List Nat) : String := commas (ns.map toString)

/-- Lists of at most the given length, one after the other. -/
def chunks {α : Type} (size : Nat) : Nat → List α → List (List α)
  | 0, _ => []
  | _, [] => []
  | fuel + 1, as => as.take size :: chunks size fuel (as.drop size)

/-- Lines of at most the given number of parts. -/
def rows (size : Nat) (parts : List String) : List String :=
  (chunks size parts.length parts).map fun row => "    " ++ commas row ++ ","

/-- An array with its lines, followed by an empty line. -/
def array (head : String) (lines : List String) : List String :=
  head :: lines ++ ["];", ""]

/-- A pointer to a text that ends with a zero byte. -/
def textPointer (text : String) : String :=
  "b\"" ++ Text.escapeBytes text ++ "\\0\".as_ptr() as *const c_char"

def bool (b : Bool) : String := if b then "true" else "false"

def record (name : String) (parts : List String) : String :=
  name ++ " \x7b " ++ commas parts ++ " \x7d"

def constant (e : Encoding) (symbol : Nat) : String :=
  (e.symbols[symbol]?.map (·.constant)).getD "0"

def counts (e : Encoding) : List String :=
  let count := fun (name : String) (value : Nat) => s!"pub const {name}: usize = {value};"
  ["pub const LANGUAGE_VERSION: u32 = 15;",
    count "STATE_COUNT" e.stateCount,
    count "LARGE_STATE_COUNT" e.largeCount,
    count "SYMBOL_COUNT" e.symbolCount,
    count "ALIAS_COUNT" 0,
    count "TOKEN_COUNT" e.tokenCount,
    count "EXTERNAL_TOKEN_COUNT" 0,
    count "FIELD_COUNT" e.fields.length,
    count "MAX_ALIAS_SEQUENCE_LENGTH" e.maxChildren,
    count "PRODUCTION_ID_COUNT" e.slices.length,
    count "LEX_STATE_COUNT" e.lexSets.length,
    count "TOKEN_SET_WORDS" e.setWords,
    ""]

def constants (e : Encoding) : List String :=
  let symbols := e.symbols.toList.mapIdx fun id s =>
    let name := s.constant
    s!"pub const {name}: TSSymbol = {id};"
  let fields := e.fields.mapIdx fun i f =>
    let (name, id) := (f.constant, i + 1)
    s!"pub const {name}: TSFieldId = {id};"
  let word := (e.word.map (constant e)).getD "0"
  symbols ++ [""] ++ fields ++ ["", s!"pub const WORD_TOKEN: TSSymbol = {word};", ""]

def symbolNames (e : Encoding) : List String :=
  "pub static SYMBOL_NAMES: NameTable<SYMBOL_COUNT> = NameTable([" ::
    e.symbols.toList.map (fun s => "    " ++ textPointer s.name ++ ",") ++ ["]);", ""]

def symbolMetadata (e : Encoding) : List String :=
  array "pub static SYMBOL_METADATA: [TSSymbolMetadata; SYMBOL_COUNT] = [" <|
    e.symbols.toList.map fun s => "    " ++ record "TSSymbolMetadata"
      ["visible: " ++ bool s.visible, "named: " ++ bool s.named, "supertype: false"] ++ ","

def publicSymbols (e : Encoding) : List String :=
  array "pub static PUBLIC_SYMBOL_MAP: [TSSymbol; SYMBOL_COUNT] = [" <|
    e.symbols.toList.map fun s => "    " ++ constant e s.publicId ++ ","

def fieldNames (e : Encoding) : List String :=
  ["pub static FIELD_NAMES: NameTable<\x7b FIELD_COUNT + 1 \x7d> = NameTable([",
    "    std::ptr::null(),"] ++
    e.fields.map (fun f => "    " ++ textPointer f.name ++ ",") ++ ["]);", ""]

def fieldEntry (e : Encoding) (x : FieldEntry) : String :=
  let name := (e.fields[x.field - 1]?.map (·.constant)).getD ""
  "    " ++ record "TSFieldMapEntry"
    [s!"field_id: {name}", "child_index: " ++ toString x.place.index,
      "inherited: " ++ bool x.place.inherited] ++ ","

def fieldMap (e : Encoding) : List String :=
  let size := e.fieldEntries.length
  array "pub static FIELD_MAP_SLICES: [TSMapSlice; PRODUCTION_ID_COUNT] = ["
    (e.slices.map fun (index, length) =>
      "    " ++ record "TSMapSlice" [s!"index: {index}", s!"length: {length}"] ++ ",") ++
  array s!"pub static FIELD_MAP_ENTRIES: [TSFieldMapEntry; {size}] = ["
    (e.fieldEntries.map (fieldEntry e))

def renamings : List String :=
  ["pub static ALIAS_SEQUENCES: [TSSymbol; PRODUCTION_ID_COUNT * MAX_ALIAS_SEQUENCE_LENGTH] =",
    "    [0; PRODUCTION_ID_COUNT * MAX_ALIAS_SEQUENCE_LENGTH];",
    "pub static NON_TERMINAL_ALIAS_MAP: [u16; 1] = [0];",
    ""]

def largeRows (e : Encoding) : List String :=
  array "pub static PARSE_TABLE: [[u16; SYMBOL_COUNT]; LARGE_STATE_COUNT] = [" <|
    (e.largeRows.mapIdx fun id row =>
      [s!"    // state {id}", "    [" ++ numbers row ++ "],"]).flatten

def group (e : Encoding) (g : Group) : String :=
  let (value, count) := (g.value, g.symbols.length)
  let names := commas (g.symbols.map (constant e))
  s!"    {value}, {count}, {names},"

def smallRow (e : Encoding) (r : SmallRow) : List String :=
  let (offset, count) := (r.offset, r.groups.length)
  [s!"    // offset {offset}", s!"    {count},"] ++ r.groups.map (group e)

def smallRows (e : Encoding) : List String :=
  let size := e.smallSize
  array s!"pub static SMALL_PARSE_TABLE: [u16; {size}] = [" (e.smallRows.flatMap (smallRow e)) ++
  array "pub static SMALL_PARSE_TABLE_MAP: [u32; STATE_COUNT - LARGE_STATE_COUNT] = ["
    (rows 16 (e.smallOffsets.map toString))

def action (e : Encoding) (symbolId : Symbol → Nat) : Action → String
  | .accept => "accept()"
  | .recover => "recover()"
  | .shiftExtra => "shift_extra()"
  | .shift state false => s!"shift({state})"
  | .shift state true => s!"shift_repeat({state})"
  | .reduce r =>
    "reduce(" ++ commas [constant e (symbolId r.symbol), toString r.children, toString r.dynamic,
      toString r.production] ++ ")"

def actionEntry (e : Encoding) (symbolId : Symbol → Nat) (x : ActionEntry) : String :=
  let (count, reusable) := (x.actions.length, bool x.reusable)
  x.actions.foldl (fun line a => line ++ " " ++ action e symbolId a ++ ",")
    s!"    entry({count}, {reusable}),"

def actions (e : Encoding) : List String :=
  let size := e.actionsSize
  array s!"pub static PARSE_ACTIONS: [TSParseActionEntry; {size}] = ["
    (e.actionEntries.map (actionEntry e e.symbolId))

def lexModes (e : Encoding) : List String :=
  array "pub static LEX_MODES: [TSLexerMode; STATE_COUNT] = ["
    (rows 8 (e.lexModes.map fun id => s!"lex_mode({id})")) ++
  array "pub static PRIMARY_STATE_IDS: [TSStateId; STATE_COUNT] = ["
    (rows 16 (e.primary.map toString))

def lexSets (e : Encoding) : List String :=
  array "pub static LEX_STATE_TOKENS: [[u64; TOKEN_SET_WORDS]; LEX_STATE_COUNT] = [" <|
    e.lexSets.map fun tokens =>
      "    [" ++ commas ((tokens.words e.setWords).map fun w =>
        "0x" ++ String.ofList (Text.hexPadded 16 w.toNat)) ++ "],"

def keywords (e : Encoding) : List String :=
  let (longest, count) := (e.maxKeywordLength, e.keywords.length)
  s!"pub const MAX_KEYWORD_LENGTH: usize = {longest};" ::
  array s!"pub static KEYWORDS: [(&[u8], TSSymbol); {count}] = ["
    (e.keywords.map fun (text, id) =>
      "    (b\"" ++ Text.escapeBytes text ++ "\", " ++ constant e id ++ "),")

def languageInfo (e : Encoding) : List String :=
  let (major, minor, patch) := (e.version.major, e.version.minor, e.version.patch)
  ["pub static RESERVED_WORDS: [TSSymbol; 0] = [];",
    "pub static SUPERTYPE_SYMBOLS: [TSSymbol; 0] = [];",
    "pub static SUPERTYPE_MAP_SLICES: [TSMapSlice; 0] = [];",
    "pub static SUPERTYPE_MAP_ENTRIES: [TSSymbol; 0] = [];",
    "",
    "pub const LANGUAGE_NAME: &[u8] = b\"" ++ Text.escapeBytes e.name ++ "\\0\";",
    "pub const LANGUAGE_METADATA: TSLanguageMetadata = " ++ record "TSLanguageMetadata"
      [s!"major_version: {major}", s!"minor_version: {minor}", s!"patch_version: {patch}"] ++ ";"]

/-- The whole text. -/
def text (e : Encoding) : String :=
  let name := e.name
  unlines ([s!"// Parse tables for `{name}`, generated from grammar.json.", ""] ++ counts e ++
    constants e ++ symbolNames e ++ symbolMetadata e ++ publicSymbols e ++ fieldNames e ++
    fieldMap e ++ renamings ++ largeRows e ++ smallRows e ++ actions e ++ lexModes e ++ lexSets e ++
    keywords e ++ languageInfo e)

end Source

/-- The source text of the tables. -/
def source (e : Encoding) : String := Source.text e

end Encoding

end GrammarTables
