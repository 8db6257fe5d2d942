import GrammarTables.Error
import GrammarTables.Json.Fields
import GrammarTables.Json.Reader

/-!
# Packages

The description of a package of grammars: what it calls them, and its version.
-/

namespace GrammarTables

structure Version where
  major : UInt8
  minor : UInt8
  patch : UInt8
  deriving DecidableEq, Repr

namespace Version

/-- A number of up to 255, by its decimal digits. -/
def part? (text : String) : Option UInt8 :=
  let n := Json.Reader.natOfDigits text.toList
  if !text.isEmpty && text.all Char.isDigit && n < 256 then some n.toUInt8 else none

/-- Three numbers with points between them. What follows a `-` or `+` does not count. -/
def parse? (text : String) : Option Version :=
  let core := String.ofList (text.toList.takeWhile fun c => c != '-' && c != '+')
  match core.splitOn "." with
  | [major, minor, patch] => do some ⟨← part? major, ← part? minor, ← part? patch⟩
  | _ => none

end Version

namespace Package

structure Entry where
  name : String
  camelcase : Option String
  scope : String
  path : Option String
  fileTypes : List String
  highlights : Option String
  deriving DecidableEq

structure Metadata where
  version : String
  license : Option String
  description : Option String
  deriving DecidableEq

open Json (required optional nullable string? list?)

def Entry.ofJson? (v : Json) : Option Entry := do
  match ← v.fields? ["name", "camelcase", "scope", "path", "file-types", "highlights"] with
  | [name, camelcase, scope, path, fileTypes, highlights] =>
    some
      { name := ← required string? name
        camelcase := ← optional none (nullable string?) camelcase
        scope := ← required string? scope
        path := ← optional none (nullable string?) path
        fileTypes := ← optional [] (list? string?) fileTypes
        highlights := ← optional none (nullable string?) highlights }
  | _ => none

def Metadata.ofJson? (v : Json) : Option Metadata := do
  match ← v.fields? ["version", "license", "description"] with
  | [version, license, description] =>
    some
      { version := ← required string? version
        license := ← optional none (nullable string?) license
        description := ← optional none (nullable string?) description }
  | _ => none

end Package

structure Package where
  grammars : List Package.Entry
  metadata : Package.Metadata

namespace Package

def ofJson? (v : Json) : Option Package := do
  match ← v.fields? ["grammars", "metadata"] with
  | [grammars, metadata] =>
    some
      { grammars := ← Json.required (Json.list? Entry.ofJson?) grammars
        metadata := ← Json.required Metadata.ofJson? metadata }
  | _ => none

def version (p : Package) : Except Error Version :=
  match Version.parse? p.metadata.version with
  | some v => .ok v
  | none => .error (.invalidVersion p.metadata.version)

/-- The first entry of a name. -/
def find (p : Package) (name : String) : Except Error Entry :=
  match p.grammars.find? (·.name = name) with
  | some e => .ok e
  | none => .error (.unlistedGrammar name)

/-- The package of a text: it lists a grammar and has a version. -/
def parse (text : String) : Except Error Package := do
  let some p := (Json.parse? text).bind ofJson?
    | throw .malformedPackage
  if p.grammars.isEmpty then throw .noGrammars
  discard p.version
  return p

end Package

end GrammarTables
