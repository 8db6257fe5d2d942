import GrammarTables.Fixpoint
import GrammarTables.FlatGrammar
import GrammarTables.TokenSet

/-!
# Openings

The terminals that what is derived from symbols can begin with, and whether it can be empty.
-/

namespace GrammarTables

structure Opening where
  first : TokenSet
  nullable : Bool
  deriving DecidableEq, Repr

namespace Opening

/-- The opening of what derives nothing. -/
def nothing : Opening := ⟨.empty, false⟩

/-- The opening of the empty sequence. -/
def blank : Opening := ⟨.empty, true⟩

def orElse (a b : Opening) : Opening := ⟨a.first.union b.first, a.nullable || b.nullable⟩

def andThen (a b : Opening) : Opening :=
  if a.nullable then ⟨a.first.union b.first, b.nullable⟩ else a

@[simp] theorem blank_andThen (b : Opening) : blank.andThen b = b := by
  simp [blank, andThen, TokenSet.union, TokenSet.empty]

/-- The opening of a symbol, given those of the variables. -/
def ofSymbol (openings : Array Opening) : Symbol → Opening
  | .nonterminal i => openings[i]?.getD nothing
  | s => ⟨.singleton s, false⟩

def ofSymbols (openings : Array Opening) (symbols : List Symbol) : Opening :=
  symbols.foldr (fun s rest => (ofSymbol openings s).andThen rest) blank

def ofProductions (openings : Array Opening) (productions : List Production) : Opening :=
  productions.foldl (fun o p => o.orElse (ofSymbols openings p.symbols)) nothing

/-- The openings of the variables by those of the symbols in their productions. -/
def sweep (g : FlatGrammar) (openings : Array Opening) : Array Opening :=
  g.vars.map fun v => ofProductions openings v.productions

end Opening

/-- The openings of the variables: the least that the productions demand. -/
def FlatGrammar.openings (g : FlatGrammar) : Array Opening :=
  settle (Opening.sweep g) (g.vars.size * (g.tokenCount + 1) + 1)
    (Array.replicate g.vars.size .nothing)

end GrammarTables
