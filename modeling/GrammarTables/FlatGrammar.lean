import GrammarTables.Lexicon
import GrammarTables.Ordered
import GrammarTables.Production
import GrammarTables.Repetition

/-!
# Flat grammars

A grammar as tokens and variables with productions. Variable 0 is the start.
-/

namespace GrammarTables

structure Variable where
  name : String
  kind : SymbolKind
  productions : List Production
  /-- The variable whose body a repetition was first met in. -/
  parent : Option Symbol

structure FlatGrammar where
  name : String
  tokens : Array Token
  vars : Array Variable
  extras : List Symbol
  /-- The expected conflicts, ascending, each as the ascending list of its variables. -/
  conflicts : List (List Symbol)
  word : Option Symbol
  keywords : List Symbol

namespace FlatGrammar

def start : Symbol := .nonterminal 0

/-- The terminals in order: the end, then the tokens. -/
def terminals (g : FlatGrammar) : List Symbol :=
  .eof :: (List.range g.tokens.size).map .terminal

def nonterminals (g : FlatGrammar) : List Symbol :=
  (List.range g.vars.size).map .nonterminal

def symbols (g : FlatGrammar) : List Symbol := g.terminals ++ g.nonterminals

/-- How many terminals there are. -/
def tokenCount (g : FlatGrammar) : Nat := 1 + g.tokens.size

def symbolCount (g : FlatGrammar) : Nat := g.tokenCount + g.vars.size

theorem length_symbols (g : FlatGrammar) : g.symbols.length = g.symbolCount := by
  simp only [symbols, terminals, nonterminals, symbolCount, tokenCount, List.length_append,
    List.length_cons, List.length_map, List.length_range]
  omega

@[simp] theorem terminal_mem_symbols {g : FlatGrammar} {i : Nat} :
    .terminal i ∈ g.symbols ↔ i < g.tokens.size := by
  simp [symbols, terminals, nonterminals]

@[simp] theorem nonterminal_mem_symbols {g : FlatGrammar} {i : Nat} :
    .nonterminal i ∈ g.symbols ↔ i < g.vars.size := by
  simp [symbols, terminals, nonterminals]

/-- The number of a symbol among all symbols. -/
def symbolId (g : FlatGrammar) : Symbol → Nat
  | .eof => 0
  | .terminal i => i + 1
  | .nonterminal i => g.tokenCount + i

def token? (g : FlatGrammar) : Symbol → Option Token
  | .terminal i => g.tokens[i]?
  | _ => none

def variableOf? (g : FlatGrammar) : Symbol → Option Variable
  | .nonterminal i => g.vars[i]?
  | _ => none

/-- The productions of a symbol. A terminal has none. -/
def productionsOf (g : FlatGrammar) (s : Symbol) : List Production :=
  ((g.variableOf? s).map (·.productions)).getD []

@[simp] theorem productionsOf_eof (g : FlatGrammar) : g.productionsOf .eof = [] := rfl

@[simp] theorem productionsOf_terminal (g : FlatGrammar) (i : Nat) :
    g.productionsOf (.terminal i) = [] := rfl

theorem productionsOf_of_getElem? {g : FlatGrammar} {v : Nat} {x : Variable}
    (h : g.vars[v]? = some x) : g.productionsOf (.nonterminal v) = x.productions := by
  simp [productionsOf, variableOf?, h]

theorem productionsOf_eq_getElem {g : FlatGrammar} {v : Nat} (h : v < g.vars.size) :
    g.productionsOf (.nonterminal v) = g.vars[v].productions :=
  productionsOf_of_getElem? (Array.getElem?_eq_getElem h)

theorem productionsOf_eq_nil {g : FlatGrammar} {v : Nat} (h : g.vars.size ≤ v) :
    g.productionsOf (.nonterminal v) = [] := by
  simp [productionsOf, variableOf?, Array.getElem?_eq_none h]

theorem exists_variable {g : FlatGrammar} {v : Nat} {p : Production}
    (h : p ∈ g.productionsOf (.nonterminal v)) : ∃ x, g.vars[v]? = some x ∧ p ∈ x.productions := by
  cases hx : g.vars[v]? with
  | none => simp [productionsOf, variableOf?, hx] at h
  | some x => exact ⟨x, rfl, productionsOf_of_getElem? hx ▸ h⟩

def symbolName (g : FlatGrammar) : Symbol → String
  | .eof => "end"
  | .terminal i => (g.tokens[i]?.map (·.name)).getD ""
  | .nonterminal i => (g.vars[i]?.map (·.name)).getD ""

def symbolKind (g : FlatGrammar) : Symbol → SymbolKind
  | .eof => .hidden
  | .terminal i => (g.tokens[i]?.map (·.kind)).getD .hidden
  | .nonterminal i => (g.vars[i]?.map (·.kind)).getD .hidden

def isExtra (g : FlatGrammar) (s : Symbol) : Bool := g.extras.contains s

def isKeyword (g : FlatGrammar) (s : Symbol) : Bool := g.keywords.contains s

/-- The first declaration of a grammar that is not supported. -/
def unsupported? (g : Grammar) : Option String :=
  ([("externals", g.externals.isEmpty), ("inline", g.inline.isEmpty),
    ("supertypes", g.supertypes.isEmpty), ("precedences", g.precedences.isEmpty),
    ("reserved", g.reserved.isEmpty)].find? fun d => !d.2).map (·.1)

/-- The variables that an expected conflict is between, ascending. -/
def conflict (g : Grammar) (names : List String) : Except Error (List Symbol) := do
  let symbols ← names.mapM fun name =>
    match g.variableNamed? name with
    | some s => .ok s
    | none => .error (.invalidConflict name)
  return Ordered.ofList symbols

/-- Whether a symbol stands in a production. -/
def isReferenced (vars : List Variable) (s : Symbol) : Bool :=
  vars.any fun v => v.productions.any fun p => p.steps.any (·.symbol == s)

/-- The first variable after the start that has an empty production and stands in a production. -/
def emptyRule? (vars : List Variable) : Option String :=
  ((vars.mapIdx fun i v => (i, v)).find? fun (i, v) =>
    0 < i && v.productions.any (·.isEmpty) && isReferenced vars (.nonterminal i)).map (·.2.name)

def Variable.ofDefinition (d : Definition) : Variable where
  name := d.name
  kind := d.kind
  productions := d.body.productions
  parent := d.parent

section

variable [RegexEngine]

/-- Whether a token is a literal text that the word token matches as a whole. Such a token is lexed
as a word and looked up. -/
def isKeywordOf (word : Token) (token : Token) : Except Error Bool :=
  match token.rule with
  | .string value =>
    if token.immediate || token.kind == .auxiliary || value.isEmpty then .ok false
    else word.pattern.matchesWhole value
  | _ => .ok false

/-- The keywords among the tokens, where token `w` is the word token. -/
def wordKeywords (tokens : List Token) (w : Nat) (word : Token) : Except Error (List Symbol) :=
  tokens.zipIdx.filterMapM fun (token, i) =>
    if i = w then .ok none
    else do return if ← isKeywordOf word token then some (.terminal i) else none

/-- The keywords among the tokens. Without a word token there are none. -/
def keywordsOf (tokens : Array Token) : Option Symbol → Except Error (List Symbol)
  | some (.terminal w) =>
    match tokens[w]? with
    | some word => wordKeywords tokens.toList w word
    | none => .ok []
  | _ => .ok []

/-- The flat form of a grammar. -/
def ofGrammar (g : Grammar) : Except Error FlatGrammar := do
  if let some feature := unsupported? g then throw (.unsupported feature)
  if let some start := g.rules.head? then
    if start.rule.isToken then throw (.tokenStartRule start.name)
  let (bodies, l) ← Lexicon.convertRules g g.syntaxRules {}
  let (extras, l) ← Lexicon.extras g g.extras l.nextRule
  let l ← Lexicon.addRules g.tokenRules l
  let (word, l) ← l.word g
  let conflicts ← g.conflicts.mapM (conflict g)
  let definitions := (g.syntaxRules.zip bodies).map fun (r, body) =>
    ({ name := r.name, kind := .ofRuleName r.name, body } : Definition)
  let vars := (Repetition.expandAllDefinitions definitions).map Variable.ofDefinition
  if let some name := emptyRule? vars then throw (.emptyRule name)
  return {
    name := g.name
    tokens := l.tokens
    vars := vars.toArray
    extras
    conflicts := Ordered.ofList conflicts
    word
    keywords := ← keywordsOf l.tokens word }

end

end FlatGrammar

end GrammarTables
