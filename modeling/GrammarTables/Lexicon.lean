import GrammarTables.Body
import GrammarTables.Grammar
import GrammarTables.Token

/-!
# Lexicons

The tokens of a grammar, collected while its rules become bodies. A token rule gives one token under
its own name. A token inside a rule is shared by all places that say the same of it: a literal text
goes by that text, any other by the rule it is first met in and a number.
-/

namespace GrammarTables

namespace Grammar

def tokenRule? (g : Grammar) (name : String) : Option Rule :=
  (g.rules.find? fun r => r.rule.isToken && r.name == name).map (·.rule)

/-- The rules that are no tokens. Each becomes a variable. -/
def syntaxRules (g : Grammar) : List NamedRule := g.rules.filter fun r => !r.rule.isToken

def tokenRules (g : Grammar) : List NamedRule := g.rules.filter fun r => r.rule.isToken

def variableNamed? (g : Grammar) (name : String) : Option Symbol :=
  (g.syntaxRules.findIdx? (·.name == name)).map .nonterminal

end Grammar

structure Lexicon where
  tokens : Array Token := #[]
  /-- How many tokens were named after the rule at hand. -/
  numbered : Nat := 0

namespace Lexicon

/-- The lexicon as the next rule finds it. -/
def nextRule (l : Lexicon) : Lexicon := { l with numbered := 0 }

def add (l : Lexicon) (token : Token) : Symbol × Lexicon :=
  (.terminal l.tokens.size, { l with tokens := l.tokens.push token })

variable [RegexEngine]

/-- The symbol of a token rule. -/
def named (name : String) (rule : Rule) (l : Lexicon) : Except Error (Symbol × Lexicon) :=
  match l.tokens.findIdx? fun t => t.kind.isNamed && t.name == name with
  | some i => .ok (.terminal i, l)
  | none => do
    let body ← TokenBody.ofRule rule
    return l.add (← Token.ofBody name (.ofRuleName name) body)

/-- The symbol of a token inside the rule called `owner`. -/
def inline (owner : String) (rule : Rule) (l : Lexicon) : Except Error (Symbol × Lexicon) := do
  let body ← TokenBody.ofRule rule
  match l.tokens.findIdx? fun t => !t.kind.isNamed && t.toTokenBody == body with
  | some i => return (.terminal i, l)
  | none =>
    match body.rule with
    | .string value => return l.add (← Token.ofBody value .anonymous body)
    | _ =>
      let number := l.numbered + 1
      let token ← Token.ofBody s!"{owner}_token{number}" .auxiliary body
      return { l with numbered := number }.add token

/-- The symbol that a name in the rule called `owner` refers to. -/
def resolve (g : Grammar) (owner name : String) (l : Lexicon) :
    Except Error (Symbol × Lexicon) :=
  match g.tokenRule? name with
  | some rule => l.named name rule
  | none =>
    match g.variableNamed? name with
    | some s => .ok (s, l)
    | none => .error (.undefinedSymbol name owner)

/-- What a wrapper tells about its content, for wrappers that only tell something. -/
def attributes : Wrapper → Except Error Attributes
  | .field name => .ok { field := some name }
  | .prec associativity value => do
    return { precedence := some (← value.number), associativity }
  | .dynamic value => .ok { dynamic := value }
  | .renamed _ _ => .error (.unsupported "ALIAS")
  | .reserved _ => .error (.unsupported "RESERVED")
  | .repeat0 | .repeat1 | .token _ => .ok {}

mutual

/-- The body of a rule, and the lexicon with the tokens met in it. -/
def convert (g : Grammar) (owner : String) : Rule → Lexicon → Except Error (Body × Lexicon)
  | .blank, l => .ok (.blank, l)
  | .string value, l => (inline owner (.string value) l).map (Prod.map .symbol id)
  | .pattern value flags, l => (inline owner (.pattern value flags) l).map (Prod.map .symbol id)
  | .wrap (.token immediate) content, l =>
    (inline owner (.wrap (.token immediate) content) l).map (Prod.map .symbol id)
  | .symbol name, l => (resolve g owner name l).map (Prod.map .symbol id)
  | .seq members, l => (convertAll g owner members l).map (Prod.map .seq id)
  | .choice members, l => (convertAll g owner members l).map (Prod.map .choice id)
  | .wrap .repeat0 content, l => (convert g owner content l).map (Prod.map .repeat0 id)
  | .wrap .repeat1 content, l => (convert g owner content l).map (Prod.map .repeat1 id)
  | .wrap wrapper content, l => do
    let attrs ← attributes wrapper
    (convert g owner content l).map (Prod.map (.attr attrs) id)

def convertAll (g : Grammar) (owner : String) :
    List Rule → Lexicon → Except Error (List Body × Lexicon)
  | [], l => .ok ([], l)
  | r :: rest, l => do
    let (body, l) ← convert g owner r l
    let (bodies, l) ← convertAll g owner rest l
    return (body :: bodies, l)

end

/-- The bodies of rules, in order. -/
def convertRules (g : Grammar) : List NamedRule → Lexicon → Except Error (List Body × Lexicon)
  | [], l => .ok ([], l)
  | r :: rest, l => do
    let (body, l) ← convert g r.name r.rule l.nextRule
    let (bodies, l) ← convertRules g rest l
    return (body :: bodies, l)

/-- The symbol of an extra, which has to be a token. -/
def extra (g : Grammar) (rule : Rule) (l : Lexicon) : Except Error (Symbol × Lexicon) :=
  match rule with
  | .symbol name =>
    match g.tokenRule? name with
    | some body => l.named name body
    | none => .error (.nonTerminalExtra name)
  | rule => if rule.isToken then l.inline "extra" rule else .error (.nonTerminalExtra rule.text)

/-- The symbols of extras, each once. -/
def extras (g : Grammar) : List Rule → Lexicon → Except Error (List Symbol × Lexicon)
  | [], l => .ok ([], l)
  | r :: rest, l => do
    let (s, l) ← extra g r l
    let (symbols, l) ← extras g rest l
    return (s :: symbols.filter (· != s), l)

/-- The lexicon with the token rules that nothing refers to. -/
def addRules : List NamedRule → Lexicon → Except Error Lexicon
  | [], l => .ok l
  | r :: rest, l => do
    let (_, l) ← l.named r.name r.rule
    addRules rest l

/-- The symbol of the word token. -/
def word (g : Grammar) (l : Lexicon) : Except Error (Option Symbol × Lexicon) :=
  match g.word with
  | none => .ok (none, l)
  | some name =>
    match g.tokenRule? name with
    | some rule => (l.named name rule).map (Prod.map some id)
    | none => .error (.invalidWordToken name)

end Lexicon

end GrammarTables
