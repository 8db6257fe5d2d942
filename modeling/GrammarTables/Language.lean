import GrammarTables.Encoding.Basic

/-!
# Languages

The encoded tables of a grammar as arrays, and how a parser reads them. A reader answers nothing
where it would leave an array.
-/

namespace GrammarTables

/-- An element of the array of actions. -/
inductive Cell where
  /-- How many actions follow, and whether they can be used again. -/
  | header (count : Nat) (reusable : Bool)
  | action (action : Action)
  deriving DecidableEq, Repr

structure Language where
  name : String
  version : Version
  symbols : Array Encoding.SymbolInfo
  tokenCount : Nat
  word : Option Nat
  fields : Array Encoding.FieldInfo
  slices : Array (Nat × Nat)
  fieldEntries : Array Encoding.FieldEntry
  maxChildren : Nat
  stateCount : Nat
  largeCount : Nat
  /-- The rows of the large states, one after the other. -/
  parseTable : Array Nat
  smallTable : Array Nat
  smallOffsets : Array Nat
  actions : Array Cell
  lexModes : Array Nat
  primary : Array Nat
  lexSets : Array TokenSet
  keywords : Array (String × Nat)
  /-- The length of the longest keyword in bytes. -/
  maxKeywordLength : Nat

namespace Language

/-- The number of a symbol for what cannot be parsed. -/
def errorSymbol : Nat := 65535

/-- The number of a symbol for a run of what cannot be parsed. -/
def errorRepeatSymbol : Nat := 65534

def isErrorSymbol (symbol : Nat) : Bool := symbol == errorSymbol || symbol == errorRepeatSymbol

/-- The numbers of a small row: how many groups there are, and for each group its value, how many
symbols have it, and these. -/
def rowNumbers (groups : List Encoding.Group) : List Nat :=
  groups.length :: groups.flatMap fun g => g.value :: g.symbols.length :: g.symbols

/-- The cells of an entry. -/
def entryCells (e : Encoding.ActionEntry) : List Cell :=
  .header e.actions.length e.reusable :: e.actions.map .action

def ofEncoding (e : Encoding) : Language where
  name := e.name
  version := e.version
  symbols := e.symbols
  tokenCount := e.tokenCount
  word := e.word
  fields := e.fields.toArray
  slices := e.slices.toArray
  fieldEntries := e.fieldEntries.toArray
  maxChildren := e.maxChildren
  stateCount := e.stateCount
  largeCount := e.largeCount
  parseTable := e.largeRows.flatten.toArray
  smallTable := (e.smallRows.flatMap fun r => rowNumbers r.groups).toArray
  smallOffsets := e.smallOffsets.toArray
  actions := (e.actionEntries.flatMap entryCells).toArray
  lexModes := e.lexModes.toArray
  primary := e.primary.toArray
  lexSets := e.lexSets.toArray
  keywords := e.keywords.toArray
  maxKeywordLength := e.maxKeywordLength

def symbolCount (l : Language) : Nat := l.symbols.size

/-- The number of a symbol among all symbols. -/
def symbolId (l : Language) : Symbol → Nat
  | .eof => 0
  | .terminal i => i + 1
  | .nonterminal i => l.tokenCount + i

/-- Whether a symbol is among the given number of symbols from a place on. -/
def isListed (table : Array Nat) (symbol : Nat) : Nat → Nat → Option Bool
  | 0, _ => some false
  | count + 1, place => do
    if (← table[place]?) = symbol then return true
    isListed table symbol count (place + 1)

/-- The value of the first of the given number of groups from a place on that lists the symbol. -/
def findGroup (table : Array Nat) (symbol : Nat) : Nat → Nat → Option Nat
  | 0, _ => some 0
  | groups + 1, place => do
    let value ← table[place]?
    let count ← table[place + 1]?
    if ← isListed table symbol count (place + 2) then return value
    findGroup table symbol groups (place + 2 + count)

/-- For a terminal the place of its actions, for a variable its target. Zero is nothing. -/
def lookup? (l : Language) (state symbol : Nat) : Option Nat :=
  if state < l.largeCount then l.parseTable[state * l.symbolCount + symbol]?
  else do
    let offset ← l.smallOffsets[state - l.largeCount]?
    let groups ← l.smallTable[offset]?
    findGroup l.smallTable symbol groups (offset + 1)

/-- The actions in the given number of cells from a place on. -/
def readActions (cells : Array Cell) : Nat → Nat → Option (List Action)
  | 0, _ => some []
  | count + 1, place => do
    match ← cells[place]? with
    | .action a => return a :: (← readActions cells count (place + 1))
    | .header _ _ => none

/-- The actions of a state for a terminal. -/
def entry? (l : Language) (state symbol : Nat) : Option Encoding.ActionEntry :=
  if isErrorSymbol symbol then some { reusable := false, actions := [] }
  else do
    let place ← l.lookup? state symbol
    match ← l.actions[place]? with
    | .header count reusable =>
      return { reusable, actions := ← readActions l.actions count (place + 1) }
    | .action _ => none

def actions? (l : Language) (state symbol : Nat) : Option (List Action) :=
  (l.entry? state symbol).map (·.actions)

/-- The state behind a symbol, or zero. The last action for a terminal counts, and passing over an
extra stays in the state. -/
def nextState? (l : Language) (state symbol : Nat) : Option Nat :=
  if isErrorSymbol symbol then some 0
  else if symbol < l.tokenCount then do
    match (← l.actions? state symbol).getLast? with
    | some (.shift target _) => return target
    | some .shiftExtra => return state
    | _ => return 0
  else l.lookup? state symbol

/-- The states behind symbols, each from the one before it. -/
def walk? (l : Language) : Nat → List Nat → Option (List Nat)
  | _, [] => some []
  | state, symbol :: rest => do
    let next ← l.nextState? state symbol
    return next :: (← l.walk? next rest)

def symbolName? (l : Language) (symbol : Nat) : Option String :=
  if symbol = errorSymbol then some "ERROR"
  else if symbol = errorRepeatSymbol then some "_ERROR"
  else l.symbols[symbol]?.map (·.name)

/-- How a symbol shows in trees. -/
structure Appearance where
  visible : Bool
  named : Bool
  supertype : Bool := false
  deriving DecidableEq, Repr

def appearance? (l : Language) (symbol : Nat) : Option Appearance :=
  if symbol = errorSymbol then some { visible := true, named := true }
  else if symbol = errorRepeatSymbol then some { visible := false, named := false }
  else l.symbols[symbol]?.map fun s => { visible := s.visible, named := s.named }

/-- The number of the sort of a symbol: regular, anonymous, supertype or auxiliary. -/
def Appearance.sort (a : Appearance) : Nat :=
  if a.named && a.visible then 0
  else if a.visible then 1
  else if a.supertype then 2
  else 3

def publicSymbol? (l : Language) (symbol : Nat) : Option Nat := l.symbols[symbol]?.map (·.publicId)

/-- The name of a field. Fields are numbered from one. -/
def fieldName? (l : Language) (field : Nat) : Option String :=
  match field with
  | 0 => none
  | n + 1 => l.fields[n]?.map (·.name)

/-- The fields of a production number. -/
def fieldMap? (l : Language) (production : Nat) : Option (List Encoding.FieldEntry) :=
  if l.fields.isEmpty then some []
  else do
    let (start, length) ← l.slices[production]?
    (List.range length).mapM fun i => l.fieldEntries[start + i]?

/-- The tokens that the lexer may return in a lexer state. -/
def lexSet? (l : Language) (lexState : Nat) : Option TokenSet := l.lexSets[lexState]?

end Language

end GrammarTables
