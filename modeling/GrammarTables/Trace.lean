import GrammarTables.Cursor
import GrammarTables.Language

/-!
# Traces

Repeated lexing, and a plain run of a parser over a language's tables that takes one action at each
step.
-/

namespace GrammarTables

/-- What a language reads tokens with. -/
structure Lexers where
  /-- Reads a token in a lexer state. -/
  lex : Nat → Input → Nat → Lexeme
  /-- Reads a keyword. -/
  keyword : Input → Nat → Lexeme

namespace Lexers

/-- Reads tokens one after the other, in the lexer states as they come; the last one repeats. It
stops behind what is no token, the end, or a token that ends where its reading began. -/
def scan (l : Lexers) (text : Input) : Nat → Nat → List Nat → Nat → List Lexeme
  | 0, _, _, _ => []
  | fuel + 1, state, states, place =>
    let token := l.lex state text place
    if token.symbol.isNone || token.symbol == some .eof || token.stop == place then [token]
    else
      match states with
      | [] => token :: scan l text fuel state [] token.stop
      | next :: rest => token :: scan l text fuel next rest token.stop

end Lexers

namespace Trace

structure Step where
  state : Nat
  symbol : Nat
  start : Nat
  stop : Nat
  action : Action

/-- How a run ends. -/
inductive Outcome where
  | accept
  | recover
  | tooLong
  | noToken (state place : Nat)
  | noAction (state symbol start stop : Nat)

/-- Which of several actions a run takes. -/
inductive Choice where
  | first
  | last

/-- The action that a run takes. Of several, shifts of repetitions do not count. -/
def Choice.pick (choice : Choice) (actions : List Action) : Option Action :=
  let actions :=
    if 1 < actions.length then
      actions.filter fun
        | .shift _ true => false
        | _ => true
    else actions
  match choice with
  | .first => actions.head?
  | .last => actions.getLast?

/-- The symbol of a token in a state. A word that is a keyword with actions there counts as the
keyword. -/
def symbolIn (l : Language) (lexers : Lexers) (text : Input) (state : Nat) (token : Lexeme)
    (symbol : Nat) : Nat :=
  if l.word = some symbol then
    let keyword := lexers.keyword text token.start
    match keyword.symbol with
    | some k =>
      if keyword.stop = token.stop ∧ (l.actions? state (l.symbolId k)).any (!·.isEmpty) then
        l.symbolId k
      else symbol
    | none => symbol
  else symbol

/-- Runs from a stack, the top first, and a place in the text. -/
def run (l : Language) (lexers : Lexers) (choice : Choice) (text : Input) :
    Nat → List Nat → Nat → List Step × Outcome
  | 0, _, _ => ([], .tooLong)
  | fuel + 1, stack, place =>
    let state := stack.head?.getD 0
    let token := lexers.lex (l.lexModes[state]?.getD 0) text place
    match token.symbol with
    | none => ([], .noToken state token.start)
    | some s =>
      let symbol := symbolIn l lexers text state token (l.symbolId s)
      match choice.pick ((l.actions? state symbol).getD []) with
      | none => ([], .noAction state symbol token.start token.stop)
      | some action =>
        let step : Step := { state, symbol, start := token.start, stop := token.stop, action }
        let go := fun (stack : List Nat) (place : Nat) =>
          (run l lexers choice text fuel stack place).map (step :: ·) id
        match action with
        | .accept => ([step], .accept)
        | .recover => ([step], .recover)
        | .shiftExtra => go stack token.stop
        | .shift next _ => go (next :: stack) token.stop
        | .reduce r =>
          let stack := stack.drop r.children
          let next := (l.nextState? (stack.head?.getD 0) (l.symbolId r.symbol)).getD 0
          go (next :: stack) place

end Trace

/-- The run over a text from the start state. -/
def Language.trace (l : Language) (lexers : Lexers) (choice : Trace.Choice) (text : Input)
    (limit : Nat) : List Trace.Step × Trace.Outcome :=
  Trace.run l lexers choice text limit [ParseTable.startState] 0

end GrammarTables
