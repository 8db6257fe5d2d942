import GrammarTables.Rule.Text

/-!
# Symbols

The symbols of a flat grammar: the end of the input, terminals that number its tokens, and
nonterminals that number its variables. The end comes first, then the terminals, then the
nonterminals.
-/

namespace GrammarTables

inductive Symbol where
  | eof
  | terminal (index : Nat)
  | nonterminal (index : Nat)
  deriving DecidableEq, Ord, Hashable, Repr, Inhabited

namespace Symbol

def isNonterminal : Symbol → Bool
  | .nonterminal _ => true
  | _ => false

def isTerminal (s : Symbol) : Bool := !s.isNonterminal

@[simp] theorem isTerminal_eof : isTerminal .eof = true := rfl
@[simp] theorem isTerminal_terminal (i : Nat) : isTerminal (.terminal i) = true := rfl
@[simp] theorem isTerminal_nonterminal (i : Nat) : isTerminal (.nonterminal i) = false := rfl

/-- The text by which a message shows a symbol. -/
def text (s : Symbol) : String :=
  let parts := fun (kind : String) (index : Nat) => [("kind", kind), ("index", toString index)]
  Text.record "Symbol" <|
    match s with
    | .eof => parts "End" 0
    | .terminal i => parts "Terminal" i
    | .nonterminal i => parts "NonTerminal" i

end Symbol

end GrammarTables
