import GrammarTables.FlatGrammar

/-!
# Derivations

What symbols derive by the productions of a flat grammar. Texts are lists of token numbers.

`Derives` follows the productions downwards. `Completes` reads a text bottom up: symbols that are on
a stack and the rest of the text are shifted and reduced until only the start symbol is left. The
two agree, which is how a table's runs and the grammar are compared.
-/

namespace GrammarTables.FlatGrammar

/-- A list of symbols derives a text. -/
inductive Derives (g : FlatGrammar) : List Symbol → List Nat → Prop
  | nil : Derives g [] []
  | token {t : Nat} {ss : List Symbol} {w : List Nat} :
      Derives g ss w → Derives g (.terminal t :: ss) (t :: w)
  | expand {v : Nat} {p : Production} {ss : List Symbol} {u w : List Nat} :
      p ∈ g.productionsOf (.nonterminal v) → Derives g p.symbols u → Derives g ss w →
      Derives g (.nonterminal v :: ss) (u ++ w)

/-- The symbols on a stack, the last one on top, and the rest of a text can be shifted and reduced
to the start symbol. -/
inductive Completes (g : FlatGrammar) : List Symbol → List Nat → Prop
  | done : Completes g [start] []
  | shift {α : List Symbol} {t : Nat} {y : List Nat} :
      Completes g (α ++ [.terminal t]) y → Completes g α (t :: y)
  | reduce {α : List Symbol} {v : Nat} {p : Production} {y : List Nat} :
      p ∈ g.productionsOf (.nonterminal v) → Completes g (α ++ [.nonterminal v]) y →
      Completes g (α ++ p.symbols) y

variable {g : FlatGrammar}

namespace Derives

theorem append {ss ts : List Symbol} {u w : List Nat} (h : g.Derives ss u) (k : g.Derives ts w) :
    g.Derives (ss ++ ts) (u ++ w) := by
  induction h with
  | nil => exact k
  | token _ ih => exact .token ih
  | expand hp hu _ _ ih =>
    rw [List.append_assoc]
    exact .expand hp hu ih

theorem split {ss ts : List Symbol} {w : List Nat} (h : g.Derives (ss ++ ts) w) :
    ∃ u v, w = u ++ v ∧ g.Derives ss u ∧ g.Derives ts v := by
  induction ss generalizing w with
  | nil => exact ⟨[], w, rfl, .nil, h⟩
  | cons s ss ih =>
    cases h with
    | token h =>
      obtain ⟨u, v, rfl, hu, hv⟩ := ih h
      exact ⟨_ :: u, v, rfl, .token hu, hv⟩
    | expand hp ht h =>
      obtain ⟨u, v, rfl, hu, hv⟩ := ih h
      exact ⟨_ ++ u, v, (List.append_assoc ..).symm, .expand hp ht hu, hv⟩

theorem single {v : Nat} {p : Production} {w : List Nat}
    (hp : p ∈ g.productionsOf (.nonterminal v)) (h : g.Derives p.symbols w) :
    g.Derives [.nonterminal v] w := by
  simpa using Derives.expand hp h .nil

/-- A part that derives a text can be replaced by that text on the way to the start symbol. -/
theorem completes {ss : List Symbol} {w : List Nat} (h : g.Derives ss w) :
    ∀ {α : List Symbol} {y : List Nat}, g.Completes (α ++ ss) y → g.Completes α (w ++ y) := by
  induction h with
  | nil => intro α y h; simpa using h
  | token _ ih =>
    intro α y h
    exact .shift (ih (by simpa using h))
  | expand hp _ _ ihu ihw =>
    intro α y h
    rw [List.append_assoc]
    exact ihu (.reduce hp (ihw (by simpa using h)))

end Derives

/-- Whatever the stack derives, together with the rest it is derived from the start symbol. -/
theorem Completes.derives {α : List Symbol} {y : List Nat} (h : g.Completes α y) :
    ∀ {w : List Nat}, g.Derives α w → g.Derives [start] (w ++ y) := by
  induction h with
  | done => intro w hw; simpa using hw
  | shift _ ih =>
    intro w hw
    simpa using ih (hw.append (.token .nil))
  | reduce hp _ ih =>
    intro w hw
    obtain ⟨u, v, rfl, hu, hv⟩ := hw.split
    exact ih (hu.append (.single hp hv))

theorem completes_nil_iff {w : List Nat} : g.Completes [] w ↔ g.Derives [start] w := by
  constructor
  · intro h
    exact h.derives .nil
  · intro h
    have hd : g.Completes ([] ++ [start]) [] := .done
    simpa using h.completes hd

end GrammarTables.FlatGrammar
