import GrammarTables.FieldLayout
import GrammarTables.Proofs.Derivation

/-!
# Derivation trees

The trees by which the productions of a flat grammar derive a text, and what readers of syntax trees
see of them. A token or a variable that is visible is a node. A variable that is not leaves the
nodes under it to the node above it, and they are in the fields of all steps on the way there.
-/

namespace GrammarTables

namespace FlatGrammar

/-- Trees for the steps of a production, one after the other. -/
inductive Forest (g : FlatGrammar) : List Step → Type
  | nil : Forest g []
  | token {t : Nat} {step : Step} {steps : List Step} :
      step.symbol = .terminal t → Forest g steps → Forest g (step :: steps)
  | node {p : Production} {step : Step} {steps : List Step} :
      p ∈ g.productionsOf step.symbol → Forest g p.steps → Forest g steps →
      Forest g (step :: steps)

/-- A tree of a variable: one of its productions, and trees for the steps. -/
structure Tree (g : FlatGrammar) (v : Nat) where
  production : Production
  mem : production ∈ g.productionsOf (.nonterminal v)
  forest : Forest g production.steps

variable {g : FlatGrammar}

/-- The tokens of trees, from left to right. -/
def Forest.text {steps : List Step} : Forest g steps → List Nat
  | .nil => []
  | @Forest.token _ t _ _ _ rest => t :: rest.text
  | .node _ children rest => children.text ++ rest.text

theorem Forest.derives {steps : List Step} (forest : Forest g steps) :
    g.Derives (steps.map (·.symbol)) forest.text := by
  induction forest with
  | nil => exact .nil
  | token ht _ ih =>
    rw [List.map_cons, ht]
    exact .token ih
  | @node p step steps hp _ _ ihc ihr =>
    obtain ⟨v, hv⟩ : ∃ v, step.symbol = .nonterminal v := by
      cases hs : step.symbol with
      | nonterminal v => exact ⟨v, rfl⟩
      | eof | terminal => simp [hs] at hp
    rw [List.map_cons, hv]
    exact .expand (hv ▸ hp) ihc ihr

theorem Derives.exists_forest {ss : List Symbol} {w : List Nat} (h : g.Derives ss w) :
    ∀ {steps : List Step}, steps.map (·.symbol) = ss →
      ∃ forest : Forest g steps, forest.text = w := by
  induction h with
  | nil =>
    intro steps hss
    cases List.map_eq_nil_iff.1 hss
    exact ⟨.nil, rfl⟩
  | token _ ih =>
    intro steps hss
    obtain ⟨step, steps, rfl, ht, hss⟩ := List.map_eq_cons_iff.1 hss
    obtain ⟨rest, rfl⟩ := ih hss
    exact ⟨.token ht rest, rfl⟩
  | expand hp _ _ ihu ihw =>
    intro steps hss
    obtain ⟨step, steps, rfl, hv, hss⟩ := List.map_eq_cons_iff.1 hss
    obtain ⟨children, rfl⟩ := ihu rfl
    obtain ⟨rest, rfl⟩ := ihw hss
    exact ⟨.node (hv ▸ hp) children rest, rfl⟩

/-- A variable derives the texts of its trees. -/
theorem derives_iff_exists_tree {v : Nat} {w : List Nat} :
    g.Derives [.nonterminal v] w ↔ ∃ t : Tree g v, t.forest.text = w := by
  constructor
  · intro h
    cases h with
    | expand hp hu hw =>
      cases hw
      obtain ⟨forest, rfl⟩ := hu.exists_forest rfl
      exact ⟨⟨_, hp, forest⟩, (List.append_nil _).symm⟩
  · rintro ⟨t, rfl⟩
    exact .single t.mem t.forest.derives

end FlatGrammar

/-- A visible node that stands directly under another. -/
structure Exposed where
  symbol : Symbol
  /-- The fields of the steps on the way to it. -/
  fields : List String
  deriving DecidableEq, Repr

namespace Exposed

/-- The node on the way through a step of the given field. -/
def through (field : Option String) (n : Exposed) : Exposed :=
  { n with fields := field.toList ++ n.fields }

@[simp] theorem symbol_through (field : Option String) (n : Exposed) :
    (n.through field).symbol = n.symbol := rfl

/-- A named node outside of fields. -/
def isUnfielded (g : FlatGrammar) (n : Exposed) : Bool :=
  n.fields.isEmpty && g.symbolKind n.symbol = .named

def isIn (f : String) (n : Exposed) : Bool := n.fields.contains f

@[simp] theorem isIn_through (f : String) (field : Option String) (n : Exposed) :
    (n.through field).isIn f = (decide (field = some f) || n.isIn f) := by
  simp [through, isIn]

end Exposed

namespace FlatGrammar

variable {g : FlatGrammar} {steps : List Step}

/-- The nodes that a symbol shows, where the given ones are under it. -/
def shown (g : FlatGrammar) (s : Symbol) (under : List Exposed) : List Exposed :=
  if (g.symbolKind s).isVisible then [{ symbol := s, fields := [] }] else under

/-- The nodes that a step brings, where the given ones are under its symbol. -/
def brought (g : FlatGrammar) (step : Step) (under : List Exposed) : List Exposed :=
  (g.shown step.symbol under).map (·.through step.field)

theorem shown_of_isInvisible {s : Symbol} (h : g.isInvisible s = true) (under : List Exposed) :
    g.shown s under = under := by
  rw [isInvisible, Bool.and_eq_true, Bool.not_eq_true'] at h
  rw [shown, h.2, if_neg Bool.false_ne_true]

/-- The nodes that come into a field together at a step. Where the step's variable is not visible,
these are all nodes under it, if the step has the field, and those that come together inside. -/
def bundled (g : FlatGrammar) (f : String) (step : Step) (under : List Exposed)
    (inside : List (List Exposed)) : List (List Exposed) :=
  if g.isInvisible step.symbol then
    (if step.field = some f then [under] else []) ++ inside
  else []

theorem length_le_of_mem_bundled {f : String} {step : Step} {b under : List Exposed}
    {inside : List (List Exposed)} (hb : b ∈ g.bundled f step under inside)
    (h : b ∈ inside → b.length ≤ (under.filter (·.isIn f)).length) :
    b.length ≤ ((g.brought step under).filter (·.isIn f)).length := by
  rw [bundled] at hb
  split at hb
  · rename_i hx
    rw [brought, shown_of_isInvisible hx, ← List.countP_eq_length_filter, List.countP_map]
    rcases List.mem_append.1 hb with hb | hb
    · split at hb
      · rename_i hf
        cases List.mem_singleton.1 hb
        simp [hf, Function.comp_def]
      · cases hb
    · refine Nat.le_trans (h hb) ?_
      rw [← List.countP_eq_length_filter]
      exact List.countP_mono_left fun n _ hn => by simp [hn]
  · cases hb

namespace Forest

/-- The nodes that trees expose to the node above them. -/
def exposed {steps : List Step} : Forest g steps → List Exposed
  | .nil => []
  | @Forest.token _ _ step _ _ rest => g.brought step [] ++ rest.exposed
  | @Forest.node _ _ step _ _ children rest => g.brought step children.exposed ++ rest.exposed

/-- The nodes that come into a field together, for each step of the field on the way to them. -/
def bundles {steps : List Step} (f : String) : Forest g steps → List (List Exposed)
  | .nil => []
  | .token _ rest => rest.bundles f
  | @Forest.node _ _ step _ _ children rest =>
    g.bundled f step children.exposed (children.bundles f) ++ rest.bundles f

/-- All nodes that come into a field together are in the field. -/
theorem length_le_of_mem_bundles {f : String} {b : List Exposed} (forest : Forest g steps)
    (hb : b ∈ forest.bundles f) : b.length ≤ (forest.exposed.filter (·.isIn f)).length := by
  induction forest with
  | nil => cases hb
  | token _ rest ih =>
    rw [exposed, List.filter_append, List.length_append]
    exact Nat.le_add_left_of_le (ih hb)
  | node _ children rest ihc ihr =>
    rw [exposed, List.filter_append, List.length_append]
    rcases List.mem_append.1 hb with hb | hb
    · exact Nat.le_add_right_of_le (length_le_of_mem_bundled hb ihc)
    · exact Nat.le_add_left_of_le (ihr hb)

end Forest

namespace Tree

variable {v : Nat}

/-- The named nodes directly under the tree's node that no step on the way puts in a field. -/
def unfielded (t : Tree g v) : List Exposed := t.forest.exposed.filter (·.isUnfielded g)

/-- The nodes directly under the tree's node that a step on the way puts in a field. -/
def inField (t : Tree g v) (f : String) : List Exposed := t.forest.exposed.filter (·.isIn f)

end Tree

end FlatGrammar

end GrammarTables
