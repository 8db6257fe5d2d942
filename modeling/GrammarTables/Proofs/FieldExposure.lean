import GrammarTables.FieldLayout
import GrammarTables.Proofs.OrderedMap
import Mathlib.Algebra.BigOperators.Group.Finset.Basic
import Mathlib.Algebra.Order.BigOperators.Group.Finset
import Mathlib.Logic.Relation

/-!
# The fields that variables expose

A variable exposes the fields of its own steps and, through a child that does not show in the tree,
what the child exposes. Sweeping over the variables only adds fields, and a grammar has only so many
of them, so the sweeps end at the fields that chains of such children lead to.
-/

namespace GrammarTables

namespace FlatGrammar

/-- A step of a variable carries a field. -/
def Carries (g : FlatGrammar) (v : Nat) (field : String) : Prop :=
  ∃ p ∈ g.productionsOf (.nonterminal v), ∃ step ∈ p.steps, step.field = some field

/-- A variable has another one as a child that does not show in the tree. -/
def Hides (g : FlatGrammar) (v w : Nat) : Prop :=
  ∃ p ∈ g.productionsOf (.nonterminal v), ∃ step ∈ p.steps,
    step.symbol = .nonterminal w ∧ g.isInvisible (.nonterminal w) = true

/-- Children that do not show lead from a variable to one that carries a field. -/
def Exposes (g : FlatGrammar) (v : Nat) (field : String) : Prop :=
  ∃ w, Relation.ReflTransGen g.Hides v w ∧ g.Carries w field

variable {g : FlatGrammar} {v w : Nat} {field : String}

theorem Carries.exposes (h : g.Carries v field) : g.Exposes v field := ⟨v, .refl, h⟩

theorem Exposes.hide (h : g.Exposes w field) (hw : g.Hides v w) : g.Exposes v field := by
  obtain ⟨u, hu, hc⟩ := h
  exact ⟨u, .head hw hu, hc⟩

end FlatGrammar

namespace FieldLayout

variable {g : FlatGrammar} {exposed : Array (List String)} {v : Nat} {field : String}
  {step : Step} {s : Symbol}

/-- The fields of a variable in a table of them. -/
def fieldsOf (exposed : Array (List String)) (v : Nat) : List String := exposed[v]?.getD []

theorem mem_exposedBy : field ∈ exposedBy g exposed s ↔
    ∃ w, s = .nonterminal w ∧ g.isInvisible (.nonterminal w) = true ∧
      field ∈ fieldsOf exposed w := by
  cases s <;> simp [exposedBy, fieldsOf]

theorem mem_stepFields : field ∈ stepFields g exposed step ↔
    step.field = some field ∨ field ∈ exposedBy g exposed step.symbol := by
  simp [stepFields]

theorem fieldsOf_sweep (g : FlatGrammar) (exposed : Array (List String)) (v : Nat) :
    fieldsOf (sweep g exposed) v = Ordered.ofList ((g.productionsOf (.nonterminal v)).flatMap
      fun p => p.steps.flatMap (stepFields g exposed)) := by
  simp only [fieldsOf, sweep, Array.getElem?_map, FlatGrammar.productionsOf,
    FlatGrammar.variableOf?]
  cases g.vars[v]? <;> rfl

/-- A sweep finds what steps carry and what children expose by the table so far. -/
theorem mem_fieldsOf_sweep : field ∈ fieldsOf (sweep g exposed) v ↔
    g.Carries v field ∨ ∃ w, g.Hides v w ∧ field ∈ fieldsOf exposed w := by
  simp only [fieldsOf_sweep, Ordered.mem_ofList, List.mem_flatMap, mem_stepFields, mem_exposedBy,
    FlatGrammar.Carries, FlatGrammar.Hides]
  constructor
  · rintro ⟨p, hp, step, hstep, hfield | ⟨w, hw, hhidden, hfield⟩⟩
    · exact .inl ⟨p, hp, step, hstep, hfield⟩
    · exact .inr ⟨w, ⟨p, hp, step, hstep, hw, hhidden⟩, hfield⟩
  · rintro (⟨p, hp, step, hstep, hfield⟩ | ⟨w, ⟨p, hp, step, hstep, hw, hhidden⟩, hfield⟩)
    · exact ⟨p, hp, step, hstep, .inl hfield⟩
    · exact ⟨p, hp, step, hstep, .inr ⟨w, hw, hhidden, hfield⟩⟩

theorem mem_allFields {p : Production} (hp : p ∈ g.productionsOf s) (hstep : step ∈ p.steps)
    (hfield : step.field = some field) : field ∈ allFields g := by
  obtain ⟨w, hw, hpw⟩ : ∃ w ∈ g.vars.toList, p ∈ w.productions := by
    cases s with
    | eof | terminal => simp at hp
    | nonterminal v =>
      obtain ⟨w, hw, hp⟩ := FlatGrammar.exists_variable hp
      exact ⟨w, Array.mem_toList_iff.2 (Array.mem_of_getElem? hw), hp⟩
  rw [allFields, Ordered.mem_ofList, List.mem_flatMap]
  exact ⟨w, hw, List.mem_flatMap.2 ⟨p, hpw, List.mem_filterMap.2 ⟨step, hstep, hfield⟩⟩⟩

/-- The variables of a table have fields that they expose, in ascending order. -/
structure Found (g : FlatGrammar) (exposed : Array (List String)) : Prop where
  size : exposed.size = g.vars.size
  ascending : ∀ v, Ordered.Ascending (fieldsOf exposed v)
  sound : ∀ {v field}, field ∈ fieldsOf exposed v → g.Exposes v field

/-- How many fields the variables have. -/
def weight (g : FlatGrammar) (exposed : Array (List String)) : Nat :=
  ∑ v ∈ Finset.range g.vars.size, (fieldsOf exposed v).length

theorem ext_fieldsOf {table table' : Array (List String)} (hs : table.size = table'.size)
    (h : ∀ v < table.size, fieldsOf table v = fieldsOf table' v) : table = table' := by
  refine Array.ext hs fun v hv hv' => ?_
  simpa [fieldsOf, hv, hv'] using h v hv

namespace Found

variable {table table' : Array (List String)}

theorem empty (g : FlatGrammar) : Found g (Array.replicate g.vars.size []) := by
  have hnil : ∀ v, fieldsOf (Array.replicate g.vars.size []) v = [] := by
    intro v
    simp only [fieldsOf, Array.getElem?_replicate]
    split <;> rfl
  constructor <;> simp [hnil, Ordered.Ascending]

theorem weight_le (h : Found g table) : weight g table ≤ g.vars.size * (allFields g).length := by
  have hle : ∀ v, (fieldsOf table v).length ≤ (allFields g).length := by
    intro v
    refine (List.subperm_of_subset (h.ascending v).nodup fun field hfield => ?_).length_le
    obtain ⟨w, -, p, hp, step, hstep, hcarried⟩ := h.sound hfield
    exact mem_allFields hp hstep hcarried
  have hsum := Finset.sum_le_card_nsmul (Finset.range g.vars.size)
    (fun v => (fieldsOf table v).length) (allFields g).length fun v _ => hle v
  simpa [weight] using hsum

/-- A table with more fields weighs more. -/
theorem weight_lt (h : Found g table) (h' : Found g table')
    (hle : ∀ v, fieldsOf table v ⊆ fieldsOf table' v) (hne : table' ≠ table) :
    weight g table < weight g table' := by
  obtain ⟨v, hv, hlt⟩ : ∃ v < g.vars.size,
      ¬ (fieldsOf table' v).length ≤ (fieldsOf table v).length := by
    by_contra hall
    push Not at hall
    refine hne (ext_fieldsOf (h'.size.trans h.size.symm) fun v hv => ?_)
    exact ((h.ascending v).eq_of_subset (h'.ascending v) (hle v) (hall v (h'.size ▸ hv))).symm
  refine Finset.sum_lt_sum (fun v _ => ?_) ⟨v, Finset.mem_range.2 hv, Nat.lt_of_not_le hlt⟩
  exact (List.subperm_of_subset (h.ascending v).nodup (hle v)).length_le

end Found

/-- What holds of the fields of the variables after each sweep. -/
structure Growing (g : FlatGrammar) (exposed : Array (List String)) : Prop extends
    Found g exposed where
  le : ∀ v, fieldsOf exposed v ⊆ fieldsOf (sweep g exposed) v

namespace Growing

theorem empty (g : FlatGrammar) : Growing g (Array.replicate g.vars.size []) := by
  refine ⟨.empty g, fun v field hfield => ?_⟩
  simp only [fieldsOf, Array.getElem?_replicate] at hfield
  split at hfield <;> cases hfield

theorem sweep (h : Growing g exposed) : Growing g (sweep g exposed) where
  size := by simp [FieldLayout.sweep]
  ascending v := by
    rw [fieldsOf_sweep]
    exact Ordered.ascending_ofList _
  le v field hfield := by
    rw [mem_fieldsOf_sweep] at hfield ⊢
    exact hfield.imp id fun ⟨w, hw, hmem⟩ => ⟨w, hw, h.le w hmem⟩
  sound {v field} hfield := by
    obtain hc | ⟨w, hw, hmem⟩ := mem_fieldsOf_sweep.1 hfield
    · exact hc.exposes
    · exact (h.sound hmem).hide hw

end Growing

theorem growing_exposed (g : FlatGrammar) : Growing g (FieldLayout.exposed g) :=
  settle_keeps (fun _ => Growing.sweep) _ (Growing.empty g)

/-- The sweeps did not run out. -/
theorem sweep_exposed (g : FlatGrammar) :
    sweep g (FieldLayout.exposed g) = FieldLayout.exposed g :=
  settle_fixed (fun _ => Growing.sweep) (weight g)
    (fun _ h hne => h.weight_lt h.sweep.toFound h.le hne) (fun _ h => h.weight_le)
    (Growing.empty g) (by omega)

/-- The fields that are found for a variable are those that chains of children lead to. -/
theorem mem_exposed_iff : field ∈ fieldsOf (FieldLayout.exposed g) v ↔ g.Exposes v field := by
  refine ⟨(growing_exposed g).sound, ?_⟩
  rintro ⟨w, hvw, hc⟩
  induction hvw using Relation.ReflTransGen.head_induction_on with
  | refl =>
    rw [← sweep_exposed]
    exact mem_fieldsOf_sweep.2 (.inl hc)
  | head hhides _ ih =>
    rw [← sweep_exposed]
    exact mem_fieldsOf_sweep.2 (.inr ⟨_, hhides, ih⟩)

end FieldLayout

end GrammarTables
