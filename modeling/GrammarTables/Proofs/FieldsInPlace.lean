import GrammarTables.Proofs.FieldExposure
import GrammarTables.Proofs.Opening

/-!
# Exposed fields found in place

The fields that variables expose can be found in one table, where what is added to a variable counts
for the next one at once. A variable is given the fields of its own steps and those of its children
that do not show, but for itself. Until nothing is added any more the table grows by a field of the
grammar, and then it has the fields that sweeps find.
-/

namespace GrammarTables.FieldLayout

/-- Adds a field to those of a variable. -/
def addField (v : Nat) (table : Array (List String)) (field : String) : Array (List String) :=
  table.modify v (Ordered.insert field)

/-- Adds to a variable what a child of it exposes. -/
def inherit (g : FlatGrammar) (v : Nat) (table : Array (List String)) :
    Symbol → Array (List String)
  | .nonterminal w =>
    if w ≠ v ∧ g.isInvisible (.nonterminal w) then (fieldsOf table w).foldl (addField v) table
    else table
  | _ => table

/-- Adds to a variable what a step brings. -/
def visitStep (g : FlatGrammar) (v : Nat) (table : Array (List String)) (step : Step) :
    Array (List String) :=
  inherit g v (step.field.toList.foldl (addField v) table) step.symbol

/-- Adds to a variable what the steps of its productions bring. -/
def visit (g : FlatGrammar) (table : Array (List String)) (v : Nat) : Array (List String) :=
  ((g.productionsOf (.nonterminal v)).flatMap (·.steps)).foldl (visitStep g v) table

/-- Visits all variables. -/
def round (g : FlatGrammar) (table : Array (List String)) : Array (List String) :=
  (List.range g.vars.size).foldl (visit g) table

/-- The fields of each variable, found by visiting them until that adds nothing. -/
def inPlace (g : FlatGrammar) : Array (List String) :=
  settle (round g) (g.vars.size * (allFields g).length + 1) (Array.replicate g.vars.size [])

variable {g : FlatGrammar} {table table' table'' : Array (List String)} {v w : Nat}
  {field : String} {step : Step}

/-- Tables of the same variables, of which the second has at least the fields of the first. -/
structure Le (table table' : Array (List String)) : Prop where
  size_eq : table.size = table'.size
  sublist : ∀ v, (fieldsOf table v).Sublist (fieldsOf table' v)

theorem Le.refl (table : Array (List String)) : Le table table := ⟨rfl, fun _ => .refl _⟩

theorem Le.trans (h : Le table table') (k : Le table' table'') : Le table table'' :=
  ⟨h.size_eq.trans k.size_eq, fun v => (h.sublist v).trans (k.sublist v)⟩

theorem Le.antisymm (h : Le table table') (k : Le table' table) : table = table' :=
  ext_fieldsOf h.size_eq fun v _ => (h.sublist v).antisymm (k.sublist v)

theorem sublist_insert (field : String) (fields : List String) :
    fields.Sublist (Ordered.insert field fields) := by
  induction fields with
  | nil => exact List.nil_sublist _
  | cons f fields ih =>
    rw [Ordered.insert]
    split
    · exact List.sublist_cons_self ..
    · exact .refl _
    · exact ih.cons_cons f

theorem fieldsOf_addField : fieldsOf (addField v table field) w =
    if v = w ∧ v < table.size then Ordered.insert field (fieldsOf table w)
    else fieldsOf table w := by
  simp only [fieldsOf, addField, Array.getElem?_modify]
  by_cases h : v = w
  · subst h
    by_cases hv : v < table.size <;> simp [hv]
  · simp [h]

theorem le_addField : Le table (addField v table field) := by
  refine ⟨by simp [addField], fun w => ?_⟩
  rw [fieldsOf_addField]
  split
  · exact sublist_insert _ _
  · exact .refl _

theorem le_addFields (fields : List String) : Le table (fields.foldl (addField v) table) :=
  List.foldlRecOn _ _ (.refl table) fun _ h _ _ => h.trans le_addField

theorem le_inherit (s : Symbol) : Le table (inherit g v table s) := by
  unfold inherit
  split
  · split
    · exact le_addFields _
    · exact .refl _
  · exact .refl _

theorem le_visitStep (step : Step) : Le table (visitStep g v table step) :=
  (le_addFields _).trans (le_inherit _)

theorem le_visit (v : Nat) : Le table (visit g table v) :=
  List.foldlRecOn _ _ (.refl table) fun _ h step _ => h.trans (le_visitStep step)

theorem le_round : Le table (round g table) :=
  List.foldlRecOn _ _ (.refl table) fun _ h v _ => h.trans (le_visit v)

theorem Found.addField (h : Found g table) (hfield : g.Exposes v field) :
    Found g (addField v table field) := by
  refine ⟨by simpa [FieldLayout.addField] using h.size, fun w => ?_, fun {w f} hf => ?_⟩
  · rw [fieldsOf_addField]
    split
    · exact Ordered.ascending_insert (h.ascending w)
    · exact h.ascending w
  · rw [fieldsOf_addField] at hf
    split at hf
    · rename_i hvw
      rcases Ordered.mem_insert.1 hf with rfl | hf
      · exact hvw.1 ▸ hfield
      · exact h.sound hf
    · exact h.sound hf

theorem Found.addFields (h : Found g table) {fields : List String}
    (hfields : ∀ field ∈ fields, g.Exposes v field) :
    Found g (fields.foldl (FieldLayout.addField v) table) :=
  List.foldlRecOn _ _ h fun _ h field hmem => h.addField (hfields field hmem)

theorem Found.visitStep (h : Found g table) {p : Production}
    (hp : p ∈ g.productionsOf (.nonterminal v)) (hstep : step ∈ p.steps) :
    Found g (visitStep g v table step) := by
  have hown : Found g (step.field.toList.foldl (FieldLayout.addField v) table) :=
    h.addFields fun field hfield =>
      FlatGrammar.Carries.exposes ⟨p, hp, step, hstep, Option.mem_toList.1 hfield⟩
  unfold FieldLayout.visitStep inherit
  split
  · rename_i w hw
    split
    · rename_i hhides
      refine hown.addFields fun field hfield => ?_
      exact (hown.sound hfield).hide ⟨p, hp, step, hstep, hw, hhides.2⟩
    · exact hown
  · exact hown

theorem Found.round (h : Found g table) : Found g (FieldLayout.round g table) :=
  List.foldlRecOn _ _ h fun _ h v _ => List.foldlRecOn _ _ h fun _ h step hmem => by
    obtain ⟨p, hp, hstep⟩ := List.mem_flatMap.1 hmem
    exact h.visitStep hp hstep

/-- Rounds end: each one that changes anything adds a field that a variable exposes. -/
theorem round_inPlace (g : FlatGrammar) : round g (inPlace g) = inPlace g :=
  settle_fixed (fun _ h => h.round) (weight g)
    (fun _ h hne => h.weight_lt h.round (fun v => (le_round.sublist v).subset) hne)
    (fun _ h => h.weight_le) (Found.empty g) (by omega)

theorem found_inPlace (g : FlatGrammar) : Found g (inPlace g) :=
  settle_keeps (fun _ h => h.round) _ (Found.empty g)

theorem mem_of_addField_eq (hv : v < table.size) (h : addField v table field = table) :
    field ∈ fieldsOf table v := by
  have hget := congrArg (fieldsOf · v) h
  simp only [fieldsOf_addField, hv, and_self, if_true] at hget
  rw [← hget]
  exact Ordered.mem_insert.2 (.inl rfl)

theorem subset_of_addFields_eq (hv : v < table.size) {fields : List String}
    (h : fields.foldl (addField v) table = table) : fields ⊆ fieldsOf table v := fun field hfield =>
  mem_of_addField_eq hv (foldl_fixed Le.refl Le.trans Le.antisymm (fun _ _ => le_addField) h
    field hfield)

/-- A step that adds nothing brings what its variable has. -/
theorem mem_of_visitStep_eq (hv : v < table.size) (h : visitStep g v table step = table) :
    (∀ field, step.field = some field → field ∈ fieldsOf table v) ∧
      ∀ w, step.symbol = .nonterminal w → g.isInvisible (.nonterminal w) = true →
        fieldsOf table w ⊆ fieldsOf table v := by
  have hown : step.field.toList.foldl (addField v) table = table := by
    refine Le.antisymm ?_ (le_addFields _)
    conv_rhs => rw [← h]
    exact le_inherit _
  refine ⟨fun field hfield => subset_of_addFields_eq hv hown (by simp [hfield]), ?_⟩
  intro w hw hhidden
  by_cases hwv : w = v
  · rw [hwv]
    exact List.Subset.refl _
  · simp only [visitStep, hown, hw, inherit, hhidden, ne_eq, hwv, not_false_eq_true, and_self,
      if_true] at h
    exact subset_of_addFields_eq hv h

/-- In place the same fields are found as by sweeps. -/
theorem inPlace_eq (g : FlatGrammar) : inPlace g = exposed g := by
  have hfound := found_inPlace g
  have hstep : ∀ {v : Nat} {p : Production}, p ∈ g.productionsOf (.nonterminal v) →
      ∀ step ∈ p.steps, v < (inPlace g).size ∧ visitStep g v (inPlace g) step = inPlace g := by
    intro v p hp step hstep
    have hv : v < g.vars.size := FlatGrammar.lt_of_productionsOf (List.length_pos_of_mem hp)
    have hvisit : visit g (inPlace g) v = inPlace g :=
      foldl_fixed Le.refl Le.trans Le.antisymm (fun _ => le_visit) (round_inPlace g) v
        (List.mem_range.2 hv)
    exact ⟨hfound.size ▸ hv, foldl_fixed Le.refl Le.trans Le.antisymm (fun _ => le_visitStep)
      hvisit step (List.mem_flatMap.2 ⟨p, hp, hstep⟩)⟩
  have hcomplete : ∀ {v field}, g.Exposes v field → field ∈ fieldsOf (inPlace g) v := by
    rintro v field ⟨w, hvw, p, hp, step, hmem, hfield⟩
    induction hvw using Relation.ReflTransGen.head_induction_on with
    | refl =>
      obtain ⟨hv, heq⟩ := hstep hp step hmem
      exact (mem_of_visitStep_eq hv heq).1 field hfield
    | head hhides _ ih =>
      obtain ⟨p, hp, step, hmem, hsymbol, hhidden⟩ := hhides
      obtain ⟨hv, heq⟩ := hstep hp step hmem
      exact (mem_of_visitStep_eq hv heq).2 _ hsymbol hhidden ih
  refine ext_fieldsOf (hfound.size.trans (growing_exposed g).size.symm) fun v _ => ?_
  refine (hfound.ascending v).ext ((growing_exposed g).ascending v) fun field => ?_
  rw [mem_exposed_iff]
  exact ⟨hfound.sound, hcomplete⟩

end GrammarTables.FieldLayout
