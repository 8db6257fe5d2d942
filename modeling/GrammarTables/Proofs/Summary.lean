import GrammarTables.NodeType.Summary
import GrammarTables.Proofs.OrderedMap

/-!
# What steps and sweeps add to summaries

`types_addStep`, `children_addStep` and `field_addStep` say what a step adds to a summary. What
follows about summaries is derived from these three: a sweep over summaries that say more finds
summaries that say more.
-/

namespace GrammarTables

open Std

namespace NodeType

theorem compare_eq_lex :
    (compare : NodeType → NodeType → Ordering) = compareLex (compareOn name) (compareOn named) := by
  funext a b
  change instOrdNodeType.ord a b = _
  cases a
  cases b
  simp [instOrdNodeType.ord, compareLex, compareOn]

instance : TransOrd NodeType := by
  rw [TransOrd, compare_eq_lex]
  infer_instance

instance : LawfulEqOrd NodeType where
  eq_of_compare {a b} h := by
    rw [compare_eq_lex, compareLex, Ordering.then_eq_eq] at h
    have hname : a.name = b.name := LawfulEqCmp.eq_of_compare h.1
    have hnamed : a.named = b.named := LawfulEqCmp.eq_of_compare h.2
    cases a
    cases b
    grind

end NodeType

namespace Children

variable {a b c d : Children}

/-- Nodes can be more: what is marked stays marked, and types stay. -/
structure Le (a b : Children) : Prop where
  occurs : a.quantity.occurs = true → b.quantity.occurs = true
  required : a.quantity.required = true → b.quantity.required = true
  multiple : a.quantity.multiple = true → b.quantity.multiple = true
  types : a.types ⊆ b.types

instance : LE Children := ⟨Le⟩

theorem le_refl (a : Children) : a ≤ a := ⟨id, id, id, List.Subset.refl _⟩

theorem le_trans (h : a ≤ b) (k : b ≤ c) : a ≤ c :=
  ⟨k.occurs ∘ h.occurs, k.required ∘ h.required, k.multiple ∘ h.multiple,
    List.Subset.trans h.types k.types⟩

theorem empty_le (a : Children) : {} ≤ a := ⟨nofun, nofun, nofun, List.nil_subset _⟩

theorem Le.antisymm (ha : Ordered.Ascending a.types) (hb : Ordered.Ascending b.types) (h : a ≤ b)
    (k : b ≤ a) : a = b := by
  have ho := Bool.eq_iff_iff.2 ⟨h.occurs, k.occurs⟩
  have hr := Bool.eq_iff_iff.2 ⟨h.required, k.required⟩
  have hm := Bool.eq_iff_iff.2 ⟨h.multiple, k.multiple⟩
  have ht := ha.ext hb fun x => ⟨@h.types x, @k.types x⟩
  obtain ⟨⟨_, _, _⟩, _⟩ := a
  obtain ⟨⟨_, _, _⟩, _⟩ := b
  simp_all

theorem append_mono (h : a ≤ b) (k : c ≤ d) : a.append c ≤ b.append d := by
  refine ⟨?_, ?_, ?_, Ordered.union_subset_union h.types k.types⟩
  all_goals simp only [append, Quantity.append, Bool.or_eq_true, Bool.and_eq_true]
  · exact Or.imp h.occurs k.occurs
  · exact Or.imp h.required k.required
  · exact Or.imp (Or.imp h.multiple k.multiple) (And.imp h.occurs k.occurs)

theorem union_mono (h : a ≤ b) (k : c ≤ d) : a.union c ≤ b.union d := by
  refine ⟨?_, ?_, ?_, Ordered.union_subset_union h.types k.types⟩
  all_goals simp only [union, Quantity.union, Bool.or_eq_true, Bool.and_eq_true]
  · exact Or.imp h.occurs k.occurs
  · exact And.imp h.required k.required
  · exact Or.imp h.multiple k.multiple

theorem oneOf_mono {s t : List NodeType} (h : s ⊆ t) : oneOf s ≤ oneOf t := ⟨id, id, id, h⟩

@[simp] theorem append_empty (a : Children) : a.append {} = a := by
  simp [append, Quantity.append]

@[simp] theorem union_empty : ({} : Children).union {} = {} := rfl

end Children

namespace Summary

/-- The summary of a variable. -/
def get (summaries : Array Summary) (v : Nat) : Summary := summaries[v]?.getD {}

/-- The fields that a summary has. -/
def keys (s : Summary) : List String := s.fields.map (·.1)

variable {g : FlatGrammar} {s t r : Summary} {S S' : Array Summary} {f name : String}
  {nodes : Children}

@[simp] theorem field_empty : field {} f = {} := rfl

theorem field_of_not_mem (h : f ∉ s.keys) : s.field f = {} := by
  rw [field, Ordered.get?_eq_none.2 h, Option.getD_none]

theorem mem_fields_of_ne (h : s.field f ≠ {}) : (f, s.field f) ∈ s.fields := by
  rw [field] at h ⊢
  cases hf : Ordered.get? f s.fields with
  | none => simp [hf] at h
  | some c => exact Ordered.mem_of_get? hf

@[simp] theorem field_addChildren : (s.addChildren nodes).field f = s.field f := rfl

theorem field_addField_of_ne (h : f ≠ name) : (s.addField name nodes).field f = s.field f := by
  rw [field, addField, Ordered.get?_update_of_ne h, field]

theorem keys_addField : (s.addField name nodes).keys = Ordered.insert name s.keys :=
  Ordered.keys_update ..

theorem keys_union : (s.union t).keys = Ordered.union s.keys t.keys := by
  simp [keys, union, Function.comp_def]

theorem field_union : (s.union t).field f = (s.field f).union (t.field f) := by
  by_cases h : f ∈ Ordered.union s.keys t.keys
  · rw [field, show Ordered.get? f (s.union t).fields = _ from Ordered.get?_map_keys _ h,
      Option.getD_some]
  · have hs : f ∉ s.keys := fun hs => h (Ordered.mem_union.2 (.inl hs))
    have ht : f ∉ t.keys := fun ht => h (Ordered.mem_union.2 (.inr ht))
    have hu : f ∉ (s.union t).keys := keys_union ▸ h
    rw [field_of_not_mem hs, field_of_not_mem ht, field_of_not_mem hu, Children.union_empty]

/-- The fields ascend. -/
def Keyed (s : Summary) : Prop := Ordered.Ascending s.keys

theorem keyed_empty : Keyed {} := List.Pairwise.nil

theorem Keyed.field_of_mem (h : s.Keyed) (hf : (f, nodes) ∈ s.fields) : s.field f = nodes := by
  rw [field, Ordered.get?_of_mem h hf, Option.getD_some]

theorem Keyed.addField (h : s.Keyed) : (s.addField name nodes).Keyed := by
  rw [Keyed, keys_addField]
  exact Ordered.ascending_insert h

theorem Keyed.union (h : s.Keyed) : (s.union t).Keyed := by
  rw [Keyed, keys_union]
  exact Ordered.ascending_union h _

theorem Keyed.field_addField (h : s.Keyed) :
    (s.addField name nodes).field name = (s.field name).append nodes := by
  rw [field, Summary.addField, Ordered.get?_update_self h, Option.getD_some, field]

/-- Adds nodes to several fields. -/
def addFields (s : Summary) (fields : List (String × Children)) : Summary :=
  fields.foldl (fun r (name, nodes) => r.addField name nodes) s

theorem Keyed.addFields {fields : List (String × Children)} (h : s.Keyed) :
    (s.addFields fields).Keyed := by
  induction fields generalizing s with
  | nil => exact h
  | cons x fields ih => exact ih h.addField

theorem types_addFields (fields : List (String × Children)) :
    (s.addFields fields).types = s.types := by
  induction fields generalizing s with
  | nil => rfl
  | cons x fields ih => exact ih

theorem children_addFields (fields : List (String × Children)) :
    (s.addFields fields).children = s.children := by
  induction fields generalizing s with
  | nil => rfl
  | cons x fields ih => exact ih

theorem Keyed.field_addFields {fields : List (String × Children)} (h : s.Keyed)
    (hf : Ordered.Ascending (fields.map (·.1))) :
    (s.addFields fields).field f = (s.field f).append ((Ordered.get? f fields).getD {}) := by
  induction fields generalizing s with
  | nil => exact (Children.append_empty _).symm
  | cons x fields ih =>
    obtain ⟨name, nodes⟩ := x
    obtain ⟨hname, hfields⟩ := List.pairwise_cons.1 hf
    rw [show s.addFields ((name, nodes) :: fields) = (s.addField name nodes).addFields fields
      from rfl, ih h.addField hfields]
    by_cases hne : f = name
    · subst hne
      -- The fields are different ones, so the rest leaves this one as it is.
      have hnone : Ordered.get? f fields = none :=
        Ordered.get?_eq_none.2 fun hmem => by simpa using hname f hmem
      rw [hnone, h.field_addField, Ordered.get?_cons_self, Option.getD_none, Option.getD_some,
        Children.append_empty]
    · rw [field_addField_of_ne hne, Ordered.get?_cons_of_ne hne]

/-! ### What a step adds -/

/-- What a symbol passes on to the node above it. -/
def passed (g : FlatGrammar) (summaries : Array Summary) (s : Symbol) : Summary :=
  (hidden? g summaries s).getD {}

/-- The nodes that a step puts in a field by itself. -/
def ownField (g : FlatGrammar) (summaries : Array Summary) (step : Step) (f : String) : Children :=
  let types := typesOf g summaries step.symbol
  if step.field = some f ∧ types ≠ [] then .oneOf types else {}

/-- The nodes that a step leaves outside of fields. -/
def unfielded (g : FlatGrammar) (summaries : Array Summary) (step : Step) : Children :=
  match step.field, hidden? g summaries step.symbol with
  | some _, _ => {}
  | none, some inner => inner.children
  | none, none =>
    if g.symbolKind step.symbol = .named then .oneOf (typesOf g summaries step.symbol) else {}

variable {step : Step}

theorem hidden?_cases (g : FlatGrammar) (s : Symbol) :
    (g.isInvisible s = false ∧ ∀ S, hidden? g S s = none) ∨
      ∃ v, s = .nonterminal v ∧ g.isInvisible s = true ∧ ∀ S, hidden? g S s = some (get S v) := by
  cases s with
  | eof => exact .inl ⟨rfl, fun _ => rfl⟩
  | terminal i => exact .inl ⟨rfl, fun _ => rfl⟩
  | nonterminal v =>
    by_cases h : g.isInvisible (.nonterminal v) = true
    · exact .inr ⟨v, rfl, h, fun S => if_pos h⟩
    · exact .inl ⟨by simpa using h, fun S => if_neg h⟩

/-- Adds the types that a symbol brings and the fields that it passes on. -/
def addSymbol (g : FlatGrammar) (summaries : Array Summary) (r : Summary) (s : Symbol) : Summary :=
  (r.addTypes (typesOf g summaries s)).addFields (passed g summaries s).fields

theorem Keyed.addSymbol (h : r.Keyed) (x : Symbol) : (r.addSymbol g S x).Keyed :=
  Keyed.addFields (s := r.addTypes _) h

theorem Keyed.field_addSymbol {x : Symbol} (h : r.Keyed) (hp : (passed g S x).Keyed) :
    (r.addSymbol g S x).field f = (r.field f).append ((passed g S x).field f) :=
  Keyed.field_addFields (s := r.addTypes _) h hp

/-- A step adds what its symbol brings, and then nodes to its field or outside of fields. -/
theorem addStep_eq (g : FlatGrammar) (S : Array Summary) (r : Summary) (step : Step) :
    addStep g S r step =
      let types := typesOf g S step.symbol
      let result := addSymbol g S r step.symbol
      match step.field with
      | some name => if types = [] then result else result.addField name (.oneOf types)
      | none => result.addChildren (unfielded g S step) := by
  unfold addStep addSymbol passed
  cases hf : step.field with
  | some name => cases hidden? g S step.symbol <;> simp [addFields, List.isEmpty_iff]
  | none =>
    cases hh : hidden? g S step.symbol with
    | some inner => simp [addFields, unfielded, hf, hh]
    | none =>
      by_cases hn : g.symbolKind step.symbol = .named
      · simp [addFields, unfielded, hf, hh, hn]
      · simp [addFields, unfielded, hf, hh, hn, addChildren]

theorem types_addStep :
    (addStep g S r step).types = Ordered.union r.types (typesOf g S step.symbol) := by
  rw [addStep_eq]
  dsimp only
  split
  · split <;> exact types_addFields _
  · exact types_addFields _

theorem children_addStep :
    (addStep g S r step).children = r.children.append (unfielded g S step) := by
  have hsymbol : (addSymbol g S r step.symbol).children = r.children := children_addFields _
  rw [addStep_eq]
  dsimp only
  split
  · rename_i name hf
    have hnone : unfielded g S step = {} := by simp [unfielded, hf]
    rw [hnone, Children.append_empty]
    split <;> exact hsymbol
  · rw [addChildren, hsymbol]

theorem Keyed.field_addStep (h : r.Keyed) (hp : (passed g S step.symbol).Keyed) :
    (addStep g S r step).field f =
      ((r.field f).append ((passed g S step.symbol).field f)).append (ownField g S step f) := by
  have hsymbol := h.field_addSymbol hp (f := f)
  rw [addStep_eq, ownField]
  dsimp only
  cases hf : step.field with
  | none => simpa using hsymbol
  | some name =>
    by_cases ht : typesOf g S step.symbol = []
    · simpa [ht] using hsymbol
    · by_cases hne : f = name
      · subst hne
        simp [ht, (h.addSymbol step.symbol).field_addField, hsymbol]
      · have hne' : ¬name = f := fun h => hne h.symm
        simp [ht, hne', field_addField_of_ne hne, hsymbol]

theorem Keyed.addStep (h : r.Keyed) : (addStep g S r step).Keyed := by
  have hsymbol := h.addSymbol (g := g) (S := S) step.symbol
  rw [addStep_eq]
  dsimp only
  split
  · split
    · exact hsymbol
    · exact hsymbol.addField
  · exact hsymbol

theorem Keyed.ofSteps (h : r.Keyed) (steps : List Step) :
    (steps.foldl (Summary.addStep g S) r).Keyed := by
  induction steps generalizing r with
  | nil => exact h
  | cons step steps ih => exact ih h.addStep

/-! ### Summaries of productions -/

/-- What holds of the summaries of all productions and is kept when they are united holds of their
summary. -/
theorem ofProductions_keeps {P : Summary → Prop} (empty : P {})
    (union : ∀ {s t}, P s → P t → P (s.union t)) {ps : List Production}
    (each : ∀ p ∈ ps, P (ofProduction g S p)) : P (ofProductions g S ps) := by
  cases ps with
  | nil => exact empty
  | cons p ps =>
    obtain ⟨hp, hps⟩ := List.forall_mem_cons.1 each
    rw [ofProductions]
    clear each
    generalize ofProduction g S p = s at hp
    induction ps generalizing s with
    | nil => exact hp
    | cons q ps ih =>
      obtain ⟨hq, hps⟩ := List.forall_mem_cons.1 hps
      exact ih hps _ (union hp hq)

theorem keyed_ofProductions (ps : List Production) : (ofProductions g S ps).Keyed :=
  ofProductions_keeps keyed_empty (fun h _ => h.union) fun _ _ => keyed_empty.ofSteps _

theorem get_sweep (g : FlatGrammar) (S : Array Summary) (v : Nat) :
    get (sweep g S) v = ofProductions g S (g.productionsOf (.nonterminal v)) := by
  simp only [get, sweep, Array.getElem?_map, FlatGrammar.productionsOf, FlatGrammar.variableOf?]
  cases g.vars[v]? <;> rfl

@[simp] theorem size_sweep (g : FlatGrammar) (S : Array Summary) :
    (sweep g S).size = g.vars.size := by simp [sweep]

@[simp] theorem get_replicate_empty (n v : Nat) : get (Array.replicate n {}) v = {} := by
  simp only [get, Array.getElem?_replicate]
  split <;> rfl

/-! ### Sweeps add -/

/-- Summaries can say more: of each field, of the nodes outside of fields, and of all types. -/
structure Le (s t : Summary) : Prop where
  field : ∀ f, s.field f ≤ t.field f
  children : s.children ≤ t.children
  types : s.types ⊆ t.types

instance : LE Summary := ⟨Le⟩

theorem le_refl (s : Summary) : s ≤ s :=
  ⟨fun _ => Children.le_refl _, Children.le_refl _, List.Subset.refl _⟩

theorem le_trans (h : s ≤ t) (k : t ≤ r) : s ≤ r :=
  ⟨fun f => Children.le_trans (h.field f) (k.field f), Children.le_trans h.children k.children,
    List.Subset.trans h.types k.types⟩

theorem empty_le (s : Summary) : {} ≤ s :=
  ⟨fun _ => Children.empty_le _, Children.empty_le _, List.nil_subset _⟩

theorem union_mono {s' t' : Summary} (h : s ≤ s') (k : t ≤ t') : s.union t ≤ s'.union t' where
  field f := by
    rw [field_union, field_union]
    exact Children.union_mono (h.field f) (k.field f)
  children := Children.union_mono h.children k.children
  types := Ordered.union_subset_union h.types k.types

/-- Each summary in a family says at most what the one in another family says. -/
def AllLe (S S' : Array Summary) : Prop := ∀ v, get S v ≤ get S' v

/-- The fields of each summary in a family ascend. -/
def AllKeyed (S : Array Summary) : Prop := ∀ v, (get S v).Keyed

theorem AllKeyed.passed (h : AllKeyed S) (g : FlatGrammar) (x : Symbol) :
    (passed g S x).Keyed := by
  rcases hidden?_cases g x with ⟨-, hn⟩ | ⟨v, -, -, hv⟩
  · simpa [Summary.passed, hn] using keyed_empty
  · simpa [Summary.passed, hv] using h v

theorem AllLe.passed (h : AllLe S S') (g : FlatGrammar) (x : Symbol) :
    passed g S x ≤ passed g S' x := by
  rcases hidden?_cases g x with ⟨-, hn⟩ | ⟨v, -, -, hv⟩
  · simpa [Summary.passed, hn] using le_refl _
  · simpa [Summary.passed, hv] using h v

theorem AllLe.typesOf (h : AllLe S S') (g : FlatGrammar) (x : Symbol) :
    typesOf g S x ⊆ typesOf g S' x := by
  rcases hidden?_cases g x with ⟨-, hn⟩ | ⟨v, -, -, hv⟩
  · simp [Summary.typesOf, hn]
  · simpa [Summary.typesOf, hv] using (h v).types

theorem AllLe.ownField (h : AllLe S S') (g : FlatGrammar) (step : Step) (f : String) :
    ownField g S step f ≤ ownField g S' step f := by
  have ht := h.typesOf g step.symbol
  unfold Summary.ownField
  dsimp only
  split
  · rename_i hc
    have hne : Summary.typesOf g S' step.symbol ≠ [] := fun hnil =>
      hc.2 (List.subset_nil.1 (hnil ▸ ht))
    rw [if_pos ⟨hc.1, hne⟩]
    exact Children.oneOf_mono ht
  · exact Children.empty_le _

theorem AllLe.unfielded (h : AllLe S S') (g : FlatGrammar) (step : Step) :
    unfielded g S step ≤ unfielded g S' step := by
  unfold Summary.unfielded
  cases step.field with
  | some name => exact Children.le_refl _
  | none =>
    rcases hidden?_cases g step.symbol with ⟨-, hn⟩ | ⟨v, -, -, hv⟩
    · simp only [hn]
      split
      · exact Children.oneOf_mono (h.typesOf g _)
      · exact Children.le_refl _
    · simpa only [hv] using (h v).children

theorem AllLe.addStep (h : AllLe S S') (hS : AllKeyed S) (hS' : AllKeyed S') (hs : s.Keyed)
    (ht : t.Keyed) (hst : s ≤ t) (step : Step) : addStep g S s step ≤ addStep g S' t step where
  field f := by
    rw [hs.field_addStep (hS.passed g _), ht.field_addStep (hS'.passed g _)]
    exact Children.append_mono
      (Children.append_mono (hst.field f) ((h.passed g _).field f)) (h.ownField g step f)
  children := by
    rw [children_addStep, children_addStep]
    exact Children.append_mono hst.children (h.unfielded g step)
  types := by
    rw [types_addStep, types_addStep]
    exact Ordered.union_subset_union hst.types (h.typesOf g _)

theorem AllLe.ofProduction (h : AllLe S S') (hS : AllKeyed S) (hS' : AllKeyed S')
    (p : Production) : ofProduction g S p ≤ ofProduction g S' p := by
  have key : ∀ (steps : List Step) {s t : Summary}, s.Keyed → t.Keyed → s ≤ t →
      steps.foldl (Summary.addStep g S) s ≤ steps.foldl (Summary.addStep g S') t := by
    intro steps
    induction steps with
    | nil => exact fun _ _ hst => hst
    | cons step steps ih =>
      exact fun hs ht hst => ih hs.addStep ht.addStep (h.addStep hS hS' hs ht hst step)
  exact key p.steps keyed_empty keyed_empty (le_refl _)

theorem AllLe.ofProductions (h : AllLe S S') (hS : AllKeyed S) (hS' : AllKeyed S')
    (ps : List Production) : ofProductions g S ps ≤ ofProductions g S' ps := by
  cases ps with
  | nil => exact le_refl _
  | cons p ps =>
    rw [Summary.ofProductions, Summary.ofProductions]
    have hp := h.ofProduction (g := g) hS hS' p
    generalize Summary.ofProduction g S p = s at hp
    generalize Summary.ofProduction g S' p = t at hp
    induction ps generalizing s t with
    | nil => exact hp
    | cons q ps ih => exact ih _ _ (union_mono hp (h.ofProduction hS hS' q))

theorem AllLe.sweep (h : AllLe S S') (hS : AllKeyed S) (hS' : AllKeyed S') :
    AllLe (sweep g S) (sweep g S') := by
  intro v
  rw [get_sweep, get_sweep]
  exact h.ofProductions hS hS' _

end Summary

end GrammarTables
