import GrammarTables.Proofs.FieldExposure
import GrammarTables.Proofs.Summary

/-!
# Summaries are a fixed point

A sweep over the variables only adds to their summaries: marks, types and fields that are there
stay. A grammar has only so many of them, so the sweeps end at summaries that the productions
confirm.
-/

namespace GrammarTables

namespace NodeType

variable {g : FlatGrammar}

/-- The types that the symbols of a grammar stand for. -/
def all (g : FlatGrammar) : List NodeType := g.symbols.map (ofSymbol g)

/-- Only symbols that the grammar has are visible. -/
theorem ofSymbol_mem_all {s : Symbol} (h : (g.symbolKind s).isVisible = true) :
    ofSymbol g s ∈ all g := by
  refine List.mem_map_of_mem ?_
  cases s with
  | eof => cases h
  | terminal i =>
    rw [FlatGrammar.terminal_mem_symbols]
    by_contra hi
    simp [FlatGrammar.symbolKind, Array.getElem?_eq_none (Nat.le_of_not_lt hi),
      SymbolKind.isVisible] at h
  | nonterminal v =>
    rw [FlatGrammar.nonterminal_mem_symbols]
    by_contra hv
    simp [FlatGrammar.symbolKind, Array.getElem?_eq_none (Nat.le_of_not_lt hv),
      SymbolKind.isVisible] at h

/-- A set of types that a grammar has, in ascending order. -/
structure Listed (g : FlatGrammar) (types : List NodeType) : Prop where
  ascending : Ordered.Ascending types
  known : types ⊆ all g

theorem listed_nil : Listed g [] := ⟨.nil, List.nil_subset _⟩

theorem Listed.union {s t : List NodeType} (hs : Listed g s) (ht : Listed g t) :
    Listed g (Ordered.union s t) where
  ascending := Ordered.ascending_union hs.ascending t
  known _ hx := (Ordered.mem_union.1 hx).elim (@hs.known _) (@ht.known _)

end NodeType

/-- More is counted where a test is weaker and not the same. -/
theorem countP_lt_of_imp {α : Type} {l : List α} {p q : α → Bool}
    (h : ∀ x ∈ l, p x = true → q x = true) (hne : ¬∀ x ∈ l, q x = true → p x = true) :
    l.countP p < l.countP q := by
  induction l with
  | nil => exact absurd nofun hne
  | cons x l ih =>
    obtain ⟨hx, hl⟩ := List.forall_mem_cons.1 h
    have hle := List.countP_mono_left hl
    rw [List.forall_mem_cons] at hne
    rw [List.countP_cons, List.countP_cons]
    by_cases hrest : ∀ y ∈ l, q y = true → p y = true
    · have hhead : ¬(q x = true → p x = true) := fun hhead => hne ⟨hhead, hrest⟩
      grind
    · have := ih hl hrest
      grind

namespace Children

variable {a b : Children}

/-- What nodes can be asked, where their types are among the given ones. -/
def questions (types : List NodeType) : List (Children → Bool) :=
  [(·.quantity.occurs), (·.quantity.required), (·.quantity.multiple)] ++
    types.map fun x c => decide (x ∈ c.types)

theorem length_questions (types : List NodeType) : (questions types).length = types.length + 3 := by
  simp only [questions, List.length_append, List.length_cons, List.length_map, List.length_nil]
  omega

theorem answers_mono {types : List NodeType} {q : Children → Bool} (h : a ≤ b)
    (hq : q ∈ questions types) (ha : q a = true) : q b = true := by
  simp only [questions, List.mem_append, List.mem_cons, List.not_mem_nil, or_false,
    List.mem_map] at hq
  rcases hq with (rfl | rfl | rfl) | ⟨x, -, rfl⟩
  · exact h.occurs ha
  · exact h.required ha
  · exact h.multiple ha
  · simpa using h.types (by simpa using ha)

theorem le_of_answers {types : List NodeType} (h : a.types ⊆ types)
    (hq : ∀ q ∈ questions types, q a = true → q b = true) : a ≤ b := by
  refine ⟨hq (·.quantity.occurs) (by simp [questions]),
    hq (·.quantity.required) (by simp [questions]),
    hq (·.quantity.multiple) (by simp [questions]), fun x hx => ?_⟩
  have hmem : (fun c : Children => decide (x ∈ c.types)) ∈ questions types :=
    List.mem_append_right _ (List.mem_map.2 ⟨x, h hx, rfl⟩)
  simpa using hq _ hmem (by simpa using hx)

end Children

namespace Summary

variable {g : FlatGrammar} {s t r : Summary} {S S' : Array Summary} {step : Step} {name : String}
  {nodes : Children}

/-- A summary that speaks of the fields and types of a grammar only. -/
structure Proper (g : FlatGrammar) (s : Summary) : Prop where
  keyed : s.Keyed
  known : s.keys ⊆ FieldLayout.allFields g
  occurs : ∀ f ∈ s.keys, (s.field f).quantity.occurs = true
  field : ∀ f, NodeType.Listed g (s.field f).types
  children : NodeType.Listed g s.children.types
  types : NodeType.Listed g s.types

theorem proper_empty : Proper g {} where
  keyed := keyed_empty
  known := List.nil_subset _
  occurs := nofun
  field _ := NodeType.listed_nil
  children := NodeType.listed_nil
  types := NodeType.listed_nil

theorem Proper.addField (h : Proper g s) (hname : name ∈ FieldLayout.allFields g)
    (hoccurs : nodes.quantity.occurs = true) (hnodes : NodeType.Listed g nodes.types) :
    Proper g (s.addField name nodes) where
  keyed := h.keyed.addField
  known f hf := by
    rw [keys_addField, Ordered.mem_insert] at hf
    rcases hf with rfl | hf
    · exact hname
    · exact h.known hf
  occurs f hf := by
    by_cases hne : f = name
    · subst hne
      rw [h.keyed.field_addField]
      simp [Children.append, Quantity.append, hoccurs]
    · rw [keys_addField, Ordered.mem_insert] at hf
      rw [field_addField_of_ne hne]
      exact h.occurs f (hf.resolve_left hne)
  field f := by
    by_cases hne : f = name
    · subst hne
      rw [h.keyed.field_addField]
      exact (h.field f).union hnodes
    · rw [field_addField_of_ne hne]
      exact h.field f
  children := h.children
  types := h.types

theorem Proper.addFields (h : Proper g s) (ht : Proper g t) : Proper g (s.addFields t.fields) := by
  have key : ∀ (fields : List (String × Children)) {s : Summary}, Proper g s →
      (∀ x ∈ fields, x ∈ t.fields) → Proper g (s.addFields fields) := by
    intro fields
    induction fields with
    | nil => exact fun h _ => h
    | cons x fields ih =>
      intro s h hmem
      obtain ⟨hx, hfields⟩ := List.forall_mem_cons.1 hmem
      obtain ⟨name, nodes⟩ := x
      have hkey : name ∈ t.keys := List.mem_map_of_mem hx
      obtain rfl := ht.keyed.field_of_mem hx
      exact ih (h.addField (ht.known hkey) (ht.occurs _ hkey) (ht.field _)) hfields
  exact key _ h fun _ hx => hx

theorem Proper.union (h : Proper g s) (k : Proper g t) : Proper g (s.union t) where
  keyed := h.keyed.union
  known f hf := by
    rw [keys_union, Ordered.mem_union] at hf
    exact hf.elim (@h.known f) (@k.known f)
  occurs f hf := by
    rw [keys_union, Ordered.mem_union] at hf
    rw [field_union]
    rcases hf with hf | hf
    · simp [Children.union, Quantity.union, h.occurs f hf]
    · simp [Children.union, Quantity.union, k.occurs f hf]
  field f := by
    rw [field_union]
    exact (h.field f).union (k.field f)
  children := h.children.union k.children
  types := h.types.union k.types

section

variable (hS : ∀ v, Proper g (get S v))

include hS

theorem proper_passed (x : Symbol) : Proper g (passed g S x) := by
  rcases hidden?_cases g x with ⟨-, hn⟩ | ⟨v, -, -, hv⟩
  · simpa [passed, hn] using proper_empty
  · simpa [passed, hv] using hS v

theorem listed_typesOf (x : Symbol) : NodeType.Listed g (typesOf g S x) := by
  rcases hidden?_cases g x with ⟨-, hn⟩ | ⟨v, -, -, hv⟩
  · simp only [typesOf, hn]
    split
    · rename_i hvisible
      exact ⟨List.pairwise_singleton _ _, by simpa using NodeType.ofSymbol_mem_all hvisible⟩
    · exact NodeType.listed_nil
  · simpa [typesOf, hv] using (hS v).types

theorem listed_unfielded (step : Step) : NodeType.Listed g (unfielded g S step).types := by
  unfold unfielded
  cases step.field with
  | some name => exact NodeType.listed_nil
  | none =>
    rcases hidden?_cases g step.symbol with ⟨-, hn⟩ | ⟨v, -, -, hv⟩
    · simp only [hn]
      split
      · exact listed_typesOf hS _
      · exact NodeType.listed_nil
    · simpa only [hv] using (hS v).children

theorem Proper.addStep (h : Proper g r)
    (hstep : ∀ name, step.field = some name → name ∈ FieldLayout.allFields g) :
    Proper g (addStep g S r step) := by
  have ht := listed_typesOf hS step.symbol
  have htypes : Proper g (r.addTypes (typesOf g S step.symbol)) :=
    { h with types := h.types.union ht }
  have hsymbol : Proper g (r.addSymbol g S step.symbol) := htypes.addFields (proper_passed hS _)
  rw [addStep_eq]
  dsimp only
  split
  · rename_i name hf
    split
    · exact hsymbol
    · exact hsymbol.addField (hstep name hf) rfl ht
  · exact { hsymbol with children := hsymbol.children.union (listed_unfielded hS step) }

theorem proper_ofProductions {v : Nat} :
    Proper g (ofProductions g S (g.productionsOf (.nonterminal v))) := by
  refine ofProductions_keeps proper_empty (fun h k => h.union k) fun p hp => ?_
  have key : ∀ (steps : List Step) {r : Summary}, Proper g r →
      (∀ step ∈ steps, ∀ name, step.field = some name → name ∈ FieldLayout.allFields g) →
      Proper g (steps.foldl (Summary.addStep g S) r) := by
    intro steps
    induction steps with
    | nil => exact fun h _ => h
    | cons step steps ih =>
      intro r h hsteps
      obtain ⟨hstep, hsteps⟩ := List.forall_mem_cons.1 hsteps
      exact ih (h.addStep hS hstep) hsteps
  exact key _ proper_empty fun step hstep name => FieldLayout.mem_allFields hp hstep

end

/-- Summaries that say the same are the same. -/
theorem Proper.antisymm (hs : Proper g s) (ht : Proper g t) (h : s ≤ t) (k : t ≤ s) : s = t := by
  have hfield : ∀ f, s.field f = t.field f := fun f =>
    Children.Le.antisymm (hs.field f).ascending (ht.field f).ascending (h.field f) (k.field f)
  have hkeys : ∀ f, f ∈ s.keys ↔ f ∈ t.keys := by
    -- A field is listed exactly where its nodes can occur.
    have key : ∀ {s t : Summary}, Proper g s → (∀ f, s.field f = t.field f) →
        ∀ f ∈ s.keys, f ∈ t.keys := by
      intro s t hs hfield f hf
      by_contra hnot
      have hoccurs := hs.occurs f hf
      rw [hfield f, field_of_not_mem hnot] at hoccurs
      cases hoccurs
    exact fun f => ⟨key hs hfield f, key ht (fun f => (hfield f).symm) f⟩
  have hfields : s.fields = t.fields := by
    refine Ordered.ext_get? hs.keyed ht.keyed fun f => ?_
    have hvalue : (Ordered.get? f s.fields).getD {} = (Ordered.get? f t.fields).getD {} := hfield f
    have hnone : Ordered.get? f s.fields = none ↔ Ordered.get? f t.fields = none := by
      rw [Ordered.get?_eq_none, Ordered.get?_eq_none]
      exact not_congr (hkeys f)
    cases hgs : Ordered.get? f s.fields with
    | none => exact (hnone.1 hgs).symm
    | some c =>
      cases hgt : Ordered.get? f t.fields with
      | none => cases hgs.symm.trans (hnone.2 hgt)
      | some d =>
        rw [hgs, hgt] at hvalue
        exact congrArg some hvalue
  have hchildren : s.children = t.children :=
    Children.Le.antisymm hs.children.ascending ht.children.ascending h.children k.children
  have htypes : s.types = t.types :=
    hs.types.ascending.ext ht.types.ascending fun x => ⟨@h.types x, @k.types x⟩
  cases s
  cases t
  simp_all

/-- What a summary can say: each question is one way in which it can grow. -/
def questions (g : FlatGrammar) : List (Summary → Bool) :=
  let ofChildren := Children.questions (NodeType.all g)
  (NodeType.all g).map (fun x s => decide (x ∈ s.types)) ++
    ofChildren.map (fun q s => q s.children) ++
    (FieldLayout.allFields g).flatMap fun f => ofChildren.map fun q s => q (s.field f)

theorem length_questions_le (g : FlatGrammar) : (questions g).length ≤ height g := by
  simp only [questions, height, NodeType.all, ← FlatGrammar.length_symbols,
    Children.length_questions, List.length_append, List.length_map, List.length_flatMap,
    List.map_const', List.sum_replicate, Nat.nsmul_eq_mul]
  exact Nat.add_le_add_left (Nat.mul_le_mul_left _ (by omega)) _

theorem answers_mono (h : s ≤ t) {q : Summary → Bool} (hq : q ∈ questions g) (hs : q s = true) :
    q t = true := by
  simp only [questions, List.mem_append, List.mem_map, List.mem_flatMap] at hq
  rcases hq with (⟨x, -, rfl⟩ | ⟨q, hq, rfl⟩) | ⟨f, -, q, hq, rfl⟩
  · simpa using h.types (by simpa using hs)
  · exact Children.answers_mono h.children hq hs
  · exact Children.answers_mono (h.field f) hq hs

theorem Proper.le_of_answers (h : Proper g s) (hq : ∀ q ∈ questions g, q s = true → q t = true) :
    s ≤ t := by
  simp only [questions, List.mem_append, List.mem_map, List.mem_flatMap] at hq
  refine ⟨fun f => ?_, ?_, fun x hx => ?_⟩
  · by_cases hf : f ∈ s.keys
    · exact Children.le_of_answers (h.field f).known fun q hmem =>
        hq _ (.inr ⟨f, h.known hf, q, hmem, rfl⟩)
    · rw [field_of_not_mem hf]
      exact Children.empty_le _
  · exact Children.le_of_answers h.children.known fun q hmem => hq _ (.inl (.inr ⟨q, hmem, rfl⟩))
  · simpa using hq _ (.inl (.inl ⟨x, h.types.known hx, rfl⟩)) (by simpa using hx)

/-- How much the summaries of the variables say. -/
def weight (g : FlatGrammar) (S : Array Summary) : Nat :=
  ∑ v ∈ Finset.range g.vars.size, (questions g).countP fun q => q (get S v)

theorem weight_le (g : FlatGrammar) (S : Array Summary) :
    weight g S ≤ g.vars.size * height g := by
  have h := Finset.sum_le_card_nsmul (Finset.range g.vars.size)
    (fun v => (questions g).countP fun q => q (get S v)) (height g)
    fun v _ => List.countP_le_length.trans (length_questions_le g)
  simpa [weight] using h

/-- What holds of the summaries after each sweep. -/
structure Growing (g : FlatGrammar) (S : Array Summary) : Prop where
  size : S.size = g.vars.size
  proper : ∀ v, Proper g (get S v)
  le : AllLe S (sweep g S)

theorem Growing.allKeyed (h : Growing g S) : AllKeyed S := fun v => (h.proper v).keyed

theorem allKeyed_sweep : AllKeyed (sweep g S) := fun v => by
  rw [get_sweep]
  exact keyed_ofProductions _

theorem Growing.sweep (h : Growing g S) : Growing g (sweep g S) where
  size := size_sweep g S
  proper v := by
    rw [get_sweep]
    exact proper_ofProductions h.proper
  le := h.le.sweep h.allKeyed allKeyed_sweep

theorem growing_empty (g : FlatGrammar) : Growing g (Array.replicate g.vars.size {}) where
  size := by simp
  proper v := by
    rw [get_replicate_empty]
    exact proper_empty
  le v := by
    rw [get_replicate_empty]
    exact empty_le _

theorem Growing.ext (h : Growing g S) (h' : Growing g S')
    (hv : ∀ v < g.vars.size, get S v = get S' v) : S = S' := by
  refine Array.ext (h.size.trans h'.size.symm) fun v hv₁ hv₂ => ?_
  simpa [get, hv₁, hv₂] using hv v (h.size ▸ hv₁)

/-- Summaries that say more weigh more. -/
theorem weight_mono (h : AllLe S S') : weight g S ≤ weight g S' :=
  Finset.sum_le_sum fun v _ => List.countP_mono_left fun _ hq => answers_mono (h v) hq

theorem Growing.weight_lt (h : Growing g S) (h' : Growing g S') (hle : AllLe S S') (hne : S' ≠ S) :
    weight g S < weight g S' := by
  obtain ⟨v, hv, hvne⟩ : ∃ v < g.vars.size, get S v ≠ get S' v := by
    by_contra hall
    push Not at hall
    exact hne (h.ext h' hall).symm
  refine Finset.sum_lt_sum (fun v _ => ?_) ⟨v, Finset.mem_range.2 hv, ?_⟩
  · exact List.countP_mono_left fun q hq => answers_mono (hle v) hq
  · refine countP_lt_of_imp (fun q hq => answers_mono (hle v) hq) fun hall => hvne ?_
    exact (h.proper v).antisymm (h'.proper v) (hle v) ((h'.proper v).le_of_answers hall)

/-- The summaries are a fixed point: the sweeps did not run out. -/
theorem sweep_ofGrammar (g : FlatGrammar) : sweep g (ofGrammar g) = ofGrammar g :=
  settle_fixed (fun _ h => h.sweep) (weight g) (fun _ h hne => h.weight_lt h.sweep h.le hne)
    (fun S _ => weight_le g S) (growing_empty g) (by omega)

theorem growing_ofGrammar (g : FlatGrammar) : Growing g (ofGrammar g) :=
  settle_keeps (fun _ h => h.sweep) _ (growing_empty g)

/-- Summaries that two sweeps find and a third one confirms. -/
theorem ofGrammar_eq (hn : 2 ≤ g.vars.size * height g + 1)
    (h : sweep g (sweep g (Array.replicate g.vars.size {})) = S) (fixed : sweep g S = S) :
    ofGrammar g = S := by
  obtain ⟨n, hn⟩ := Nat.exists_eq_add_of_le' hn
  rw [ofGrammar, hn, settle_succ, settle_succ, h, settle_of_eq fixed]

end Summary

end GrammarTables
