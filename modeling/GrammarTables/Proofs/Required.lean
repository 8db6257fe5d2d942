import GrammarTables.Proofs.Lookahead
import GrammarTables.Proofs.NodeTypes

/-!
# Which children are required

The sweeps start from summaries that require nothing. So a variable requires a child where it cannot
be expanded without one, not even endlessly: the variables that do not require a child are the
largest set of variables each of which has a production that brings none, as long as the others in
the set bring none. A tree is finite, so a variable can have a child in each of its trees and not
require one. It has to pass the children of a variable on, then, that is not visible and recursive.
-/

namespace GrammarTables

open FlatGrammar

/-- A step brings no named node outside of fields, if the variables of a set bring none. -/
def Step.Evades (g : FlatGrammar) (A : Set Nat) (step : Step) : Prop :=
  step.field = none → g.symbolKind step.symbol ≠ .named ∧
    ∀ u, step.symbol = .nonterminal u → g.isInvisible step.symbol = true → u ∈ A

/-- A step brings a named node outside of fields, if the variables of a set bring one. -/
def Step.Insists (g : FlatGrammar) (A : Set Nat) (step : Step) : Prop :=
  step.field = none ∧ (g.symbolKind step.symbol = .named ∨
    g.isInvisible step.symbol = true ∧ ∃ u ∈ A, step.symbol = .nonterminal u)

namespace FlatGrammar

variable {g : FlatGrammar} {A : Set Nat} {step : Step} {under : List Exposed} {v : Nat}

/-- Each variable of a set has a production that brings no named node outside of fields, if the
variables of the set bring none, or it has no production. -/
def Evasive (g : FlatGrammar) (A : Set Nat) : Prop :=
  ∀ u ∈ A, g.productionsOf (.nonterminal u) = [] ∨
    ∃ p ∈ g.productionsOf (.nonterminal u), ∀ step ∈ p.steps, step.Evades g A

/-- A variable can be expanded, endlessly if need be, without a named node outside of fields. -/
def CanEvade (g : FlatGrammar) (v : Nat) : Prop := ∃ A, v ∈ A ∧ g.Evasive A

/-- A variable that is not visible stands outside of fields in a production of another, which passes
its nodes on. -/
def Passes (g : FlatGrammar) (u v : Nat) : Prop :=
  ∃ p ∈ g.productionsOf (.nonterminal v), ∃ step ∈ p.steps,
    step.field = none ∧ step.symbol = .nonterminal u ∧ g.isInvisible step.symbol = true

/-- A step brings a named node outside of fields exactly if it has no field and its symbol is such a
node, or shows one that is under it. -/
theorem unfielded_brought :
    (g.brought step under).filter (·.isUnfielded g) = [] ↔
      (step.field = none → g.symbolKind step.symbol ≠ .named ∧
        ((g.symbolKind step.symbol).isVisible = false → under.filter (·.isUnfielded g) = [])) := by
  simp only [brought, shown, List.filter_map, List.map_eq_nil_iff]
  cases hf : step.field with
  | some name => simp [Function.comp_def, Exposed.through, Exposed.isUnfielded]
  | none =>
    have hid : (Exposed.isUnfielded g) ∘ Exposed.through none = Exposed.isUnfielded g := by
      funext n
      simp [Exposed.through]
    rw [hid]
    by_cases hvis : (g.symbolKind step.symbol).isVisible = true
    · simp [hvis, Exposed.isUnfielded]
    · have hnamed : g.symbolKind step.symbol ≠ .named := by
        intro hnamed
        simp [hnamed, SymbolKind.isVisible] at hvis
      simp [hvis, hnamed]

end FlatGrammar

namespace Summary

variable {g : FlatGrammar} {A : Set Nat} {S : Array Summary} {step : Step} {p : Production}
  {ps : List Production} {v : Nat}

/-- The variables that do not require a child. -/
def optional (S : Array Summary) : Set Nat :=
  {u | (get S u).children.quantity.required = false}

theorem required_unfielded :
    (unfielded g S step).quantity.required = false ↔ step.Evades g (optional S) := by
  unfold unfielded Step.Evades
  cases step.field with
  | some name => simp
  | none =>
    rcases hidden?_cases g step.symbol with ⟨hx, hn⟩ | ⟨v, hs, hx, hv⟩
    · simp only [hn, hx]
      split
      · rename_i hnamed
        simp [hnamed, Children.oneOf, Quantity.one]
      · rename_i hnamed
        simp [hnamed]
    · have hnamed : g.symbolKind step.symbol ≠ .named := by
        intro hnamed
        simp [isInvisible, hnamed, SymbolKind.isVisible] at hx
      have hpass : (∀ u, step.symbol = .nonterminal u → u ∈ optional S) ↔ v ∈ optional S := by
        simp [hs]
      simp only [hv, hnamed, hx, ne_eq, not_false_eq_true, true_and, forall_const, hpass]
      rfl

/-- A production requires a child where one of its steps does. -/
theorem required_ofProduction :
    (ofProduction g S p).children.quantity.required = false ↔
      ∀ step ∈ p.steps, step.Evades g (optional S) := by
  have key : ∀ (steps : List Step) (r : Summary),
      (steps.foldl (addStep g S) r).children.quantity.required = false ↔
        r.children.quantity.required = false ∧ ∀ step ∈ steps, step.Evades g (optional S) := by
    intro steps
    induction steps with
    | nil => simp
    | cons step steps ih =>
      intro r
      rw [List.foldl_cons, ih, children_addStep, List.forall_mem_cons, ← required_unfielded,
        ← and_assoc, Children.append, Quantity.append, Bool.or_eq_false_iff]
  simpa [ofProduction] using key p.steps {}

/-- Productions require a child where each of them does. -/
theorem required_ofProductions :
    (ofProductions g S ps).children.quantity.required = false ↔
      ps = [] ∨ ∃ p ∈ ps, ∀ step ∈ p.steps, step.Evades g (optional S) := by
  have key : ∀ (ps : List Production) (s : Summary),
      (ps.foldl (fun s q => s.union (ofProduction g S q)) s).children.quantity.required = false ↔
        s.children.quantity.required = false ∨
          ∃ p ∈ ps, ∀ step ∈ p.steps, step.Evades g (optional S) := by
    intro ps
    induction ps with
    | nil => simp
    | cons q ps ih =>
      intro s
      rw [List.foldl_cons, ih, List.exists_mem_cons_iff, ← required_ofProduction, ← or_assoc, union,
        Children.union, Quantity.union, Bool.and_eq_false_iff]
  cases ps with
  | nil => simp [ofProductions]
  | cons p ps => simp [ofProductions, key, required_ofProduction]

theorem mem_optional_sweep :
    v ∈ optional (sweep g S) ↔ g.productionsOf (.nonterminal v) = [] ∨
      ∃ p ∈ g.productionsOf (.nonterminal v), ∀ step ∈ p.steps, step.Evades g (optional S) := by
  change (get (sweep g S) v).children.quantity.required = false ↔ _
  rw [get_sweep, required_ofProductions]

/-- The variables that do not require a child are an evasive set, -/
theorem evasive_optional (g : FlatGrammar) : g.Evasive (optional (ofGrammar g)) := by
  intro u hu
  rwa [← mem_optional_sweep, sweep_ofGrammar]

/-- and they are the largest: no sweep takes a variable of an evasive set away. -/
theorem subset_optional (hA : g.Evasive A) : A ⊆ optional (ofGrammar g) := by
  refine settle_keeps (P := fun S => A ⊆ optional S) (fun S hS u hu => ?_) _ fun u _ => ?_
  · refine mem_optional_sweep.2 ((hA u hu).imp_right ?_)
    rintro ⟨p, hp, hsteps⟩
    exact ⟨p, hp, fun step hstep hf =>
      (hsteps step hstep hf).imp_right fun hpass u hs hx => hS (hpass u hs hx)⟩
  · simp [optional]

theorem required_iff :
    (get (ofGrammar g) v).children.quantity.required = true ↔ ¬g.CanEvade v := by
  rw [← Bool.not_eq_false, not_iff_not]
  constructor
  · exact fun hv => ⟨_, hv, evasive_optional g⟩
  · rintro ⟨A, hv, hA⟩
    exact subset_optional hA hv

end Summary

namespace FlatGrammar

variable {g : FlatGrammar} {A : Set Nat} {source : Grammar} {i : Nat} {v : Variable}

/-- Steps that bring no child have trees without one, where the variables whose nodes they pass on
do. -/
theorem exists_forest_of_evades (hg : g.Productive) {steps : List Step}
    (hd : ∀ step ∈ steps, g.Declares step.symbol) (hsteps : ∀ step ∈ steps, step.Evades g A)
    (hA : ∀ u ∈ A, ∀ step ∈ steps, step.field = none → step.symbol = .nonterminal u →
      g.isInvisible step.symbol = true → ∃ t : Tree g u, t.unfielded = []) :
    ∃ forest : Forest g steps, forest.exposed.filter (·.isUnfielded g) = [] := by
  induction steps with
  | nil => exact ⟨.nil, rfl⟩
  | cons step steps ih =>
    obtain ⟨hdstep, hd⟩ := List.forall_mem_cons.1 hd
    obtain ⟨hstep, hsteps⟩ := List.forall_mem_cons.1 hsteps
    obtain ⟨rest, hrest⟩ := ih hd hsteps fun u hu x hx => hA u hu x (List.mem_cons_of_mem _ hx)
    cases hs : step.symbol with
    | eof => simp [hs, Declares] at hdstep
    | terminal t =>
      refine ⟨.token hs rest, ?_⟩
      rw [Forest.exposed, List.filter_append, hrest, List.append_nil, unfielded_brought]
      exact fun hf => (hstep hf).imp_right fun _ _ => rfl
    | nonterminal u =>
      -- Any tree will do where the step does not pass its nodes on.
      obtain ⟨t, ht⟩ : ∃ t : Tree g u, step.field = none →
          (g.symbolKind step.symbol).isVisible = false → t.unfielded = [] := by
        by_cases hpass : step.field = none ∧ g.isInvisible step.symbol = true
        · obtain ⟨t, ht⟩ := hA u ((hstep hpass.1).2 u hs hpass.2) step List.mem_cons_self hpass.1 hs
            hpass.2
          exact ⟨t, fun _ _ => ht⟩
        · rw [hs] at hdstep
          obtain ⟨w, hw⟩ := hg u hdstep
          obtain ⟨t, -⟩ := derives_iff_exists_tree.1 hw
          refine ⟨t, fun hf hvis => absurd ⟨hf, ?_⟩ hpass⟩
          rw [isInvisible, hvis, hs]
          rfl
      refine ⟨.node (hs ▸ t.mem) t.forest rest, ?_⟩
      rw [Forest.exposed, List.filter_append, hrest, List.append_nil, unfielded_brought]
      exact fun hf => (hstep hf).imp_right fun _ => ht hf

/-- Where no variable passes its own nodes on, a variable that can be expanded without a child has a
tree without one. -/
theorem CanEvade.exists_tree (wf : g.WellFormed) (hg : g.Productive) (hi : i < g.vars.size)
    (hacc : Acc g.Passes i) (h : g.CanEvade i) : ∃ t : Tree g i, t.unfielded = [] := by
  obtain ⟨A, hiA, hA⟩ := h
  induction hacc with
  | intro i _ ih =>
    obtain ⟨w, hw⟩ := hg i hi
    obtain ⟨t, -⟩ := derives_iff_exists_tree.1 hw
    obtain ⟨p, hp, hsteps⟩ := (hA i hiA).resolve_left (List.ne_nil_of_mem t.mem)
    have hd : ∀ step ∈ p.steps, g.Declares step.symbol := fun step hstep =>
      wf.declares hp _ (List.mem_map_of_mem hstep)
    obtain ⟨forest, hforest⟩ := exists_forest_of_evades hg hd hsteps
      fun u hu step hstep hf hs hx => ih u ⟨p, hp, step, hstep, hf, hs, hx⟩
        (by simpa [hs, Declares] using hd step hstep) hu
    exact ⟨⟨p, hp, forest⟩, hforest⟩

/-- Each production of a variable in a set brings a named node outside of fields, if the variables
of the set bring one. -/
def Insistent (g : FlatGrammar) (A : Set Nat) : Prop :=
  ∀ u ∈ A, ∀ p ∈ g.productionsOf (.nonterminal u), ∃ step ∈ p.steps, step.Insists g A

/-- Trees have a child where the productions insist on one: the way down to it ends. -/
theorem Insistent.unfielded_ne_nil (hA : g.Insistent A) {steps : List Step}
    (forest : Forest g steps)
    (hsteps : ∃ step ∈ steps, step.Insists g A) :
    forest.exposed.filter (·.isUnfielded g) ≠ [] := by
  induction forest with
  | nil => simp at hsteps
  | token ht rest ih =>
    rw [Forest.exposed, List.filter_append, ne_eq, List.append_eq_nil_iff, not_and_or,
      unfielded_brought]
    rcases (List.exists_mem_cons_iff ..).1 hsteps with ⟨hf, hnamed | ⟨hx, -⟩⟩ | hrest
    · exact .inl fun h => (h hf).1 hnamed
    · simp [ht, isInvisible, Symbol.isNonterminal] at hx
    · exact .inr (ih hrest)
  | @node p step steps hp children rest ihc ihr =>
    rw [Forest.exposed, List.filter_append, ne_eq, List.append_eq_nil_iff, not_and_or,
      unfielded_brought]
    rcases (List.exists_mem_cons_iff ..).1 hsteps with ⟨hf, hnamed | ⟨hx, w, hw, hs⟩⟩ | hrest
    · exact .inl fun h => (h hf).1 hnamed
    · have hvis : (g.symbolKind step.symbol).isVisible = false := by
        simpa [isInvisible, hs, Symbol.isNonterminal] using hx
      exact .inl fun h => ihc (hA w hw _ (hs ▸ hp)) ((h hf).2 hvis)
    · exact .inr (ihr hrest)

theorem Insistent.unfielded_tree (hA : g.Insistent A) (hi : i ∈ A) (t : Tree g i) :
    1 ≤ t.unfielded.length :=
  List.length_pos_of_ne_nil (hA.unfielded_ne_nil t.forest (hA i hi _ t.mem))

end FlatGrammar

variable {g : FlatGrammar} {source : Grammar} {i : Nat} {v : Variable}

/-- The node type of a named variable that the start leads to requires a child outside of fields
where the variable cannot be expanded without one. Every tree has a child then; the converse holds
exactly if the variable has a tree without one where it can be expanded so, and it does have one
where all variables derive texts and none of those whose nodes the variable shows is recursive. -/
theorem nodeTypes_require_children [RegexEngine] (h : ofGrammar source = .ok g)
    (hv : g.vars[i]? = some v) (hk : v.kind = .named) (hr : g.Reaches (.nonterminal i)) :
    let entry := variableNode (Summary.ofGrammar g) i v
    entry ∈ g.nodeTypes ∧ ∀ c, entry.children = some c →
      (c.quantity.required = true ↔ ¬g.CanEvade i) ∧
      ((c.quantity.required = true ↔ ∀ t : Tree g i, 1 ≤ t.unfielded.length) ↔
        (g.CanEvade i → ∃ t : Tree g i, t.unfielded = [])) ∧
      (g.Productive → Acc g.Passes i →
        (c.quantity.required = true ↔ ∀ t : Tree g i, 1 ≤ t.unfielded.length)) := by
  have wf := wellFormed_of_ofGrammar h
  have hi : i < g.vars.size := (Array.getElem?_eq_some_iff.1 hv).1
  refine ⟨variableNode_mem wf hv hk hr, fun c hc => ?_⟩
  obtain ⟨rfl, -⟩ := children_variableNode.1 hc
  have hsound : ¬g.CanEvade i → ∀ t : Tree g i, 1 ≤ t.unfielded.length := fun hnot t =>
    List.length_pos_of_ne_nil
      ((Summary.describes_tree t).children.required trivial (Summary.required_iff.2 hnot))
  have hnone : (∀ t : Tree g i, 1 ≤ t.unfielded.length) ↔ ¬∃ t : Tree g i, t.unfielded = [] := by
    simp only [Nat.one_le_iff_ne_zero, ne_eq, List.length_eq_zero_iff, not_exists]
  have hexact : (¬g.CanEvade i ↔ ∀ t : Tree g i, 1 ≤ t.unfielded.length) ↔
      (g.CanEvade i → ∃ t : Tree g i, t.unfielded = []) := by
    rw [hnone] at hsound ⊢
    tauto
  rw [Summary.required_iff]
  exact ⟨Iff.rfl, hexact, fun hg hacc => hexact.2 (CanEvade.exists_tree wf hg hi hacc)⟩

/-- A grammar of lists of entries, where the value of an entry is given by a variable that is not
visible. -/
def Grammar.entries : Grammar where
  name := "entries"
  rules := [⟨"start", .wrap .repeat1 (.symbol "entry")⟩,
    ⟨"entry", .seq [.symbol "_value", .string ","]⟩, ⟨"_value", .symbol "word"⟩,
    ⟨"word", .pattern "[a-z]+" none⟩]

namespace Entries

/-- The production with the given symbols. -/
def plain (symbols : List Symbol) : Production where
  steps := symbols.map fun s => ⟨s, 0, none, none⟩
  dynamic := 0

/-- What the flat form of the grammar has: lists, entries, values, and the repetition as a variable
of its own. -/
structure Flat (g : FlatGrammar) : Prop where
  kinds : g.vars.map (·.kind) = #[.named, .named, .hidden, .auxiliary]
  word : g.symbolKind (.terminal 1) = .named
  list : g.productionsOf (.nonterminal 0) = [plain [.nonterminal 3]]
  entry : g.productionsOf (.nonterminal 1) = [plain [.nonterminal 2, .terminal 0]]
  value : g.productionsOf (.nonterminal 2) = [plain [.terminal 1]]
  repetition : g.productionsOf (.nonterminal 3) =
    [plain [.nonterminal 3, .nonterminal 3], plain [.nonterminal 1]]

theorem exists_flat : ∃ g, ofGrammar .entries = .ok g ∧ Flat g := by
  obtain ⟨g, h, hkinds, hword, hlist, hentry, hvalue, hrepetition⟩ : ∃ g,
      ofGrammar .entries = .ok g ∧
      g.vars.map (·.kind) = #[.named, .named, .hidden, .auxiliary] ∧
      g.symbolKind (.terminal 1) = .named ∧
      g.productionsOf (.nonterminal 0) = [plain [.nonterminal 3]] ∧
      g.productionsOf (.nonterminal 1) = [plain [.nonterminal 2, .terminal 0]] ∧
      g.productionsOf (.nonterminal 2) = [plain [.terminal 1]] ∧
      g.productionsOf (.nonterminal 3) =
        [plain [.nonterminal 3, .nonterminal 3], plain [.nonterminal 1]] :=
    exists_of_decide (by decide +kernel)
  exact ⟨g, h, hkinds, hword, hlist, hentry, hvalue, hrepetition⟩

namespace Flat

variable {g : FlatGrammar} (h : Flat g)

include h

theorem kind (i : Nat) : g.symbolKind (.nonterminal i) =
    ((#[.named, .named, .hidden, .auxiliary] : Array SymbolKind)[i]?).getD .hidden := by
  rw [symbolKind, ← h.kinds, Array.getElem?_map]

theorem size : g.vars.size = 4 := by simpa using congrArg Array.size h.kinds

theorem exists_named {i : Nat} (hi : i = 0 ∨ i = 1) :
    ∃ v, g.vars[i]? = some v ∧ v.kind = .named := by
  have hkind : (g.vars.map (·.kind))[i]? = some .named := by
    rw [h.kinds]
    rcases hi with rfl | rfl <;> rfl
  rwa [Array.getElem?_map, Option.map_eq_some_iff] at hkind

/-- Repetitions of repetitions, endlessly, have no entry. -/
theorem evasive : g.Evasive {0, 3} := by
  rintro u (rfl | rfl)
  · refine .inr ⟨plain [.nonterminal 3], by simp [h.list], ?_⟩
    simp [plain, Step.Evades, h.kind]
  · refine .inr ⟨plain [.nonterminal 3, .nonterminal 3], by simp [h.repetition], ?_⟩
    simp [plain, Step.Evades, h.kind]

theorem insistent : g.Insistent {0, 1, 2, 3} := by
  rintro u (rfl | rfl | rfl | rfl)
  all_goals simp [h.list, h.entry, h.value, h.repetition, plain, Step.Insists, h.kind, h.word,
    isInvisible, Symbol.isNonterminal, SymbolKind.isVisible]

theorem productive : g.Productive := by
  have hvalue : g.Derives [.nonterminal 2] [1] :=
    .single (p := plain [.terminal 1]) (by simp [h.value]) (.token .nil)
  have hentry : g.Derives [.nonterminal 1] [1, 0] :=
    .single (p := plain [.nonterminal 2, .terminal 0]) (by simp [h.entry])
      (hvalue.append (.token .nil))
  have hrepetition : g.Derives [.nonterminal 3] [1, 0] :=
    .single (p := plain [.nonterminal 1]) (by simp [h.repetition]) hentry
  have hlist : g.Derives [.nonterminal 0] [1, 0] :=
    .single (p := plain [.nonterminal 3]) (by simp [h.list]) hrepetition
  intro v hv
  rw [h.size] at hv
  obtain rfl | rfl | rfl | rfl : v = 0 ∨ v = 1 ∨ v = 2 ∨ v = 3 := by omega
  · exact ⟨_, hlist⟩
  · exact ⟨_, hentry⟩
  · exact ⟨_, hvalue⟩
  · exact ⟨_, hrepetition⟩

theorem acc_passes : Acc g.Passes 1 := by
  have hvalue : Acc g.Passes 2 := by
    refine ⟨_, fun u hu => ?_⟩
    simp [Passes, h.value, plain] at hu
  refine ⟨_, fun u hu => ?_⟩
  obtain rfl : u = 2 := by
    simp only [Passes, h.entry, plain, exists_eq_left, List.map_cons,
      List.map_nil, List.mem_cons, List.not_mem_nil, or_false, exists_eq_or_imp] at hu
    grind
  exact hvalue

/-- Lists and entries have children: each of their trees has one. -/
theorem exists_children {i : Nat} (hi : i = 0 ∨ i = 1) (v : Variable) :
    ∃ c, (variableNode (Summary.ofGrammar g) i v).children = some c := by
  have hlt : i < g.vars.size := by
    rw [h.size]
    omega
  obtain ⟨w, hw⟩ := h.productive i hlt
  obtain ⟨t, -⟩ := derives_iff_exists_tree.1 hw
  have hone := h.insistent.unfielded_tree (by grind) t
  obtain ⟨n, hn⟩ := List.exists_mem_of_length_pos hone
  exact ⟨_, children_variableNode.2
    ⟨rfl, List.ne_nil_of_mem ((Summary.describes_tree t).children.types n hn)⟩⟩

end Flat

end Entries

open Entries

/-- A list does not require a child, although each of its trees has one. An entry does. -/
theorem nodeTypes_require_children_entries : ∃ g, ofGrammar .entries = .ok g ∧
    (∃ v c, g.vars[0]? = some v ∧ (variableNode (Summary.ofGrammar g) 0 v).children = some c ∧
      c.quantity.required = false ∧ ∀ t : Tree g 0, 1 ≤ t.unfielded.length) ∧
    ∃ v c, g.vars[1]? = some v ∧ (variableNode (Summary.ofGrammar g) 1 v).children = some c ∧
      c.quantity.required = true := by
  obtain ⟨g, h, hflat⟩ := Entries.exists_flat
  obtain ⟨list, hlist, hlistKind⟩ := hflat.exists_named (.inl rfl)
  obtain ⟨entry, hentry, hentryKind⟩ := hflat.exists_named (.inr rfl)
  obtain ⟨c, hc⟩ := hflat.exists_children (.inl rfl) list
  obtain ⟨d, hd⟩ := hflat.exists_children (.inr rfl) entry
  have htrees : ∀ i, i = 0 ∨ i = 1 → ∀ t : Tree g i, 1 ≤ t.unfielded.length := fun i hi t =>
    hflat.insistent.unfielded_tree (by grind) t
  have hreaches : g.Reaches (.nonterminal 1) := by
    have hrepetition : g.Reaches (.nonterminal 3) :=
      .part (p := plain [.nonterminal 3]) .start (by simp [start, hflat.list])
        (List.mem_singleton_self _)
    exact .part (p := plain [.nonterminal 1]) hrepetition (by simp [hflat.repetition])
      (List.mem_singleton_self _)
  refine ⟨g, h, ⟨list, c, hlist, hc, ?_, htrees 0 (.inl rfl)⟩, entry, d, hentry, hd, ?_⟩
  · have hrequired := ((nodeTypes_require_children h hlist hlistKind .start).2 c hc).1
    exact Bool.eq_false_iff.2 fun htrue => hrequired.1 htrue ⟨_, .inl rfl, hflat.evasive⟩
  · have hrequired := ((nodeTypes_require_children h hentry hentryKind hreaches).2 d hd).2.2
    exact (hrequired hflat.productive hflat.acc_passes).2 (htrees 1 (.inr rfl))

end GrammarTables
