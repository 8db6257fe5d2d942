import GrammarTables.Proofs.Minimization
import Mathlib.Algebra.Ring.Int.Defs

/-!
# Dynamic precedence of runs

The dynamic precedences of a run's reductions add up to the weight of the run. Minimization leaves
reductions of unit states out of runs, so it keeps the weight of every run where these reductions
weigh nothing. They do in a grammar in which a production of one step has a dynamic precedence only
if its variable is named.
-/

namespace GrammarTables

open Machine

def Event.weight : Event → Int
  | .reduce r => r.dynamic
  | _ => 0

/-- The sum of the dynamic precedences of a run's reductions. -/
def weight (es : List Event) : Int := (es.map Event.weight).sum

theorem weight_cons (e : Event) (es : List Event) : weight (e :: es) = e.weight + weight es :=
  List.sum_cons

/-- Leaving out reductions that weigh nothing keeps the weight of a run. -/
theorem Omits.weight_eq {missing : Reduction → Prop} (hm : ∀ r, missing r → r.dynamic = 0)
    {es es' : List Event} (h : Omits missing es es') : weight es' = weight es := by
  induction h with
  | nil => rfl
  | keep e _ ih => rw [weight_cons, weight_cons, ih]
  | @drop es es' r hr _ ih =>
    have hweight : (Event.reduce r).weight = 0 := hm r hr
    rw [weight_cons, hweight, ih, Int.zero_add]

/-- A production of one step has a dynamic precedence only if its variable is named. -/
def FlatGrammar.LightUnits (g : FlatGrammar) : Prop :=
  ∀ v < g.vars.size, g.symbolKind (.nonterminal v) ≠ .named →
    ∀ p ∈ g.productionsOf (.nonterminal v), p.steps.length = 1 → p.dynamic = 0

instance (g : FlatGrammar) : Decidable g.LightUnits := by
  unfold FlatGrammar.LightUnits
  infer_instance

/-- A reduction of the canonical table is that of a production. -/
theorem Canonical.Describes.exists_production {g : FlatGrammar} {q : Nat} {a : Automaton.State}
    {s : State} {t : Symbol} (h : Describes g q a s) (ht : t.isTerminal = true) {r : Reduction}
    (hr : .reduce r ∈ s.on t) : ∃ v, r.symbol = .nonterminal v ∧ v < g.vars.size ∧
      ∃ p ∈ g.productionsOf (.nonterminal v), r.children = p.steps.length ∧
        r.dynamic = p.dynamic := by
  obtain ⟨v, n, d, hn, L, -, -, heq⟩ := h.exists_item ht hr
  obtain ⟨r', hr', hsymbol, hchildren, hdynamic⟩ := reductionOf_eq d hn
  cases hr'.symm.trans heq
  exact ⟨v, hsymbol, FlatGrammar.lt_of_productionsOf hn, _, List.getElem_mem hn, hchildren,
    hdynamic⟩

namespace Bypass

variable {g : FlatGrammar} {auto : Array Automaton.State} {states merged : Array State}
  {group : Nat → Nat}

/-- The reductions of unit states have no dynamic precedence. -/
def Weightless (g : FlatGrammar) (states : Array State) : Prop :=
  ∀ r, OfUnit g states r → r.dynamic = 0

theorem weightless_of_lightUnits (ht : Canonical.Table g auto states)
    (hm : Merge.Merges states merged group) (hg : g.LightUnits) : Weightless g merged := by
  intro r hr
  have hsilent := hr.silent
  obtain ⟨k, m, v, t, hk, -, hr⟩ := hr
  rw [← on_symbolAt_position] at hr
  obtain ⟨q, s, -, hs, hon⟩ := hm.on hk (List.ne_nil_of_mem hr)
  rw [hon, Action.mem_map_of_not_shift rfl] at hr
  obtain ⟨a, -, hdesc⟩ := ht.described hs
  obtain ⟨u, hu, hlt, p, hp, hchildren, hdynamic⟩ :=
    hdesc.exists_production (TokenSet.isTerminal_symbolAt _) hr
  rw [hdynamic]
  exact hg u hlt (hu ▸ hsilent.2.2) p hp (hchildren ▸ hsilent.1)

end Bypass

section

variable {source : Grammar} {g : FlatGrammar}

/-- Minimization keeps the weight of runs where passing by unit states loses no extra and leaves out
no dynamic precedence: for every accepting run of the table before it there is one of the table
after it with the same sum of dynamic precedences, and the other way round. -/
theorem minimized_weight [RegexEngine] (h : FlatGrammar.ofGrammar source = .ok g)
    {table : ParseTable} {conflicts : List Conflict}
    (hc : ParseTable.canonical g = .ok (table, conflicts))
    (hk : Bypass.KeepsExtras g (Merge.states g table.states))
    (hw : Bypass.Weightless g (Merge.states g table.states)) (w : List Nat) :
    (∀ es, Accepts table.states ⟨[ParseTable.startState], w⟩ es →
      ∃ es', Accepts (Bypass.states g (Merge.states g table.states))
        ⟨[ParseTable.startState], w⟩ es' ∧ weight es' = weight es) ∧
    ∀ es', Accepts (Bypass.states g (Merge.states g table.states))
        ⟨[ParseTable.startState], w⟩ es' →
      ∃ es, Accepts table.states ⟨[ParseTable.startState], w⟩ es ∧ weight es' = weight es := by
  have wf := FlatGrammar.wellFormed_of_ofGrammar h
  have ht := Canonical.table_states wf
  have hm := Merge.merges g ht.mergeable
  rw [Canonical.states_of_canonical hc] at hk hw ⊢
  constructor
  · intro es ha
    obtain ⟨es', hrun, ho⟩ := Bypass.exists_omits_redirect hm hk ha
    exact ⟨es', (accepts_bypass_iff wf).2 hrun, ho.weight_eq hw⟩
  · intro es' ha
    obtain ⟨es, hrun, ho⟩ := Bypass.exists_omits wf ht hm hk ((accepts_bypass_iff wf).1 ha)
    exact ⟨es, hrun, ho.weight_eq hw⟩

/-- The run for a word between brackets keeps its weight when the reduction of the word to an item
is left out of it. -/
theorem minimized_weight_bracketed : ∃ g table, FlatGrammar.ofGrammar .bracketed = .ok g ∧
    ParseTable.canonical g = .ok (table, []) ∧
    Bypass.KeepsExtras g (Merge.states g table.states) ∧
    Bypass.Weightless g (Merge.states g table.states) ∧
    Accepts table.states ⟨[ParseTable.startState], [0, 6, 4, 1]⟩ Grammar.bracketedRun ∧
    weight Grammar.bracketedRun = 1 ∧
    .reduce Grammar.itemReduction ∈ Grammar.bracketedRun ∧
    ∃ es', Accepts (Bypass.states g (Merge.states g table.states))
        ⟨[ParseTable.startState], [0, 6, 4, 1]⟩ es' ∧ weight es' = weight Grammar.bracketedRun ∧
      .reduce Grammar.itemReduction ∉ es' := by
  obtain ⟨g, table, h, hc, hrun, -, -, -, hitem⟩ := ParseTable.exists_bracketed
  obtain ⟨g', h', hf, hu⟩ : ∃ g, FlatGrammar.ofGrammar .bracketed = .ok g ∧ g.ForeignExtras ∧
      g.LightUnits := FlatGrammar.exists_of_decide (by decide +kernel)
  cases h.symm.trans h'
  have wf := FlatGrammar.wellFormed_of_ofGrammar h
  have ht := Canonical.table_states wf
  have hk := Bypass.keepsExtras_of_canonical wf hc (.inl hf)
  have hw : Bypass.Weightless g (Merge.states g table.states) := by
    rw [Canonical.states_of_canonical hc]
    exact Bypass.weightless_of_lightUnits ht (Merge.merges g ht.mergeable) hu
  obtain ⟨es', hrun', hweight⟩ := (minimized_weight h hc hk hw [0, 6, 4, 1]).1 _ hrun
  exact ⟨g, table, h, hc, hk, hw, hrun, rfl, by decide, es', hrun', hweight, hitem _ es' hrun'⟩

end

end GrammarTables
