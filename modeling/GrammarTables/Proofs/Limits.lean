import GrammarTables.Proofs.CanonicalRuns
import GrammarTables.Proofs.Listing
import GrammarTables.Proofs.Preparation
import GrammarTables.Tables

/-!
# The limits of the tables

The tables of a grammar exist when the numbers in them are within their limits. There are fewer
states than sets of items paired with places, and no more production numbers than items.
-/

namespace GrammarTables

theorem checkLimit_of_le {what : String} {count limit : Nat} (h : count ≤ limit) :
    checkLimit what count limit = .ok () := if_neg (Nat.not_lt.2 h)

namespace Canonical

variable {g : FlatGrammar}

/-- Every layout that is looked up is that of an item of the grammar. -/
theorem exists_lookup_layouts (g : FlatGrammar) (i : Item) :
    ∃ j ∈ g.items, lookup (layouts g) [] j = lookup (layouts g) [] i := by
  obtain ⟨head, n, dot⟩ := i
  cases head with
  | start => exact ⟨.initial, List.mem_cons_self, rfl⟩
  | nonterminal v =>
    by_cases hn : n < (g.productionsOf (.nonterminal v)).length
    · exact ⟨_, FlatGrammar.mem_items_of_belongs (Item.belongs_start_of hn), rfl⟩
    · refine ⟨.initial, List.mem_cons_self, ?_⟩
      rw [lookup_layouts_of_le dot (Nat.le_of_not_lt hn)]
      rfl

theorem length_numbered_le (g : FlatGrammar) (reduced : List Item) :
    (numbered (layouts g) reduced).length ≤ Automaton.itemCount g := by
  rw [← FlatGrammar.length_items, ← List.length_map (lookup (layouts g) [])]
  refine length_eraseDups_le fun x hx => ?_
  rcases List.mem_cons.1 hx with rfl | hx
  · exact List.mem_map.2 ⟨.initial, List.mem_cons_self, rfl⟩
  · obtain ⟨i, -, rfl⟩ := List.mem_map.1 hx
    obtain ⟨j, hj, heq⟩ := exists_lookup_layouts g i
    exact List.mem_map.2 ⟨j, hj, heq⟩

end Canonical

/-- How many kernels the items of a grammar can at most make is within the limit on states. -/
def FlatGrammar.Small (g : FlatGrammar) : Prop :=
  2 ^ (Automaton.itemCount g * (g.tokenCount + 1)) ≤ 65536

instance (g : FlatGrammar) : Decidable g.Small := by
  unfold FlatGrammar.Small
  infer_instance

section

variable {g : FlatGrammar}

/-- A grammar whose states and items are within the limits has a canonical table. -/
theorem ParseTable.exists_canonical_of_le
    (hsize : (Automaton.states (Analysis.ofGrammar g)).size ≤ 65535)
    (hitems : Automaton.itemCount g ≤ 65535) : ∃ r, ParseTable.canonical g = .ok r := by
  have hnumbers := fun reduced => (Canonical.length_numbered_le g reduced).trans hitems
  unfold ParseTable.canonical
  simp only [checkLimit_of_le hsize, checkLimit_of_le (hnumbers _)]
  exact ⟨_, rfl⟩

theorem Tables.exists_of_canonical (h : ∃ r, ParseTable.canonical g = .ok r) :
    ∃ tables, Tables.ofGrammar g = .ok tables := by
  obtain ⟨⟨table, conflicts⟩, h⟩ := h
  unfold Tables.ofGrammar
  rw [h]
  exact ⟨_, rfl⟩

variable (wf : g.WellFormed) (hs : g.Small)
include wf hs

/-- A small grammar has a canonical table. -/
theorem ParseTable.exists_canonical : ∃ r, ParseTable.canonical g = .ok r := by
  have hstates := Automaton.size_states_lt wf
  have hitems : Automaton.itemCount g < 65536 := by
    calc Automaton.itemCount g
        ≤ Automaton.itemCount g * (g.tokenCount + 1) := Nat.le_mul_of_pos_right _ (Nat.succ_pos _)
      _ < 2 ^ (Automaton.itemCount g * (g.tokenCount + 1)) := Nat.lt_two_pow_self
      _ ≤ 65536 := hs
  exact exists_canonical_of_le (Nat.le_of_lt_succ (Nat.lt_of_lt_of_le hstates hs))
    (Nat.le_of_lt_succ hitems)

end

end GrammarTables
