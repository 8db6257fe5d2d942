import GrammarTables.Proofs.Conflicts
import GrammarTables.Proofs.ReductionOrder

/-!
# Reductions are sorted in one way

The order of reductions is a total order on items, and the closure of a state has no item twice. So
the complete items of a state have one sorted list, in whatever order the closure lists them.
-/

namespace GrammarTables

open Std

namespace Item

variable {g : FlatGrammar} {i j : Item}

theorem eq_of_isLE_isLE (hij : (reductionOrder g i j).isLE = true)
    (hji : (reductionOrder g j i).isLE = true) : i = j :=
  LawfulEqCmp.eq_of_compare (OrientedCmp.isLE_antisymm hij hji)

end Item

namespace ItemSet

variable {g : FlatGrammar} {items listed sorted : ItemSet}

/-- A list has the complete items of an item set, each before those whose reductions come later. -/
structure Sorts (g : FlatGrammar) (items sorted : ItemSet) : Prop where
  perm : sorted.Perm (items.filter fun x => (x.1.next? g).isNone)
  ordered : sorted.Pairwise fun x y => (Item.reductionOrder g x.1 y.1).isLE = true

theorem sorts_completed (g : FlatGrammar) (items : ItemSet) : Sorts g items (items.completed g) :=
  ⟨List.mergeSort_perm _ _, pairwise_completed g items⟩

theorem Sorts.of_perm (h : Sorts g items sorted) (hperm : items.Perm listed) :
    Sorts g listed sorted :=
  ⟨h.perm.trans (hperm.filter _), h.ordered⟩

/-- Items that are equal in the order are one, so two sorted lists differ nowhere. -/
theorem Sorts.unique {other : ItemSet} (hnodup : (items.map (·.1)).Nodup)
    (h : Sorts g items sorted) (h' : Sorts g items other) : sorted = other := by
  refine List.Perm.eq_of_pairwise (fun x y hx hy hxy hyx => ?_) h.ordered h'.ordered
    (h.perm.trans h'.perm.symm)
  have hx : x ∈ items := (List.mem_filter.1 (h.perm.mem_iff.1 hx)).1
  have hy : y ∈ items := (List.mem_filter.1 (h'.perm.mem_iff.1 hy)).1
  exact List.inj_on_of_nodup_map hnodup hx hy (Item.eq_of_isLE_isLE hxy hyx)

theorem sorts_iff (hnodup : (items.map (·.1)).Nodup) (hperm : listed.Perm items) :
    Sorts g listed sorted ↔ sorted = items.completed g := by
  constructor
  · intro h
    exact (h.of_perm hperm).unique hnodup (sorts_completed g items)
  · rintro rfl
    exact (sorts_completed g items).of_perm hperm.symm

end ItemSet

theorem Automaton.nodup_closure {g : FlatGrammar} (wf : g.WellFormed) {a : State}
    (ha : a ∈ states (Analysis.ofGrammar g)) : (a.closure.map (·.1)).Nodup := by
  obtain ⟨q, hq⟩ := Array.mem_iff_getElem?.1 ha
  have hc := complete_states wf
  rw [hc.closure hq]
  exact (hc.kernel hq).nodup_closure

/-- The order of reductions is a total order on all items, that of the start included, and has
different items in different places. So sorting the complete items of a state has one result, which
is theirs whatever the order in which the closure lists them. -/
theorem reductionOrder_total [RegexEngine] {source : Grammar} {g : FlatGrammar}
    (h : FlatGrammar.ofGrammar source = .ok g) :
    (∀ i j, Item.reductionOrder g i j = .eq ↔ i = j) ∧
    (∀ i j, Item.reductionOrder g j i = (Item.reductionOrder g i j).swap) ∧
    (∀ i j, (Item.reductionOrder g i j).isLE = true → (Item.reductionOrder g j i).isLE = true →
      i = j) ∧
    (∀ i j k, (Item.reductionOrder g i j).isLE = true → (Item.reductionOrder g j k).isLE = true →
      (Item.reductionOrder g i k).isLE = true) ∧
    (∀ i j, (Item.reductionOrder g i j).isLE = true ∨ (Item.reductionOrder g j i).isLE = true) ∧
    ∀ a ∈ Automaton.states (Analysis.ofGrammar g), ∀ listed : ItemSet, listed.Perm a.closure →
      listed.completed g = a.closure.completed g ∧
        ∀ sorted, ItemSet.Sorts g listed sorted ↔ sorted = a.closure.completed g := by
  refine ⟨fun i j => ⟨LawfulEqCmp.eq_of_compare, ?_⟩, fun i j => OrientedCmp.eq_swap,
    fun i j => Item.eq_of_isLE_isLE, fun i j k => TransCmp.isLE_trans,
    isLE_total (Item.reductionOrder g), fun a ha listed hperm => ?_⟩
  · rintro rfl
    exact ReflCmp.compare_self
  · have hnodup := Automaton.nodup_closure (FlatGrammar.wellFormed_of_ofGrammar h) ha
    exact ⟨(ItemSet.sorts_iff hnodup hperm).1 (ItemSet.sorts_completed g listed),
      fun sorted => ItemSet.sorts_iff hnodup hperm⟩

/-- In the looping grammar a state has two complete items, which are sorted in the same way when the
closure lists its items backwards. -/
theorem reductionOrder_total_looping : ∃ g a, FlatGrammar.ofGrammar .looping = .ok g ∧
    a ∈ Automaton.states (Analysis.ofGrammar g) ∧
    Item.reductionOrder g ⟨.nonterminal 0, 0, 1⟩ Item.initial.advance = .lt ∧
    2 ≤ (a.closure.completed g).length ∧
    ItemSet.completed g a.closure.reverse = a.closure.completed g := by
  obtain ⟨g, h, -, -, -, -, -, -, hp⟩ := FlatGrammar.exists_looping
  obtain ⟨q, a, L, M, ha, hL, -, hM, -, hafter⟩ :=
    Automaton.exists_both (FlatGrammar.wellFormed_of_ofGrammar h) hp
  have hmem := Array.mem_of_getElem? ha
  obtain ⟨-, hswap, -, -, -, hsorted⟩ := reductionOrder_total h
  have hgt : Item.reductionOrder g Item.initial.advance ⟨.nonterminal 0, 0, 1⟩ = .gt :=
    Item.reductionOrder_of_isStart rfl rfl (Nat.le_refl 1)
  have hcomplete : [((⟨.nonterminal 0, 0, 1⟩ : Item), M), (Item.initial.advance, L)] ⊆
      a.closure.completed g := by
    simpa using ⟨Canonical.mem_completed.2 ⟨hM, hafter⟩, Canonical.mem_completed.2 ⟨hL, rfl⟩⟩
  refine ⟨g, a, h, hmem, ?_, ?_, (hsorted a hmem _ a.closure.reverse_perm).1⟩
  · rw [hswap, hgt]
    rfl
  · refine (List.subperm_of_subset ?_ hcomplete).length_le
    simp [Item.initial, Item.advance]

end GrammarTables
