import GrammarTables.TokenSet
import Mathlib.Data.Finset.Card
import Mathlib.Data.Nat.Bitwise

/-!
# Inclusion, weight and members of sets of terminals

Sets of terminals are ordered by inclusion. The weight of a set counts its members below a bound, so
a set that grows gains weight. The list of its members has them all and no other terminal.
-/

namespace GrammarTables.TokenSet

instance : HasSubset TokenSet := ⟨fun t u => ∀ i, t.mask.testBit i = true → u.mask.testBit i = true⟩

variable {t u v : TokenSet} {n : Nat}

@[simp] theorem subset_refl (t : TokenSet) : t ⊆ t := fun _ h => h

theorem subset_trans (h : t ⊆ u) (k : u ⊆ v) : t ⊆ v := fun i hi => k i (h i hi)

theorem subset_antisymm (h : t ⊆ u) (k : u ⊆ t) : t = u := by
  have hm : t.mask = u.mask := by
    refine Nat.eq_of_testBit_eq fun i => ?_
    rw [Bool.eq_iff_iff]
    exact ⟨h i, k i⟩
  cases t
  cases u
  exact congrArg TokenSet.mk hm

theorem contains_of_subset (h : t ⊆ u) {s : Symbol} (hs : t.contains s = true) :
    u.contains s = true := h _ hs

theorem subset_union_left (t u : TokenSet) : t ⊆ t.union u := by
  intro i hi
  simp [union, hi]

theorem subset_union_right (t u : TokenSet) : u ⊆ t.union u := by
  intro i hi
  simp [union, hi]

theorem union_subset (h : t ⊆ v) (k : u ⊆ v) : t.union u ⊆ v := by
  intro i hi
  rw [union, Nat.testBit_or, Bool.or_eq_true] at hi
  exact hi.elim (h i) (k i)

@[simp] theorem empty_subset (t : TokenSet) : empty ⊆ t := by
  intro i hi
  simp [empty] at hi

theorem isEmpty_iff : t.isEmpty = true ↔ t = empty := by
  cases t
  simp [isEmpty, empty]

/-- Two terminals with the same bit are the same. -/
theorem position_injective {r s : Symbol} (hr : r.isTerminal = true) (hs : s.isTerminal = true)
    (h : position r = position s) : r = s := by
  rw [← symbolAt_position hr, h, symbolAt_position hs]

theorem contains_singleton_iff {r s : Symbol} (hr : r.isTerminal = true)
    (hs : s.isTerminal = true) :
    (singleton r).contains s = true ↔ r = s := by
  simp only [contains_singleton, decide_eq_true_eq]
  exact ⟨position_injective hr hs, fun h => h ▸ rfl⟩

/-- A bit that is set is that of a terminal in the set. -/
theorem testBit_eq_contains (t : TokenSet) (i : Nat) :
    t.mask.testBit i = t.contains (symbolAt i) := by
  simp [contains]

theorem symbolAt_injective : Function.Injective symbolAt :=
  Function.LeftInverse.injective position_symbolAt

@[simp] theorem isTerminal_symbolAt (i : Nat) : (symbolAt i).isTerminal = true := by
  cases i <;> rfl

/-- Sets of the same terminals are the same. -/
theorem ext_contains (h : ∀ s : Symbol, s.isTerminal = true → t.contains s = u.contains s) :
    t = u := by
  refine subset_antisymm (fun i hi => ?_) (fun i hi => ?_) <;>
    · rw [testBit_eq_contains] at hi ⊢
      simpa [h _ (isTerminal_symbolAt i)] using hi

theorem exists_contains (h : ¬ t.isEmpty = true) :
    ∃ s : Symbol, s.isTerminal = true ∧ t.contains s = true := by
  have hm : t.mask ≠ 0 := by simpa [isEmpty] using h
  obtain ⟨i, hi⟩ := Nat.exists_testBit_of_ne_zero hm
  exact ⟨symbolAt i, isTerminal_symbolAt i, by rwa [← testBit_eq_contains]⟩

/-- All members are among the first `n` terminals. -/
def Within (n : Nat) (t : TokenSet) : Prop := t.mask < 2 ^ n

@[simp] theorem within_empty : empty.Within n := Nat.two_pow_pos n

theorem Within.union (h : t.Within n) (k : u.Within n) : (t.union u).Within n :=
  Nat.or_lt_two_pow h k

theorem within_singleton {s : Symbol} (h : position s < n) : (singleton s).Within n := by
  simpa [Within, singleton, Nat.one_shiftLeft] using Nat.pow_lt_pow_right Nat.one_lt_two h

theorem Within.lt (h : t.Within n) {i : Nat} (hi : t.mask.testBit i = true) : i < n := by
  by_contra hn
  rw [Nat.testBit_lt_two_pow (h.trans_le (Nat.pow_le_pow_right (by omega) (by omega)))] at hi
  simp at hi

/-- How many of the first `n` terminals are members. -/
def weight (n : Nat) (t : TokenSet) : Nat := ((Finset.range n).filter (t.mask.testBit ·)).card

theorem weight_le (n : Nat) (t : TokenSet) : t.weight n ≤ n := by
  have h := Finset.card_filter_le (Finset.range n) (t.mask.testBit ·)
  rwa [Finset.card_range] at h

theorem weight_mono (h : t ⊆ u) : t.weight n ≤ u.weight n :=
  Finset.card_le_card (Finset.monotone_filter_right _ fun i _ => h i)

theorem weight_lt (h : t ⊆ u) (hu : u.Within n) (hne : t ≠ u) : t.weight n < u.weight n := by
  refine Finset.card_lt_card ⟨Finset.monotone_filter_right _ fun i _ => h i, fun hsub => hne ?_⟩
  refine subset_antisymm h fun i hi => ?_
  have hmem := hsub (Finset.mem_filter.2 ⟨Finset.mem_range.2 (hu.lt hi), hi⟩)
  exact (Finset.mem_filter.1 hmem).2

theorem contains_ofList {s : Symbol} {symbols : List Symbol} :
    (ofList symbols).contains s = true ↔ ∃ r ∈ symbols, position r = position s := by
  have key : ∀ (symbols : List Symbol) (t : TokenSet), (symbols.foldl insert t).contains s = true ↔
      t.contains s = true ∨ ∃ r ∈ symbols, position r = position s := by
    intro symbols
    induction symbols with
    | nil => simp
    | cons r symbols ih =>
      intro t
      rw [List.foldl_cons, ih]
      simp [insert, or_assoc]
  simp [ofList, key]

theorem mem_positions {i : Nat} : i ∈ t.positions ↔ t.mask.testBit i = true := by
  simp only [positions, List.mem_filter, List.mem_range, and_iff_right_iff_imp]
  intro hi
  by_contra hge
  have hmask : t.mask < 2 ^ i :=
    Nat.lt_log2_self.trans_le (Nat.pow_le_pow_right Nat.two_pos (Nat.le_of_not_lt hge))
  simp [Nat.testBit_lt_two_pow hmask] at hi

theorem mem_toList {s : Symbol} : s ∈ t.toList ↔ s.isTerminal = true ∧ t.contains s = true := by
  simp only [toList, List.mem_map, mem_positions]
  constructor
  · rintro ⟨i, hi, rfl⟩
    exact ⟨isTerminal_symbolAt i, by rwa [← testBit_eq_contains]⟩
  · rintro ⟨hs, hc⟩
    exact ⟨position s, hc, symbolAt_position hs⟩

theorem isEmpty_eq_false_iff : t.isEmpty = false ↔
    ∃ r : Symbol, r.isTerminal = true ∧ t.contains r = true := by
  constructor
  · exact fun h => exists_contains (Bool.eq_false_iff.1 h)
  · rintro ⟨r, -, hr⟩
    rw [← Bool.not_eq_true, isEmpty_iff]
    rintro rfl
    simp at hr

end GrammarTables.TokenSet
