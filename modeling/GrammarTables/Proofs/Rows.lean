import GrammarTables.Proofs.Numbering
import GrammarTables.Proofs.Reading
import GrammarTables.Proofs.Renumbering

/-!
# Rows of numbers

A row gives a number to each symbol that has one, and zero to the others. A large row stands in
full; a small row lists the symbols of each number, and as no symbol has two numbers it does not
matter in which order its groups stand. The actions of an entry stand behind a header, and equal
entries share their place.
-/

namespace GrammarTables

namespace Encoding

variable {values actions gotos : List (Nat × Nat)} {n x : Nat}

/-- The number of a symbol, or zero if it has none. -/
def HasValue (values : List (Nat × Nat)) (n x : Nat) : Prop :=
  (n, x) ∈ values ∨ n ∉ values.map (·.1) ∧ x = 0

theorem getElem?_largeRow {count : Nat} (hnd : (values.map (·.1)).Nodup) (hn : n < count)
    (hx : HasValue values n x) : (largeRow count values)[n]? = some x := by
  have hzero : (Array.replicate count 0)[n]? = some 0 := by simp [hn]
  rw [largeRow, Array.getElem?_toList]
  rcases hx with hmem | ⟨hmem, rfl⟩
  · exact getElem?_assign hnd hmem (by simpa using hn)
  · exact (getElem?_assign_of_not_mem hmem).trans hzero

theorem length_largeRow (count : Nat) (values : List (Nat × Nat)) :
    (largeRow count values).length = count := by
  have key : ∀ (values : List (Nat × Nat)) (row : Array Nat),
      (values.foldl (fun row x => row.setIfInBounds x.1 x.2) row).size = row.size := by
    intro values
    induction values with
    | nil => intro row; rfl
    | cons x values ih => intro row; rw [List.foldl_cons, ih, Array.size_setIfInBounds]
  rw [largeRow, Array.length_toList]
  exact (key values _).trans Array.size_replicate

/-- A group lists the symbols of its number. -/
theorem mem_groupsOf {g : Group} (hg : g ∈ groupsOf values) :
    n ∈ g.symbols ↔ (n, g.value) ∈ values := by
  obtain ⟨v, -, rfl⟩ := List.mem_map.1 hg
  simp

theorem exists_mem_groupsOf (h : (n, x) ∈ values) : ∃ g ∈ groupsOf values, g.value = x := by
  refine ⟨_, List.mem_map.2 ⟨x, ?_, rfl⟩, rfl⟩
  rw [List.mem_eraseDups]
  exact List.mem_map.2 ⟨(n, x), h, rfl⟩

theorem mem_smallGroups {g : Group} :
    g ∈ smallGroups actions gotos ↔ g ∈ groupsOf actions ∨ g ∈ groupsOf gotos := by
  simp [smallGroups, List.mem_mergeSort]

/-- A small row has a symbol in a group exactly with the number of the symbol. -/
theorem exists_mem_smallGroups :
    (∃ g ∈ smallGroups actions gotos, n ∈ g.symbols ∧ g.value = x) ↔ (n, x) ∈ actions ++ gotos := by
  simp only [mem_smallGroups, List.mem_append]
  constructor
  · rintro ⟨g, hg | hg, hn, rfl⟩
    · exact .inl ((mem_groupsOf hg).1 hn)
    · exact .inr ((mem_groupsOf hg).1 hn)
  · rintro (h | h)
    · obtain ⟨g, hg, rfl⟩ := exists_mem_groupsOf h
      exact ⟨g, .inl hg, (mem_groupsOf hg).2 h, rfl⟩
    · obtain ⟨g, hg, rfl⟩ := exists_mem_groupsOf h
      exact ⟨g, .inr hg, (mem_groupsOf hg).2 h, rfl⟩

/-- A symbol has one number. -/
theorem eq_of_mem (hnd : (values.map (·.1)).Nodup) {y : Nat} (hx : (n, x) ∈ values)
    (hy : (n, y) ∈ values) : x = y := by
  have := List.inj_on_of_nodup_map hnd hx hy rfl
  exact congrArg Prod.snd this

theorem listedValue_smallGroups (hnd : ((actions ++ gotos).map (·.1)).Nodup)
    (hx : HasValue (actions ++ gotos) n x) :
    Language.listedValue (smallGroups actions gotos) n = x := by
  rw [Language.listedValue]
  cases hf : (smallGroups actions gotos).find? fun g => n ∈ g.symbols with
  | some g =>
    have hg := exists_mem_smallGroups.1
      ⟨g, List.mem_of_find?_eq_some hf, by simpa using List.find?_some hf, rfl⟩
    rcases hx with hx | ⟨hx, -⟩
    · exact eq_of_mem hnd hg hx
    · exact absurd (List.mem_map.2 ⟨_, hg, rfl⟩) hx
  | none =>
    rcases hx with hx | ⟨-, rfl⟩
    · obtain ⟨g, hg, hn, -⟩ := exists_mem_smallGroups.2 hx
      exact absurd (by simpa using hn) (List.find?_eq_none.1 hf g hg)
    · rfl

theorem length_rowNumbers (groups : List Group) :
    (Language.rowNumbers groups).length = smallLength groups := by
  have hgroup : (groups.map fun g => (g.value :: g.symbols.length :: g.symbols).length) =
      groups.map fun g => 2 + g.symbols.length :=
    List.map_congr_left fun g _ => by simp only [List.length_cons]; omega
  rw [Language.rowNumbers, List.length_cons, List.length_flatMap, hgroup, Nat.add_comm]
  rfl

/-- Entries are numbered by their places among the entries that are first met. -/
theorem forall₂_numberEntries (states : List (List (Nat × ActionEntry))) :
    List.Forall₂ (List.Forall₂ fun x y =>
      x.1 = y.1 ∧ (numberEntries states).2[y.2]? = some x.2) states (numberEntries states).1 := by
  let R := fun (n : Numbering ActionEntry) =>
    List.Forall₂ fun (x : Nat × ActionEntry) (y : Nat × Nat) =>
      x.1 = y.1 ∧ n.members[y.2]? = some x.2
  let step := fun (x : Array (List (Nat × Nat)) × Numbering ActionEntry)
      (entries : List (Nat × ActionEntry)) =>
    (x.1.push (Numbering.numberAll entries x.2).1, (Numbering.numberAll entries x.2).2)
  -- What is numbered so far keeps its numbers as more entries are met.
  have key : ∀ (xs ys : List (List (Nat × ActionEntry)))
      (x : Array (List (Nat × Nat)) × Numbering ActionEntry), x.2.Valid →
      List.Forall₂ (R x.2) ys x.1.toList →
      List.Forall₂ (R (xs.foldl step x).2) (ys ++ xs) (xs.foldl step x).1.toList := by
    intro xs
    induction xs with
    | nil => intro ys x _ hf; simpa using hf
    | cons entries xs ih =>
      intro ys x hv hf
      obtain ⟨hv', he, hnew, -⟩ := hv.numberAll entries
      have hf' : List.Forall₂ (R (step x entries).2) (ys ++ [entries])
          (step x entries).1.toList := by
        simp only [step, Array.toList_push]
        refine List.rel_append (hf.imp fun _ _ h => h.imp fun _ _ h => ?_) (.cons hnew .nil)
        exact ⟨h.1, he _ _ h.2⟩
      simpa using ih (ys ++ [entries]) (step x entries) hv' hf'
  have h := key states [] (#[], {}) Numbering.valid_empty .nil
  simpa [R, step, numberEntries] using h

end Encoding

end GrammarTables
