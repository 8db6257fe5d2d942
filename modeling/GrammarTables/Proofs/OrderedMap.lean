import GrammarTables.Proofs.Comparison
import Mathlib.Data.List.Nodup
import Mathlib.Data.List.Sort

/-!
# Ascending sets and maps

Ascending lists are sets: those of the same members are equal. Lists of pairs with ascending keys
are maps: those of the same values are equal. What an operation does is said through members and
values.
-/

namespace GrammarTables.Ordered

open Std

variable {α β : Type} [Ord α]

@[simp] theorem union_nil (s : List α) : union s [] = s := rfl

/-- Updating a key puts it among the keys. -/
theorem keys_update (key : α) (change : Option β → β) (l : List (α × β)) :
    (update key change l).map (·.1) = insert key (l.map (·.1)) := by
  induction l with
  | nil => rfl
  | cons x l ih =>
    obtain ⟨k, v⟩ := x
    simp only [update, List.map_cons, insert]
    split <;> simp [ih]

variable [LawfulEqOrd α] {l m : List (α × β)} {k key : α} {v : β} {s t : List α}

theorem mem_union {x : α} : x ∈ union s t ↔ x ∈ s ∨ x ∈ t := by
  induction t generalizing s with
  | nil => simp
  | cons a t ih =>
    rw [show union s (a :: t) = union (insert a s) t from rfl, ih, mem_insert, List.mem_cons,
      or_assoc]
    exact or_left_comm

theorem union_subset_union {s' t' : List α} (hs : s ⊆ s') (ht : t ⊆ t') :
    union s t ⊆ union s' t' := by
  intro x hx
  exact mem_union.2 ((mem_union.1 hx).imp (@hs x) (@ht x))

@[simp] theorem get?_cons_self : get? k ((k, v) :: l) = some v := by simp [get?]

theorem get?_cons_of_ne (h : k ≠ key) : get? k ((key, v) :: l) = get? k l :=
  if_neg fun heq => h (LawfulEqCmp.eq_of_compare heq)

theorem get?_eq_none : get? k l = none ↔ k ∉ l.map (·.1) := by
  induction l with
  | nil => simp [get?]
  | cons x l ih =>
    obtain ⟨key, v⟩ := x
    by_cases h : k = key
    · subst h
      simp
    · simpa [get?_cons_of_ne h, h] using ih

theorem mem_of_get? (h : get? k l = some v) : (k, v) ∈ l := by
  induction l with
  | nil => cases h
  | cons x l ih =>
    obtain ⟨key, w⟩ := x
    by_cases hk : k = key
    · subst hk
      rw [get?_cons_self] at h
      cases h
      exact List.mem_cons_self
    · rw [get?_cons_of_ne hk] at h
      exact List.mem_cons_of_mem _ (ih h)

/-- The value of a key in the map that a function gives. -/
theorem get?_map_keys (f : α → β) (h : k ∈ s) : get? k (s.map fun n => (n, f n)) = some (f k) := by
  cases hk : get? k (s.map fun n => (n, f n)) with
  | none => exact absurd h (by simpa [get?_eq_none] using hk)
  | some v =>
    obtain ⟨n, -, heq⟩ := List.mem_map.1 (mem_of_get? hk)
    cases heq
    rfl

/-- Updating a key leaves the values of the others. -/
theorem get?_update_of_ne (h : k ≠ key) (change : Option β → β) :
    get? k (update key change l) = get? k l := by
  induction l with
  | nil => exact get?_cons_of_ne h
  | cons x l ih =>
    obtain ⟨other, v⟩ := x
    rw [update]
    split
    · exact get?_cons_of_ne h
    · rename_i heq
      have hne : k ≠ other := LawfulEqCmp.eq_of_compare heq ▸ h
      rw [get?_cons_of_ne hne, get?_cons_of_ne hne]
    · simp only [get?, ih]

theorem Ascending.nodup (h : Ascending s) : s.Nodup := by
  refine h.imp fun {a b} hlt heq => ?_
  subst heq
  simp at hlt

theorem get?_of_mem (h : Ascending (l.map (·.1))) (hv : (k, v) ∈ l) : get? k l = some v := by
  induction l with
  | nil => cases hv
  | cons x l ih =>
    obtain ⟨key, w⟩ := x
    obtain ⟨hkey, hl⟩ := List.pairwise_cons.1 h
    rcases List.mem_cons.1 hv with heq | hmem
    · cases heq
      exact get?_cons_self
    · have hne : k ≠ key := by
        rintro rfl
        simpa using hkey k (List.mem_map_of_mem hmem)
      rw [get?_cons_of_ne hne, ih hl hmem]

variable [TransOrd α]

theorem ascending_union (h : Ascending s) (t : List α) : Ascending (union s t) := by
  induction t generalizing s with
  | nil => exact h
  | cons a t ih => exact ih (ascending_insert h)

/-- Ascending lists of the same members are the same. -/
theorem Ascending.ext (hs : Ascending s) (ht : Ascending t) (h : ∀ x, x ∈ s ↔ x ∈ t) : s = t :=
  List.Perm.eq_of_pairwise
    (fun a b _ _ (hab : compare a b = .lt) hba => absurd hba (OrientedCmp.not_lt_of_lt hab)) hs ht
    ((List.perm_ext_iff_of_nodup hs.nodup ht.nodup).2 h)

/-- An ascending list that is as long as one with all its members is that list. -/
theorem Ascending.eq_of_subset (hs : Ascending s) (ht : Ascending t) (h : s ⊆ t)
    (hlen : t.length ≤ s.length) : s = t := by
  have hperm := (List.subperm_of_subset hs.nodup h).perm_of_length_le hlen
  exact hs.ext ht fun x => hperm.mem_iff

theorem get?_update_self (h : Ascending (l.map (·.1))) (change : Option β → β) :
    get? key (update key change l) = some (change (get? key l)) := by
  induction l with
  | nil => exact get?_cons_self
  | cons x l ih =>
    obtain ⟨other, v⟩ := x
    obtain ⟨hother, hl⟩ := List.pairwise_cons.1 h
    rw [update]
    split
    · rename_i hlt
      -- The key comes before all that are there, so it has no value yet.
      have hnone : get? key ((other, v) :: l) = none := by
        rw [get?_eq_none]
        intro hmem
        rcases List.mem_cons.1 hmem with rfl | hmem
        · simp at hlt
        · exact absurd (hother key hmem) (OrientedCmp.not_lt_of_lt hlt)
      rw [hnone, get?_cons_self]
    · rename_i heq
      obtain rfl := LawfulEqCmp.eq_of_compare heq
      rw [get?_cons_self, get?_cons_self]
    · rename_i hgt
      have hne : key ≠ other := by
        rintro rfl
        simp at hgt
      rw [get?_cons_of_ne hne, get?_cons_of_ne hne, ih hl]

/-- Maps with the same values are the same. -/
theorem ext_get? (hl : Ascending (l.map (·.1))) (hm : Ascending (m.map (·.1)))
    (h : ∀ k, get? k l = get? k m) : l = m := by
  have hmem : ∀ x, x ∈ l ↔ x ∈ m := by
    rintro ⟨k, v⟩
    constructor
    · intro hx
      exact mem_of_get? (h k ▸ get?_of_mem hl hx)
    · intro hx
      exact mem_of_get? (h k ▸ get?_of_mem hm hx)
  refine List.Perm.eq_of_pairwise
    (fun a b _ _ (hab : compare a.1 b.1 = .lt) hba => absurd hba (OrientedCmp.not_lt_of_lt hab))
    (List.pairwise_map.1 hl) (List.pairwise_map.1 hm) ?_
  exact (List.perm_ext_iff_of_nodup (hl.nodup.of_map _) (hm.nodup.of_map _)).2 hmem

end GrammarTables.Ordered
