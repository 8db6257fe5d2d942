import Mathlib.Data.List.Perm.Subperm
import Mathlib.Order.Defs.LinearOrder

/-!
# Lists in order and lists without repetitions

What sorting by a comparison does to a list, and what leaving out the members that equal an earlier
one does.
-/

namespace GrammarTables

open Std

theorem isLE_total {α : Type} (cmp : α → α → Ordering) [OrientedCmp cmp] (a b : α) :
    (cmp a b).isLE = true ∨ (cmp b a).isLE = true := by
  have hswap : cmp b a = (cmp a b).swap := OrientedCmp.eq_swap
  rw [hswap]
  cases cmp a b <;> simp

/-- Sorting by the order of a key. -/
theorem pairwise_mergeSort_isLE {α β : Type} (cmp : β → β → Ordering) [TransCmp cmp] (key : α → β)
    (l : List α) : (l.mergeSort fun a b => (cmp (key a) (key b)).isLE).Pairwise fun a b =>
      (cmp (key a) (key b)).isLE = true := by
  refine List.pairwise_mergeSort (fun _ _ _ => TransCmp.isLE_trans) (fun a b => ?_) l
  rw [Bool.or_eq_true]
  exact isLE_total cmp (key a) (key b)

section

variable {α : Type} {same : α → α → Bool} {a : α} {l : List α}

/-- The list is taken apart into its first member and the later members that do not equal it. -/
theorem eraseDupsBy_induction (same : α → α → Bool) {P : List α → Prop} (nil : P [])
    (cons : ∀ a l, P (l.filter fun b => same b a = false) → P (a :: l)) : ∀ l, P l
  | [] => nil
  | a :: l => cons a l (eraseDupsBy_induction same nil cons _)
termination_by l => l.length
decreasing_by exact Nat.lt_succ_of_le (List.length_filter_le ..)

theorem mem_of_mem_eraseDupsBy (h : a ∈ l.eraseDupsBy same) : a ∈ l := by
  induction l using eraseDupsBy_induction same with
  | nil => exact h
  | cons b l ih =>
    rw [List.eraseDupsBy_cons] at h
    rcases List.mem_cons.1 h with rfl | h
    · exact List.mem_cons_self
    · exact List.mem_cons_of_mem _ (List.mem_filter.1 (ih h)).1

/-- Of members that equal each other one stays. -/
theorem exists_mem_eraseDupsBy (refl : ∀ a, same a a = true) (h : a ∈ l) :
    ∃ b ∈ l.eraseDupsBy same, same a b = true := by
  induction l using eraseDupsBy_induction same with
  | nil => cases h
  | cons b l ih =>
    rw [List.eraseDupsBy_cons]
    by_cases hab : same a b = true
    · exact ⟨b, List.mem_cons_self, hab⟩
    · have hne : a ≠ b := fun he => hab (he ▸ refl a)
      have hmem := (List.mem_cons.1 h).resolve_left hne
      obtain ⟨c, hc, hac⟩ := ih (List.mem_filter.2 ⟨hmem, by simpa using hab⟩)
      exact ⟨c, List.mem_cons_of_mem _ hc, hac⟩

theorem pairwise_eraseDupsBy (l : List α) :
    (l.eraseDupsBy same).Pairwise fun a b => same b a = false := by
  induction l using eraseDupsBy_induction same with
  | nil => exact .nil
  | cons a l ih =>
    rw [List.eraseDupsBy_cons]
    refine .cons (fun b hb => ?_) ih
    simpa using (List.mem_filter.1 (mem_of_mem_eraseDupsBy hb)).2

end

section

variable {α : Type} [BEq α] [LawfulBEq α] {l m : List α}

theorem eraseDups_append_singleton (l : List α) (a : α) :
    (l ++ [a]).eraseDups = if l.eraseDups.contains a then l.eraseDups else l.eraseDups ++ [a] := by
  by_cases h : a ∈ l <;>
    simp [List.eraseDups_append, List.removeAll, h, List.mem_eraseDups, List.eraseDups_cons]

theorem nodup_eraseDups (l : List α) : l.eraseDups.Nodup :=
  (pairwise_eraseDupsBy l).imp fun h => (ne_of_beq_false h).symm

theorem length_eraseDups_le (h : ∀ x ∈ l, x ∈ m) : l.eraseDups.length ≤ m.length :=
  (List.subperm_of_subset (nodup_eraseDups l) fun x hx => h x (List.mem_eraseDups.1 hx)).length_le

theorem eraseDups_of_nodup (h : l.Nodup) : l.eraseDups = l := by
  induction l with
  | nil => rfl
  | cons a l ih =>
    obtain ⟨ha, hl⟩ := List.nodup_cons.1 h
    have hfilter : (l.filter fun b => !b == a) = l := by
      refine List.filter_eq_self.2 fun b hb => ?_
      have hne : b ≠ a := fun he => ha (he ▸ hb)
      simpa using hne
    rw [List.eraseDups_cons, hfilter, ih hl]

end

end GrammarTables
