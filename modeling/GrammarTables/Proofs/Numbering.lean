import GrammarTables.Numbering
import Mathlib.Data.List.Forall2
import Mathlib.Data.List.Nodup

/-!
# Numberings number each value once

The members of a numbering are different from each other, and a value's number is its place among
them. Numbering more values keeps the numbers that there are.
-/

namespace GrammarTables.Numbering

variable {α β : Type} [BEq α] [Hashable α] {n m : Numbering α} {a b : α} {i : Nat}

/-- A value's number is its place among the members. -/
def Valid (n : Numbering α) : Prop :=
  ∀ (a : α) (i : Nat), n.numbers[a]? = some i ↔ n.members[i]? = some a

/-- The second numbering has the members of the first, with their numbers, and maybe more. -/
def Extends (n m : Numbering α) : Prop :=
  ∀ (i : Nat) (a : α), n.members[i]? = some a → m.members[i]? = some a

theorem Extends.refl (n : Numbering α) : Extends n n := fun _ _ h => h

theorem Extends.trans {k : Numbering α} (h : Extends n m) (h' : Extends m k) : Extends n k :=
  fun i a hi => h' i a (h i a hi)

/-- A member has one number. -/
theorem Valid.inj (h : Valid n) {j : Nat} (hi : n.members[i]? = some a)
    (hj : n.members[j]? = some a) : i = j := by
  have := (h a i).2 hi
  rw [(h a j).2 hj] at this
  exact (Option.some.inj this).symm

theorem Valid.nodup (h : Valid n) : n.members.toList.Nodup := by
  rw [List.nodup_iff_getElem?_ne_getElem?]
  intro i j hij hj heq
  simp only [Array.getElem?_toList] at heq
  simp only [Array.length_toList] at hj
  have hj' : n.members[j]? = some n.members[j] := Array.getElem?_eq_getElem hj
  exact absurd (h.inj (heq.trans hj') hj') (by omega)

variable [LawfulBEq α]

theorem valid_empty : Valid ({} : Numbering α) := by
  intro a i
  simp

theorem Valid.number (h : Valid n) (a : α) :
    Valid (n.number a).2 ∧ Extends n (n.number a).2 ∧
      (n.number a).2.members[(n.number a).1]? = some a ∧
      ∀ b ∈ (n.number a).2.members, b ∈ n.members ∨ b = a := by
  unfold Numbering.number
  split
  · rename_i i hi
    exact ⟨h, .refl n, (h a i).1 hi, fun b hb => .inl hb⟩
  · rename_i hnone
    refine ⟨fun b i => ?_, fun i b hi => ?_, by simp, fun b hb => by simpa using hb⟩
    · simp only [Std.HashMap.getElem?_insert, beq_iff_eq, Array.getElem?_push]
      by_cases hab : a = b
      · subst hab
        -- The value is new, so it has no number below the new one.
        have hne : n.members[i]? ≠ some a := fun hi => by
          rw [(h a i).2 hi] at hnone
          cases hnone
        by_cases hi : i = n.members.size
        · simp [hi]
        · simp [hi, hne, Ne.symm hi]
      · by_cases hi : i = n.members.size
        · have hout := h b n.members.size
          simp only [Array.getElem?_size] at hout
          simp [hab, hi, hout]
        · simp [hab, hi, h b i]
    · have hlt : i < n.members.size := (Array.getElem?_eq_some_iff.1 hi).1
      simp only [Array.getElem?_push]
      rw [if_neg (by omega)]
      exact hi

/-- Numbering labelled values keeps the labels and gives each value its number. -/
theorem Valid.numberAll (h : Valid n) (xs : List (β × α)) :
    Valid (Numbering.numberAll xs n).2 ∧ Extends n (Numbering.numberAll xs n).2 ∧
      List.Forall₂ (fun x y => x.1 = y.1 ∧ (Numbering.numberAll xs n).2.members[y.2]? = some x.2)
        xs (Numbering.numberAll xs n).1 ∧
      ∀ b ∈ (Numbering.numberAll xs n).2.members, b ∈ n.members ∨ ∃ x ∈ xs, b = x.2 := by
  induction xs generalizing n with
  | nil => exact ⟨h, .refl n, .nil, fun b hb => .inl hb⟩
  | cons x xs ih =>
    obtain ⟨l, a⟩ := x
    obtain ⟨hv, he, hm, hb⟩ := h.number a
    obtain ⟨hv', he', hf, hb'⟩ := ih hv
    refine ⟨hv', he.trans he', .cons ⟨rfl, he' _ _ hm⟩ hf, fun b hb'' => ?_⟩
    rcases hb' b hb'' with hb'' | ⟨x, hx, rfl⟩
    · rcases hb b hb'' with hb'' | rfl
      · exact .inl hb''
      · exact .inr ⟨(l, b), by simp, rfl⟩
    · exact .inr ⟨x, by simp [hx], rfl⟩

omit [LawfulBEq α] in
theorem size_number_le (n : Numbering α) (a : α) :
    (n.number a).2.members.size ≤ n.members.size + 1 := by
  unfold Numbering.number
  split <;> simp

/-- The values of a list are where their numbers say. -/
theorem ofList_members (values : List α) :
    List.Forall₂ (fun i a => (ofList values).2[i]? = some a) (ofList values).1 values ∧
      (ofList values).2.length ≤ values.length := by
  let step := fun (x : Array Nat × Numbering α) (a : α) =>
    (x.1.push (x.2.number a).1, (x.2.number a).2)
  have key : ∀ (xs ys : List α) (x : Array Nat × Numbering α), x.2.Valid →
      List.Forall₂ (fun i a => x.2.members[i]? = some a) x.1.toList ys →
      x.2.members.size ≤ ys.length →
      List.Forall₂ (fun i a => (xs.foldl step x).2.members[i]? = some a)
        (xs.foldl step x).1.toList (ys ++ xs) ∧
        (xs.foldl step x).2.members.size ≤ (ys ++ xs).length := by
    intro xs
    induction xs with
    | nil => intro ys x _ hf hs; simpa using ⟨hf, hs⟩
    | cons a xs ih =>
      intro ys x hv hf hs
      obtain ⟨hv', he, hm, -⟩ := hv.number a
      have hf' : List.Forall₂ (fun i b => (step x a).2.members[i]? = some b) (step x a).1.toList
          (ys ++ [a]) := by
        simp only [step, Array.toList_push]
        exact List.rel_append (hf.imp fun i b hb => he i b hb) (.cons hm .nil)
      have hs' : (step x a).2.members.size ≤ (ys ++ [a]).length := by
        have hle := size_number_le x.2 a
        rw [List.length_append, List.length_singleton]
        exact Nat.le_trans hle (Nat.add_le_add_right hs 1)
      simpa using ih (ys ++ [a]) (step x a) hv' hf' hs'
  have h := key values [] (#[], {}) valid_empty .nil (Nat.zero_le _)
  simpa [ofList, step] using h

theorem forall₂_getElem? {γ δ : Type} {R : γ → δ → Prop} {xs : List γ} {ys : List δ}
    (h : List.Forall₂ R xs ys) {i : Nat} {x : γ} {y : δ} (hx : xs[i]? = some x)
    (hy : ys[i]? = some y) : R x y := by
  obtain ⟨hi, rfl⟩ := List.getElem?_eq_some_iff.1 hx
  obtain ⟨hj, rfl⟩ := List.getElem?_eq_some_iff.1 hy
  exact h.get hi hj

/-- Values with the same number are the same. -/
theorem ofList_inj {values : List α} {i j k : Nat} {a b : α} (hi : (ofList values).1[i]? = some k)
    (ha : values[i]? = some a) (hj : (ofList values).1[j]? = some k) (hb : values[j]? = some b) :
    a = b := by
  have h := (ofList_members values).1
  have hia := forall₂_getElem? h hi ha
  have hjb := forall₂_getElem? h hj hb
  exact Option.some.inj (hia.symm.trans hjb)

theorem lt_of_ofList {values : List α} {i k : Nat} (hi : (ofList values).1[i]? = some k) :
    k < values.length := by
  obtain ⟨h, hle⟩ := ofList_members values
  have hlt : i < values.length := h.length_eq ▸ (List.getElem?_eq_some_iff.1 hi).1
  have hk := forall₂_getElem? h hi (List.getElem?_eq_getElem hlt)
  have := (List.getElem?_eq_some_iff.1 hk).1
  omega

end GrammarTables.Numbering
