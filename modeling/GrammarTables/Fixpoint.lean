/-!
# Fixed points

A step is taken until it changes nothing. Where every step that changes something makes a bounded
measure larger, that happens before the given number of steps is used up.
-/

namespace GrammarTables

/-- Takes the step until it changes nothing, or as often as allowed. -/
def settle {α : Type} [DecidableEq α] (step : α → α) : Nat → α → α
  | 0, a => a
  | n + 1, a =>
    let b := step a
    if b = a then a else settle step n b

section

variable {α : Type} [DecidableEq α] {step : α → α}

theorem settle_of_eq {a : α} (h : step a = a) (n : Nat) : settle step n a = a := by
  cases n <;> simp [settle, h]

/-- A step can be taken first: one that changes nothing does not matter. -/
theorem settle_succ (n : Nat) (a : α) : settle step (n + 1) a = settle step n (step a) := by
  rw [settle]
  split
  · rename_i h
    rw [h, settle_of_eq h]
  · rfl

/-- What the step keeps holds of the value that it settles at. -/
theorem settle_keeps {P : α → Prop} (keep : ∀ a, P a → P (step a)) (n : Nat) {a : α} (ha : P a) :
    P (settle step n a) := by
  induction n generalizing a with
  | zero => exact ha
  | succ n ih =>
    rw [settle]
    split
    · exact ha
    · exact ih (keep a ha)

/-- The step settles when each change makes a bounded measure larger. -/
theorem settle_fixed {P : α → Prop} (keep : ∀ a, P a → P (step a)) (measure : α → Nat) {bound : Nat}
    (grow : ∀ a, P a → step a ≠ a → measure a < measure (step a))
    (le : ∀ a, P a → measure a ≤ bound) {n : Nat} {a : α} (ha : P a) (hn : bound < n + measure a) :
    step (settle step n a) = settle step n a := by
  induction n generalizing a with
  | zero =>
    have := le a ha
    omega
  | succ n ih =>
    rw [settle]
    split
    · assumption
    · rename_i hne
      have := grow a ha hne
      exact ih (keep a ha) (by omega)

end

/-- Where no step of a fold loses anything, a fold that ends where it began has no step that changes
anything. -/
theorem foldl_fixed {α β : Type} {le : α → α → Prop} (refl : ∀ a, le a a)
    (trans : ∀ {a b c}, le a b → le b c → le a c) (antisymm : ∀ {a b}, le a b → le b a → a = b)
    {f : α → β → α} (grow : ∀ a b, le a (f a b)) {bs : List β} {a : α} (h : bs.foldl f a = a) :
    ∀ b ∈ bs, f a b = a := by
  have later : ∀ (bs : List β) (a : α), le a (bs.foldl f a) := by
    intro bs
    induction bs with
    | nil => exact refl
    | cons b bs ih => exact fun a => trans (grow a b) (ih _)
  induction bs with
  | nil => exact nofun
  | cons b bs ih =>
    have hb : f a b = a := by
      refine antisymm ?_ (grow a b)
      have hlater := later bs (f a b)
      rwa [show bs.foldl f (f a b) = a from h] at hlater
    rw [List.foldl_cons, hb] at h
    exact List.forall_mem_cons.2 ⟨hb, ih h⟩

end GrammarTables
