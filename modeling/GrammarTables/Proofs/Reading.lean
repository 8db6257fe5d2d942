import GrammarTables.Language
import Mathlib.Data.List.Basic

/-!
# Reading what stands in an array

Runs of values that are written one after the other start where the lengths of the runs before them
add up to. A reader that is given the place of a run reads it back, whatever stands around it.
-/

namespace GrammarTables

/-- The values stand in an array from a place on. -/
def HoldsAt {α : Type} (table : Array α) (place : Nat) (values : List α) : Prop :=
  ∀ i < values.length, table[place + i]? = values[i]?

namespace HoldsAt

variable {α β : Type} {table : Array α} {place : Nat} {v : α} {vs ws : List α}

theorem head (h : HoldsAt table place (v :: vs)) : table[place]? = some v := by
  simpa using h 0 (by simp)

theorem tail (h : HoldsAt table place (v :: vs)) : HoldsAt table (place + 1) vs := by
  intro i hi
  have := h (i + 1) (by simpa using hi)
  rwa [List.getElem?_cons_succ, show place + (i + 1) = place + 1 + i by omega] at this

theorem left (h : HoldsAt table place (vs ++ ws)) : HoldsAt table place vs := by
  intro i hi
  have := h i (by rw [List.length_append]; omega)
  rwa [List.getElem?_append_left hi] at this

theorem right (h : HoldsAt table place (vs ++ ws)) : HoldsAt table (place + vs.length) ws := by
  intro i hi
  have := h (vs.length + i) (by rw [List.length_append]; omega)
  rwa [List.getElem?_append_right (by omega), Nat.add_sub_cancel_left, ← Nat.add_assoc] at this

/-- What stands between a front and a back. -/
theorem of_append (front vs back : List α) :
    HoldsAt (front ++ vs ++ back).toArray front.length vs := by
  intro i hi
  rw [List.getElem?_toArray, List.append_assoc, List.getElem?_append_right (by omega),
    Nat.add_sub_cancel_left, List.getElem?_append_left hi]

/-- A run among runs stands behind the lengths of those before it. -/
theorem of_flatMap {xs : List β} (f : β → List α) {n : Nat} {x : β} (hx : xs[n]? = some x) :
    HoldsAt (xs.flatMap f).toArray (Encoding.total ((xs.map fun y => (f y).length).take n))
      (f x) := by
  obtain ⟨hn, rfl⟩ := List.getElem?_eq_some_iff.1 hx
  have hsplit : xs.flatMap f = (xs.take n).flatMap f ++ f xs[n] ++ (xs.drop (n + 1)).flatMap f := by
    have hdrop := List.drop_eq_getElem_cons hn
    conv_lhs => rw [← List.take_append_drop n xs, hdrop]
    rw [List.flatMap_append, List.flatMap_cons, List.append_assoc]
  have hlength : ((xs.take n).flatMap f).length =
      Encoding.total ((xs.map fun y => (f y).length).take n) := by
    rw [List.length_flatMap, ← List.map_take]
    rfl
  rw [hsplit, ← hlength]
  exact of_append _ _ _

end HoldsAt

namespace Encoding

/-- The places where runs of the given lengths start. -/
def starts (start : Nat) : List Nat → List Nat
  | [] => []
  | n :: lengths => start :: starts (start + n) lengths

theorem toList_offsets (start : Nat) (lengths : List Nat) :
    (offsets start lengths).toList = starts start lengths := by
  let step := fun (x : Array Nat × Nat) (n : Nat) => (x.1.push x.2, x.2 + n)
  have key : ∀ (lengths : List Nat) (x : Array Nat × Nat),
      (lengths.foldl step x).1.toList = x.1.toList ++ starts x.2 lengths := by
    intro lengths
    induction lengths with
    | nil => intro x; simp [starts]
    | cons n lengths ih => intro x; simp [ih, step, starts]
  have h := key lengths (#[], start)
  rwa [List.nil_append] at h

/-- A run starts behind the lengths of the runs before it. -/
theorem getElem?_offsets (start : Nat) {lengths : List Nat} {n : Nat} (hn : n < lengths.length) :
    (offsets start lengths)[n]? = some (start + total (lengths.take n)) := by
  rw [← Array.getElem?_toList, toList_offsets]
  induction lengths generalizing start n with
  | nil => simp at hn
  | cons m lengths ih =>
    cases n with
    | zero => simp [starts, total]
    | succ n =>
      have h := ih (start + m) (n := n) (by simpa using hn)
      simp only [starts, List.getElem?_cons_succ, h, List.take_succ_cons, total, List.foldr_cons]
      rw [Nat.add_assoc]

@[simp] theorem length_starts (start : Nat) (lengths : List Nat) :
    (starts start lengths).length = lengths.length := by
  induction lengths generalizing start with
  | nil => rfl
  | cons n lengths ih => simp [starts, ih]

end Encoding

namespace Language

variable {table : Array Nat} {place n : Nat}

theorem isListed_of_holdsAt {symbols : List Nat} (h : HoldsAt table place symbols) :
    isListed table n symbols.length place = some (decide (n ∈ symbols)) := by
  induction symbols generalizing place with
  | nil => simp [isListed]
  | cons s symbols ih =>
    simp only [List.length_cons, isListed, h.head, Option.bind_eq_bind, Option.bind_some]
    by_cases hs : s = n
    · simp [hs]
    · simp [hs, ih h.tail, Ne.symm hs]

/-- The numbers of a group. -/
def groupNumbers (g : Encoding.Group) : List Nat := g.value :: g.symbols.length :: g.symbols

/-- The value of the first group that lists a symbol. -/
def listedValue (groups : List Encoding.Group) (n : Nat) : Nat :=
  ((groups.find? fun g => n ∈ g.symbols).map (·.value)).getD 0

theorem findGroup_of_holdsAt {groups : List Encoding.Group}
    (h : HoldsAt table place (groups.flatMap groupNumbers)) :
    findGroup table n groups.length place = some (listedValue groups n) := by
  induction groups generalizing place with
  | nil => rfl
  | cons g groups ih =>
    rw [List.flatMap_cons] at h
    have hvalue := h.left.head
    have hcount := h.left.tail.head
    have hlisted := isListed_of_holdsAt (n := n) h.left.tail.tail
    have hrest := ih h.right
    rw [show place + (groupNumbers g).length = place + 2 + g.symbols.length by
      simp [groupNumbers]; omega] at hrest
    simp only [List.length_cons, findGroup, hvalue, hcount, hlisted, hrest, Option.bind_eq_bind,
      Option.bind_some, listedValue, List.find?_cons]
    by_cases hn : n ∈ g.symbols
    · simp [hn]
    · simp [hn]

theorem readActions_of_holdsAt {cells : Array Cell} {actions : List Action}
    (h : HoldsAt cells place (actions.map .action)) :
    readActions cells actions.length place = some actions := by
  induction actions generalizing place with
  | nil => rfl
  | cons a actions ih =>
    rw [List.map_cons] at h
    simp [readActions, h.head, ih h.tail]

end Language

end GrammarTables
