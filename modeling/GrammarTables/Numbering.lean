import Std.Data.HashMap

/-!
# Numberings

Values numbered from zero in the order in which they are first met.
-/

namespace GrammarTables

/-- Values numbered as they are met. -/
structure Numbering (α : Type) [BEq α] [Hashable α] where
  members : Array α := #[]
  numbers : Std.HashMap α Nat := ∅

namespace Numbering

variable {α β : Type} [BEq α] [Hashable α]

/-- The number of a value, a new one if the value is new. -/
def number (n : Numbering α) (a : α) : Nat × Numbering α :=
  match n.numbers[a]? with
  | some i => (i, n)
  | none => (n.members.size, ⟨n.members.push a, n.numbers.insert a n.members.size⟩)

/-- The labelled values with their numbers. -/
def numberAll : List (β × α) → Numbering α → List (β × Nat) × Numbering α
  | [], n => ([], n)
  | (b, a) :: rest, n =>
    let (i, n) := n.number a
    let (rest, n) := numberAll rest n
    ((b, i) :: rest, n)

/-- The numbers of a list's values, and the values in the order of their numbers. -/
def ofList (values : List α) : List Nat × List α :=
  let (numbers, n) := values.foldl
    (fun (numbers, n) a =>
      let (i, n) := n.number a
      (numbers.push i, n))
    ((#[] : Array Nat), ({} : Numbering α))
  (numbers.toList, n.members.toList)

end Numbering

end GrammarTables
