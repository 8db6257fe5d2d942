import GrammarTables.ParseTable.Contest
import GrammarTables.Proofs.Comparison
import GrammarTables.Proofs.Listing

/-!
# The order of reductions

The order in which complete items give their reductions is lexicographic, so it is total and
transitive, and it tells all items apart. Shapes of productions are compared only between items with
the same dot and productions of the same length.
-/

namespace GrammarTables

open Std

namespace Associativity

def rank : Associativity → Nat
  | .left => 0
  | .right => 1

theorem compare_eq : (compare : Associativity → Associativity → Ordering) = compareOn rank := by
  funext a b
  cases a <;> cases b <;> rfl

instance : TransOrd Associativity := by
  rw [TransOrd, compare_eq]
  infer_instance

end Associativity

namespace Step

/-- A step of an item's production. -/
structure Placed where
  step : Step
  /-- The step stands before the dot, so only its field counts. -/
  passed : Bool

namespace Placed

/-- What counts of a step only behind the dot. -/
def ahead {α : Type} (f : Step → α) (s : Placed) : Option α :=
  if s.passed then none else some (f s.step)

instance : Ord Placed where
  compare := compareLex (compareOn (ahead symbol)) <| compareLex (compareOn (ahead precedence)) <|
    compareLex (compareOn (ahead associativity)) (compareOn (·.step.field))

instance : TransOrd Placed :=
  inferInstanceAs (TransCmp (compareLex (compareOn (ahead symbol)) <|
    compareLex (compareOn (ahead precedence)) <|
      compareLex (compareOn (ahead associativity)) (compareOn (·.step.field))))

theorem compare_passed (s t : Step) :
    Ord.compare (⟨s, true⟩ : Placed) ⟨t, true⟩ = s.compareFields t := rfl

theorem compare_ahead (s t : Step) :
    Ord.compare (⟨s, false⟩ : Placed) ⟨t, false⟩ = s.compare t := rfl

end Placed

/-- The steps of a production with the dot behind the given number of them. -/
def placed : Nat → List Step → List Placed
  | _, [] => []
  | 0, s :: ss => ⟨s, false⟩ :: placed 0 ss
  | n + 1, s :: ss => ⟨s, true⟩ :: placed n ss

theorem compareAll_eq (n : Nat) {ss ts : List Step} (h : ss.length = ts.length) :
    compareAll n ss ts = Ord.compare (placed n ss) (placed n ts) := by
  induction ss generalizing n ts with
  | nil =>
    obtain rfl : ts = [] := List.eq_nil_of_length_eq_zero h.symm
    cases n <;> rfl
  | cons s ss ih =>
    cases ts with
    | nil => cases h
    | cons t ts =>
      have hlen : ss.length = ts.length := Nat.succ.inj h
      cases n with
      | zero => rw [compareAll, ih 0 hlen, placed, placed, List.compare_cons_cons,
          Placed.compare_ahead]
      | succ n => rw [compareAll, ih n hlen, placed, placed, List.compare_cons_cons,
          Placed.compare_passed]

end Step

namespace Item

variable {g : FlatGrammar} {a b : Item}

theorem reductionOrder_eq_lex (g : FlatGrammar) : reductionOrder g =
    compareLex (compareOn dot) (compareLex (compareOn head) <|
      compareLex (compareOn fun i => (i.productionIn g).dynamic) <|
        compareLex (compareOn fun i => (i.productionIn g).steps.length) <|
          compareLex (compareOn (precedence g)) <| compareLex (compareOn (associativity g)) <|
            compareLex (compareOn fun i => Step.placed i.dot (i.productionIn g).steps)
              (compareOn production)) := by
  funext a b
  have hshape : compare a.dot b.dot = .eq →
      compare (a.productionIn g).steps.length (b.productionIn g).steps.length = .eq →
      Step.compareAll a.dot (a.productionIn g).steps (b.productionIn g).steps =
        compare (Step.placed a.dot (a.productionIn g).steps)
          (Step.placed b.dot (b.productionIn g).steps) := by
    intro hdot hlen
    rw [← LawfulEqCmp.eq_of_compare hdot]
    exact Step.compareAll_eq a.dot (LawfulEqCmp.eq_of_compare hlen)
  simp only [reductionOrder, compareLex, compareOn]
  generalize compare a.dot b.dot = dots at *
  generalize compare (a.productionIn g).steps.length (b.productionIn g).steps.length = lengths at *
  cases dots with
  | lt | gt => rfl
  | eq =>
    cases lengths with
    | lt | gt => rfl
    | eq => rw [hshape rfl rfl]

instance (g : FlatGrammar) : TransCmp (reductionOrder g) := by
  rw [reductionOrder_eq_lex]
  infer_instance

/-- Different items give their reductions one after the other. -/
instance (g : FlatGrammar) : LawfulEqCmp (reductionOrder g) where
  eq_of_compare {a b} h := by
    rw [reductionOrder_eq_lex] at h
    simp only [compareLex, compareOn, Ordering.then_eq_eq] at h
    obtain ⟨hdot, hhead, -, -, -, -, -, hproduction⟩ := h
    have hdot : a.dot = b.dot := LawfulEqCmp.eq_of_compare hdot
    have hhead : a.head = b.head := LawfulEqCmp.eq_of_compare hhead
    have hproduction : a.production = b.production := LawfulEqCmp.eq_of_compare hproduction
    cases a
    cases b
    grind

/-- The item of the start comes after those of variables whose dots are not further on. -/
theorem reductionOrder_of_isStart (ha : a.isStart = true) (hb : b.isStart = false)
    (hdot : b.dot ≤ a.dot) : reductionOrder g a b = .gt := by
  obtain ⟨_ | _, _, _⟩ := a <;> obtain ⟨_ | _, _, _⟩ := b <;> cases ha <;> cases hb
  simp only [reductionOrder] at hdot ⊢
  rcases Nat.lt_or_eq_of_le hdot with hlt | rfl
  · rw [Nat.compare_eq_gt.2 hlt]
    rfl
  · rw [compare_self]
    rfl

end Item

namespace ItemSet

variable {g : FlatGrammar} {closure : ItemSet}

/-- Complete items are listed in the order of their reductions. -/
theorem pairwise_completed (g : FlatGrammar) (closure : ItemSet) :
    (closure.completed g).Pairwise fun x y => (Item.reductionOrder g x.1 y.1).isLE = true :=
  pairwise_mergeSort_isLE (Item.reductionOrder g) Prod.fst _

end ItemSet

end GrammarTables
