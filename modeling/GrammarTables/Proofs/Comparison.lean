import GrammarTables.Item.Basic
import GrammarTables.Ordered

/-!
# The orders of symbols and items

The orders of symbols and of items are total, transitive, and tell different ones apart. So an
ascending list of either holds what was put into it, each once.
-/

namespace GrammarTables

open Std

namespace Symbol

/-- The place of a symbol's sort in the order. -/
def rank : Symbol → Nat
  | .eof => 0
  | .terminal _ => 1
  | .nonterminal _ => 2

def index : Symbol → Nat
  | .eof => 0
  | .terminal i | .nonterminal i => i

theorem compare_eq_lex :
    (compare : Symbol → Symbol → Ordering) = compareLex (compareOn rank) (compareOn index) := by
  funext a b
  change instOrdSymbol.ord a b = _
  cases a <;> cases b <;>
    simp [instOrdSymbol.ord, compareLex, compareOn, rank, index, Nat.compare_eq_ite_lt]

instance : TransOrd Symbol := by
  rw [TransOrd, compare_eq_lex]
  infer_instance

theorem eq_of_rank_index {a b : Symbol} (hr : a.rank = b.rank) (hi : a.index = b.index) :
    a = b := by
  cases a <;> cases b <;> grind [rank, index]

instance : LawfulEqOrd Symbol where
  eq_of_compare {a b} h := by
    rw [compare_eq_lex, compareLex, Ordering.then_eq_eq] at h
    exact eq_of_rank_index (LawfulEqCmp.eq_of_compare h.1) (LawfulEqCmp.eq_of_compare h.2)

end Symbol

namespace Head

def rank : Head → Nat
  | .nonterminal _ => 0
  | .start => 1

def index : Head → Nat
  | .nonterminal i => i
  | .start => 0

theorem compare_eq_lex :
    (compare : Head → Head → Ordering) = compareLex (compareOn rank) (compareOn index) := by
  funext a b
  change instOrdHead.ord a b = _
  cases a <;> cases b <;>
    simp [instOrdHead.ord, compareLex, compareOn, rank, index, Nat.compare_eq_ite_lt]

instance : TransOrd Head := by
  rw [TransOrd, compare_eq_lex]
  infer_instance

instance : LawfulEqOrd Head where
  eq_of_compare {a b} h := by
    rw [compare_eq_lex, compareLex, Ordering.then_eq_eq] at h
    have hr : a.rank = b.rank := LawfulEqCmp.eq_of_compare h.1
    have hi : a.index = b.index := LawfulEqCmp.eq_of_compare h.2
    cases a <;> cases b <;> grind [rank, index]

end Head

namespace Item

theorem compare_eq_lex :
    (compare : Item → Item → Ordering) =
      compareLex (compareOn Item.head)
        (compareLex (compareOn Item.production) (compareOn Item.dot)) := by
  funext a b
  change instOrdItem.ord a b = _
  cases a
  cases b
  simp [instOrdItem.ord, compareLex, compareOn]

instance : TransOrd Item := by
  rw [TransOrd, compare_eq_lex]
  infer_instance

instance : LawfulEqOrd Item where
  eq_of_compare {a b} h := by
    rw [compare_eq_lex, compareLex, Ordering.then_eq_eq, compareLex, Ordering.then_eq_eq] at h
    obtain ⟨hh, hp, hd⟩ := h
    have hh : a.head = b.head := LawfulEqCmp.eq_of_compare hh
    have hp : a.production = b.production := LawfulEqCmp.eq_of_compare hp
    have hd : a.dot = b.dot := LawfulEqCmp.eq_of_compare hd
    cases a
    cases b
    grind

end Item

namespace Ordered

variable {α : Type} [Ord α] [LawfulEqOrd α]

theorem mem_insert {a x : α} {l : List α} : x ∈ insert a l ↔ x = a ∨ x ∈ l := by
  induction l with
  | nil => simp [insert]
  | cons b l ih =>
    rw [insert]
    split
    · simp
    · rename_i h
      obtain rfl := LawfulEqCmp.eq_of_compare h
      simp
    · simp only [List.mem_cons, ih]
      exact or_left_comm

theorem mem_ofList {x : α} {l : List α} : x ∈ ofList l ↔ x ∈ l := by
  have key : ∀ (l s : List α), x ∈ l.foldl (fun s a => insert a s) s ↔ x ∈ s ∨ x ∈ l := by
    intro l
    induction l with
    | nil => simp
    | cons a l ih =>
      intro s
      rw [List.foldl_cons, ih, mem_insert, List.mem_cons, or_assoc]
      exact or_left_comm
  simp [ofList, key]

/-- Each member comes before those after it. -/
def Ascending (l : List α) : Prop := l.Pairwise fun a b => compare a b = .lt

variable [TransOrd α]

theorem ascending_insert {a : α} {l : List α} (h : Ascending l) : Ascending (insert a l) := by
  induction l with
  | nil => exact List.pairwise_singleton _ a
  | cons b l ih =>
    obtain ⟨hb, hl⟩ := List.pairwise_cons.1 h
    rw [insert]
    split
    · rename_i hab
      refine List.pairwise_cons.2 ⟨fun x hx => ?_, h⟩
      rcases List.mem_cons.1 hx with rfl | hx
      · exact hab
      · exact TransCmp.lt_trans hab (hb x hx)
    · exact h
    · rename_i hab
      refine List.pairwise_cons.2 ⟨fun x hx => ?_, ih hl⟩
      rcases mem_insert.1 hx with rfl | hx
      · exact OrientedCmp.lt_of_gt hab
      · exact hb x hx

theorem ascending_ofList (l : List α) : Ascending (ofList l) := by
  have key : ∀ (l s : List α), Ascending s → Ascending (l.foldl (fun s a => insert a s) s) := by
    intro l
    induction l with
    | nil => exact fun _ h => h
    | cons a l ih => exact fun s h => ih _ (ascending_insert h)
  exact key l [] List.Pairwise.nil

end Ordered

end GrammarTables
