import GrammarTables.Cursor
import Mathlib.Data.List.TakeWhile

/-!
# Cursors before characters

What a cursor sees and where it goes when only characters are ahead of it.
-/

namespace GrammarTables.Cursor

variable {c : Cursor} {s : List Char} {n : Nat} {p : Char → Bool} {t : Symbol} {b : Bool}

/-- Exactly the given characters are ahead. -/
def Before (c : Cursor) (s : List Char) : Prop := c.rest = s.map some

theorem before_new (text : List Char) (place : Nat) :
    (new (text.map some) place).Before (text.drop place) := List.map_drop.symm

@[simp] theorem accepted_advance : (c.advance n).accepted = c.accepted := rfl
@[simp] theorem start_advance : (c.advance n).start = c.start := rfl
@[simp] theorem accepted_accept : (c.accept t).accepted = some (t, c.position) := rfl
@[simp] theorem start_accept : (c.accept t).start = c.start := rfl
@[simp] theorem position_accept : (c.accept t).position = c.position := rfl

@[simp] theorem accepted_acceptIf :
    (c.acceptIf b t).accepted = if b then some (t, c.position) else c.accepted := by
  cases b <;> rfl

@[simp] theorem start_acceptIf : (c.acceptIf b t).start = c.start := by cases b <;> rfl
@[simp] theorem position_acceptIf : (c.acceptIf b t).position = c.position := by cases b <;> rfl

namespace Before

theorem accept (h : c.Before s) : (c.accept t).Before s := h

theorem acceptIf (h : c.Before s) : (c.acceptIf b t).Before s := by
  cases b <;> exact h

theorem advance (h : c.Before s) (n : Nat) : (c.advance n).Before (s.drop n) := by
  rw [Before, Cursor.advance, h, List.map_drop]

theorem position_advance (h : c.Before s) (hn : n ≤ s.length) :
    (c.advance n).position = c.position + n := by
  rw [Cursor.advance, h, List.length_map, Nat.min_eq_left hn]

theorem next {x : Char} (h : c.Before (x :: s)) : (c.advance 1).Before s := h.advance 1

theorem position_next {x : Char} (h : c.Before (x :: s)) :
    (c.advance 1).position = c.position + 1 := h.position_advance (Nat.le_add_left 1 _)

theorem peek?_eq (h : c.Before s) : c.peek? = s.head? := by
  rw [peek?, h]
  cases s <;> rfl

theorem sees_eq (h : c.Before s) : c.sees p = s.head?.any p := by rw [sees, h.peek?_eq]

theorem count_eq (h : c.Before s) : c.count p = (s.takeWhile p).length := by
  rw [count, h, List.takeWhile_map, List.length_map]
  rfl

theorem advanceWhile (h : c.Before s) : (c.advanceWhile p).Before (s.dropWhile p) := by
  have hdrop : s.drop (s.takeWhile p).length = s.dropWhile p :=
    List.append_cancel_left ((List.prefix_iff_eq_append.1 (List.takeWhile_prefix p)).trans
      List.takeWhile_append_dropWhile.symm)
  rw [Cursor.advanceWhile, h.count_eq, ← hdrop]
  exact h.advance _

theorem position_advanceWhile (h : c.Before s) :
    (c.advanceWhile p).position = c.position + (s.takeWhile p).length := by
  rw [Cursor.advanceWhile, h.count_eq, h.position_advance (List.takeWhile_prefix p).length_le]

theorem skipWhile (h : c.Before s) : (c.skipWhile p).Before (s.dropWhile p) := h.advanceWhile

theorem position_skipWhile (h : c.Before s) :
    (c.skipWhile p).position = c.position + (s.takeWhile p).length := h.position_advanceWhile

end Before

@[simp] theorem accepted_skipWhile : (c.skipWhile p).accepted = c.accepted := rfl
@[simp] theorem accepted_advanceWhile : (c.advanceWhile p).accepted = c.accepted := rfl
@[simp] theorem start_advanceWhile : (c.advanceWhile p).start = c.start := rfl

end GrammarTables.Cursor
