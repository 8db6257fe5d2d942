import GrammarTables.Proofs.RegexTexts
import Mathlib.Data.List.Sort

/-!
# First characters

The characters that an expression is said to start with are those that its texts do start with, or
more. Where two expressions share no such character, no text of the one starts as a text of the
other does. The one thing to ask of an engine is that its least length notices every part that
matches the empty text.
-/

namespace GrammarTables

namespace CharSet

open Text (inRanges inRanges_eq_true_iff)

variable {s t : CharSet} {ranges : List (Nat × Nat)} {n : Nat}

/-- Ranges in the order of their starts. -/
abbrev StartsFirst (r r' : Nat × Nat) : Prop := r.1 ≤ r'.1

theorem insertRange_eq (range : Nat × Nat) (ranges : List (Nat × Nat)) :
    insertRange range ranges = ranges.orderedInsert StartsFirst range := by
  induction ranges with
  | nil => rfl
  | cons r ranges ih => simp only [insertRange, List.orderedInsert, ih]

theorem foldr_insertRange (ranges : List (Nat × Nat)) :
    ranges.foldr insertRange [] = ranges.insertionSort StartsFirst := by
  rw [List.insertionSort]
  congr 1
  funext range ranges
  exact insertRange_eq range ranges

theorem inRanges_cons {r : Nat × Nat} : inRanges (r :: ranges) n = true ↔
    (r.1 ≤ n ∧ n ≤ r.2) ∨ inRanges ranges n = true := by
  simp [inRanges]

/-- Ranges that are joined hold what they held apart. That the next one starts within the first, or
right after it, is what leaves nothing in between. -/
theorem inRanges_coalesce {lo hi : Nat} (h : ((lo, hi) :: ranges).Pairwise StartsFirst) :
    inRanges (coalesce lo hi ranges) n = inRanges ((lo, hi) :: ranges) n := by
  induction ranges generalizing lo hi with
  | nil => rfl
  | cons r ranges ih =>
    obtain ⟨l, u⟩ := r
    obtain ⟨hfirst, hsorted⟩ := List.pairwise_cons.1 h
    have hstart : lo ≤ l := hfirst (l, u) (by simp)
    rw [coalesce]
    split
    · rename_i hjoin
      have hjoined : ((lo, max hi u) :: ranges).Pairwise StartsFirst :=
        List.pairwise_cons.2 ⟨fun r hr => hfirst r (.tail _ hr), (List.pairwise_cons.1 hsorted).2⟩
      have hcodes : (lo ≤ n ∧ n ≤ max hi u) ↔ (lo ≤ n ∧ n ≤ hi) ∨ (l ≤ n ∧ n ≤ u) := by omega
      rw [ih hjoined, Bool.eq_iff_iff, inRanges_cons, inRanges_cons, inRanges_cons, hcodes,
        or_assoc]
    · rw [Bool.eq_iff_iff, inRanges_cons, inRanges_cons, ih hsorted]

theorem inRanges_ofRanges : inRanges (ofRanges ranges).ranges n = inRanges ranges n := by
  have hmem : inRanges (ranges.insertionSort StartsFirst) n = inRanges ranges n := by
    rw [Bool.eq_iff_iff, inRanges_eq_true_iff, inRanges_eq_true_iff]
    simp only [List.mem_insertionSort]
  have hsorted := List.pairwise_insertionSort StartsFirst ranges
  rw [ofRanges, foldr_insertRange, ← hmem]
  cases hr : ranges.insertionSort StartsFirst with
  | nil => rfl
  | cons r rest =>
    rw [hr] at hsorted
    exact inRanges_coalesce hsorted

@[simp] theorem contains_union (c : Char) :
    (s.union t).contains c = (s.contains c || t.contains c) := by
  rw [contains, union, inRanges_ofRanges, inRanges, List.any_append]
  rfl

/-- Sets that overlap are those with a number in common. -/
theorem overlaps_eq_true_iff :
    s.overlaps t = true ↔ ∃ n, inRanges s.ranges n = true ∧ inRanges t.ranges n = true := by
  simp only [overlaps, List.any_eq_true, decide_eq_true_eq, inRanges_eq_true_iff]
  constructor
  · rintro ⟨r, hr, r', hr', h⟩
    exact ⟨max r.1 r'.1, ⟨r, hr, by omega⟩, ⟨r', hr', by omega⟩⟩
  · rintro ⟨n, ⟨r, hr, hn⟩, ⟨r', hr', hn'⟩⟩
    exact ⟨r, hr, r', hr', by omega⟩

theorem overlaps_of_contains {c : Char} (hs : s.contains c = true) (ht : t.contains c = true) :
    s.overlaps t = true :=
  overlaps_eq_true_iff.2 ⟨ordinal c, hs, ht⟩

end CharSet

namespace Regex

variable {b a : Option Char} {l r : Regex} {c : Char} {w : List Char} {least : Nat}
  {most : Option Nat}

/-- A text of a repeated expression that is not empty starts as one of the expression's own. -/
theorem Matches.of_repeated (h : Matches (.repeated r least most) b a (c :: w)) :
    ∃ b' a' w', r.Matches b' a' (c :: w') := by
  generalize hr : Regex.repeated r least most = r' at h
  generalize hw : c :: w = w' at h
  induction h generalizing least most with
  | @more b a _ _ _ u v _ hu _ _ ih =>
    cases hr
    cases u with
    | nil => exact ih rfl hw
    | cons d u =>
      obtain ⟨rfl, -⟩ := List.cons.inj hw
      exact ⟨_, _, _, hu⟩
  | done => cases hw
  | _ => cases hr

theorem SeesEmpty.isNullable [RegexEngine] (h : (concat l r).SeesEmpty) (hl : l.Matches b a []) :
    l.isNullable = true := by
  simp [Regex.isNullable, h l r (self_mem_parts _) b a hl]

theorem SeesEmpty.of_mem [RegexEngine] (h : r.SeesEmpty) (hl : l ∈ r.parts) : l.SeesEmpty :=
  fun front back hmem => h front back (mem_parts_trans hl hmem)

/-- A text starts with one of the first characters. What stands in front of the part that takes the
first character matches the empty text, so it is not the last part that counts. -/
theorem Matches.first_contains [RegexEngine] (h : r.Matches b a (c :: w)) (hr : r.SeesEmpty) :
    r.first.contains c = true := by
  induction r generalizing b a w with
  | empty => cases h
  | look => cases h
  | chars s =>
    obtain ⟨d, hd, hs⟩ := matches_chars.1 h
    obtain ⟨rfl, -⟩ := List.cons.inj hd
    exact hs
  | group r ih => exact ih (matches_group.1 h) (hr.of_mem (by simp [parts]))
  | concat l r ihl ihr =>
    have hl : l.SeesEmpty := hr.of_mem (by simp [parts])
    have hr' : r.SeesEmpty := hr.of_mem (by simp [parts])
    obtain ⟨u, v, hw, hu, hv⟩ := matches_concat.1 h
    cases u with
    | nil =>
      obtain rfl : c :: w = v := hw
      simp [first, hr.isNullable hu, ihr hv hr']
    | cons d u =>
      obtain ⟨rfl, -⟩ := List.cons.inj hw
      have hfirst := ihl hu hl
      rw [first]
      split
      · simp [hfirst]
      · exact hfirst
  | alternate l r ihl ihr =>
    rw [first, CharSet.contains_union, Bool.or_eq_true]
    refine (matches_alternate.1 h).imp (fun h => ihl h ?_) (fun h => ihr h ?_)
    · exact hr.of_mem (by simp [parts])
    · exact hr.of_mem (by simp [parts])
  | repeated r least most ih =>
    obtain ⟨b', a', w', h'⟩ := h.of_repeated
    exact ih h' (hr.of_mem (by simp [parts]))

end Regex

end GrammarTables
