import GrammarTables.Regex.Engine
import GrammarTables.Regex.Match
import Mathlib.Data.List.Basic

/-!
# Texts of regular expressions

The texts that an expression matches from their first character to their last, given the characters
on both sides, which only looks ask about. They say what an engine promises when it escapes a text,
searches for a pattern or tells a least length.
-/

namespace GrammarTables

namespace Regex

/-- An expression matches a text between two characters. At an end of the whole text there is
none. -/
inductive Matches : Regex → Option Char → Option Char → List Char → Prop
  | empty {b a : Option Char} : Matches .empty b a []
  | chars {b a : Option Char} {s : CharSet} {c : Char} : s.contains c = true →
      Matches (.chars s) b a [c]
  | look {b a : Option Char} {l : Look} : l.holds b a = true → Matches (.look l) b a []
  | group {b a : Option Char} {r : Regex} {w : List Char} : Matches r b a w →
      Matches (.group r) b a w
  | concat {b a : Option Char} {l r : Regex} {u v : List Char} : Matches l b (v.head?.or a) u →
      Matches r (u.getLast?.or b) a v → Matches (.concat l r) b a (u ++ v)
  | left {b a : Option Char} {l r : Regex} {w : List Char} : Matches l b a w →
      Matches (.alternate l r) b a w
  | right {b a : Option Char} {l r : Regex} {w : List Char} : Matches r b a w →
      Matches (.alternate l r) b a w
  | done {b a : Option Char} {r : Regex} {most : Option Nat} : Matches (.repeated r 0 most) b a []
  | more {b a : Option Char} {r : Regex} {least : Nat} {most : Option Nat} {u v : List Char} :
      most ≠ some 0 → Matches r b (v.head?.or a) u →
      Matches (.repeated r (least - 1) (most.map (· - 1))) (u.getLast?.or b) a v →
      Matches (.repeated r least most) b a (u ++ v)

variable {b a : Option Char} {l r : Regex} {s : CharSet} {w : List Char}

/-- An expression and those that it is built from. -/
def parts : Regex → List Regex
  | .group r => .group r :: r.parts
  | .concat l r => .concat l r :: (l.parts ++ r.parts)
  | .alternate l r => .alternate l r :: (l.parts ++ r.parts)
  | .repeated r least most => .repeated r least most :: r.parts
  | r => [r]

@[simp] theorem self_mem_parts (r : Regex) : r ∈ r.parts := by
  cases r <;> simp [parts]

theorem mem_parts_trans {part : Regex} (hl : l ∈ r.parts) (hpart : part ∈ l.parts) :
    part ∈ r.parts := by
  induction r with
  | empty | look | chars =>
    obtain rfl := List.mem_singleton.1 hl
    exact hpart
  | group _ ih | repeated _ _ _ ih =>
    rcases List.mem_cons.1 hl with rfl | hl
    · exact hpart
    · exact .tail _ (ih hl)
  | concat _ _ ihl ihr | alternate _ _ ihl ihr =>
    rcases List.mem_cons.1 hl with rfl | hl
    · exact hpart
    · exact .tail _ (List.mem_append.2 ((List.mem_append.1 hl).imp ihl ihr))

/-- An expression that asks about no character around its text. -/
def lookFree : Regex → Bool
  | .look _ => false
  | .group r => r.lookFree
  | .concat l r => l.lookFree && r.lookFree
  | .alternate l r => l.lookFree && r.lookFree
  | .repeated r _ _ => r.lookFree
  | _ => true

theorem Matches.context (h : r.Matches b a w) (hr : r.lookFree = true) (b' a' : Option Char) :
    r.Matches b' a' w := by
  induction h generalizing b' a' with
  | empty => exact .empty
  | chars hc => exact .chars hc
  | look => cases hr
  | group _ ih => exact .group (ih hr b' a')
  | concat _ _ ihl ihr =>
    obtain ⟨hl, hr⟩ := Bool.and_eq_true_iff.1 hr
    exact .concat (ihl hl _ _) (ihr hr _ _)
  | left _ ih => exact .left (ih (Bool.and_eq_true_iff.1 hr).1 b' a')
  | right _ ih => exact .right (ih (Bool.and_eq_true_iff.1 hr).2 b' a')
  | done => exact .done
  | more hm _ _ ihu ihv => exact .more hm (ihu hr _ _) (ihv hr _ _)

theorem matches_empty : Matches .empty b a w ↔ w = [] := by
  constructor
  · rintro ⟨⟩
    rfl
  · rintro rfl
    exact .empty

theorem matches_look {k : Look} : Matches (.look k) b a w ↔ w = [] ∧ k.holds b a = true := by
  constructor
  · rintro ⟨⟩
    exact ⟨rfl, ‹_›⟩
  · rintro ⟨rfl, h⟩
    exact .look h

theorem matches_chars : Matches (.chars s) b a w ↔ ∃ c, w = [c] ∧ s.contains c = true := by
  constructor
  · rintro ⟨⟩
    exact ⟨_, rfl, ‹_›⟩
  · rintro ⟨c, rfl, h⟩
    exact .chars h

theorem matches_group : Matches (.group r) b a w ↔ Matches r b a w :=
  ⟨fun | .group h => h, .group⟩

theorem matches_alternate : Matches (.alternate l r) b a w ↔ Matches l b a w ∨ Matches r b a w := by
  constructor
  · rintro (_ | _)
    · exact .inl ‹_›
    · exact .inr ‹_›
  · rintro (h | h)
    · exact .left h
    · exact .right h

theorem matches_concat : Matches (.concat l r) b a w ↔ ∃ u v, w = u ++ v ∧
    Matches l b (v.head?.or a) u ∧ Matches r (u.getLast?.or b) a v := by
  constructor
  · rintro ⟨⟩
    exact ⟨_, _, rfl, ‹_›, ‹_›⟩
  · rintro ⟨u, v, rfl, hu, hv⟩
    exact .concat hu hv

/-- A character of a set at the front of a text. -/
theorem matches_chars_concat : Matches (.concat (.chars s) r) b a w ↔
    ∃ c v, w = c :: v ∧ s.contains c = true ∧ Matches r (some c) a v := by
  rw [matches_concat]
  constructor
  · rintro ⟨u, v, rfl, hu, hv⟩
    obtain ⟨c, rfl, hc⟩ := matches_chars.1 hu
    exact ⟨c, v, rfl, hc, hv⟩
  · rintro ⟨c, v, rfl, hc, hv⟩
    exact ⟨[c], v, rfl, .chars hc, hv⟩

/-- A repeated set takes any text of its characters whose length is within the bounds. -/
theorem matches_repeated_chars {least : Nat} {most : Option Nat} :
    Matches (.repeated (.chars s) least most) b a w ↔
      least ≤ w.length ∧ (∀ m ∈ most, w.length ≤ m) ∧ ∀ c ∈ w, s.contains c = true := by
  constructor
  · intro h
    generalize hr : Regex.repeated (.chars s) least most = r at h
    induction h generalizing least most with
    | done =>
      cases hr
      simp
    | @more b a r least most u v hmost hu hv _ ih =>
      cases hr
      obtain ⟨c, rfl, hc⟩ := matches_chars.1 hu
      obtain ⟨hleast, hle, hall⟩ := ih rfl
      refine ⟨by simp; omega, fun m hm => ?_, by simpa using ⟨hc, hall⟩⟩
      have hne : m ≠ 0 := fun h => hmost (h ▸ hm)
      have := hle (m - 1) (by simp [Option.mem_def.1 hm])
      simp only [List.singleton_append, List.length_cons]
      omega
    | _ => cases hr
  · intro h
    induction w generalizing least most b with
    | nil =>
      obtain rfl : least = 0 := by simpa using h.1
      exact .done
    | cons c w ih =>
      obtain ⟨hleast, hmost, hall⟩ := h
      refine .more (u := [c]) (fun h => ?_) (.chars (hall c (by simp)))
        (ih ⟨?_, fun m hm => ?_, ?_⟩)
      · have := hmost 0 h
        simp at this
      · simp only [List.length_cons] at hleast
        omega
      · obtain ⟨m', hm', rfl⟩ := Option.map_eq_some_iff.1 hm
        have := hmost m' hm'
        simp only [List.length_cons] at this
        omega
      · exact fun d hd => hall d (by simp [hd])

/-- What holds of the empty text and of a match before a text that it holds of, holds of any number
of matches. -/
theorem Matches.many_induction {P : List Char → Prop} (h : Matches (.repeated r 0 none) b a w)
    (nil : P []) (cons : ∀ b a u v, r.Matches b a u → P v → P (u ++ v)) : P w := by
  generalize hr : Regex.repeated r 0 none = r' at h
  induction h with
  | done => exact nil
  | more _ hu _ _ ih =>
    cases hr
    exact cons _ _ _ _ hu (ih rfl)
  | _ => cases hr

/-- Any number of characters of a set. -/
theorem matches_many_chars :
    Matches (.repeated (.chars s) 0 none) b a w ↔ ∀ c ∈ w, s.contains c = true := by
  simp [matches_repeated_chars]

/-- One or more characters of a set. -/
theorem matches_many1_chars :
    Matches (.repeated (.chars s) 1 none) b a w ↔ w ≠ [] ∧ ∀ c ∈ w, s.contains c = true := by
  simp [matches_repeated_chars, Nat.one_le_iff_ne_zero]

/-- The least length of every part with another one behind it is zero if the part matches the empty
text. -/
def SeesEmpty [RegexEngine] (r : Regex) : Prop :=
  ∀ front back, .concat front back ∈ r.parts → ∀ b a, front.Matches b a [] →
    RegexEngine.minLength front = some 0

end Regex

/-- Texts are searched for what patterns mean, and a pattern between anchors means itself for whole
texts. -/
class RegexEngine.LawfulMatch [RegexEngine] : Prop where
  /-- A match is a stretch of the text that the expression of the pattern matches. -/
  isMatch?_iff : ∀ {pattern text : String} {found : Bool}, isMatch? pattern text = some found →
    ∃ r, parse? pattern = some r ∧ (found = true ↔ ∃ front w back,
      text.toList = front ++ w ++ back ∧ r.Matches front.getLast? back.head? w)
  /-- Anchors ask that there is no character before or behind the group between them. -/
  matches_anchored : ∀ {pattern : String} {r r' : Regex}, parse? pattern = some r →
    parse? ("^(?:" ++ pattern ++ ")$") = some r' → ∀ {b a : Option Char} {w : List Char},
      r'.Matches b a w ↔ b = none ∧ a = none ∧ r.Matches none none w

/-- An escaped text may be used as a pattern. -/
class RegexEngine.LawfulEscape [RegexEngine] : Prop where
  exists_parse? : ∀ text : String, ∃ r, parse? (escape text) = some r

end GrammarTables
