import GrammarTables.Proofs.EnclosedPatterns
import GrammarTables.Proofs.FirstCharacters
import GrammarTables.Proofs.RepetitionBounds
import GrammarTables.Regex.Default

/-!
# Promises of the default engine

The default engine finds a match exactly where the expression of a pattern has one, and reads a
pattern between anchors as it reads the pattern alone. Its least lengths notice a part that matches
the empty text where every set of characters holds one. They do not where an empty set is an
alternative to the empty text: then there is no least length.
-/

namespace GrammarTables

namespace Regex

variable {b a : Option Char} {l r : Regex} {rs : List Regex} {c : Char} {w : List Char}
  {least : Nat} {most : Option Nat}

theorem matches_joinParts_cons : (joinParts (r :: rs)).Matches b a w ↔ ∃ u v, w = u ++ v ∧
    r.Matches b (v.head?.or a) u ∧ (joinParts rs).Matches (u.getLast?.or b) a v := by
  cases rs with
  | nil =>
    simp only [joinParts, matches_empty]
    constructor
    · exact fun h => ⟨w, [], by simp, by simpa using h, rfl⟩
    · rintro ⟨u, v, rfl, hu, rfl⟩
      simpa using hu
  | cons r' rs => exact matches_concat

/-- Leaving out parts that match nothing but the empty text changes nothing. -/
theorem matches_sequence : (sequence rs).Matches b a w ↔ (joinParts rs).Matches b a w := by
  induction rs generalizing b w with
  | nil => rfl
  | cons r rs ih =>
    rw [matches_joinParts_cons, sequence]
    cases hr : r.isEmpty with
    | true =>
      obtain rfl : r = .empty := by
        cases r <;> first | rfl | cases hr
      rw [List.filter_cons_of_neg (by simp [hr])]
      simp only [matches_empty]
      constructor
      · exact fun h => ⟨[], w, rfl, rfl, ih.1 h⟩
      · rintro ⟨u, v, rfl, rfl, hv⟩
        exact ih.2 hv
    | false =>
      rw [List.filter_cons_of_pos (by simp [hr]), matches_joinParts_cons]
      simp only [← ih]
      rfl

/-- Between two anchors, an expression matches whole texts only. -/
theorem matches_anchored : (sequence [.look .textStart, r, .look .textEnd]).Matches b a w ↔
    b = none ∧ a = none ∧ r.Matches none none w := by
  simp only [matches_sequence, matches_joinParts_cons, matches_look, Look.holds,
    Option.isNone_iff_eq_none]
  constructor
  · rintro ⟨_, _, rfl, ⟨rfl, rfl⟩, u, _, rfl, hu, _, v, rfl, ⟨rfl, ha⟩, hv⟩
    obtain rfl := matches_empty.1 hv
    obtain rfl : a = none := by simpa using ha
    exact ⟨rfl, rfl, by simpa using hu⟩
  · rintro ⟨rfl, rfl, hw⟩
    exact ⟨[], w, rfl, ⟨rfl, rfl⟩, w, [], by simp, by simpa using hw, [], [], rfl, ⟨rfl, rfl⟩,
      .empty⟩

/-- A pattern between anchors means what it means alone, between two looks. -/
theorem parse?_anchored {source : String} {r r' : Regex} (hr : parse? source = some r)
    (hr' : parse? ("^(?:" ++ source ++ ")$") = some r') :
    r' = sequence [.look .textStart, r, .look .textEnd] := by
  obtain ⟨q, hq, hr⟩ := Option.bind_eq_some_iff.1 hr
  obtain ⟨q', hq', hr'⟩ := Option.bind_eq_some_iff.1 hr'
  obtain ⟨⟨r, f⟩, hmeaning, hr⟩ := Option.bind_eq_some_iff.1 hr
  cases hr
  obtain rfl := Pattern.parse?_whole hq hq'
  have hflags : Pattern.Flags.change {} [] = {} := rfl
  have hwhole :
      q.whole.meaning {} = some (sequence [.look .textStart, r, .look .textEnd], {}) := by
    simp only [Pattern.whole, Pattern.meaning, Pattern.meanings, Option.bind_eq_bind,
      Option.bind_some, hflags, hmeaning]
    rfl
  rw [hwhole] at hr'
  cases hr'
  rfl

instance lawfulMatch : RegexEngine.LawfulMatch where
  isMatch?_iff {pattern text found} h := by
    obtain ⟨r, hr, rfl⟩ := Option.map_eq_some_iff.1 h
    refine ⟨r, hr, (isMatch_iff (bounded_parse? hr)).trans ?_⟩
    constructor
    · rintro ⟨i, j, front, w, back, htext, -, -, hw⟩
      exact ⟨front, w, back, htext, hw⟩
    · rintro ⟨front, w, back, htext, hw⟩
      exact ⟨_, _, front, w, back, htext, rfl, rfl, hw⟩
  matches_anchored hr hr' := by
    obtain rfl := parse?_anchored hr hr'
    exact matches_anchored

/-- Each set of characters in the expression holds one. -/
def Proper (r : Regex) : Prop := ∀ s, .chars s ∈ r.parts → s.isEmpty = false

theorem Proper.of_mem (h : r.Proper) (hl : l ∈ r.parts) : l.Proper :=
  fun s hs => h s (mem_parts_trans hl hs)

/-- The texts of a repeated expression are as long as those of the expression together. -/
theorem Matches.mul_le_length (h : Matches (.repeated r least most) b a w) {n : Nat}
    (hr : ∀ b a u, r.Matches b a u → n ≤ u.length) : n * least ≤ w.length := by
  generalize hr' : Regex.repeated r least most = r' at h
  induction h generalizing least most with
  | @more _ _ _ least _ u v _ hu _ _ ih =>
    cases hr'
    have hmore : n * least ≤ n * (least - 1) + n := by
      rw [← Nat.mul_succ]
      exact Nat.mul_le_mul_left n (by omega)
    have hu := hr _ _ _ hu
    have hv := ih rfl
    rw [List.length_append]
    omega
  | done =>
    cases hr'
    simp
  | _ => cases hr'

/-- Without an empty set, an expression has a least length and no text of it is shorter. -/
theorem Proper.minLength (hr : r.Proper) :
    ∃ n, r.minLength = some n ∧ ∀ b a w, r.Matches b a w → n ≤ w.length := by
  induction r with
  | empty => exact ⟨0, rfl, fun _ _ _ _ => Nat.zero_le _⟩
  | look => exact ⟨0, rfl, fun _ _ _ _ => Nat.zero_le _⟩
  | chars s =>
    refine ⟨1, by simp [Regex.minLength, hr s (by simp [parts])], fun _ _ w hw => ?_⟩
    obtain ⟨c, rfl, -⟩ := matches_chars.1 hw
    exact Nat.le_refl 1
  | group r ih =>
    obtain ⟨n, hn, hle⟩ := ih (hr.of_mem (by simp [parts]))
    exact ⟨n, hn, fun _ _ _ hw => hle _ _ _ (matches_group.1 hw)⟩
  | concat l r ihl ihr =>
    obtain ⟨m, hm, hlel⟩ := ihl (hr.of_mem (by simp [parts]))
    obtain ⟨n, hn, hler⟩ := ihr (hr.of_mem (by simp [parts]))
    refine ⟨m + n, by simp [Regex.minLength, hm, hn], fun _ _ w hw => ?_⟩
    obtain ⟨u, v, rfl, hu, hv⟩ := matches_concat.1 hw
    rw [List.length_append]
    exact Nat.add_le_add (hlel _ _ _ hu) (hler _ _ _ hv)
  | alternate l r ihl ihr =>
    obtain ⟨m, hm, hlel⟩ := ihl (hr.of_mem (by simp [parts]))
    obtain ⟨n, hn, hler⟩ := ihr (hr.of_mem (by simp [parts]))
    refine ⟨min m n, by simp [Regex.minLength, hm, hn], fun _ _ w hw => ?_⟩
    rcases matches_alternate.1 hw with h | h
    · exact (Nat.min_le_left m n).trans (hlel _ _ _ h)
    · exact (Nat.min_le_right m n).trans (hler _ _ _ h)
  | repeated r least most ih =>
    obtain ⟨n, hn, hle⟩ := ih (hr.of_mem (by simp [parts]))
    exact ⟨n * _, by simp [Regex.minLength, hn], fun _ _ _ hw => hw.mul_le_length hle⟩

/-- The least length of a proper expression notices every part that matches the empty text. -/
theorem Proper.seesEmpty (hr : r.Proper) : r.SeesEmpty := by
  intro front back hmem b a hempty
  have hfront : front ∈ r.parts := mem_parts_trans hmem (by simp [parts])
  obtain ⟨n, hn, hle⟩ := (hr.of_mem hfront).minLength
  obtain rfl : n = 0 := Nat.le_zero.1 (hle b a [] hempty)
  exact hn

end Regex

end GrammarTables
