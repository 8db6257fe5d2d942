import GrammarTables.Proofs.EnclosedPatterns
import GrammarTables.Proofs.Matching
import GrammarTables.Regex.Meaning

/-!
# Bounds of repetitions

Bounds out of order are refused where they are read, and what a pattern means has no bounds but
those it was written with and those of repetitions that are joined.
-/

namespace GrammarTables

namespace Regex

variable {l r : Regex} {least : Nat} {most : Option Nat}

@[simp] theorem bounded_empty : Bounded .empty := by simp [Bounded, parts]

@[simp] theorem bounded_chars {s : CharSet} : Bounded (.chars s) := by simp [Bounded, parts]

@[simp] theorem bounded_look {l : Look} : Bounded (.look l) := by simp [Bounded, parts]

@[simp] theorem bounded_group : Bounded (.group r) ↔ r.Bounded := by simp [Bounded, parts]

@[simp] theorem bounded_concat : Bounded (.concat l r) ↔ l.Bounded ∧ r.Bounded := by
  simp [Bounded, parts, or_imp, forall_and]

@[simp] theorem bounded_alternate : Bounded (.alternate l r) ↔ l.Bounded ∧ r.Bounded := by
  simp [Bounded, parts, or_imp, forall_and]

@[simp] theorem bounded_repeated :
    Bounded (.repeated r least most) ↔ (∀ m ∈ most, least ≤ m) ∧ r.Bounded := by
  constructor
  · exact fun h => ⟨h r least most (self_mem_parts _), h.of_mem (by simp [parts])⟩
  · rintro ⟨hmost, hr⟩ body least' most' hbody
    rcases List.mem_cons.1 hbody with heq | hbody
    · cases heq
      exact hmost
    · exact hr body least' most' hbody

theorem bounded_repetition (h : r.Bounded) (hmost : ∀ m ∈ most, least ≤ m) :
    (repetition r least most).Bounded := by
  unfold repetition
  split
  · simp
  · split
    · exact h
    · split
      · rename_i inner l m
        obtain ⟨hm, hinner⟩ := bounded_repeated.1 h
        split
        · rename_i hsimple
          simp only [isSimpleBound, Bool.and_eq_true, decide_eq_true_eq] at hsimple
          refine bounded_repeated.2 ⟨?_, hinner⟩
          split
          · intro n hn
            have hl : l * least ≤ 1 * least := Nat.mul_le_mul_right least hsimple.1.1
            have hn := hmost n hn
            omega
          · simp
        · exact bounded_repeated.2 ⟨hmost, h⟩
      · exact bounded_repeated.2 ⟨hmost, h⟩

theorem bounded_joinParts {rs : List Regex} (h : ∀ r ∈ rs, r.Bounded) :
    (joinParts rs).Bounded := by
  induction rs with
  | nil => simp [joinParts]
  | cons r rs ih =>
    obtain ⟨hr, hrs⟩ := List.forall_mem_cons.1 h
    cases rs with
    | nil => exact hr
    | cons r' rs => exact bounded_concat.2 ⟨hr, ih hrs⟩

theorem bounded_joinBranches {rs : List Regex} (h : ∀ r ∈ rs, r.Bounded) :
    (joinBranches rs).Bounded := by
  induction rs with
  | nil => simp [joinBranches]
  | cons r rs ih =>
    obtain ⟨hr, hrs⟩ := List.forall_mem_cons.1 h
    cases rs with
    | nil => exact hr
    | cons r' rs => exact bounded_alternate.2 ⟨hr, ih hrs⟩

theorem bounded_choice {rs : List Regex} (h : ∀ r ∈ rs, r.Bounded) : (choice rs).Bounded := by
  unfold choice
  split
  · split
    · simp
    · exact bounded_joinBranches h
  · exact bounded_joinBranches h

end Regex

namespace Pattern

mutual

/-- The bounds of every repetition in the pattern are in order. -/
def Bounded : Pattern → Prop
  | .repeated body least most => body.Bounded ∧ ∀ m ∈ most, least ≤ m
  | .group _ _ body => body.Bounded
  | .alternation branches => AllBounded branches
  | .concat parts => AllBounded parts
  | _ => True

def AllBounded : List Pattern → Prop
  | [] => True
  | p :: rest => p.Bounded ∧ AllBounded rest

end

theorem allBounded_iff {ps : List Pattern} : AllBounded ps ↔ ∀ p ∈ ps, p.Bounded := by
  induction ps with
  | nil => simp [AllBounded]
  | cons p ps ih => simp [AllBounded, ih]

mutual

/-- What a bounded pattern means is bounded. -/
theorem bounded_meaning {f f' : Flags} {r : Regex} : ∀ {p : Pattern}, p.Bounded →
    p.meaning f = some (r, f') → r.Bounded
  | .empty, _, h | .flags _, _, h => by
    cases h
    exact Regex.bounded_empty
  | .literal _, _, h | .dot, _, h | .short _ _, _, h => by
    obtain ⟨s, -, h⟩ := Option.bind_eq_some_iff.1 h
    cases h
    exact Regex.bounded_chars
  | .bracket _ _, _, h => by
    obtain ⟨s, -, h⟩ := Option.bind_eq_some_iff.1 h
    obtain ⟨t, -, h⟩ := Option.bind_eq_some_iff.1 h
    cases h
    exact Regex.bounded_chars
  | .anchor _, _, h => by
    cases h
    exact Regex.bounded_look
  | .repeated body least most, hp, h => by
    obtain ⟨⟨r', f''⟩, hbody, h⟩ := Option.bind_eq_some_iff.1 h
    cases h
    exact Regex.bounded_repetition (bounded_meaning hp.1 hbody) hp.2
  | .group capturing changes body, hp, h => by
    obtain ⟨⟨r', f''⟩, hbody, h⟩ := Option.bind_eq_some_iff.1 h
    cases h
    have hr := bounded_meaning (p := body) hp hbody
    cases capturing
    · exact hr
    · exact Regex.bounded_group.2 hr
  | .alternation branches, hp, h => by
    obtain ⟨⟨rs, f''⟩, hrs, h⟩ := Option.bind_eq_some_iff.1 h
    cases h
    exact Regex.bounded_choice (bounded_meanings hp hrs)
  | .concat parts, hp, h => by
    obtain ⟨⟨rs, f''⟩, hrs, h⟩ := Option.bind_eq_some_iff.1 h
    cases h
    exact Regex.bounded_joinParts fun r hr => bounded_meanings hp hrs r (List.mem_of_mem_filter hr)

theorem bounded_meanings {f f' : Flags} {rs : List Regex} : ∀ {ps : List Pattern}, AllBounded ps →
    meanings f ps = some (rs, f') → ∀ r ∈ rs, r.Bounded
  | [], _, h => by
    cases h
    simp
  | p :: ps, hp, h => by
    obtain ⟨⟨r, f₁⟩, hr, h⟩ := Option.bind_eq_some_iff.1 h
    obtain ⟨⟨rs, f₂⟩, hrs, h⟩ := Option.bind_eq_some_iff.1 h
    cases h
    exact List.forall_mem_cons.2 ⟨bounded_meaning hp.1 hr, bounded_meanings hp.2 hrs⟩

end

namespace Reader

variable {verbose : Bool} {cs rest : List Char} {p : Pattern} {parts done parts' : List Pattern}
  {least : Nat} {most : Option Nat}

theorem bounded_concatenation (h : ∀ q ∈ parts, q.Bounded) : (concatenation parts).Bounded := by
  unfold concatenation
  have hreverse : ∀ q ∈ parts.reverse, q.Bounded := fun q hq => h q (List.mem_reverse.1 hq)
  split
  · exact trivial
  · rename_i q hq
    exact hreverse q (by simp [hq])
  · exact allBounded_iff.2 hreverse

theorem bounded_branches (hparts : ∀ q ∈ parts, q.Bounded) (hdone : ∀ q ∈ done, q.Bounded) :
    (branches parts done).Bounded := by
  unfold branches
  split
  · exact bounded_concatenation hparts
  · refine allBounded_iff.2 fun q hq => ?_
    rcases List.mem_cons.1 (List.mem_reverse.1 hq) with rfl | hq
    · exact bounded_concatenation hparts
    · exact hdone q hq

theorem bounded_repeatLast (h : repeatLast least most parts = some parts')
    (hparts : ∀ q ∈ parts, q.Bounded) (hmost : ∀ m ∈ most, least ≤ m) :
    ∀ q ∈ parts', q.Bounded := by
  unfold repeatLast at h
  split at h
  · cases h
  · cases h
  · cases h
    obtain ⟨hlast, hparts⟩ := List.forall_mem_cons.1 hparts
    exact List.forall_mem_cons.2 ⟨⟨hlast, hmost⟩, hparts⟩

theorem le_of_bounds (h : bounds verbose cs = some ((least, most), rest)) :
    ∀ m ∈ most, least ≤ m := by
  obtain ⟨n, -, h⟩ := Option.bind_eq_some_iff.1 h
  split at h
  · cases h
    simp
  · split at h
    · cases h
      simp
    · split at h
      · obtain ⟨hle, h⟩ := Option.ite_none_right_eq_some.1 h
        cases h
        simpa using hle
      · cases h
  · cases h

theorem bounded_escape (h : escape verbose cs = some (p, rest)) : p.Bounded := by
  have hhex : ∀ {width t},
      ((hexEscape verbose width t).bind fun y => some (literal y.1, y.2)) = some (p, rest) →
        p.Bounded := by
    intro width t h
    obtain ⟨⟨l, after⟩, -, h⟩ := Option.bind_eq_some_iff.1 h
    cases h
    exact trivial
  unfold escape at h
  split at h
  · cases h
  · simp only at h
    split at h
    all_goals first
      | exact hhex h
      | (cases h; exact trivial)
      | skip
    · obtain ⟨⟨edge, after⟩, -, h⟩ := Option.bind_eq_some_iff.1 h
      cases h
      exact trivial
    · obtain ⟨-, h⟩ := Option.ite_none_right_eq_some.1 h
      cases h
      exact trivial

theorem bounded_primitive (h : primitive verbose cs = some (p, rest)) : p.Bounded := by
  unfold primitive at h
  split at h
  · cases h
  · exact bounded_escape h
  all_goals
    cases h
    exact trivial

theorem bounded_bracket (h : bracket verbose cs = some (p, rest)) : p.Bounded := by
  obtain ⟨y, -, h⟩ := Option.bind_eq_some_iff.1 h
  cases h
  exact trivial

/-- Bounds out of order are refused. -/
theorem bounded_body {fuel : Nat} {s s' : State}
    (h : body fuel s parts done cs = some (p, s', rest)) (hparts : ∀ q ∈ parts, q.Bounded)
    (hdone : ∀ q ∈ done, q.Bounded) : p.Bounded := by
  induction fuel generalizing s s' parts done cs p rest with
  | zero => cases h
  | succ fuel ih =>
    have hrepeated : ∀ {least most t}, ((do
        body fuel s (← repeatLast least most parts) done (skipLazy t)) :
          Option (Pattern × State × List Char)) = some (p, s', rest) →
        (∀ m ∈ most, least ≤ m) → p.Bounded := by
      intro least most t h hmost
      obtain ⟨parts', hparts', h⟩ := Option.bind_eq_some_iff.1 h
      exact ih h (bounded_repeatLast hparts' hparts hmost) hdone
    unfold body at h
    simp only at h
    split at h
    · cases h
      exact bounded_branches hparts hdone
    · cases h
      exact bounded_branches hparts hdone
    · exact ih h (by simp) (List.forall_mem_cons.2 ⟨bounded_concatenation hparts, hdone⟩)
    · obtain ⟨⟨o, after⟩, -, h⟩ := Option.bind_eq_some_iff.1 h
      cases o with
      | flags changes => exact ih h (List.forall_mem_cons.2 ⟨trivial, hparts⟩) hdone
      | group capturing changes name =>
        obtain ⟨named, -, h⟩ := Option.bind_eq_some_iff.1 h
        obtain ⟨⟨inner, inside, after⟩, hinner, h⟩ := Option.bind_eq_some_iff.1 h
        have hgroup : inner.Bounded := ih hinner (by simp) (by simp)
        split at h
        · rename_i heq
          cases heq
          exact ih h (List.forall_mem_cons.2 ⟨hgroup, hparts⟩) hdone
        · cases h
    · obtain ⟨⟨q, after⟩, hread, h⟩ := Option.bind_eq_some_iff.1 h
      exact ih h (List.forall_mem_cons.2 ⟨bounded_bracket hread, hparts⟩) hdone
    · exact hrepeated h (by simp)
    · exact hrepeated h (by simp)
    · exact hrepeated h (by simp)
    · obtain ⟨⟨⟨least, most⟩, after⟩, hread, h⟩ := Option.bind_eq_some_iff.1 h
      exact hrepeated h (le_of_bounds hread)
    · obtain ⟨⟨q, after⟩, hread, h⟩ := Option.bind_eq_some_iff.1 h
      exact ih h (List.forall_mem_cons.2 ⟨bounded_primitive hread, hparts⟩) hdone

end Reader

theorem bounded_parse? {text : String} {p : Pattern} (h : parse? text = some p) :
    p.Bounded := by
  obtain ⟨s, hbody⟩ := exists_body_of_parse? h
  exact Reader.bounded_body hbody (by simp) (by simp)

end Pattern

/-- The bounds of every repetition in an expression that is read are in order. -/
theorem Regex.bounded_parse? {text : String} {r : Regex} (h : parse? text = some r) :
    r.Bounded := by
  obtain ⟨p, hp, h⟩ := Option.bind_eq_some_iff.1 h
  obtain ⟨⟨r', f⟩, hr, h⟩ := Option.bind_eq_some_iff.1 h
  cases h
  exact Pattern.bounded_meaning (Pattern.bounded_parse? hp) hr

end GrammarTables
