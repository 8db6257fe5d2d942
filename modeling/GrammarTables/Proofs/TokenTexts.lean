import GrammarTables.Proofs.DefaultEngine
import GrammarTables.Proofs.Lexicon

/-!
# Texts of tokens

The texts that the pattern of a token matches as a whole, and the characters that they start with,
for any engine that finds a match where the expression of a pattern has one.
-/

namespace GrammarTables

namespace TokenPattern

section

variable [RegexEngine] {token : String} {rule : Rule} {p : TokenPattern}

/-- The texts that the pattern's expression matches from their first character to their last. -/
def Takes (p : TokenPattern) (w : List Char) : Prop :=
  ∃ r, RegexEngine.parse? p.source = some r ∧ r.Matches none none w

/-- The least lengths notice where a part of the pattern matches the empty text. -/
def SeesEmpty (p : TokenPattern) : Prop :=
  ∀ r, RegexEngine.parse? p.source = some r → r.SeesEmpty

theorem exists_parse?_of_ofRule (h : ofRule token rule = .ok p) :
    ∃ r, RegexEngine.parse? p.source = some r ∧ r.first = p.first := by
  rw [ofRule] at h
  obtain ⟨source, -, h⟩ := bind_eq_ok.1 h
  split at h
  · cases h
    exact ⟨_, ‹_›, rfl⟩
  · cases h

/-- Every text of a token starts with one of its first characters. -/
theorem Takes.first_contains {c : Char} {w : List Char} (h : p.Takes (c :: w))
    (hp : ofRule token rule = .ok p) (hempty : p.SeesEmpty) : p.first.contains c = true := by
  obtain ⟨r, hr, hw⟩ := h
  obtain ⟨r', hr', hfirst⟩ := exists_parse?_of_ofRule hp
  cases hr.symm.trans hr'
  exact hfirst ▸ hw.first_contains (hempty r hr)

/-- The texts that the pattern takes are those that it is found to match as a whole. -/
theorem matchesWhole_iff [RegexEngine.LawfulMatch] (hp : ofRule token rule = .ok p) {text : String}
    {found : Bool} (h : p.matchesWhole text = .ok found) :
    found = true ↔ p.Takes text.toList := by
  unfold matchesWhole at h
  split at h
  · rename_i hmatch
    cases h
    obtain ⟨r', hr', hfound⟩ := RegexEngine.LawfulMatch.isMatch?_iff hmatch
    obtain ⟨r, hr, -⟩ := exists_parse?_of_ofRule hp
    rw [hfound]
    constructor
    · rintro ⟨front, w, back, htext, hw⟩
      obtain ⟨hfront, hback, hw⟩ := (RegexEngine.LawfulMatch.matches_anchored hr hr').1 hw
      rw [List.getLast?_eq_none_iff] at hfront
      rw [List.head?_eq_none_iff] at hback
      rw [htext, hfront, hback, List.nil_append, List.append_nil]
      exact ⟨r, hr, hw⟩
    · rintro ⟨r'', hr'', hw⟩
      cases hr.symm.trans hr''
      exact ⟨[], text.toList, [], by simp,
        (RegexEngine.LawfulMatch.matches_anchored hr hr').2 ⟨rfl, rfl, hw⟩⟩
  · cases h

/-- Every text of a token starts with one of its first characters, so tokens that do not overlap
have no texts that start alike. The texts of a token are those that its pattern matches as a
whole. -/
theorem first_covers [RegexEngine.LawfulMatch] (hp : ofRule token rule = .ok p)
    (hempty : p.SeesEmpty) :
    (∀ text found, p.matchesWhole text = .ok found → (found = true ↔ p.Takes text.toList)) ∧
      (∀ c w, p.Takes (c :: w) → p.first.contains c = true) ∧
        ∀ token' rule' q, ofRule token' rule' = .ok q → q.SeesEmpty → p.overlaps q = false →
          ∀ c u v, p.Takes (c :: u) → ¬ q.Takes (c :: v) := by
  refine ⟨fun _ _ => matchesWhole_iff hp, fun c w hw => hw.first_contains hp hempty, ?_⟩
  intro token' rule' q hq hempty' hapart c u v hu hv
  have hoverlap : p.overlaps q = true :=
    CharSet.overlaps_of_contains (hu.first_contains hp hempty) (hv.first_contains hq hempty')
  rw [hapart] at hoverlap
  cases hoverlap

end

/-- Digits, a point and more digits, where those in front of the point may be left out. -/
def number : TokenPattern where
  source := "(?:[0-9]*)\\.(?:[0-9]+)"
  first := ⟨[(46, 46), (48, 57)]⟩

def letter : TokenPattern where
  source := "(?:[a-z])"
  first := ⟨[(97, 122)]⟩

theorem ofRule_number : ofRule "number" (.seq [.pattern "[0-9]*" none, .string ".",
    .pattern "[0-9]+" none]) = .ok number := rfl

theorem ofRule_letter : ofRule "letter" (.pattern "[a-z]" none) = .ok letter := rfl

theorem number_seesEmpty : number.SeesEmpty := by
  intro r hr
  have hparse : Regex.parse? number.source = some
      (.concat (.repeated (.chars ⟨[(48, 57)]⟩) 0 none)
        (.concat (.chars ⟨[(46, 46)]⟩) (.repeated (.chars ⟨[(48, 57)]⟩) 1 none))) := rfl
  cases hparse.symm.trans hr
  exact Regex.Proper.seesEmpty (by simp [Regex.Proper, Regex.parts, CharSet.isEmpty])

theorem letter_seesEmpty : letter.SeesEmpty := by
  intro r hr
  have hparse : Regex.parse? letter.source = some (.chars ⟨[(97, 122)]⟩) := rfl
  cases hparse.symm.trans hr
  exact Regex.Proper.seesEmpty (by simp [Regex.Proper, Regex.parts, CharSet.isEmpty])

theorem matchesWhole_number : number.matchesWhole ".5" = .ok true := by
  decide +kernel

/-- A number may start with its point, and starts as no letter does. -/
theorem first_covers_number : number.Takes ".5".toList ∧ number.first.contains '.' = true ∧
    ∀ c u v, number.Takes (c :: u) → ¬ letter.Takes (c :: v) := by
  obtain ⟨hwhole, hfirst, hapart⟩ := first_covers ofRule_number number_seesEmpty
  have htakes : number.Takes ".5".toList := (hwhole ".5" true matchesWhole_number).1 rfl
  exact ⟨htakes, hfirst '.' ['5'] htakes,
    hapart _ _ letter ofRule_letter letter_seesEmpty (by decide)⟩

end TokenPattern

end GrammarTables
