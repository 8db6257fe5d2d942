import GrammarTables.FlatGrammar
import GrammarTables.Proofs.RegexTexts
import GrammarTables.Regex.Meaning

/-!
# Texts of token rules

The texts that a token rule matches from their first character to their last. Sequences, choices and
repetitions are those of rules; only patterns are left to regular expressions. A grammar for another
reader of patterns may read their texts in its own way first.
-/

namespace GrammarTables

/-- The text of a pattern with `\d` written as `[0-9]`. -/
def asciiDigits : List Char → List Char
  | '\\' :: 'd' :: rest => "[0-9]".toList ++ asciiDigits rest
  | '\\' :: c :: rest => '\\' :: c :: asciiDigits rest
  | c :: rest => c :: asciiDigits rest
  | [] => []

namespace Rule

/-- A wrapper that lets its content be taken more than once, or left out. -/
def Repeats (wrapper : Wrapper) : Prop := wrapper = .repeat0 ∨ wrapper = .repeat1

/-- A rule matches a text between two characters, where patterns are read by the given function. -/
inductive Matches (read : List Char → List Char) :
    Rule → Option Char → Option Char → List Char → Prop
  | blank {b a : Option Char} : Matches read .blank b a []
  | string {b a : Option Char} {value : String} : Matches read (.string value) b a value.toList
  | pattern {b a : Option Char} {value : String} {flags : Option String} {r : Regex}
      {w : List Char} :
      Regex.parse? (TokenPattern.patternSource (.ofList (read value.toList)) flags) = some r →
      r.Matches b a w → Matches read (.pattern value flags) b a w
  | seqNil {b a : Option Char} : Matches read (.seq []) b a []
  | seqCons {b a : Option Char} {r : Rule} {rs : List Rule} {u v : List Char} :
      Matches read r b (v.head?.or a) u → Matches read (.seq rs) (u.getLast?.or b) a v →
      Matches read (.seq (r :: rs)) b a (u ++ v)
  | choice {b a : Option Char} {r : Rule} {rs : List Rule} {w : List Char} : r ∈ rs →
      Matches read r b a w → Matches read (.choice rs) b a w
  | done {b a : Option Char} {r : Rule} : Matches read (.wrap .repeat0 r) b a []
  | more {b a : Option Char} {r : Rule} {u v : List Char} : Matches read r b (v.head?.or a) u →
      Matches read (.wrap .repeat0 r) (u.getLast?.or b) a v →
      Matches read (.wrap .repeat0 r) b a (u ++ v)
  | once {b a : Option Char} {r : Rule} {u v : List Char} : Matches read r b (v.head?.or a) u →
      Matches read (.wrap .repeat0 r) (u.getLast?.or b) a v →
      Matches read (.wrap .repeat1 r) b a (u ++ v)
  | wrap {b a : Option Char} {k : Wrapper} {r : Rule} {w : List Char} : ¬ Repeats k →
      Matches read r b a w → Matches read (.wrap k r) b a w

variable {read : List Char → List Char} {b a : Option Char} {w : List Char}

theorem matches_blank : Matches read .blank b a w ↔ w = [] := by
  constructor
  · rintro ⟨⟩
    rfl
  · rintro rfl
    exact .blank

theorem matches_string {value : String} :
    Matches read (.string value) b a w ↔ w = value.toList := by
  constructor
  · rintro ⟨⟩
    rfl
  · rintro rfl
    exact .string

theorem matches_pattern {value : String} {flags : Option String} {r : Regex}
    (h : Regex.parse? (TokenPattern.patternSource (.ofList (read value.toList)) flags) = some r) :
    Matches read (.pattern value flags) b a w ↔ r.Matches b a w := by
  constructor
  · rintro ⟨⟩
    rename_i h' hw
    rw [h] at h'
    cases h'
    exact hw
  · exact .pattern h

theorem matches_seq_nil : Matches read (.seq []) b a w ↔ w = [] := by
  constructor
  · rintro ⟨⟩
    rfl
  · rintro rfl
    exact .seqNil

theorem matches_seq_cons {r : Rule} {rs : List Rule} : Matches read (.seq (r :: rs)) b a w ↔
    ∃ u v, w = u ++ v ∧ Matches read r b (v.head?.or a) u ∧
      Matches read (.seq rs) (u.getLast?.or b) a v := by
  constructor
  · rintro ⟨⟩
    exact ⟨_, _, rfl, ‹_›, ‹_›⟩
  · rintro ⟨u, v, rfl, hu, hv⟩
    exact .seqCons hu hv

theorem matches_choice {rs : List Rule} :
    Matches read (.choice rs) b a w ↔ ∃ r ∈ rs, Matches read r b a w := by
  constructor
  · rintro ⟨⟩
    exact ⟨_, ‹_›, ‹_›⟩
  · rintro ⟨r, hr, h⟩
    exact .choice hr h

/-- What holds of the empty text and of a match before a text that it holds of, holds of any number
of matches. -/
theorem Matches.many_induction {r : Rule} {P : List Char → Prop}
    (h : Matches read (.wrap .repeat0 r) b a w) (nil : P [])
    (cons : ∀ b a u v, Matches read r b a u → P v → P (u ++ v)) : P w := by
  generalize hr : Rule.wrap .repeat0 r = r' at h
  induction h with
  | done => exact nil
  | more hu _ _ ih =>
    cases hr
    exact cons _ _ _ _ hu (ih rfl)
  | wrap hk =>
    cases hr
    exact absurd (.inl rfl) hk
  | _ => cases hr

/-- A rule of one character, any number of times. -/
theorem matches_many {r : Rule} {P : Char → Prop}
    (hr : ∀ b a w, Matches read r b a w ↔ ∃ c, w = [c] ∧ P c) :
    Matches read (.wrap .repeat0 r) b a w ↔ ∀ c ∈ w, P c := by
  constructor
  · intro h
    refine h.many_induction (P := fun w => ∀ c ∈ w, P c) (by simp) fun b a u v hu hv => ?_
    obtain ⟨c, rfl, hc⟩ := (hr b a u).1 hu
    exact List.forall_mem_cons.2 ⟨hc, hv⟩
  · intro h
    induction w generalizing b with
    | nil => exact .done
    | cons c w ih =>
      obtain ⟨hc, hw⟩ := List.forall_mem_cons.1 h
      exact .more (u := [c]) ((hr _ _ _).2 ⟨c, rfl, hc⟩) (ih hw)

end Rule

/-- The rule of a token matches a text, where patterns are read by the given function. -/
def FlatGrammar.TokenMatches (g : FlatGrammar) (read : List Char → List Char) (t : Symbol)
    (w : List Char) : Prop :=
  ∃ token, g.token? t = some token ∧ token.rule.Matches read none none w

/-- The rules of the tokens that are no keywords. -/
def FlatGrammar.plainRules (g : FlatGrammar) : List (Symbol × Rule) :=
  g.tokens.toList.zipIdx.filterMap fun (token, i) =>
    if g.isKeyword (.terminal i) then none else some (.terminal i, token.rule)

theorem FlatGrammar.mem_plainRules {g : FlatGrammar} {t : Symbol} {rule : Rule} :
    (t, rule) ∈ g.plainRules ↔
      ∃ token, g.token? t = some token ∧ t ∉ g.keywords ∧ token.rule = rule := by
  simp only [plainRules, List.mem_filterMap, Prod.exists, List.mem_zipIdx_iff_getElem?,
    Array.getElem?_toList, isKeyword, List.contains_iff_mem]
  constructor
  · rintro ⟨token, i, hi, h⟩
    split at h
    · cases h
    · cases h
      exact ⟨token, hi, ‹_›, rfl⟩
  · rintro ⟨token, ht, hk, rfl⟩
    cases t with
    | terminal i => exact ⟨token, i, ht, by simp [hk]⟩
    | _ => cases ht

end GrammarTables
