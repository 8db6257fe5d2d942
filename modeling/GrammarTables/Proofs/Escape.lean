import GrammarTables.Proofs.RegexTexts
import GrammarTables.Regex.Default
import GrammarTables.Token

/-!
# Escaped texts

The default engine reads an escaped text as the pattern of its characters, one by one. With any
engine that accepts escaped texts every literal text is a token.
-/

namespace GrammarTables

namespace Pattern

/-- A character that stands for itself. -/
def plain (c : Char) : Pattern := .literal { char := c }

namespace Reader

/-- A character as it stands in an escaped text. -/
def escaped (c : Char) : List Char := if isMeta c then ['\\', c] else [c]

variable {c : Char}

theorem isMeta_iff : isMeta c = true ↔ c ∈ ['\\', '.', '+', '*', '?', '(', ')', '|', '[', ']',
    '\x7b', '\x7d', '^', '$', '#', '&', '-', '~'] := by
  rw [isMeta, List.contains_iff_mem]
  have hchars : "\\.+*?()|[]\x7b\x7d^$#&-~".toList = ['\\', '.', '+', '*', '?', '(', ')', '|', '[',
      ']', '\x7b', '\x7d', '^', '$', '#', '&', '-', '~'] := by decide +kernel
  rw [hchars]

theorem escape_of_isMeta (h : isMeta c = true) (rest : List Char) :
    escape false (c :: rest) = some (plain c, rest) := by
  have hescapable : isEscapable c = true := by rw [isEscapable, h, Bool.true_or]
  rw [isMeta_iff] at h
  simp only [List.mem_cons, List.not_mem_nil, or_false] at h
  rcases h with rfl | rfl | rfl | rfl | rfl | rfl | rfl | rfl | rfl | rfl | rfl | rfl | rfl | rfl |
    rfl | rfl | rfl | rfl <;> simp [escape, hescapable, plain]

/-- An escaped character is read as a part of its own. -/
theorem body_escaped (fuel : Nat) (names : List String) (parts done : List Pattern) (c : Char)
    (rest : List Char) :
    body (fuel + 1) ⟨false, names⟩ parts done (escaped c ++ rest) =
      body fuel ⟨false, names⟩ (plain c :: parts) done rest := by
  unfold escaped
  split
  · rename_i h
    simp [body, skip, primitive, escape_of_isMeta h]
  · rename_i h
    rw [isMeta_iff] at h
    simp only [List.mem_cons, not_or] at h
    simp [body, skip, primitive, plain, h]

theorem body_flatMap_escaped (names : List String) (cs : List Char) {fuel : Nat}
    (h : cs.length ≤ fuel) (parts : List Pattern) :
    body (fuel + 1) ⟨false, names⟩ parts [] (cs.flatMap escaped) =
      some (concatenation ((cs.map plain).reverse ++ parts), ⟨false, names⟩, []) := by
  induction cs generalizing fuel parts with
  | nil => simp [body, skip, branches]
  | cons c cs ih =>
    cases fuel with
    | zero => simp at h
    | succ fuel =>
      rw [List.flatMap_cons, body_escaped, ih (Nat.le_of_succ_le_succ h)]
      simp

theorem length_le_flatMap_escaped (cs : List Char) : cs.length ≤ (cs.flatMap escaped).length := by
  induction cs with
  | nil => exact Nat.le_refl 0
  | cons c cs ih =>
    have hc : 1 ≤ (escaped c).length := by
      unfold escaped
      split <;> simp
    rw [List.flatMap_cons, List.length_append, List.length_cons]
    omega

end Reader

theorem depths_map_plain (cs : List Char) : depths (cs.map plain) = 0 := by
  induction cs with
  | nil => rfl
  | cons c cs ih => simp [depths, depth, plain, ih]

theorem meanings_map_plain (cs : List Char) :
    meanings {} (cs.map plain) = some (cs.map fun c => .chars (.single c), {}) := by
  induction cs with
  | nil => rfl
  | cons c cs ih => simp [meanings, meaning, plain, Flags.literal, ih]

/-- The pattern of some characters is not nested, and has a meaning. -/
theorem concatenation_plain (cs : List Char) :
    (Reader.concatenation (cs.map plain).reverse).depth ≤ maxDepth ∧
      ((Reader.concatenation (cs.map plain).reverse).meaning {}).isSome = true := by
  rw [Reader.concatenation, List.reverse_reverse]
  cases cs with
  | nil => exact ⟨Nat.zero_le _, rfl⟩
  | cons c cs =>
    cases cs with
    | nil => exact ⟨Nat.zero_le _, rfl⟩
    | cons d cs =>
      constructor
      · show depths ((c :: d :: cs).map plain) + 1 ≤ maxDepth
        rw [depths_map_plain]
        decide
      · show (meaning {} (.concat ((c :: d :: cs).map plain))).isSome = true
        simp only [meaning, meanings_map_plain]
        rfl

/-- An escaped text is the pattern of its characters. -/
theorem parse?_escape (text : String) : parse? (escape text) =
    some (Reader.concatenation (text.toList.map plain).reverse) := by
  have hchars : (escape text).toList = text.toList.flatMap Reader.escaped :=
    String.toList_ofList
  have hbody := Reader.body_flatMap_escaped [] text.toList
    (Reader.length_le_flatMap_escaped text.toList) []
  rw [List.append_nil] at hbody
  simp only [parse?, hchars, hbody]
  exact if_pos (concatenation_plain text.toList).1

end Pattern

instance Regex.lawfulEscape : RegexEngine.LawfulEscape where
  exists_parse? text := by
    obtain ⟨⟨r, f⟩, hr⟩ :=
      Option.isSome_iff_exists.1 (Pattern.concatenation_plain text.toList).2
    refine ⟨r, ?_⟩
    change Regex.parse? (Pattern.escape text) = some r
    simp [Regex.parse?, Pattern.parse?_escape, hr]

section

variable [RegexEngine] [RegexEngine.LawfulEscape]

/-- Every literal text has a pattern. -/
theorem TokenPattern.exists_ofRule_string (token text : String) :
    ∃ p, ofRule token (.string text) = .ok p := by
  obtain ⟨r, hr⟩ := RegexEngine.LawfulEscape.exists_parse? text
  refine ⟨⟨RegexEngine.escape text, r.first⟩, ?_⟩
  simp only [ofRule, sourceOf, bind, Except.bind, hr]
  rfl

/-- Every literal text is a token. -/
theorem Token.exists_ofBody {body : TokenBody} {text : String} (h : body.rule = .string text)
    (name : String) (kind : SymbolKind) : ∃ t, ofBody name kind body = .ok t := by
  obtain ⟨p, hp⟩ := TokenPattern.exists_ofRule_string name text
  refine ⟨{ body with name, kind, pattern := p }, ?_⟩
  simp only [ofBody, h, hp, bind, Except.bind]
  rfl

end

end GrammarTables
