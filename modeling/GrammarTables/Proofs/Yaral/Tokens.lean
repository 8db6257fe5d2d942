import GrammarTables.Proofs.Preparation
import GrammarTables.Proofs.RuleTexts
import GrammarTables.Yaral.Grammar
import GrammarTables.Yaral.Lexer

/-!
# The token rules of YARA-L

The rules of the tokens that are no keywords, as the grammar has them, and the characters of the
classes that stand in their patterns.
-/

namespace GrammarTables

namespace CharSet

theorem ordinal_cases (c : Char) : c.toNat < 0xD800 ∧ ordinal c = c.toNat ∨
    0xE000 ≤ c.toNat ∧ c.toNat ≤ 0x10FFFF ∧ ordinal c = c.toNat - 0x800 := by
  have h : c.toNat < 0xD800 ∨ 0xDFFF < c.toNat ∧ c.toNat < 0x110000 := c.valid
  unfold ordinal ordinalOfCode
  split <;> omega

end CharSet

namespace Yaral

open Terminal Lexer

section Sets

variable (c : Char)

theorem isDigit_iff : isDigit c = true ↔ 48 ≤ c.toNat ∧ c.toNat ≤ 57 := by
  simp [isDigit, Char.isDigit, UInt32.le_iff_toNat_le]

theorem contains_wordStart :
    (⟨[(65, 90), (95, 95), (97, 122)]⟩ : CharSet).contains c = Keyword.isWordStart c := by
  have h := CharSet.ordinal_cases c
  rw [Bool.eq_iff_iff, Keyword.isWordStart_iff]
  simp [CharSet.contains, Text.inRanges]
  omega

theorem contains_wordPart : (⟨[(48, 57), (65, 90), (95, 95), (97, 122)]⟩ : CharSet).contains c =
    Keyword.isWordPart c := by
  have h := CharSet.ordinal_cases c
  rw [Bool.eq_iff_iff, Keyword.isWordPart_iff]
  simp [CharSet.contains, Text.inRanges]
  omega

theorem contains_attributePart :
    (⟨[(46, 46), (48, 57), (65, 90), (95, 95), (97, 122)]⟩ : CharSet).contains c =
      (Keyword.isWordPart c || c == '.') := by
  have h := CharSet.ordinal_cases c
  rw [Bool.eq_iff_iff, Bool.or_eq_true, Keyword.isWordPart_iff]
  simp [CharSet.contains, Text.inRanges, ← Char.toNat_inj]
  omega

theorem contains_alpha : (⟨[(65, 90), (97, 122)]⟩ : CharSet).contains c = c.isAlpha := by
  have h := CharSet.ordinal_cases c
  rw [Bool.eq_iff_iff, Keyword.isAlpha_iff]
  simp [CharSet.contains, Text.inRanges]
  omega

theorem contains_digit : (⟨[(48, 57)]⟩ : CharSet).contains c = isDigit c := by
  have h := CharSet.ordinal_cases c
  rw [Bool.eq_iff_iff, isDigit_iff]
  simp [CharSet.contains, Text.inRanges]
  omega

theorem contains_hexDigit :
    (⟨[(48, 57), (65, 70), (97, 102)]⟩ : CharSet).contains c = isHexDigit c := by
  have h := CharSet.ordinal_cases c
  rw [Bool.eq_iff_iff]
  simp [CharSet.contains, Text.inRanges, isHexDigit, Char.isDigit, UInt32.le_iff_toNat_le,
    Char.le_def]
  omega

theorem contains_notNewline :
    (⟨[(0, 9), (11, 1112063)]⟩ : CharSet).contains c = true ↔ c ≠ '\n' := by
  have h := CharSet.ordinal_cases c
  simp [CharSet.contains, Text.inRanges, ← Char.toNat_inj]
  omega

theorem contains_notStar :
    (⟨[(0, 41), (43, 1112063)]⟩ : CharSet).contains c = true ↔ c ≠ '*' := by
  have h := CharSet.ordinal_cases c
  simp [CharSet.contains, Text.inRanges, ← Char.toNat_inj]
  omega

theorem contains_notTick :
    (⟨[(0, 95), (97, 1112063)]⟩ : CharSet).contains c = true ↔ c ≠ '\x60' := by
  have h := CharSet.ordinal_cases c
  simp [CharSet.contains, Text.inRanges, ← Char.toNat_inj]
  omega

theorem contains_notSlashStar : (⟨[(0, 41), (43, 46), (48, 1112063)]⟩ : CharSet).contains c =
    true ↔ c ≠ '/' ∧ c ≠ '*' := by
  have h := CharSet.ordinal_cases c
  simp [CharSet.contains, Text.inRanges, ← Char.toNat_inj]
  omega

theorem contains_regexChar : (⟨[(0, 46), (48, 91), (93, 1112063)]⟩ : CharSet).contains c =
    true ↔ c ≠ '/' ∧ c ≠ '\\' := by
  have h := CharSet.ordinal_cases c
  simp [CharSet.contains, Text.inRanges, ← Char.toNat_inj]
  omega

theorem contains_regexStart :
    (⟨[(0, 41), (43, 46), (48, 91), (93, 1112063)]⟩ : CharSet).contains c = true ↔
      c ≠ '/' ∧ c ≠ '\\' ∧ c ≠ '*' := by
  have h := CharSet.ordinal_cases c
  simp [CharSet.contains, Text.inRanges, ← Char.toNat_inj]
  omega

theorem contains_plain :
    (⟨[(0, 9), (11, 33), (35, 91), (93, 1112063)]⟩ : CharSet).contains c = true ↔
      c ≠ '\x22' ∧ c ≠ '\n' ∧ c ≠ '\\' := by
  have h := CharSet.ordinal_cases c
  simp [CharSet.contains, Text.inRanges, ← Char.toNat_inj]
  omega

theorem contains_escaped :
    (⟨[(0, 84), (86, 116), (118, 119), (121, 1112063)]⟩ : CharSet).contains c = true ↔
      c ≠ 'x' ∧ c ≠ 'u' ∧ c ≠ 'U' := by
  have h := CharSet.ordinal_cases c
  simp [CharSet.contains, Text.inRanges, ← Char.toNat_inj]
  omega

theorem contains_single (n : Nat) (d : Char) (hd : d.toNat = n) (hn : n < 0xD800) :
    (⟨[(n, n)]⟩ : CharSet).contains c = true ↔ c = d := by
  have h := CharSet.ordinal_cases c
  simp [CharSet.contains, Text.inRanges, ← Char.toNat_inj]
  omega

end Sets

/-- Digits and a point among them, or digits alone. -/
def floatRule : Rule :=
  .choice [
    .seq [Rules.regex "[0-9]+", Rules.text ".", Rules.maybe (Rules.regex "[0-9]+")],
    Rules.regex "[0-9]+", .seq [Rules.text ".", Rules.regex "[0-9]+"]]

def regexRule : Rule :=
  .seq [
    Rules.text "/", Rules.regex "[^/\\\\\\*]",
    Rules.many (.choice [Rules.regex "[^/\\\\]", .seq [Rules.text "\\", Rules.regex "."]]),
    Rules.text "/"]

def rawStringRule : Rule :=
  .seq [Rules.text "\x60", Rules.many (Rules.regex "[^\x60]"), Rules.text "\x60"]

def escapeRule : Rule :=
  .seq [
    Rules.text "\\",
    .choice [
      Rules.regex "[^xuU]", Rules.regex "\\d\x7b2,3\x7d", Rules.regex "x[0-9a-fA-F]\x7b2,\x7d",
      Rules.regex "u[0-9a-fA-F]\x7b4\x7d", Rules.regex "U[0-9a-fA-F]\x7b8\x7d"]]

def commentRule : Rule :=
  .choice [
    .seq [Rules.text "//", Rules.regex "(\\\\+(.|\\r?\\n)|[^\\\\\\n])*"],
    .seq [Rules.text "/*", Rules.regex "[^*]*\\*+([^/*][^*]*\\*+)*", Rules.text "/"]]

/-- The tokens that are no keywords, with their rules. -/
def lexicalRules : List (Symbol × Rule) :=
  let text := Rules.text
  [(identifier, Rules.regex "[a-zA-Z_][a-zA-Z0-9_]*"), (leftBrace, text "\x7b"),
    (rightBrace, text "\x7d"), (colon, text ":"), (equal, text "="),
    (integer, Rules.regex "\\d+"), (float, floatRule), (regex, regexRule), (star, text "*"),
    (slash, text "/"), (plus, text "+"), (minus, text "-"), (notEqual, text "!="), (less, text "<"),
    (lessEqual, text "<="), (greater, text ">"), (greaterEqual, text ">="), (percent, text "%"),
    (comma, text ","), (leftBracket, text "["), (rightBracket, text "]"), (leftParen, text "("),
    (rightParen, text ")"), (dollar, text "$"),
    (attributeName, Rules.regex "\\.[a-zA-Z][a-zA-Z0-9_\\.]*"), (rawString, rawStringRule),
    (quote, text "\x22"), (stringContent, Rules.regex "[^\x22\\n\\\\]+"),
    (escapeSequence, escapeRule), (closingQuote, text "\x22"), (dot, text "."),
    (comment, commentRule), (whitespace, Rules.regex "\\s"), (notOperator, text "!")]

/-- What is decided of the flat grammar. -/
structure Flat (g : FlatGrammar) : Prop where
  plainRules : g.plainRules = lexicalRules
  word : g.word = some identifier
  comment : g.isExtra comment = true
  keywords : ∀ k ∈ g.keywords, k.isTerminal = true

theorem exists_flat : ∃ g, FlatGrammar.ofGrammar grammar = .ok g ∧ Flat g := by
  obtain ⟨g, h, hrules, hword, hcomment, hkeywords⟩ : ∃ g, FlatGrammar.ofGrammar grammar = .ok g ∧
      g.plainRules = lexicalRules ∧ g.word = some identifier ∧ g.isExtra comment = true ∧
      ∀ k ∈ g.keywords, k.isTerminal = true := FlatGrammar.exists_of_decide (by decide +kernel)
  exact ⟨g, h, hrules, hword, hcomment, hkeywords⟩

theorem flat_of_ofGrammar {g : FlatGrammar} (h : FlatGrammar.ofGrammar grammar = .ok g) :
    Flat g := by
  obtain ⟨g', h', hflat⟩ := exists_flat
  rw [h] at h'
  cases h'
  exact hflat

/-- A token with a rule of its own is no keyword. -/
theorem not_mem_keywords {g : FlatGrammar} (h : FlatGrammar.ofGrammar grammar = .ok g)
    {t : Symbol} (ht : t ∈ lexicalRules.map (·.1)) : t ∉ g.keywords := by
  obtain ⟨⟨t, rule⟩, hmem, rfl⟩ := List.mem_map.1 ht
  rw [← (flat_of_ofGrammar h).plainRules] at hmem
  obtain ⟨token, -, hk, -⟩ := FlatGrammar.mem_plainRules.1 hmem
  exact hk

end Yaral

end GrammarTables
