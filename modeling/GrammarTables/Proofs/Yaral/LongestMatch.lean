import GrammarTables.Proofs.LexSets
import GrammarTables.Proofs.ReadBack
import GrammarTables.Proofs.Yaral.InString
import GrammarTables.Yaral.Language

/-!
# The lexer reads the longest token

The lexer is the longest-match lexer of the grammar's token rules: behind the padding it reads the
longest text that the rule of a valid token matches, wherever no line comment starts there.
-/

namespace GrammarTables.Yaral

open Terminal Lexer

/-- The tokens that can be read: valid ones, but no blanks, and inside a string only its parts. -/
def Candidate (valid : TokenSet) (t : Symbol) : Prop :=
  valid.contains t = true ∧ t ≠ whitespace ∧ (inString valid = true → StringPart t)

/-- The texts that the rules of the candidates match, with the ASCII digits for `\d`. -/
def CandidateText (g : FlatGrammar) (valid : TokenSet) (t : Symbol) (w : List Char) : Prop :=
  Candidate valid t ∧ w ≠ [] ∧ g.TokenMatches asciiDigits t w

/-- What is skipped before a token. -/
def isPadding (valid : TokenSet) (x : Char) : Bool :=
  if inString valid then x == '\n' || x == '\r' else Text.isWhiteSpace x

variable {g : FlatGrammar} {valid : TokenSet} {t : Symbol} {w : List Char}

theorem isPadding_of_inString (h : inString valid = true) :
    isPadding valid = fun x => x == '\n' || x == '\r' := by
  funext x
  rw [isPadding, if_pos h]

theorem isPadding_of_outside (h : inString valid = false) :
    isPadding valid = Text.isWhiteSpace := by
  funext x
  simp [isPadding, h]

theorem Spells.ne_nil (h : Spells t w) : w ≠ [] := by
  rintro rfl
  cases h

theorem Spells.ne_whitespace (h : Spells t w) : t ≠ whitespace := by
  rintro rfl
  cases h with
  | single h =>
    unfold single? at h
    split at h
    all_goals cases h

/-- The texts of a token that is no keyword are those that its rule matches. -/
theorem tokenMatches_iff_rule (hg : FlatGrammar.ofGrammar grammar = .ok g) (hk : t ∉ g.keywords)
    {read : List Char → List Char} : g.TokenMatches read t w ↔
      ∃ rule, (t, rule) ∈ lexicalRules ∧ rule.Matches read none none w := by
  rw [← (flat_of_ofGrammar hg).plainRules]
  constructor
  · rintro ⟨token, htoken, hw⟩
    exact ⟨_, FlatGrammar.mem_plainRules.2 ⟨token, htoken, hk, rfl⟩, hw⟩
  · rintro ⟨rule, hmem, hw⟩
    obtain ⟨token, htoken, -, rfl⟩ := FlatGrammar.mem_plainRules.1 hmem
    exact ⟨token, htoken, hw⟩

/-- The rule of a token that is no keyword matches the texts that spell it. -/
theorem tokenMatches_iff (hg : FlatGrammar.ofGrammar grammar = .ok g) (hk : t ∉ g.keywords)
    (ht : t ≠ whitespace) (hline : ¬ ['/', '/'] <+: w) :
    g.TokenMatches asciiDigits t w ↔ Spells t w := by
  rw [tokenMatches_iff_rule hg hk]
  constructor
  · rintro ⟨rule, hmem, hw⟩
    exact (spells_of_matches hmem ht hw).resolve_left hline
  · exact exists_matches

section Keywords

variable (hg : FlatGrammar.ofGrammar grammar = .ok g)
  (hk : ∀ k ∈ g.keywords, valid.contains k = false) (hline : ¬ ['/', '/'] <+: w)

include hg hk hline

theorem candidateText_iff : CandidateText g valid t w ↔ Candidate valid t ∧ Spells t w := by
  have hmatches (h : Candidate valid t) : g.TokenMatches asciiDigits t w ↔ Spells t w := by
    refine tokenMatches_iff hg (fun hkey => ?_) h.2.1 hline
    simpa [hk t hkey] using h.1
  constructor
  · rintro ⟨h, -, hw⟩
    exact ⟨h, (hmatches h).1 hw⟩
  · rintro ⟨h, hw⟩
    exact ⟨h, hw.ne_nil, (hmatches h).2 hw⟩

theorem valid_iff_candidateText (hout : inString valid = false) :
    Valid valid t w ↔ CandidateText g valid t w := by
  rw [candidateText_iff hg hk hline]
  constructor
  · rintro ⟨hvalid, hw⟩
    exact ⟨⟨hvalid, hw.ne_whitespace, by simp [hout]⟩, hw⟩
  · rintro ⟨h, hw⟩
    exact ⟨h.1, hw⟩

theorem validPart_iff_candidateText (hin : inString valid = true) :
    ValidPart valid t w ↔ CandidateText g valid t w := by
  rw [candidateText_iff hg hk hline]
  constructor
  · rintro ⟨hpart, hvalid, hw⟩
    exact ⟨⟨hvalid, hw.ne_whitespace, fun _ => hpart⟩, hw⟩
  · rintro ⟨h, hw⟩
    exact ⟨h.2.2 hin, h.1, hw⟩

end Keywords

/-- A set that a lexer can be asked for: comments are valid, and no keyword is. -/
def Lexable (g : FlatGrammar) (valid : TokenSet) : Prop :=
  valid.contains comment = true ∧ ∀ k ∈ g.keywords, valid.contains k = false

/-- The lexer of every state is asked for such a set. -/
theorem lexable_of_lexSet? (hg : FlatGrammar.ofGrammar grammar = .ok g) {l : Language}
    (hl : language = .ok l) {q : Nat} (hq : l.lexSet? q = some valid) : Lexable g valid := by
  have wf := FlatGrammar.wellFormed_of_ofGrammar hg
  have hflat := flat_of_ofGrammar hg
  obtain ⟨_, hg', hl⟩ := bind_eq_ok.1 hl
  cases hg.symm.trans hg'
  obtain ⟨tables, ht, hl⟩ := bind_eq_ok.1 hl
  obtain ⟨e, he, hl⟩ := bind_eq_ok.1 hl
  cases hl
  have hmem : valid ∈ tables.lexSets := by
    have hget : e.lexSets[q]? = some valid := by
      simpa [Language.lexSet?, Language.ofEncoding] using hq
    rw [← (Encoding.lists_of_ofTables he).lexSets]
    exact List.mem_of_getElem? hget
  refine ⟨Tables.contains_extra wf ht hflat.comment (not_mem_keywords hg (by decide)) hmem,
    fun k hk => ?_⟩
  exact Tables.contains_keyword hflat.word rfl (not_mem_keywords hg (by decide)) ht hmem hk
    (hflat.keywords k hk)

theorem reads_lex {c : Cursor} {x : Char} {s before : List Char}
    (hg : FlatGrammar.ofGrammar grammar = .ok g) (hv : Lexable g valid)
    (hc : c.Before before) (hn : c.accepted = none)
    (hrest : before.dropWhile (isPadding valid) = x :: s) (hline : ¬ ['/', '/'] <+: x :: s) :
    Reads (CandidateText g valid) (x :: s) (c.skipWhile (isPadding valid))
      (Lexer.lex valid c) := by
  unfold Lexer.lex
  split
  · rename_i hin
    rw [isPadding_of_inString hin] at hrest ⊢
    refine (reads_lexInString hc hn hrest).congr fun u v hp => ?_
    exact validPart_iff_candidateText hg hv.2 (fun h => hline (h.trans hp)) hin
  · rename_i hout
    have hout : inString valid = false := by simpa using hout
    rw [isPadding_of_outside hout] at hrest ⊢
    have hbefore := hc.skipWhile (p := Text.isWhiteSpace)
    rw [hrest] at hbefore
    simp only [lexOutside, hbefore.peek?_eq, List.head?_cons]
    refine (reads_lexFrom hout (by simpa using hn) hbefore hv.1 hline).congr fun u v hp => ?_
    exact valid_iff_candidateText hg hv.2 (fun h => hline (h.trans hp)) hout

/-- The lexer is asked for sets with comments and without keywords. Asked for such a set, behind the
padding and unless a line comment starts there, it reads the longest text of a candidate, which is
the only one, and nothing where no candidate has a text. -/
theorem lex_longest (hg : FlatGrammar.ofGrammar grammar = .ok g) :
    (∀ l q valid, language = .ok l → l.lexSet? q = some valid → Lexable g valid) ∧
    ∀ (valid : TokenSet) (text : List Char) (place : Nat) (padding rest : List Char),
      Lexable g valid →
      padding = (text.drop place).takeWhile (isPadding valid) →
      rest = (text.drop place).dropWhile (isPadding valid) →
      rest ≠ [] → ¬ ['/', '/'] <+: rest →
      ∃ taken, (∀ other, Longest (CandidateText g valid) rest other ↔ other = taken) ∧
        let lexeme := (Lexer.lex valid (.new (text.map some) place)).lexeme
        lexeme.start = place + padding.length ∧ lexeme.symbol = taken.map (·.1) ∧
          ∀ t n, taken = some (t, n) → lexeme.stop = place + padding.length + n := by
  refine ⟨fun l q valid hl hq => lexable_of_lexSet? hg hl hq, ?_⟩
  intro valid text place padding rest hv hpadding hrest hne hline
  have hbefore := Cursor.before_new text place
  obtain ⟨x, s, rfl⟩ := List.exists_cons_of_ne_nil hne
  obtain ⟨hstart, taken, hlongest, haccepted⟩ := reads_lex hg hv hbefore rfl hrest.symm hline
  have hpos : ((Cursor.new (text.map some) place).skipWhile (isPadding valid)).position =
      place + padding.length := by
    rw [hbefore.position_skipWhile, hpadding]
    rfl
  refine ⟨taken, fun other => ⟨fun h => h.unique hlongest, fun h => h ▸ hlongest⟩, ?_, ?_, ?_⟩
  · exact hstart.trans hpos
  · change (Lexer.lex valid _).accepted.map (·.1) = _
    rw [haccepted, Option.map_map]
    rfl
  · rintro t n rfl
    simp [Cursor.lexeme, haccepted, hpos]

/-- Tokens that are no keywords, with comments. -/
theorem lexable_ofList (hg : FlatGrammar.ofGrammar grammar = .ok g) {symbols : List Symbol}
    (hcomment : comment ∈ symbols) (hterm : ∀ t ∈ symbols, t.isTerminal = true)
    (hrules : ∀ t ∈ symbols, t ∈ lexicalRules.map (·.1)) : Lexable g (.ofList symbols) := by
  refine ⟨TokenSet.contains_ofList.2 ⟨_, hcomment, rfl⟩, fun k hk => ?_⟩
  rw [← Bool.not_eq_true, TokenSet.contains_ofList]
  rintro ⟨t, ht, hpos⟩
  obtain rfl :=
    TokenSet.position_injective (hterm t ht) ((flat_of_ofGrammar hg).keywords k hk) hpos
  exact not_mem_keywords hg (hrules t ht) hk

/-- Behind blanks, where numbers are valid, a float is read past its point. -/
theorem lex_longest_float : ∃ g, FlatGrammar.ofGrammar grammar = .ok g ∧
    Lexable g (.ofList [integer, float, comment]) ∧
    (∀ other, Longest (CandidateText g (.ofList [integer, float, comment])) "12.5)".toList other ↔
      other = some (float, 4)) ∧
    (Lexer.lex (.ofList [integer, float, comment]) (.new ("  12.5)".toList.map some) 0)).lexeme =
      ⟨some float, 2, 6, 6⟩ := by
  obtain ⟨g, hg, -⟩ := exists_flat
  have hv : Lexable g (.ofList [integer, float, comment]) :=
    lexable_ofList hg (by decide) (by decide) (by decide)
  have hlex : (Lexer.lex (.ofList [integer, float, comment])
      (.new ("  12.5)".toList.map some) 0)).lexeme = ⟨some float, 2, 6, 6⟩ := by decide
  obtain ⟨taken, htaken, -, hsymbol, hstop⟩ := (lex_longest hg).2 _ "  12.5)".toList 0 [' ', ' ']
    "12.5)".toList hv (by decide) (by decide) (by decide) (by decide)
  rw [hlex] at hsymbol hstop
  obtain ⟨⟨t, n⟩, rfl, ht⟩ := Option.map_eq_some_iff.1 hsymbol.symm
  have hn : 6 = 0 + 2 + n := hstop t n rfl
  obtain rfl : n = 4 := by omega
  obtain rfl : t = float := ht
  exact ⟨g, hg, hv, htaken, hlex⟩

end GrammarTables.Yaral
