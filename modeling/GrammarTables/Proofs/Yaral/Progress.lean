import GrammarTables.Proofs.Yaral.EndOfInput

/-!
# Lexing makes progress

Every token but the end has characters, so reading one token behind the other comes to the end or to
a place where there is no token. The tokens and the padding before them make up what was read.
-/

namespace GrammarTables.Yaral

open Lexer

variable {l : Language} {codes : List Int} {q place stop : Nat} {token : Lexeme}
  {tokens : List Lexeme}

/-- What a token that was read from a place promises. -/
structure Progress (l : Language) (q : Nat) (codes : List Int) (place : Nat) (token : Lexeme) :
    Prop where
  symbol : ∃ valid t, l.lexSet? q = some valid ∧ token.symbol = some t ∧ valid.contains t = true
  padding : ∀ valid, l.lexSet? q = some valid → ∀ i, place ≤ i → i < token.start →
    ∃ x : Char, codes[i]? = some (x.toNat : Int) ∧ isPadding valid x = true
  start : place ≤ token.start
  stop : token.start ≤ token.stop
  position : token.stop ≤ token.position
  length : token.position ≤ codes.length
  nonempty : token.symbol ≠ some .eof → token.start < token.stop

/-- What the lexer skips is padding, and it goes no further than the codes. -/
theorem skipped_new (valid : TokenSet) (codes : List Int) (hplace : place ≤ codes.length) :
    let skipped := (Cursor.new (.ofCodes codes) place).skipWhile (isPadding valid)
    place ≤ skipped.position ∧ skipped.position + skipped.rest.length = codes.length ∧
      ∀ i, place ≤ i → i < skipped.position →
        ∃ x : Char, codes[i]? = some (x.toNat : Int) ∧ isPadding valid x = true := by
  refine ⟨Nat.le_add_right _ _, ?_, fun i hi hlt => ?_⟩
  · refine (Cursor.length_advance (.new (.ofCodes codes) place) _).trans ?_
    simp only [Cursor.new, Input.ofCodes, List.length_drop, List.length_map]
    omega
  · exact Input.any_getElem?_ofCodes.1 (Cursor.any_of_lt_skipWhile_new hi hlt)

/-- What a cursor that has accepted a token behind the padding promises. -/
theorem progress_of_accepted {valid : TokenSet} {d : Cursor} {t : Symbol} {n : Nat}
    (hq : l.lexSet? q = some valid) (hplace : place ≤ codes.length)
    (hstart : d.start =
      ((Cursor.new (.ofCodes codes) place).skipWhile (isPadding valid)).position)
    (haccepted : d.accepted = some (t, n)) (hv : valid.contains t = true) (hle : d.start ≤ n)
    (hposition : n ≤ d.position) (hlength : d.position ≤ codes.length)
    (hne : t ≠ .eof → d.start < n) : Progress l q codes place d.lexeme := by
  obtain ⟨hskipped, -, hpadding⟩ := skipped_new valid codes hplace
  have hsymbol : d.lexeme.symbol = some t := by simp [Cursor.lexeme, haccepted]
  have hstop : d.lexeme.stop = n := by simp [Cursor.lexeme, haccepted]
  rw [← hstart] at hskipped hpadding
  exact {
    symbol := ⟨valid, t, hq, hsymbol, hv⟩
    padding := fun valid' hq' => by
      obtain rfl : valid = valid' := Option.some.inj (hq.symm.trans hq')
      exact hpadding
    start := hskipped
    stop := hstop ▸ hle
    position := hstop ▸ hposition
    length := hlength
    nonempty := fun h => hstop ▸ hne fun ht => h (ht ▸ hsymbol) }

/-- A token that is read makes progress, in any state and from any place. -/
theorem progress_lex (hplace : place ≤ codes.length)
    (hsome : (lex l q (.ofCodes codes) place).symbol ≠ none) :
    Progress l q codes place (lex l q (.ofCodes codes) place) := by
  unfold lex at hsome ⊢
  cases hq : l.lexSet? q with
  | none => simp [hq, Cursor.lexeme, Cursor.new] at hsome
  | some valid =>
    simp only [hq] at hsome ⊢
    have haccepted : (Lexer.lex valid (.new (.ofCodes codes) place)).accepted ≠ none := by
      simpa [Cursor.lexeme] using hsome
    obtain ⟨-, hlength, -⟩ := skipped_new valid codes hplace
    rcases lex_cases valid (.new (.ofCodes codes) place) with ⟨-, hlex⟩ | ⟨x, -, hlex | hbeyond⟩
    · -- The end is accepted behind the padding, where it is valid.
      cases hend : valid.contains .eof with
      | false =>
        rw [hlex, hend] at haccepted
        exact absurd rfl haccepted
      | true =>
        rw [hlex, hend]
        exact progress_of_accepted hq hplace rfl rfl hend le_rfl le_rfl (Nat.le.intro hlength)
          fun h => absurd rfl h
    · rw [hlex] at haccepted
      exact absurd rfl haccepted
    · rcases hbeyond.accepted with hsame | ⟨t, n, hn, hv, ht, hlt, hle⟩
      · exact absurd hsame haccepted
      · have hstart : (Lexer.lex valid (.new (.ofCodes codes) place)).start =
            ((Cursor.new (.ofCodes codes) place).skipWhile (isPadding valid)).position :=
          hbeyond.start
        have hle' := Nat.le.intro (hbeyond.length.trans hlength)
        exact progress_of_accepted hq hplace hstart hn hv (hstart ▸ hlt.le) hle hle'
          fun _ => hstart ▸ hlt

/-- Tokens that are read one behind the other from a place up to another, each in some state. The
last one is the end or no token. -/
inductive Scan (l : Language) (codes : List Int) : Nat → List Lexeme → Nat → Prop
  | failed {q place : Nat} {token : Lexeme} : lex l q (.ofCodes codes) place = token →
      token.symbol = none → Scan l codes place [token] place
  | ended {q place : Nat} {token : Lexeme} : lex l q (.ofCodes codes) place = token →
      Progress l q codes place token → token.symbol = some .eof →
      Scan l codes place [token] token.stop
  | next {q place stop : Nat} {token : Lexeme} {tokens : List Lexeme} :
      lex l q (.ofCodes codes) place = token → Progress l q codes place token →
      token.symbol ≠ some .eof → Scan l codes token.stop tokens stop →
      Scan l codes place (token :: tokens) stop

/-- A step of a scan: it ends with what is no token and with the end, and any other token is
followed by a scan from its end on. -/
theorem scan_succ (fuel q : Nat) (states : List Nat) (hplace : place ≤ codes.length) :
    let token := lex l q (.ofCodes codes) place
    (∃ stop, Scan l codes place
      ((lexers l).scan (.ofCodes codes) (fuel + 1) q states place) stop) ∨
    Progress l q codes place token ∧ token.symbol ≠ some .eof ∧
      (lexers l).scan (.ofCodes codes) (fuel + 1) q states place =
        token :: (lexers l).scan (.ofCodes codes) fuel (states.headD q) states.tail token.stop := by
  intro token
  have hprogress := progress_lex (l := l) (q := q) hplace
  have hscan : (lexers l).scan (.ofCodes codes) (fuel + 1) q states place =
      if token.symbol.isNone || token.symbol == some .eof || token.stop == place then [token]
      else token :: (lexers l).scan (.ofCodes codes) fuel (states.headD q) states.tail token.stop :=
    by cases states <;> rfl
  have htoken : lex l q (.ofCodes codes) place = token := rfl
  rw [htoken] at hprogress
  rw [hscan]
  cases hsymbol : token.symbol with
  | none => exact .inl ⟨place, by simpa [hsymbol] using .failed htoken hsymbol⟩
  | some t =>
    have hprogress := hprogress (by simp [hsymbol])
    by_cases heof : t = .eof
    · subst heof
      exact .inl ⟨token.stop, by simpa [hsymbol] using .ended htoken hprogress hsymbol⟩
    · have hne : token.symbol ≠ some .eof := by simpa [hsymbol] using heof
      have hstart := hprogress.start
      have hlt := hprogress.nonempty hne
      refine .inr ⟨hprogress, hsymbol ▸ hne, ?_⟩
      rw [if_neg]
      grind

/-- Lexing comes to the end or to no token. -/
theorem exists_scan (fuel q : Nat) (states : List Nat) (hplace : place ≤ codes.length)
    (hfuel : codes.length - place < fuel) :
    ∃ stop, Scan l codes place ((lexers l).scan (.ofCodes codes) fuel q states place) stop := by
  induction fuel generalizing q states place with
  | zero => omega
  | succ fuel ih =>
    rcases scan_succ fuel q states hplace with hend | ⟨hprogress, hne, hscan⟩
    · exact hend
    · have hstart := hprogress.start
      have hlt := hprogress.nonempty hne
      have hle := hprogress.position.trans hprogress.length
      obtain ⟨stop, hrest⟩ := ih (states.headD q) states.tail hle (by omega)
      exact ⟨stop, hscan ▸ .next rfl hprogress hne hrest⟩

/-- The codes that tokens were read from, piece by piece: before each token what was skipped, and
then its text. -/
def pieces (codes : List Int) : Nat → List Lexeme → List (List Int)
  | _, [] => []
  | place, token :: tokens =>
    if token.symbol.isSome then
      codes.extract place token.start :: codes.extract token.start token.stop ::
        pieces codes token.stop tokens
    else []

theorem extract_append_extract {α : Type} (s : List α) {i j k : Nat} (hij : i ≤ j) (hjk : j ≤ k) :
    s.extract i j ++ s.extract j k = s.extract i k := by
  have hk : k - i = (j - i) + (k - j) := by omega
  rw [List.extract_eq_take_drop, List.extract_eq_take_drop, List.extract_eq_take_drop, hk,
    List.take_add, List.drop_drop, Nat.add_sub_cancel' hij]

namespace Scan

theorem le (h : Scan l codes place tokens stop) : place ≤ stop := by
  induction h with
  | failed => exact le_rfl
  | ended _ hprogress => exact hprogress.start.trans hprogress.stop
  | next _ hprogress _ _ ih => exact hprogress.start.trans (hprogress.stop.trans ih)

theorem le_length (h : Scan l codes place tokens stop) (hplace : place ≤ codes.length) :
    stop ≤ codes.length := by
  induction h with
  | failed => exact hplace
  | ended _ hprogress => exact hprogress.position.trans hprogress.length
  | next _ hprogress _ _ ih => exact ih (hprogress.position.trans hprogress.length)

/-- There are no more tokens than characters, but for the last. -/
theorem length_le (h : Scan l codes place tokens stop) : place + tokens.length ≤ stop + 1 := by
  induction h with
  | failed => exact le_rfl
  | ended _ hprogress => exact Nat.succ_le_succ (hprogress.start.trans hprogress.stop)
  | next _ hprogress hne _ ih =>
    have hstart := hprogress.start
    have hlt := hprogress.nonempty hne
    rw [List.length_cons]
    omega

/-- Padding and tokens are what was read. -/
theorem flatten_pieces (h : Scan l codes place tokens stop) :
    (pieces codes place tokens).flatten = codes.extract place stop := by
  induction h with
  | failed _ hnone => simp [pieces, hnone]
  | ended _ hprogress heof =>
    rw [pieces, heof, Option.isSome_some, if_pos rfl, pieces]
    simpa using extract_append_extract codes hprogress.start hprogress.stop
  | next _ hprogress hne hrest ih =>
    obtain ⟨valid, t, -, ht, -⟩ := hprogress.symbol
    rw [pieces, ht, Option.isSome_some, if_pos rfl, List.flatten_cons, List.flatten_cons, ih,
      extract_append_extract codes hprogress.stop hrest.le,
      extract_append_extract codes hprogress.start (hprogress.stop.trans hrest.le)]

end Scan

/-- A token that is read is valid and stands behind padding, within the codes, and has characters
unless it is the end. So lexing from the end of each token on, in any states, comes to the end or to
no token after no more tokens than there are codes and one, and the padding and the tokens make up
what was read. -/
theorem lex_progress (l : Language) (codes : List Int) {place : Nat}
    (hplace : place ≤ codes.length) :
    (∀ q, (lex l q (.ofCodes codes) place).symbol ≠ none →
      Progress l q codes place (lex l q (.ofCodes codes) place)) ∧
    ∀ fuel q states, codes.length < fuel →
      let tokens := (lexers l).scan (.ofCodes codes) fuel q states place
      ∃ stop, Scan l codes place tokens stop ∧ stop ≤ codes.length ∧
        tokens.length ≤ codes.length + 1 ∧
        (pieces codes place tokens).flatten = codes.extract place stop := by
  refine ⟨fun q => progress_lex hplace, fun fuel q states hfuel => ?_⟩
  obtain ⟨stop, hscan⟩ := exists_scan (l := l) fuel q states hplace (by omega)
  have hlength := hscan.length_le
  have hstop := hscan.le_length hplace
  exact ⟨stop, hscan, hstop, by omega, hscan.flatten_pieces⟩

/-- A language with one lexer state, in which whole numbers and the end are valid. -/
def numbers : Language where
  name := "numbers"
  version := ⟨1, 0, 0⟩
  symbols := #[]
  tokenCount := 0
  word := none
  fields := #[]
  slices := #[]
  fieldEntries := #[]
  maxChildren := 0
  stateCount := 0
  largeCount := 0
  parseTable := #[]
  smallTable := #[]
  smallOffsets := #[]
  actions := #[]
  lexModes := #[]
  primary := #[]
  lexSets := #[.ofList [Terminal.integer, .eof]]
  keywords := #[]
  maxKeywordLength := 0

/-- Two numbers with blanks between them and behind. -/
theorem lex_progress_numbers :
    let codes : List Int := [49, 32, 50, 51, 32]
    let tokens : List Lexeme :=
      [⟨some Terminal.integer, 0, 1, 1⟩, ⟨some Terminal.integer, 2, 4, 4⟩, ⟨some .eof, 5, 5, 5⟩]
    ∃ stop, Scan numbers codes 0 tokens stop ∧
      (pieces codes 0 tokens).flatten = codes.extract 0 stop := by
  intro codes tokens
  obtain ⟨stop, hscan, -, -, hpieces⟩ :=
    (lex_progress numbers codes (Nat.zero_le _)).2 6 0 [] (by decide)
  have htokens : (lexers numbers).scan (.ofCodes codes) 6 0 [] 0 = tokens := by decide
  rw [htokens] at hscan hpieces
  exact ⟨stop, hscan, hpieces⟩

end GrammarTables.Yaral
