import GrammarTables.Encoding.Source
import GrammarTables.Proofs.Hexadecimal
import GrammarTables.Proofs.Indices
import GrammarTables.Proofs.TokenWords

/-!
# Rows of lexer states

What the lexer of a state may return is written to the source text as a row of words in hexadecimal
digits, and read there bit by bit. The bit of a terminal is set exactly if the state has an entry
for it, where the word token stands for the keywords.
-/

namespace GrammarTables

namespace Encoding.Source

/-- The word of a hexadecimal literal. -/
def readWord? : List Char → Option UInt64
  | '0' :: 'x' :: digits => do
    let n ← Text.readHex? digits
    if n < 2 ^ 64 then some n.toUInt64 else none
  | _ => none

/-- The words of a line that lists words between brackets. -/
def readRow? (line : String) : Option (List UInt64) :=
  let inside := ((line.toList.dropWhile (· != '[')).drop 1).takeWhile (· != ']')
  (inside.splitOn ',').mapM fun part => readWord? (part.dropWhile (· == ' '))

/-- How a word is written. -/
def wordText (w : UInt64) : List Char := '0' :: 'x' :: Text.hexPadded 16 w.toNat

theorem readWord?_wordText (w : UInt64) : readWord? (wordText w) = some w := by
  simp [readWord?, wordText, Text.readHex?_hexPadded, w.toNat_lt]

theorem notMem_wordText (w : UInt64) : ',' ∉ wordText w ∧ ']' ∉ wordText w := by
  have hplain : ∀ c ∈ wordText w, c.isAlphanum = true :=
    List.forall_mem_cons.2 ⟨by decide, List.forall_mem_cons.2
      ⟨by decide, fun c => Text.isAlphanum_of_mem_hexPadded⟩⟩
  exact ⟨fun hc => absurd (hplain _ hc) (by decide), fun hc => absurd (hplain _ hc) (by decide)⟩

/-- The parts between the commas of a row: a blank behind a comma belongs to the part behind it. -/
def rowParts (w : UInt64) (ws : List UInt64) : List (List Char) :=
  wordText w :: ws.map fun w => ' ' :: wordText w

theorem toList_commas (w : UInt64) (ws : List UInt64) :
    (commas ((w :: ws).map fun w => "0x" ++ String.ofList (Text.hexPadded 16 w.toNat))).toList =
      [','].intercalate (rowParts w ws) := by
  have key : ∀ w, [',', ' '].intercalate ((w :: ws).map wordText) =
      [','].intercalate (rowParts w ws) := by
    induction ws with
    | nil => exact fun _ => rfl
    | cons v ws ih =>
      intro w
      rw [List.map_cons, List.map_cons, List.intercalate_cons_cons, ← List.map_cons, ih v]
      cases ws <;> simp [rowParts, List.intercalate_cons_cons]
  rw [commas, String.toList_intercalate, List.map_map]
  refine (congrArg _ (List.map_congr_left fun w _ => ?_)).trans (key w)
  simp [wordText]

theorem notMem_rowParts {w : UInt64} {ws : List UInt64} :
    ∀ part ∈ rowParts w ws, ',' ∉ part ∧ ']' ∉ part := by
  refine List.forall_mem_cons.2 ⟨notMem_wordText w, fun part hpart => ?_⟩
  obtain ⟨v, -, rfl⟩ := List.mem_map.1 hpart
  simpa using notMem_wordText v

theorem notMem_intercalate {parts : List (List Char)} (h : ∀ part ∈ parts, ']' ∉ part) :
    ']' ∉ [','].intercalate parts := by
  induction parts with
  | nil => simp
  | cons part parts ih =>
    obtain ⟨hpart, hparts⟩ := List.forall_mem_cons.1 h
    cases parts with
    | nil => simpa using hpart
    | cons p parts => simpa [List.intercalate_cons_cons, hpart] using ih hparts

/-- A row is read as the words it was written from. -/
theorem readRow?_text (w : UInt64) (ws : List UInt64) :
    readRow? ("    [" ++ commas ((w :: ws).map fun w =>
      "0x" ++ String.ofList (Text.hexPadded 16 w.toNat)) ++ "],") = some (w :: ws) := by
  have hinside : ∀ c ∈ [','].intercalate (rowParts w ws), (c != ']') = true := by
    intro c hc
    refine bne_iff_ne.2 fun heq => ?_
    exact notMem_intercalate (fun part hpart => (notMem_rowParts part hpart).2) (heq ▸ hc)
  have hread : ∀ w, readWord? ((wordText w).dropWhile (· == ' ')) = some w := readWord?_wordText
  have hrest : (ws.map fun w => ' ' :: wordText w).mapM
      (fun part => readWord? (part.dropWhile (· == ' '))) = some ws := by
    rw [List.mapM_map]
    refine (congrArg (List.mapM · ws) (funext fun w => hread w)).trans ?_
    simpa using List.mapM_pure (m := Option) (l := ws) (f := id)
  have hsplit : ([','].intercalate (rowParts w ws)).splitOn ',' = rowParts w ws :=
    List.splitOn_intercalate ',' (fun part hpart => (notMem_rowParts part hpart).1)
      (List.cons_ne_nil _ _)
  have htake : ([','].intercalate (rowParts w ws) ++ "],".toList).takeWhile (· != ']') =
      [','].intercalate (rowParts w ws) := by
    rw [List.takeWhile_append_of_pos hinside]
    exact List.append_nil _
  have hdrop : (("    [".toList ++ [','].intercalate (rowParts w ws) ++ "],".toList).dropWhile
      (· != '[')).drop 1 = [','].intercalate (rowParts w ws) ++ "],".toList := rfl
  rw [readRow?, String.toList_append, String.toList_append, toList_commas, hdrop, htake, hsplit,
    rowParts, List.mapM_cons, hread, hrest]
  rfl

end Encoding.Source

/-- A state's lexer may return a terminal: the state has an entry for it and it is no keyword, or it
is the word token and the state has an entry for it or for a keyword. -/
def State.Expects (g : FlatGrammar) (s : State) (x : Symbol) : Prop :=
  (s.on x ≠ [] ∧ x ∉ g.keywords) ∨
    (g.word = some x ∧ (s.on x ≠ [] ∨ ∃ k ∈ g.keywords, s.on k ≠ []))

section

variable {source : Grammar} {g : FlatGrammar} {t : Tables}

theorem FlatGrammar.IsToken.isTerminal {s : Symbol} (h : g.IsToken s) : s.isTerminal = true := by
  obtain ⟨i, -, rfl⟩ := h
  rfl

theorem FlatGrammar.mem_terminals {x : Symbol} :
    x ∈ g.terminals ↔ x.isTerminal = true ∧ TokenSet.position x < g.tokenCount := by
  cases x <;> simp [terminals, TokenSet.position, tokenCount, Nat.add_comm 1]

theorem FlatGrammar.keywords_eq_nil [RegexEngine] (h : ofGrammar source = .ok g)
    (hw : g.word = none) :
    g.keywords = [] := by
  obtain ⟨-, -, -, -, hkeywords⟩ := ofGrammar_eq_ok h
  rw [hw] at hkeywords
  exact (Except.ok.inj hkeywords).symm

/-- What a state's lexer may return is what is expected of it. -/
theorem Tables.contains_lexSet [RegexEngine] (h : FlatGrammar.ofGrammar source = .ok g) {s : State}
    {x : Symbol} (hx : x.isTerminal = true) : (lexSet g s).contains x = true ↔ s.Expects g x := by
  have hmem : ∀ y, y ∈ s.tokens.toList ↔ y.isTerminal = true ∧ s.on y ≠ [] := fun y => by
    rw [TokenSet.mem_toList, State.contains_tokens]
  rw [lexSet, TokenSet.contains_ofList]
  constructor
  · rintro ⟨_, hr, hpos⟩
    obtain ⟨y, hy, rfl⟩ := List.mem_map.1 hr
    obtain ⟨hyt, hon⟩ := (hmem y).1 hy
    by_cases hk : y ∈ g.keywords
    · cases hw : g.word with
      | none => simp [FlatGrammar.keywords_eq_nil h hw] at hk
      | some w =>
        have hwt := (FlatGrammar.isToken_word h w hw).isTerminal
        simp only [hw, FlatGrammar.isKeyword, List.contains_iff_mem.2 hk, if_true] at hpos
        cases TokenSet.position_injective hwt hx hpos
        exact .inr ⟨hw, .inr ⟨y, hk, hon⟩⟩
    · have hy : TokenSet.position y = TokenSet.position x := by
        cases hw : g.word <;> simpa [hw, FlatGrammar.isKeyword, hk] using hpos
      cases TokenSet.position_injective hyt hx hy
      exact .inl ⟨hon, hk⟩
  · -- a keyword is found by the word that stands for it, every other terminal by itself
    rintro (⟨hon, hk⟩ | ⟨hw, hon | ⟨k, hk, hon⟩⟩)
    · refine ⟨_, List.mem_map_of_mem ((hmem x).2 ⟨hx, hon⟩), ?_⟩
      cases g.word <;> simp [FlatGrammar.isKeyword, hk]
    · refine ⟨_, List.mem_map_of_mem ((hmem x).2 ⟨hx, hon⟩), ?_⟩
      simp [hw]
    · have hkt := (FlatGrammar.isToken_keyword h k hk).isTerminal
      refine ⟨_, List.mem_map_of_mem ((hmem k).2 ⟨hkt, hon⟩), ?_⟩
      simp [hw, FlatGrammar.isKeyword, hk]

theorem State.Expects.mem_terminals [RegexEngine] (h : FlatGrammar.ofGrammar source = .ok g)
    {s : State} (hs : s.actions.size ≤ g.tokenCount) {x : Symbol} (hx : x.isTerminal = true)
    (he : s.Expects g x) : x ∈ g.terminals := by
  rcases he with ⟨hon, -⟩ | ⟨hw, -⟩
  · rw [← TokenSet.symbolAt_position hx] at hon
    exact FlatGrammar.mem_terminals.2 ⟨hx, (State.lt_of_on hon).trans_le hs⟩
  · obtain ⟨i, hi, rfl⟩ := FlatGrammar.isToken_word h x hw
    simp [FlatGrammar.terminals, hi]

/-- The lexers of two states may return the same exactly if the same is expected of them. -/
theorem Tables.lexSet_eq_iff [RegexEngine] (h : FlatGrammar.ofGrammar source = .ok g) {s u : State}
    (hs : s.actions.size ≤ g.tokenCount) (hu : u.actions.size ≤ g.tokenCount) :
    lexSet g s = lexSet g u ↔ ∀ x ∈ g.terminals, (s.Expects g x ↔ u.Expects g x) := by
  constructor
  · intro heq x hx
    have hxt := (FlatGrammar.mem_terminals.1 hx).1
    rw [← contains_lexSet h hxt, ← contains_lexSet h hxt, heq]
  · intro hall
    refine TokenSet.ext_contains fun x hx => ?_
    rw [Bool.eq_iff_iff, contains_lexSet h hx, contains_lexSet h hx]
    constructor
    · intro he
      exact (hall x (he.mem_terminals h hs hx)).1 he
    · intro he
      exact (hall x (he.mem_terminals h hu hx)).2 he

theorem Tables.within_lexSet [RegexEngine] (h : FlatGrammar.ofGrammar source = .ok g) {s : State}
    (hs : s.actions.size ≤ g.tokenCount) : (lexSet g s).Within g.tokenCount := by
  refine TokenSet.within_of_contains fun x hx hc => ?_
  have hmem := ((contains_lexSet h hx).1 hc).mem_terminals h hs hx
  exact (FlatGrammar.mem_terminals.1 hmem).2

theorem Tables.lex_of_ofGrammar (ht : Tables.ofGrammar g = .ok t) :
    t.lexSets = (t.table.states.toList.map (lexSet g)).eraseDups ∧
      t.lexStates = (t.table.states.toList.map (lexSet g)).map t.lexSets.idxOf := by
  obtain ⟨⟨canonical, conflicts⟩, -, ht⟩ := bind_eq_ok.1 ht
  cases ht
  exact ⟨rfl, rfl⟩

/-- The words of the row of a lexer state in the source text. The first line is the array's head. -/
def Encoding.Source.row? (e : Encoding) (k : Nat) : Option (List UInt64) :=
  (lexSets e)[k + 1]?.bind readRow?

theorem Encoding.Source.row?_eq {e : Encoding} (hcount : 0 < e.tokenCount) {k : Nat}
    {valid : TokenSet} (h : e.lexSets[k]? = some valid) :
    row? e k = some (valid.words e.setWords) := by
  have hne : valid.words e.setWords ≠ [] := by
    refine List.ne_nil_of_length_pos ?_
    simp only [TokenSet.words, setWords, List.length_map, List.length_range]
    omega
  obtain ⟨w, ws, hwords⟩ := List.exists_cons_of_ne_nil hne
  have hlt := (List.getElem?_eq_some_iff.1 h).1
  simp only [row?, lexSets, array]
  rw [List.cons_append, List.getElem?_cons_succ, List.getElem?_append_left (by simpa using hlt),
    List.getElem?_map, h, Option.map_some, Option.bind_some, hwords]
  exact readRow?_text w ws

/-- The lexer state of a state is the place of what the state's lexer may return. -/
theorem Tables.getElem?_lexStates (ht : Tables.ofGrammar g = .ok t) {q : Nat} {s : State}
    (hs : t.table.states[q]? = some s) :
    t.lexStates[q]? = some (t.lexSets.idxOf (lexSet g s)) ∧ lexSet g s ∈ t.lexSets := by
  obtain ⟨hsets, hstates⟩ := lex_of_ofGrammar ht
  constructor
  · rw [hstates, List.map_map, List.getElem?_map, Array.getElem?_toList, hs]
    rfl
  · rw [hsets]
    exact List.mem_eraseDups.2 (List.mem_map_of_mem
      (Array.mem_toList_iff.2 (Array.mem_of_getElem? hs)))

/-- Each lexer sees exactly the tokens of its states, with the word token for the keywords. -/
theorem lexer_rows_exact [RegexEngine] {version : Version} {e : Encoding}
    (h : FlatGrammar.ofGrammar source = .ok g) (ht : Tables.ofGrammar g = .ok t)
    (he : Encoding.ofTables g t version = .ok e) :
    (∀ k < e.lexSets.length, ∃ row, Encoding.Source.row? e k = some row ∧
      row.length = e.setWords) ∧
    (∀ (q : Nat) (s : State), t.table.states[q]? = some s →
      ∃ k < e.lexSets.length, ∃ row, e.lexModes[q]? = some k ∧
        Encoding.Source.row? e k = some row ∧
        (∀ x ∈ g.terminals, TokenSet.testWords row (g.symbolId x) = true ↔ s.Expects g x) ∧
        ∀ (q' : Nat) (s' : State), t.table.states[q']? = some s' → (e.lexModes[q']? = some k ↔
          ∀ x ∈ g.terminals, (s'.Expects g x ↔ s.Expects g x))) ∧
    e.lexModes[0]? = some 0 := by
  have hsize : ∀ s ∈ t.table.states, s.actions.size ≤ g.tokenCount :=
    (Tables.fits_of_ofGrammar ht).actions
  have hl := Encoding.lists_of_ofTables he
  have hcount : 0 < e.tokenCount := by
    rw [hl.tokenCount, FlatGrammar.tokenCount]
    omega
  rw [hl.lexSets, (Encoding.parts_of_ofTables he).lexModes]
  refine ⟨fun k hk => ?_, fun q s hs => ?_, ?_⟩
  · have hvalid := List.getElem?_eq_getElem hk
    obtain ⟨s, hs, hset⟩ := Tables.exists_of_mem_lexSets ht (List.mem_of_getElem? hvalid)
    rw [hset] at hvalid
    have hwithin := Tables.within_lexSet h (hsize s hs)
    rw [← hl.tokenCount] at hwithin
    exact ⟨_, Encoding.Source.row?_eq hcount (hl.lexSets ▸ hvalid), TokenSet.length_words hwithin⟩
  · obtain ⟨hmode, hmem⟩ := Tables.getElem?_lexStates ht hs
    have hvalid : e.lexSets[t.lexSets.idxOf (Tables.lexSet g s)]? = some (Tables.lexSet g s) := by
      rw [hl.lexSets]
      exact List.getElem?_idxOf hmem
    refine ⟨_, List.idxOf_lt_length_of_mem hmem, _, hmode, Encoding.Source.row?_eq hcount hvalid,
      fun x hx => ?_, fun q' s' hs' => ?_⟩
    · obtain ⟨hxt, hlt⟩ := FlatGrammar.mem_terminals.1 hx
      rw [← TokenSet.symbolAt_position hxt, Encoding.symbolId_symbolAt, TokenSet.testWords_words,
        TokenSet.testBit_eq_contains]
      exact Tables.contains_lexSet h (TokenSet.isTerminal_symbolAt _)
    · obtain ⟨hmode', hmem'⟩ := Tables.getElem?_lexStates ht hs'
      rw [hmode', ← Tables.lexSet_eq_iff h (hsize _ (Array.mem_of_getElem? hs'))
        (hsize _ (Array.mem_of_getElem? hs)), Option.some_inj, List.idxOf_inj hmem']
  · have htwo := (Tables.indexed_of_ofGrammar
      (FlatGrammar.wellFormed_of_ofGrammar h) ht).table.two_le
    cases hlist : t.table.states.toList with
    | nil =>
      rw [← Array.length_toList, hlist] at htwo
      cases htwo
    | cons s rest =>
      have hs : t.table.states[0]? = some s := by simp [← Array.getElem?_toList, hlist]
      rw [(Tables.getElem?_lexStates ht hs).1, (Tables.lex_of_ofGrammar ht).1, hlist, List.map_cons,
        List.eraseDups_cons, List.idxOf_cons_self]

end

/-- A grammar with words, of which one is a keyword. -/
def Grammar.guarded : Grammar where
  name := "guarded"
  rules := [⟨"start", .seq [.string "if", .symbol "name"]⟩, ⟨"name", .pattern "[a-z]+" none⟩]
  word := some "name"

/-- The tables of guarded words, where the start state waits for the keyword and for nothing
else. -/
theorem Encoding.exists_guarded : ∃ g t e s, FlatGrammar.ofGrammar .guarded = .ok g ∧
    Tables.ofGrammar g = .ok t ∧ Encoding.ofTables g t ⟨1, 0, 0⟩ = .ok e ∧
    g.tokens.size = 2 ∧ g.word = some (.terminal 1) ∧ g.keywords = [.terminal 0] ∧
    t.table.states[1]? = some s ∧ s.on (.terminal 0) ≠ [] ∧ s.on (.terminal 1) = [] := by
  have h : ((FlatGrammar.ofGrammar .guarded).toOption.any fun g =>
      (Tables.ofGrammar g).toOption.any fun t =>
        (Encoding.ofTables g t ⟨1, 0, 0⟩).toOption.any fun _ => t.table.states[1]?.any fun s =>
          decide (g.tokens.size = 2 ∧ g.word = some (.terminal 1) ∧ g.keywords = [.terminal 0] ∧
            s.on (.terminal 0) ≠ [] ∧ s.on (.terminal 1) = [])) = true := by
    simp only [Tables.ofGrammar, ParseTable.canonical, Automaton.states_eq, Automaton.cores,
      Numbering.ofList_eq, Merge.states, Merge.groups_eq, StateOrder.states, StateOrder.order_eq,
      Encoding.ofTables, Encoding.numberEntries_eq, Encoding.smallGroups_eq]
    decide +kernel
  obtain ⟨g, t, e, hg, ht, he, h⟩ := Encoding.exists_evaluated h
  obtain ⟨s, hs, h⟩ := (Option.any_eq_true _ _).1 h
  obtain ⟨hsize, hword, hkeywords, hif, hname⟩ := of_decide_eq_true h
  exact ⟨g, t, e, s, hg, ht, he, hsize, hword, hkeywords, hs, hif, hname⟩

/-- Where the keyword of the guarded words is expected, the lexer sees the word token. -/
theorem lexer_rows_exact_guarded : ∃ g t e k row, FlatGrammar.ofGrammar .guarded = .ok g ∧
    Tables.ofGrammar g = .ok t ∧ Encoding.ofTables g t ⟨1, 0, 0⟩ = .ok e ∧
    e.lexModes[1]? = some k ∧ Encoding.Source.row? e k = some row ∧
    TokenSet.testWords row 1 = false ∧ TokenSet.testWords row 2 = true := by
  obtain ⟨g, t, e, s, hg, ht, he, hsize, hword, hkeywords, hs, hif, hname⟩ :=
    Encoding.exists_guarded
  obtain ⟨k, -, row, hk, hrow, hbits, -⟩ := (lexer_rows_exact hg ht he).2.1 1 s hs
  refine ⟨g, t, e, k, row, hg, ht, he, hk, hrow, ?_, ?_⟩
  · rw [← Bool.not_eq_true]
    intro hbit
    have hexp := (hbits (.terminal 0) (by simp [FlatGrammar.terminals, hsize])).1 hbit
    simp [State.Expects, hkeywords, hword] at hexp
  · refine (hbits (.terminal 1) (by simp [FlatGrammar.terminals, hsize])).2 (.inr ⟨hword, .inr ?_⟩)
    exact ⟨.terminal 0, by simp [hkeywords], hif⟩

end GrammarTables
