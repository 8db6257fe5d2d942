import GrammarTables.Proofs.Yaral.LongestMatch

/-!
# Where the end is reported

The lexer reports the end exactly where the state allows it and nothing but padding was skipped up
to a place at which no character is: the end of the input, or a code that is no character. Scanners
that start at a character read on from there, and accept valid tokens only and never the end.
-/

namespace GrammarTables

/-- Whether a code stands for a character. -/
def Input.IsCharacter (code : Int) : Prop := 0 ≤ code ∧ code.toNat.isValidChar

namespace Input

/-- At a place of codes there is no character: the codes end there, or the code is none. -/
theorem join_getElem?_ofCodes {codes : List Int} {i : Nat} : (ofCodes codes)[i]?.join = none ↔
    codes.length ≤ i ∨ ∃ code ∈ codes[i]?, ¬ IsCharacter code := by
  rw [ofCodes, List.getElem?_map]
  cases h : codes[i]? with
  | none => simpa using List.getElem?_eq_none_iff.1 h
  | some code =>
    have hlt := (List.getElem?_eq_some_iff.1 h).1
    simp [IsCharacter, Nat.not_le.2 hlt]

/-- A code that shows as a character with a property is the number of such a character. -/
theorem any_getElem?_ofCodes {codes : List Int} {i : Nat} {p : Char → Bool} :
    (ofCodes codes)[i]?.join.any p = true ↔ ∃ x : Char, codes[i]? = some (x.toNat : Int) ∧
      p x = true := by
  rw [ofCodes, List.getElem?_map]
  cases h : codes[i]? with
  | none => simp
  | some code =>
    simp only [Option.map_some, Option.join_some, Option.some.injEq]
    split
    · rename_i hcode
      have hnat : (Char.ofNat code.toNat).toNat = code.toNat := by
        rw [Char.ofNat, dif_pos hcode.2]
        rfl
      constructor
      · intro hp
        exact ⟨_, by omega, hp⟩
      · rintro ⟨x, rfl, hp⟩
        simpa using hp
    · rename_i hcode
      constructor
      · simp
      · rintro ⟨x, rfl, -⟩
        refine absurd ⟨Int.natCast_nonneg _, ?_⟩ hcode
        rw [Int.toNat_natCast]
        exact x.valid

end Input

namespace Cursor

variable {c d : Cursor} {p : Char → Bool} {t : Symbol} {b : Bool} {valid : TokenSet} {x : Char}
  {n : Nat}

theorem position_skipWhile_new (text : Input) (place : Nat) (p : Char → Bool) :
    ((new text place).skipWhile p).position =
      place + ((text.drop place).takeWhile fun x => x.any p).length := by
  have hle := (List.takeWhile_prefix (l := text.drop place) fun x => x.any p).length_le
  simp only [skipWhile, Cursor.advanceWhile, Cursor.advance, count, new, Nat.min_eq_left hle]

/-- From a place on, a text is what is skipped there and what is behind it. -/
theorem getElem?_add_of_skip (text : Input) (place n : Nat) (p : Char → Bool) :
    text[place + n]? = ((text.drop place).takeWhile (fun x => x.any p) ++
      (text.drop place).dropWhile fun x => x.any p)[n]? := by
  rw [List.takeWhile_append_dropWhile, List.getElem?_drop]

/-- What is skipped satisfies the test. -/
theorem any_of_lt_skipWhile_new {text : Input} {place i : Nat} (hi : place ≤ i)
    (hlt : i < ((new text place).skipWhile p).position) : text[i]?.join.any p = true := by
  rw [position_skipWhile_new] at hlt
  obtain ⟨n, rfl⟩ := Nat.exists_eq_add_of_le hi
  have hn : n < ((text.drop place).takeWhile fun x => x.any p).length := by omega
  rw [getElem?_add_of_skip text place n p, List.getElem?_append_left hn,
    List.getElem?_eq_getElem hn]
  exact List.mem_takeWhile_imp (p := fun x : Option Char => x.any p) (List.getElem_mem hn)

/-- Behind what is skipped there is no character, or one that does not satisfy the test. -/
theorem peek?_skipWhile_new (text : Input) (place : Nat) (p : Char → Bool) :
    let c := (new text place).skipWhile p
    c.peek? = text[c.position]?.join ∧ c.peek?.any p = false := by
  have hrest : ((new text place).skipWhile p).rest =
      (text.drop place).dropWhile fun x => x.any p := by
    have hsplit : (text.drop place).takeWhile (fun x => x.any p) ++
        ((new text place).skipWhile p).rest = text.drop place :=
      List.prefix_iff_eq_append.1 (List.takeWhile_prefix _)
    exact List.append_cancel_left (hsplit.trans List.takeWhile_append_dropWhile.symm)
  refine ⟨?_, ?_⟩
  · rw [position_skipWhile_new, getElem?_add_of_skip text place _ p,
      List.getElem?_append_right (Nat.le_refl _), Nat.sub_self, peek?, hrest,
      List.head?_eq_getElem?]
  · have hhead := List.head?_dropWhile_not (fun x : Option Char => x.any p) (text.drop place)
    rw [peek?, hrest]
    cases h : ((text.drop place).dropWhile fun x => x.any p).head? with
    | none => rfl
    | some x =>
      rw [h] at hhead
      exact hhead

/-- One cursor comes from another by reading some characters. What was accepted on the way is a
valid token with characters, and not the end. -/
structure Beyond (valid : TokenSet) (c d : Cursor) : Prop where
  start : d.start = c.start
  position : c.position < d.position
  length : d.position + d.rest.length = c.position + c.rest.length
  accepted : d.accepted = c.accepted ∨ ∃ t n, d.accepted = some (t, n) ∧
    valid.contains t = true ∧ t ≠ .eof ∧ c.position < n ∧ n ≤ d.position

/-- One cursor is another, or comes from it by reading characters. -/
def Onward (valid : TokenSet) (c d : Cursor) : Prop := d = c ∨ c.Beyond valid d

theorem length_advance (c : Cursor) (n : Nat) :
    (c.advance n).position + (c.advance n).rest.length = c.position + c.rest.length := by
  simp only [Cursor.advance, List.length_drop]
  omega

theorem beyond_advance (hx : c.peek? = some x) (hn : 0 < n) : c.Beyond valid (c.advance n) where
  start := rfl
  position := by
    have hlength : 0 < c.rest.length := by
      apply List.length_pos_iff.2
      rintro hnil
      simp [peek?, hnil] at hx
    simp only [Cursor.advance]
    omega
  length := length_advance c n
  accepted := .inl rfl

theorem beyond_advanceWhile (hx : c.peek? = some x) (hp : p x = true) :
    c.Beyond valid (c.advanceWhile p) := by
  refine beyond_advance hx ?_
  obtain ⟨rest, hrest⟩ : ∃ rest, c.rest = some x :: rest := by
    cases h : c.rest with
    | nil => simp [peek?, h] at hx
    | cons y rest => exact ⟨rest, by simpa [peek?, h] using hx⟩
  simp [count, hrest, hp]

namespace Beyond

theorem advance (h : c.Beyond valid d) (n : Nat) : c.Beyond valid (d.advance n) where
  start := h.start
  position := h.position.trans_le (Nat.le_add_right _ _)
  length := (length_advance d n).trans h.length
  accepted := by
    rcases h.accepted with hsame | ⟨t, m, hm, hv, ht, hlt, hle⟩
    · exact .inl hsame
    · exact .inr ⟨t, m, hm, hv, ht, hlt, hle.trans (Nat.le_add_right _ _)⟩

theorem advanceWhile (h : c.Beyond valid d) (p : Char → Bool) :
    c.Beyond valid (d.advanceWhile p) := h.advance _

theorem accept (h : c.Beyond valid d) (hv : valid.contains t = true) (ht : t ≠ .eof) :
    c.Beyond valid (d.accept t) where
  start := h.start
  position := h.position
  length := h.length
  accepted := .inr ⟨t, d.position, rfl, hv, ht, h.position, le_rfl⟩

theorem acceptIf (h : c.Beyond valid d) (hv : b = true → valid.contains t = true) (ht : t ≠ .eof) :
    c.Beyond valid (d.acceptIf b t) := by
  cases b with
  | false => exact h
  | true => exact h.accept (hv rfl) ht

theorem acceptValid (h : c.Beyond valid d) (ht : t ≠ .eof) :
    c.Beyond valid (d.acceptIf (valid.contains t) t) := h.acceptIf id ht

theorem onward (h : c.Beyond valid d) : c.Onward valid d := .inr h

end Beyond

namespace Onward

theorem refl (valid : TokenSet) (c : Cursor) : c.Onward valid c := .inl rfl

theorem position (h : c.Onward valid d) : c.position ≤ d.position := by
  rcases h with rfl | h
  · exact le_rfl
  · exact h.position.le

theorem accepted (h : c.Onward valid d) (hc : c.accepted.map (·.1) ≠ some .eof) :
    d.accepted.map (·.1) ≠ some .eof := by
  rcases h with rfl | h
  · exact hc
  · rcases h.accepted with hsame | ⟨t, n, hn, -, ht, -⟩
    · rwa [hsame]
    · simpa [hn] using ht

end Onward

end Cursor

namespace Yaral

open Terminal Lexer Cursor

variable {valid : TokenSet} {c d : Cursor} {x : Char} {t u : Symbol}

theorem terminal_ne_eof (n : Nat) : Symbol.terminal n ≠ .eof := Symbol.noConfusion

theorem beyond_closing (h : c.Beyond valid d) (hv : valid.contains t = true) (ht : t ≠ .eof)
    (scan : Input → Nat × Bool) : c.Beyond valid (closing d t scan) :=
  (h.advance _).acceptIf (fun _ => hv) ht

section Scanners

variable (hx : c.peek? = some x)

include hx

theorem beyond_lexQuote (ht : t ≠ .eof) (hu : u ≠ .eof) :
    c.Beyond valid (lexQuote valid t u c) := by
  have h : c.Beyond valid (c.advance 1) := beyond_advance hx one_pos
  unfold lexQuote
  split
  · rename_i hv
    exact h.accept hv ht
  · exact h.acceptValid hu

theorem beyond_lexEscape (hv : valid.contains escapeSequence = true) :
    c.Beyond valid (lexEscape c) := by
  have h : c.Beyond valid (c.advance 1) := beyond_advance hx one_pos
  have hhex : ∀ needed exact, c.Beyond valid (lexHex needed exact (c.advance 1)) := fun _ _ =>
    ((h.advance 1).advance _).acceptIf (fun _ => hv) (terminal_ne_eof _)
  simp only [lexEscape]
  split
  · exact h
  · exact hhex _ _
  · exact hhex _ _
  · exact hhex _ _
  · exact (h.advance _).accept hv (terminal_ne_eof _)

theorem beyond_lexNumber (hdigit : isDigit x = true) : c.Beyond valid (lexNumber valid c) := by
  have hdigits : c.Beyond valid (c.advanceWhile isDigit) := beyond_advanceWhile hx hdigit
  have h : c.Beyond valid (whole valid c) := by
    unfold whole
    split
    · rename_i hv
      exact hdigits.accept hv (terminal_ne_eof _)
    · exact hdigits.acceptValid (terminal_ne_eof _)
  rw [lexNumber_eq]
  split
  · rename_i hpoint
    exact ((h.advance 1).advanceWhile _).accept (Bool.and_eq_true_iff.1 hpoint).2
      (terminal_ne_eof _)
  · exact h

theorem beyond_lexDot (valid : TokenSet) : c.Beyond valid (lexDot valid c) := by
  have h : c.Beyond valid ((c.advance 1).acceptIf (valid.contains dot) dot) :=
    (beyond_advance hx one_pos).acceptValid (terminal_ne_eof _)
  simp only [lexDot]
  split
  · rename_i hname
    exact (h.advanceWhile _).accept (Bool.and_eq_true_iff.1 hname).2 (terminal_ne_eof _)
  split
  · rename_i hfraction
    exact (h.advanceWhile _).accept (Bool.and_eq_true_iff.1 hfraction).2 (terminal_ne_eof _)
  · exact h

theorem beyond_lexSlash (valid : TokenSet) : c.Beyond valid (lexSlash valid c) := by
  have h : c.Beyond valid ((c.advance 1).acceptIf (valid.contains slash) slash) :=
    (beyond_advance hx one_pos).acceptValid (terminal_ne_eof _)
  simp only [lexSlash]
  split
  · exact h
  split
  · rename_i hline
    exact ((h.advance 1).advance _).accept (Bool.and_eq_true_iff.1 hline).2 (terminal_ne_eof _)
  split
  · rename_i hblock
    exact beyond_closing (h.advance 1) (Bool.and_eq_true_iff.1 hblock).2 (terminal_ne_eof _) _
  split
  · rename_i hregex
    exact beyond_closing (h.advance 1) (Bool.and_eq_true_iff.1 hregex).2 (terminal_ne_eof _) _
  · exact h

theorem beyond_lexRawString (hv : valid.contains rawString = true) :
    c.Beyond valid (lexRawString c) := by
  have h : c.Beyond valid ((c.advance 1).advanceWhile (· != '\x60')) :=
    (beyond_advance hx one_pos).advanceWhile _
  simp only [lexRawString]
  split
  · exact (h.advance 1).accept hv (terminal_ne_eof _)
  · exact h

theorem beyond_lexWithEqual (ht : t ≠ .eof) (hu : u ≠ .eof) :
    c.Beyond valid (lexWithEqual valid t u c) := by
  have h : c.Beyond valid ((c.advance 1).acceptIf (valid.contains t) t) :=
    (beyond_advance hx one_pos).acceptValid ht
  simp only [lexWithEqual]
  split
  · rename_i hequal
    exact (h.advance 1).accept (Bool.and_eq_true_iff.1 hequal).2 hu
  · exact h

omit hx in
theorem single?_ne_eof (h : single? x = some t) : t ≠ .eof := by
  unfold single? at h
  split at h
  all_goals
    cases h
  all_goals exact terminal_ne_eof _

/-- What starts with a character is read past it, or not at all, and is not the end. -/
theorem onward_lexFrom (valid : TokenSet) : c.Onward valid (lexFrom valid c x) := by
  unfold lexFrom
  split
  · rename_i hs
    split
    · rename_i hv
      exact ((beyond_advance hx one_pos).accept hv (single?_ne_eof hs)).onward
    · exact .refl valid c
  split
  · rename_i hstart
    split
    · rename_i hv
      have h : c.Beyond valid (c.advanceWhile Keyword.isWordPart) :=
        beyond_advanceWhile hx (Keyword.isWordPart_of_isWordStart hstart)
      exact (h.accept hv (terminal_ne_eof _)).onward
    · exact .refl valid c
  split
  · rename_i hdigit
    exact (beyond_lexNumber hx hdigit).onward
  split
  · exact (beyond_lexDot hx valid).onward
  · exact (beyond_lexSlash hx valid).onward
  · split
    · rename_i hv
      exact (beyond_lexRawString hx hv).onward
    · exact .refl valid c
  · exact (beyond_lexQuote hx (terminal_ne_eof _) (terminal_ne_eof _)).onward
  · exact (beyond_lexWithEqual hx (terminal_ne_eof _) (terminal_ne_eof _)).onward
  · exact (beyond_lexWithEqual hx (terminal_ne_eof _) (terminal_ne_eof _)).onward
  · exact (beyond_lexWithEqual hx (terminal_ne_eof _) (terminal_ne_eof _)).onward
  · exact .refl valid c

/-- The content of a string is accepted if there is any. -/
theorem onward_content (hv : valid.contains stringContent = true) (p : Char → Bool) :
    c.Onward valid ((c.advance (c.count p)).acceptIf (0 < c.count p) stringContent) := by
  by_cases hlt : 0 < c.count p
  · exact ((beyond_advance hx hlt).acceptIf (fun _ => hv) (terminal_ne_eof _)).onward
  · obtain hzero : c.count p = 0 := Nat.eq_zero_of_not_pos hlt
    rw [hzero]
    exact .refl valid c

end Scanners

/-- What the lexer does behind the padding: before a character it goes on, and otherwise it accepts
the end where that is valid. -/
theorem lex_cases (valid : TokenSet) (c : Cursor) :
    let skipped := c.skipWhile (isPadding valid)
    (skipped.peek? = none ∧
      Lexer.lex valid c = skipped.acceptIf (valid.contains .eof) .eof) ∨
    ∃ x, skipped.peek? = some x ∧ skipped.Onward valid (Lexer.lex valid c) := by
  unfold Lexer.lex
  split
  · rename_i hin
    simp only [isPadding_of_inString hin, lexInString]
    split
    · rename_i hpeek
      exact .inl ⟨hpeek, rfl⟩
    · rename_i hpeek
      exact .inr ⟨_, hpeek, (beyond_lexQuote hpeek (terminal_ne_eof _) (terminal_ne_eof _)).onward⟩
    · rename_i hpeek
      refine .inr ⟨_, hpeek, ?_⟩
      split
      · rename_i hback
        exact (beyond_lexEscape hpeek (Bool.and_eq_true_iff.1 hback).2).onward
      split
      · rename_i hv
        exact onward_content hpeek hv _
      · exact .refl valid _
  · rename_i hout
    simp only [isPadding_of_outside (Bool.eq_false_iff.2 hout), lexOutside]
    split
    · rename_i hpeek
      exact .inl ⟨hpeek, rfl⟩
    · rename_i hpeek
      exact .inr ⟨_, hpeek, onward_lexFrom hpeek valid⟩

/-- The end is reported exactly in the states that allow it, where nothing but padding was skipped
and the lexer stands at the end of the codes or at a code that is no character. -/
theorem lex_end_iff (l : Language) (q : Nat) (codes : List Int) (place : Nat) :
    let lexeme := lex l q (.ofCodes codes) place
    lexeme.symbol = some .eof ↔ ∃ valid, l.lexSet? q = some valid ∧ valid.contains .eof = true ∧
      (∀ i, place ≤ i → i < lexeme.position →
        ∃ x : Char, codes[i]? = some (x.toNat : Int) ∧ isPadding valid x = true) ∧
      (codes.length ≤ lexeme.position ∨
        ∃ code ∈ codes[lexeme.position]?, ¬ Input.IsCharacter code) := by
  simp only [lex]
  cases hq : l.lexSet? q with
  | none => simp [Cursor.lexeme, Cursor.new]
  | some valid =>
    simp only [Option.some.injEq, exists_eq_left', ← Input.any_getElem?_ofCodes,
      ← Input.join_getElem?_ofCodes]
    generalize Input.ofCodes codes = text
    obtain ⟨hpeek, hstop⟩ := peek?_skipWhile_new text place (isPadding valid)
    rcases lex_cases valid (.new text place) with ⟨hnone, hlex⟩ | ⟨x, hx, honward⟩
    · rw [hpeek] at hnone
      cases hend : valid.contains .eof with
      | false =>
        rw [hlex, hend]
        simp [Cursor.lexeme, Cursor.new]
      | true =>
        simp only [hlex, hend, Cursor.lexeme, Cursor.acceptIf, Cursor.accept, if_true,
          Option.map_some, true_and, true_iff]
        exact ⟨fun i hi hlt => any_of_lt_skipWhile_new hi hlt, hnone⟩
    · constructor
      · intro h
        exact absurd h (honward.accepted (by simp [Cursor.new]))
      · rintro ⟨-, hpadding, hnone⟩
        -- The lexer cannot have gone past the character, which is no padding, nor stopped at it.
        rcases Nat.lt_or_eq_of_le honward.position with hlt | heq
        · have := hpadding _ (by rw [position_skipWhile_new]; omega) hlt
          rw [← hpeek, hstop] at this
          cases this
        · change text[(Lexer.lex valid (.new text place)).position]?.join = none at hnone
          rw [← heq, ← hpeek, hx] at hnone
          cases hnone

end Yaral

end GrammarTables
