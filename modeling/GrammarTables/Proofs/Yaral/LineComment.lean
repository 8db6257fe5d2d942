import GrammarTables.Proofs.Yaral.LongestMatch

/-!
# Line comments

The rule of comments takes a line comment to the end of its line, and a run of backslashes takes it
over the character behind the run, or over the line break there. The scanner reads the longest text
that the rule matches, except where a run of one backslash ends the input: the rule wants a
character behind it, and the scanner takes the backslash all the same.
-/

namespace GrammarTables.Yaral

open Terminal Lexer

/-- The texts of line comments behind the slashes, given whether a run of backslashes before them
waits for its character. -/
inductive LineRest : Bool → List Char → Prop
  | nil : LineRest false []
  | char {c : Char} {w : List Char} : c ≠ '\\' → c ≠ '\n' → LineRest false w →
      LineRest false (c :: w)
  | backslash {waits : Bool} {w : List Char} : LineRest true w → LineRest waits ('\\' :: w)
  | escaped {c : Char} {w : List Char} : LineRest false w → LineRest true (c :: w)
  | lineBreak {w : List Char} : LineRest false w → LineRest true ('\r' :: '\n' :: w)

variable {waits : Bool} {w v s : List Char} {c : Char} {n : Nat} {b a : Option Char}

/-- A text that is not empty may also stand behind a run of backslashes. -/
theorem LineRest.wait (h : LineRest false w) (hw : w ≠ []) : LineRest true w := by
  cases h with
  | nil => exact absurd rfl hw
  | char _ _ h => exact .escaped h
  | backslash h => exact .backslash h

section Pattern

/-- What a run of backslashes takes with it. -/
def escapedItem : Regex :=
  .group (.alternate (.chars ⟨[(0, 9), (11, 1112063)]⟩)
    (.concat (.repeated (.chars ⟨[(13, 13)]⟩) 0 (some 1)) (.chars ⟨[(10, 10)]⟩)))

/-- One stretch of a line comment. -/
def lineItem : Regex :=
  .group (.alternate (.concat (.repeated (.chars ⟨[(92, 92)]⟩) 1 none) escapedItem)
    (.chars ⟨[(0, 9), (11, 91), (93, 1112063)]⟩))

theorem parse?_line : Regex.parse? (TokenPattern.patternSource
    (.ofList (id "(\\\\+(.|\\r?\\n)|[^\\\\\\n])*".toList)) none) =
      some (.repeated lineItem 0 none) := by
  decide

theorem contains_lineChar :
    (⟨[(0, 9), (11, 91), (93, 1112063)]⟩ : CharSet).contains c = true ↔ c ≠ '\\' ∧ c ≠ '\n' := by
  have h := CharSet.ordinal_cases c
  simp [CharSet.contains, Text.inRanges, ← Char.toNat_inj]
  omega

/-- It is one character, or a line break of two. -/
theorem matches_escapedItem : escapedItem.Matches b a w ↔ (∃ c, w = [c]) ∨ w = ['\r', '\n'] := by
  simp only [escapedItem, Regex.matches_group, Regex.matches_alternate, Regex.matches_concat,
    Regex.matches_chars, Regex.matches_repeated_chars, contains_notNewline,
    contains_single _ 13 '\r' rfl (by decide), contains_single _ 10 '\n' rfl (by decide)]
  constructor
  · rintro (⟨c, rfl, -⟩ | ⟨u, _, rfl, ⟨-, hlength, hu⟩, _, rfl, rfl⟩)
    · exact .inl ⟨c, rfl⟩
    · match u with
      | [] => exact .inl ⟨_, rfl⟩
      | [c] =>
        obtain rfl := hu c (by simp)
        exact .inr rfl
      | _ :: _ :: _ =>
        have := hlength 1 rfl
        simp at this
  · rintro (⟨c, rfl⟩ | rfl)
    · by_cases hc : c = '\n'
      · exact .inr ⟨[], [c], rfl, by simp, c, rfl, hc⟩
      · exact .inl ⟨c, rfl, hc⟩
    · exact .inr ⟨['\r'], ['\n'], rfl, by simp, '\n', rfl, rfl⟩

theorem matches_lineItem : lineItem.Matches b a w ↔
    (∃ u v, w = u ++ v ∧ (u ≠ [] ∧ ∀ c ∈ u, c = '\\') ∧ ((∃ c, v = [c]) ∨ v = ['\r', '\n'])) ∨
      ∃ c, w = [c] ∧ c ≠ '\\' ∧ c ≠ '\n' := by
  simp only [lineItem, Regex.matches_group, Regex.matches_alternate, Regex.matches_concat,
    Regex.matches_many1_chars, Regex.matches_chars, matches_escapedItem, contains_lineChar,
    contains_single _ 92 '\\' rfl (by decide)]

theorem LineRest.append_backslashes {u : List Char} (hne : u ≠ []) (hu : ∀ c ∈ u, c = '\\')
    (hv : LineRest true v) : LineRest waits (u ++ v) := by
  induction u generalizing waits with
  | nil => exact absurd rfl hne
  | cons c u ih =>
    obtain ⟨rfl, htail⟩ := List.forall_mem_cons.1 hu
    refine .backslash ?_
    cases u with
    | nil => exact hv
    | cons d u => exact ih (by simp) htail

theorem lineRest_of_items (h : (Regex.repeated lineItem 0 none).Matches b a w) :
    LineRest false w := by
  refine h.many_induction .nil fun b a u v hu hv => ?_
  rcases matches_lineItem.1 hu with ⟨u, d, rfl, ⟨hne, hu⟩, hd⟩ | ⟨c, rfl, hback, hline⟩
  · rw [List.append_assoc]
    apply LineRest.append_backslashes hne hu
    rcases hd with ⟨c, rfl⟩ | rfl
    · exact .escaped hv
    · exact .lineBreak hv
  · exact .char hback hline hv

/-- A stretch before others. -/
theorem matches_items_append (hu : ∀ b a, lineItem.Matches b a w)
    (hv : ∀ b, (Regex.repeated lineItem 0 none).Matches b a v) :
    (Regex.repeated lineItem 0 none).Matches b a (w ++ v) :=
  .more (by simp) (hu _ _) (hv _)

theorem matches_items_escape {u d : List Char} (hu : ∀ c ∈ u, c = '\\') (hne : u ≠ [])
    (hd : (∃ c, d = [c]) ∨ d = ['\r', '\n'])
    (hv : ∀ b, (Regex.repeated lineItem 0 none).Matches b a v) :
    (Regex.repeated lineItem 0 none).Matches b a (u ++ (d ++ v)) := by
  rw [← List.append_assoc]
  exact matches_items_append (fun _ _ => matches_lineItem.2 (.inl ⟨u, d, rfl, ⟨hne, hu⟩, hd⟩)) hv

/-- The stretches from a run of backslashes on, or from none. -/
theorem LineRest.matches_items (h : LineRest waits w) {u : List Char} (hu : ∀ c ∈ u, c = '\\')
    (hwaits : u ≠ [] ↔ waits = true) : (Regex.repeated lineItem 0 none).Matches b a (u ++ w) := by
  induction h generalizing u b with
  | nil =>
    obtain rfl : u = [] := by simpa using hwaits
    exact .done
  | @char c w hback hline _ ih =>
    obtain rfl : u = [] := by simpa using hwaits
    have hchar : ∀ b a, lineItem.Matches b a [c] := fun b a =>
      matches_lineItem.2 (.inr ⟨c, rfl, hback, hline⟩)
    exact matches_items_append (w := [c]) hchar fun _ => ih (u := []) (by simp) (by simp)
  | @backslash waits w _ ih =>
    have hrest := ih (b := b) (u := u ++ ['\\']) (by grind) (by simp)
    simpa using hrest
  | @escaped c w _ ih =>
    exact matches_items_escape (d := [c]) hu (hwaits.2 rfl) (.inl ⟨c, rfl⟩)
      fun _ => ih (u := []) (by simp) (by simp)
  | lineBreak _ ih =>
    exact matches_items_escape (d := ['\r', '\n']) hu (hwaits.2 rfl) (.inr rfl)
      fun _ => ih (u := []) (by simp) (by simp)

theorem matches_line : (Rules.regex "(\\\\+(.|\\r?\\n)|[^\\\\\\n])*").Matches id b a w ↔
    LineRest false w :=
  (Rule.matches_pattern parse?_line).trans
    ⟨lineRest_of_items, fun h => h.matches_items (u := []) (by simp) (by simp)⟩

end Pattern

section Scanner

/-- How far a scanner went: to the end of the longest text at the front, or over a backslash behind
it that ends the input. -/
def ScansLine (waits : Bool) (s : List Char) (n : Nat) : Prop :=
  ∃ w tail, s = w ++ tail ∧ LineRest waits w ∧
    (∀ v, LineRest waits v → v <+: s → v.length ≤ w.length) ∧
    n = w.length + if tail = ['\\'] then 1 else 0

/-- A scanner that takes some characters and goes on. -/
theorem ScansLine.append {next : Bool} {u : List Char} (h : ScansLine next s n)
    (hu : ∀ w, LineRest next w → LineRest waits (u ++ w))
    (hv : ∀ v, LineRest waits v → v <+: u ++ s →
      v.length ≤ u.length ∨ ∃ w, v = u ++ w ∧ LineRest next w) :
    ScansLine waits (u ++ s) (n + u.length) := by
  obtain ⟨w, tail, rfl, hw, hmax, rfl⟩ := h
  refine ⟨u ++ w, tail, by simp, hu w hw, fun v hrest hp => ?_, by grind⟩
  rcases hv v hrest hp with hle | ⟨v, rfl, hnext⟩
  · grind
  · have hle := hmax v hnext ((List.prefix_append_right_inj u).1 hp)
    grind

/-- A scanner that takes a character and goes on. -/
theorem ScansLine.cons {next : Bool} (h : ScansLine next s n)
    (hc : ∀ w, LineRest next w → LineRest waits (c :: w))
    (hv : ∀ v, LineRest waits (c :: v) → v <+: s → v = [] ∨ LineRest next v) :
    ScansLine waits (c :: s) (n + 1) := by
  refine h.append (u := [c]) hc fun v hrest hp => ?_
  match v with
  | [] => exact .inl (Nat.zero_le _)
  | d :: v =>
    obtain ⟨rfl, hprefix⟩ := List.cons_prefix_cons.1 hp
    rcases hv v hrest hprefix with rfl | hnext
    · exact .inl le_rfl
    · exact .inr ⟨v, rfl, hnext⟩

theorem LineRest.of_cons (h : LineRest false (c :: v)) :
    c ≠ '\n' ∧ (c = '\\' ∧ LineRest true v ∨ c ≠ '\\' ∧ LineRest false v) := by
  cases h with
  | char hback hline h => exact ⟨hline, .inr ⟨hback, h⟩⟩
  | backslash h => exact ⟨by decide, .inl ⟨rfl, h⟩⟩

theorem LineRest.of_waiting_cons (h : LineRest true (c :: v)) :
    c = '\\' ∧ LineRest true v ∨ LineRest false v ∨
      c = '\r' ∧ ∃ w, v = '\n' :: w ∧ LineRest false w := by
  cases h with
  | backslash h => exact .inl ⟨rfl, h⟩
  | escaped h => exact .inr (.inl h)
  | lineBreak h => exact .inr (.inr ⟨rfl, _, rfl, h⟩)

theorem lineComment_char (hline : c ≠ '\n') (hback : c ≠ '\\') (i : Input) :
    lineComment (some c :: i) = lineComment i + 1 := by
  rw [lineComment]
  all_goals simp [hline, hback]

theorem afterBackslash_char (hback : c ≠ '\\') (hbreak : c = '\r' → s.head? ≠ some '\n') :
    afterBackslash ((c :: s).map some) = lineComment (s.map some) + 1 := by
  rw [List.map_cons, afterBackslash]
  · simp [hback]
  · cases s <;> grind

/-- A backslash is a step of either scanner, and the characters behind it may be more of the run. -/
theorem ScansLine.backslash (h : ScansLine true s n) : ScansLine waits ('\\' :: s) (n + 1) := by
  refine h.cons (fun w hw => .backslash hw) fun v hv _ => ?_
  by_cases hne : v = []
  · exact .inl hne
  cases waits with
  | false => grind [hv.of_cons]
  | true =>
    rcases hv.of_waiting_cons with ⟨-, hv⟩ | hv | ⟨hc, -⟩
    · exact .inr hv
    · exact .inr (hv.wait hne)
    · cases hc

/-- At the end of its input a lone backslash is left over. -/
theorem scansLine_backslash : ScansLine false ['\\'] 1 := by
  refine ⟨[], ['\\'], rfl, .nil, fun v hv hp => ?_, rfl⟩
  match v with
  | [] => rfl
  | d :: v =>
    obtain ⟨rfl, hnil⟩ := List.cons_prefix_cons.1 hp
    obtain rfl := List.prefix_nil.1 hnil
    rcases hv.of_cons.2 with ⟨-, hv⟩ | ⟨hback, -⟩
    · cases hv
    · exact absurd rfl hback

theorem scansLine_newline (s : List Char) : ScansLine false ('\n' :: s) 0 := by
  refine ⟨[], '\n' :: s, rfl, .nil, fun v hv hp => ?_, by simp⟩
  match v with
  | [] => rfl
  | d :: v =>
    obtain ⟨rfl, -⟩ := List.cons_prefix_cons.1 hp
    exact absurd rfl hv.of_cons.1

theorem ScansLine.char (h : ScansLine false s n) (hline : c ≠ '\n') (hback : c ≠ '\\') :
    ScansLine false (c :: s) (n + 1) :=
  h.cons (fun w hw => .char hback hline hw) fun v hv _ => by grind [hv.of_cons]

theorem ScansLine.escaped (h : ScansLine false s n) (hback : c ≠ '\\')
    (hbreak : c = '\r' → s.head? ≠ some '\n') : ScansLine true (c :: s) (n + 1) := by
  refine h.cons (fun w hw => .escaped hw) fun v hv hp => ?_
  rcases hv.of_waiting_cons with ⟨hc, -⟩ | hv | ⟨hc, w, rfl, -⟩
  · exact absurd hc hback
  · exact .inr hv
  · obtain ⟨r, rfl⟩ := hp
    exact absurd rfl (hbreak hc)

theorem ScansLine.lineBreak (h : ScansLine false s n) :
    ScansLine true ('\r' :: '\n' :: s) (n + 2) := by
  refine h.append (u := ['\r', '\n']) (fun w hw => .lineBreak hw) fun v hv hp => ?_
  match v with
  | [] | [_] => simp
  | c :: d :: v =>
    obtain ⟨rfl, htail⟩ := List.cons_prefix_cons.1 hp
    obtain ⟨rfl, -⟩ := List.cons_prefix_cons.1 htail
    rcases hv.of_waiting_cons with ⟨hc, -⟩ | hv | ⟨-, w, hw, hv⟩
    · cases hc
    · exact absurd rfl hv.of_cons.1
    · obtain rfl : v = w := (List.cons.inj hw).2
      exact .inr ⟨v, rfl, hv⟩

mutual

theorem scansLine_lineComment :
    (s : List Char) → ScansLine false s (lineComment (s.map some))
  | [] => ⟨[], [], rfl, .nil, by simp, rfl⟩
  | c :: s => by
    by_cases hline : c = '\n'
    · subst hline
      exact scansLine_newline s
    by_cases hback : c = '\\'
    · subst hback
      match s with
      | [] => exact scansLine_backslash
      | d :: s => exact (scansLine_afterBackslash d s).backslash
    · rw [List.map_cons, lineComment_char hline hback]
      exact (scansLine_lineComment s).char hline hback

theorem scansLine_afterBackslash (c : Char) :
    (s : List Char) → ScansLine true (c :: s) (afterBackslash ((c :: s).map some))
  | [] => by
    have hone : afterBackslash [some c] = 1 := by
      by_cases hback : c = '\\'
      · rw [hback]
        rfl
      · exact afterBackslash_char (s := []) hback (by simp)
    rw [List.map_cons, List.map_nil, hone]
    exact ⟨[c], [], rfl, .escaped .nil, fun v _ hp => hp.length_le, rfl⟩
  | d :: s => by
    by_cases hback : c = '\\'
    · subst hback
      exact (scansLine_afterBackslash d s).backslash
    by_cases hbreak : c = '\r' ∧ d = '\n'
    · obtain ⟨rfl, rfl⟩ := hbreak
      exact (scansLine_lineComment s).lineBreak
    · rw [afterBackslash_char hback (by grind)]
      exact (scansLine_lineComment (d :: s)).escaped hback (by grind)

end

theorem ScansLine.le (h : ScansLine waits s n) : n ≤ s.length := by
  obtain ⟨w, tail, rfl, -, -, rfl⟩ := h
  split
  · rename_i htail
    simp [htail]
  · simp

end Scanner

variable {g : FlatGrammar} {valid : TokenSet}

theorem commentRule_matches_iff (hblock : ¬ ['/', '*'] <+: w) :
    commentRule.Matches id b a w ↔ ∃ v, w = '/' :: '/' :: v ∧ LineRest false v := by
  simp only [commentRule, Rule.matches_choice, List.mem_cons, List.not_mem_nil, or_false,
    exists_eq_or_imp, exists_eq_left, Rule.matches_seq_cons, Rule.matches_seq_nil, Rules.text,
    Rule.matches_string, matches_line]
  constructor
  · rintro (⟨_, _, rfl, rfl, v, _, rfl, hv, rfl⟩ | ⟨_, v, rfl, rfl, -⟩)
    · exact ⟨v, by simp, hv⟩
    · exact absurd (List.prefix_append _ _) hblock
  · rintro ⟨v, rfl, hv⟩
    exact .inl ⟨['/', '/'], _, rfl, rfl, v, [], by simp, hv, rfl⟩

theorem comment_matches_iff (hg : FlatGrammar.ofGrammar grammar = .ok g)
    (hblock : ¬ ['/', '*'] <+: w) :
    g.TokenMatches id comment w ↔ ∃ v, w = '/' :: '/' :: v ∧ LineRest false v := by
  rw [← commentRule_matches_iff (b := none) (a := none) hblock,
    tokenMatches_iff_rule hg (not_mem_keywords hg (by decide))]
  have honly : ∀ row ∈ lexicalRules, row.1 = comment → row.2 = commentRule := by decide
  constructor
  · rintro ⟨rule, hmem, hw⟩
    obtain rfl : rule = commentRule := honly _ hmem rfl
    exact hw
  · exact fun hw => ⟨commentRule, by decide, hw⟩

/-- Where two slashes are ahead and comments are valid, a comment is accepted. -/
theorem accepted_lexFrom_slashes {c : Cursor} (hv : valid.contains comment = true)
    (hc : c.Before ('/' :: '/' :: s)) :
    let d := lexFrom valid c '/'
    d.start = c.start ∧
      d.accepted = some (comment, c.position + (lineComment (s.map some) + 2)) := by
  have hslash : ((c.advance 1).acceptIf (valid.contains slash) slash).Before ('/' :: s) :=
    hc.next.acceptIf
  have hrest : ((c.advance 1).acceptIf (valid.contains slash) slash).rest =
      ('/' :: s).map some := hslash
  have hlex : lexFrom valid c '/' = lexSlash valid c := rfl
  have hbehind := hslash.next
  have hposition := hbehind.position_advance (scansLine_lineComment s).le
  simp only [hlex, lexSlash, hslash.peek?_eq, List.head?_cons, hv, beq_self_eq_true, Bool.and_self,
    if_true, show _ = _ from hbehind]
  refine ⟨by simp, ?_⟩
  rw [Cursor.accepted_accept, hposition, hslash.position_next, Cursor.position_acceptIf,
    hc.position_next]
  grind

/-- Where two slashes stand behind the padding and comments are valid, a comment is read, and its
text is the longest one that the rule of comments matches, except that a single backslash behind
that text is in the comment too if the input ends with it. -/
theorem lex_line_comment (hg : FlatGrammar.ofGrammar grammar = .ok g)
    (hv : valid.contains comment = true) (hout : inString valid = false) (text : List Char)
    (place : Nat) (hline : ['/', '/'] <+: (text.drop place).dropWhile Text.isWhiteSpace) :
    ∃ padding w tail, text.drop place = padding ++ (w ++ tail) ∧
      padding = (text.drop place).takeWhile Text.isWhiteSpace ∧
      g.TokenMatches id comment w ∧
      (∀ v, g.TokenMatches id comment v → v <+: w ++ tail → v.length ≤ w.length) ∧
      let lexeme := (Lexer.lex valid (.new (text.map some) place)).lexeme
      lexeme.symbol = some comment ∧ lexeme.start = place + padding.length ∧
        lexeme.stop = lexeme.start + w.length + if tail = ['\\'] then 1 else 0 := by
  obtain ⟨s, hs⟩ := hline
  change '/' :: '/' :: s = _ at hs
  obtain ⟨w, tail, rfl, hw, hmax, hn⟩ := scansLine_lineComment s
  refine ⟨_, '/' :: '/' :: w, tail, ?_, rfl, ?_, fun v hmatch hp => ?_, ?_⟩
  · rw [List.cons_append, List.cons_append]
    have hsplit := List.takeWhile_append_dropWhile (p := Text.isWhiteSpace) (l := text.drop place)
    rw [← hs] at hsplit
    exact hsplit.symm
  · rw [comment_matches_iff hg (by simp)]
    exact ⟨w, rfl, hw⟩
  · have hblock : ¬ ['/', '*'] <+: v := fun h => by simpa using h.trans hp
    obtain ⟨v, rfl, hrest⟩ := (comment_matches_iff hg hblock).1 hmatch
    have hle := hmax v hrest (by simpa using hp)
    simpa using hle
  · have hbefore := Cursor.before_new text place
    have hskip := hbefore.skipWhile (p := Text.isWhiteSpace)
    rw [← hs] at hskip
    obtain ⟨hstart, haccepted⟩ := accepted_lexFrom_slashes hv hskip
    have hlex : Lexer.lex valid (.new (text.map some) place) =
        lexFrom valid ((Cursor.new (text.map some) place).skipWhile Text.isWhiteSpace) '/' := by
      rw [Lexer.lex, hout, if_neg (by simp), lexOutside, hskip.peek?_eq]
      rfl
    have hposition : ((Cursor.new (text.map some) place).skipWhile Text.isWhiteSpace).position =
        place + ((text.drop place).takeWhile Text.isWhiteSpace).length :=
      hbefore.position_skipWhile
    have hskipped : ((Cursor.new (text.map some) place).skipWhile Text.isWhiteSpace).start =
        ((Cursor.new (text.map some) place).skipWhile Text.isWhiteSpace).position := rfl
    simp only [hlex, Cursor.lexeme, haccepted, hstart, hskipped, hposition, hn, Option.map_some,
      Option.getD_some, true_and, List.length_cons]
    omega

/-- A backslash takes a comment over the end of its line. -/
theorem lex_line_comment_continued : ∃ g, FlatGrammar.ofGrammar grammar = .ok g ∧
    g.TokenMatches id comment "// a\\\nb".toList ∧
    (∀ v, g.TokenMatches id comment v → v <+: "// a\\\nb\nc".toList → v.length ≤ 7) ∧
    (Lexer.lex (.ofList [comment]) (.new (" // a\\\nb\nc".toList.map some) 0)).lexeme =
      ⟨some comment, 1, 8, 8⟩ := by
  obtain ⟨g, hg, -⟩ := exists_flat
  have hlex : (Lexer.lex (.ofList [comment])
      (.new (" // a\\\nb\nc".toList.map some) 0)).lexeme = ⟨some comment, 1, 8, 8⟩ := by decide
  have hv : (TokenSet.ofList [comment]).contains comment = true := by decide
  have hout : inString (.ofList [comment]) = false := by decide
  obtain ⟨_, w, tail, htext, rfl, hmatch, hmax, -, -, hstop⟩ :=
    lex_line_comment hg hv hout " // a\\\nb\nc".toList 0 (by decide)
  have hline : w ++ tail = "// a\\\nb\nc".toList := (List.cons.inj htext.symm).2
  have hlength : w.length + tail.length = 9 := by
    rw [← List.length_append, hline]
    rfl
  rw [hlex] at hstop
  have hw : w.length = 7 := by grind
  have htake : (w ++ tail).take 7 = w := List.take_left' hw
  obtain rfl : w = "// a\\\nb".toList := by
    rw [← htake, hline]
    rfl
  rw [hline] at hmax
  exact ⟨g, hg, hmatch, hmax, hlex⟩

example : (Lexer.lex (.ofList [comment]) (.new ("//\\".toList.map some) 0)).lexeme =
    ⟨some comment, 0, 3, 3⟩ := by
  decide

end GrammarTables.Yaral
