import GrammarTables.Proofs.Yaral.Longest

/-!
# Tokens outside of strings

Where no token from the inside of a string is valid, the first character tells which tokens come
into question. Each scanner goes as far as one of them can reach, and falls back to the last place
where one of them was complete.
-/

namespace GrammarTables.Yaral

open Terminal Lexer

/-- The texts of valid tokens. -/
def Valid (valid : TokenSet) (t : Symbol) (w : List Char) : Prop :=
  valid.contains t = true ∧ Spells t w

variable {valid : TokenSet} {c : Cursor} {x : Char} {s v w : List Char} {t u : Symbol}

theorem Spells.exists_cons (h : Spells u v) (hp : v <+: x :: s) : ∃ w, v = x :: w ∧ w <+: s := by
  cases v with
  | nil => cases h
  | cons y v =>
    obtain ⟨rfl, hp'⟩ := List.cons_prefix_cons.1 hp
    exact ⟨v, rfl, hp'⟩

/-- The tokens from the inside of a string. -/
def Inner (t : Symbol) : Prop := t = stringContent ∨ t = escapeSequence ∨ t = closingQuote

theorem Valid.not_inner (h : Valid valid t w) (hout : inString valid = false) : ¬ Inner t := by
  simp only [inString, Bool.or_eq_false_iff] at hout
  rintro (rfl | rfl | rfl)
  all_goals simp [h.1] at hout

section FirstCharacter

theorem exists_cons_of_any {p : Char → Bool} (h : s.head?.any p = true) :
    ∃ y r, s = y :: r ∧ p y = true := by
  obtain ⟨y, hy, hp⟩ := (Option.any_eq_true p s.head?).1 h
  obtain ⟨r, hr⟩ := List.head?_eq_some_iff.1 hy
  exact ⟨y, r, hr, hp⟩

theorem any_head_mono {p : Char → Bool} (h : v.head?.any p = true) (hp : v <+: s) :
    s.head?.any p = true := by
  obtain ⟨y, r, rfl, hy⟩ := exists_cons_of_any h
  obtain ⟨r', rfl⟩ := hp
  exact hy

theorem single?_eq_some (h : single? x = some t) :
    Keyword.isWordStart x = false ∧ isDigit x = false := by
  unfold single? at h
  split at h
  all_goals cases h
  all_goals decide

theorem not_isDigit (h : Keyword.isWordStart x = true) : isDigit x = false := by
  rw [← Bool.not_eq_true, isDigit_iff]
  rw [Keyword.isWordStart_iff] at h
  omega

theorem spells_single (hx : single? x = some t) (hu : ¬ Inner u)
    (h : Spells u (x :: v)) : u = t ∧ v = [] := by
  obtain ⟨hword, hdigit⟩ := single?_eq_some hx
  cases h with
  | single h => exact ⟨Option.some.inj (h.symm.trans hx), rfl⟩
  | stringContent => exact absurd (.inl rfl) hu
  | identifier h => simp [hword] at h
  | integer h | whole h | decimal h => simp [hdigit] at h
  | _ => cases hx

theorem spells_word (hx : Keyword.isWordStart x = true) (hs : single? x = none) (hu : ¬ Inner u)
    (h : Spells u (x :: v)) : u = identifier ∧ ∀ c ∈ v, Keyword.isWordPart c = true := by
  have hdigit := not_isDigit hx
  cases h with
  | single h => simp [hs] at h
  | stringContent => exact absurd (.inl rfl) hu
  | identifier _ h => exact ⟨rfl, h⟩
  | integer h | whole h | decimal h => simp [hdigit] at h
  | _ => simp [Keyword.isWordStart] at hx

theorem spells_digit (hx : isDigit x = true) (hs : single? x = none) (hu : ¬ Inner u)
    (h : Spells u (x :: v)) :
    ((u = integer ∨ u = float) ∧ ∀ c ∈ v, isDigit c = true) ∨
      u = float ∧ ∃ d e, v = d ++ '.' :: e ∧ (∀ c ∈ d, isDigit c = true) ∧
        ∀ c ∈ e, isDigit c = true := by
  cases h with
  | single h => simp [hs] at h
  | stringContent => exact absurd (.inl rfl) hu
  | identifier h => simp [not_isDigit h] at hx
  | integer h => exact .inl ⟨.inl rfl, (List.forall_mem_cons.1 h).2⟩
  | whole h => exact .inl ⟨.inr rfl, (List.forall_mem_cons.1 h).2⟩
  | decimal h h' => exact .inr ⟨rfl, _, _, rfl, (List.forall_mem_cons.1 h).2, h'⟩
  | _ => simp [isDigit] at hx

/-- How far a number reaches: over digits, or over digits on both sides of a point. -/
theorem length_le_number (hx : isDigit x = true) (hs : single? x = none) (hu : ¬ Inner u)
    (h : Spells u (x :: v)) (hp : v <+: s) :
    ((u = integer ∨ u = float) ∧ v.length ≤ (s.takeWhile isDigit).length) ∨
      u = float ∧ ∃ r, s.dropWhile isDigit = '.' :: r ∧
        v.length ≤ (s.takeWhile isDigit).length + ((r.takeWhile isDigit).length + 1) := by
  rcases spells_digit hx hs hu h with ⟨hu, hv⟩ | ⟨rfl, d, e, rfl, hd, he⟩
  · exact .inl ⟨hu, length_le_takeWhile hv hp⟩
  · obtain ⟨htake, r, hr, her⟩ := split_prefix hd (by decide) hp
    refine .inr ⟨rfl, r, hr, ?_⟩
    rw [htake, List.length_append, List.length_cons]
    have := length_le_takeWhile he her
    omega

theorem spells_dot (hu : ¬ Inner u) (h : Spells u ('.' :: v)) : u = dot ∧ v = [] ∨
    u = attributeName ∧ v.head?.any Char.isAlpha = true ∧
      (∀ c ∈ v, (Keyword.isWordPart c || c == '.') = true) ∨
    u = float ∧ v.head?.any isDigit = true ∧ ∀ c ∈ v, isDigit c = true := by
  cases h with
  | single h => cases h
  | stringContent => exact absurd (.inl rfl) hu
  | dot => exact .inl ⟨rfl, rfl⟩
  | attributeName hy hw =>
    refine .inr (.inl ⟨rfl, hy, List.forall_mem_cons.2 ⟨?_, hw⟩⟩)
    rw [Keyword.isWordPart_of_isAlpha hy, Bool.true_or]
  | fraction h => exact .inr (.inr ⟨rfl, (List.forall_mem_cons.1 h).1, h⟩)
  | integer h | whole h | decimal h => simp [isDigit] at h
  | identifier h => cases h

theorem spells_slash (hu : ¬ Inner u) (h : Spells u ('/' :: v)) :
    u = slash ∧ v = [] ∨ u = comment ∧ (∃ w, v = '*' :: w ∧ BlockRest false w) ∨
      u = regex ∧ ∃ y w, v = y :: w ∧ y ≠ '/' ∧ y ≠ '\\' ∧ y ≠ '*' ∧ RegexRest w := by
  cases h with
  | single h => cases h
  | stringContent => exact absurd (.inl rfl) hu
  | slash => exact .inl ⟨rfl, rfl⟩
  | blockComment h => exact .inr (.inl ⟨rfl, _, rfl, h⟩)
  | regex hslash hback hstar h =>
    exact .inr (.inr ⟨rfl, _, _, rfl, hslash, hback, hstar, _, h, rfl⟩)
  | integer h | whole h | decimal h => simp [isDigit] at h
  | identifier h => cases h

theorem spells_tick (hu : ¬ Inner u) (h : Spells u ('\x60' :: v)) :
    u = rawString ∧ ∃ w, v = w ++ ['\x60'] ∧ ∀ c ∈ w, c ≠ '\x60' := by
  cases h with
  | single h => cases h
  | stringContent => exact absurd (.inl rfl) hu
  | rawString h => exact ⟨rfl, _, rfl, h⟩
  | integer h | whole h | decimal h => simp [isDigit] at h
  | identifier h => cases h

theorem spells_quote (hu : ¬ Inner u) (h : Spells u ('\x22' :: v)) : u = quote ∧ v = [] := by
  cases h with
  | single h => cases h
  | stringContent => exact absurd (.inl rfl) hu
  | closingQuote => exact absurd (.inr (.inr rfl)) hu
  | quote => exact ⟨rfl, rfl⟩
  | integer h | whole h | decimal h => simp [isDigit] at h
  | identifier h => cases h

/-- A character that starts a token alone or before an equals sign. -/
inductive WithEqual : Char → Symbol → Symbol → Prop
  | not : WithEqual '!' notOperator notEqual
  | less : WithEqual '<' less lessEqual
  | greater : WithEqual '>' greater greaterEqual

theorem WithEqual.spells {short long : Symbol} (hx : WithEqual x short long) :
    Spells short [x] ∧ Spells long [x, '='] := by
  cases hx with
  | not => exact ⟨.notOperator, .notEqual⟩
  | less => exact ⟨.less, .lessEqual⟩
  | greater => exact ⟨.greater, .greaterEqual⟩

theorem spells_withEqual {short long : Symbol} (hx : WithEqual x short long) (hu : ¬ Inner u)
    (h : Spells u (x :: v)) : u = short ∧ v = [] ∨ u = long ∧ v = ['='] := by
  cases hx
  all_goals
    cases h with
    | single h => cases h
    | stringContent => exact absurd (.inl rfl) hu
    | integer h | whole h | decimal h => simp [isDigit] at h
    | identifier h => cases h
    | _ => simp

end FirstCharacter

section Digits

/-- A cursor behind digits, which are an integer if it is valid, else a float. -/
def whole (valid : TokenSet) (c : Cursor) : Cursor :=
  if valid.contains integer then (c.advanceWhile isDigit).accept integer
  else (c.advanceWhile isDigit).acceptIf (valid.contains float) float

theorem lexNumber_eq (valid : TokenSet) (c : Cursor) :
    lexNumber valid c = if (whole valid c).sees (· == '.') && valid.contains float then
      (((whole valid c).advance 1).advanceWhile isDigit).accept float else whole valid c := rfl

theorem start_whole (valid : TokenSet) (c : Cursor) : (whole valid c).start = c.start := by
  unfold whole
  split <;> simp

theorem accepted_whole (valid : TokenSet) (c : Cursor) : (whole valid c).accepted =
    if valid.contains integer then some (integer, (whole valid c).position)
    else if valid.contains float then some (float, (whole valid c).position) else c.accepted := by
  unfold whole
  split <;> simp

theorem before_whole (hc : c.Before (x :: s)) (valid : TokenSet)
    (hx : isDigit x = true) : (whole valid c).Before (s.dropWhile isDigit) := by
  have hbefore := hc.advanceWhile (p := isDigit)
  rw [List.dropWhile_cons_of_pos hx] at hbefore
  unfold whole
  split
  · exact hbefore.accept
  · exact hbefore.acceptIf

theorem position_whole (hc : c.Before (x :: s)) (valid : TokenSet)
    (hx : isDigit x = true) :
    (whole valid c).position = c.position + ((s.takeWhile isDigit).length + 1) := by
  have hpos := hc.position_advanceWhile (p := isDigit)
  rw [List.takeWhile_cons_of_pos hx, List.length_cons] at hpos
  rw [← hpos]
  unfold whole
  split <;> simp

end Digits

section Scanners

variable {c' : Cursor} (hout : inString valid = false)

include hout

theorem reads_valid (hstart : c'.start = c.start)
    (hacc : c'.accepted = some (t, c.position + (w.length + 1))) (hvalid : valid.contains t = true)
    (ht : Spells t (x :: w)) (hw : w <+: s)
    (h : ∀ u v, ¬ Inner u → valid.contains u = true → Spells u (x :: v) → v <+: s →
      v.length < w.length ∨ v.length = w.length ∧ (u = t ∨ Precedes t u)) :
    Reads (Valid valid) (x :: s) c c' := by
  refine reads_token hstart hacc ⟨hvalid, ht⟩ (List.cons_prefix_cons.2 ⟨rfl, hw⟩)
    fun u v hv hp => ?_
  obtain ⟨v, rfl, hp'⟩ := hv.2.exists_cons hp
  simpa using h u v (hv.not_inner hout) hv.1 hv.2 hp'

theorem reads_none (hstart : c'.start = c.start) (hacc : c'.accepted = none)
    (h : ∀ u v, ¬ Inner u → valid.contains u = true → Spells u (x :: v) → ¬ v <+: s) :
    Reads (Valid valid) (x :: s) c c' := by
  refine reads_nothing hstart hacc fun u v hv hp => ?_
  obtain ⟨v, rfl, hp'⟩ := hv.2.exists_cons hp
  exact h u v (hv.not_inner hout) hv.1 hv.2 hp'

theorem reads_if_valid (t : Symbol) (w : List Char) (hstart : c'.start = c.start)
    (hacc : c'.accepted = if valid.contains t then some (t, c.position + (w.length + 1)) else none)
    (ht : Spells t (x :: w)) (hw : w <+: s)
    (h : ∀ u v, ¬ Inner u → valid.contains u = true → Spells u (x :: v) → v <+: s →
      u = t ∧ v.length ≤ w.length) : Reads (Valid valid) (x :: s) c c' := by
  refine reads_only t (x :: w) (valid.contains t) hstart hacc (fun hvalid => ⟨hvalid, ht⟩)
    (List.cons_prefix_cons.2 ⟨rfl, hw⟩) fun u v hv hp => ?_
  obtain ⟨v, rfl, hp'⟩ := hv.2.exists_cons hp
  obtain ⟨rfl, hlen⟩ := h u v (hv.not_inner hout) hv.1 hv.2 hp'
  exact ⟨hv.1, rfl, Nat.succ_le_succ hlen⟩

variable (hn : c.accepted = none)

include hn

/-- A character that is a token of its own. -/
theorem reads_single (hc : c.Before (x :: s)) (hx : single? x = some t) :
    Reads (Valid valid) (x :: s) c (if valid.contains t then (c.advance 1).accept t else c) := by
  refine reads_if_valid hout t [] ?_ ?_ (.single hx) List.nil_prefix fun u v hu _ h _ => ?_
  · split <;> rfl
  · split
    · simp [hc.position_next]
    · exact hn
  · obtain ⟨rfl, rfl⟩ := spells_single hx hu h
    exact ⟨rfl, Nat.le_refl _⟩

theorem reads_word (hc : c.Before (x :: s)) (hs : single? x = none)
    (hx : Keyword.isWordStart x = true) : Reads (Valid valid) (x :: s) c
      (if valid.contains identifier then (c.advanceWhile Keyword.isWordPart).accept identifier
        else c) := by
  have htake : (x :: s).takeWhile Keyword.isWordPart = x :: s.takeWhile Keyword.isWordPart :=
    List.takeWhile_cons_of_pos (Keyword.isWordPart_of_isWordStart hx)
  refine reads_if_valid hout identifier (s.takeWhile Keyword.isWordPart) ?_ ?_
    (.identifier hx fun _ => List.mem_takeWhile_imp) (List.takeWhile_prefix _)
    fun u v hu _ h hp => ?_
  · split <;> rfl
  · split
    · simp [hc.position_advanceWhile, htake]
    · exact hn
  · obtain ⟨rfl, hv⟩ := spells_word hx hs hu h
    exact ⟨rfl, length_le_takeWhile hv hp⟩

omit hn in
/-- Where a point follows, the digits behind it belong to the number. -/
theorem reads_decimal {r : List Char} (hc : c.Before (x :: s)) (hs : single? x = none)
    (hx : isDigit x = true) (hr : s.dropWhile isDigit = '.' :: r)
    (hfloat : valid.contains float = true) : Reads (Valid valid) (x :: s) c
      ((((whole valid c).advance 1).advanceWhile isDigit).accept float) := by
  have hbefore := before_whole hc valid hx
  rw [hr] at hbefore
  have hdigits : ∀ d ∈ x :: s.takeWhile isDigit, isDigit d = true :=
    List.forall_mem_cons.2 ⟨hx, fun _ => List.mem_takeWhile_imp⟩
  refine reads_valid hout (w := s.takeWhile isDigit ++ '.' :: r.takeWhile isDigit)
    (start_whole valid c) ?_ hfloat (.decimal hdigits fun _ => List.mem_takeWhile_imp) ?_
    fun u v hu _ h hp => ?_
  · simp [hbefore.next.position_advanceWhile, hbefore.position_next, position_whole hc valid hx]
    omega
  · conv => rhs; rw [← List.takeWhile_append_dropWhile (p := isDigit) (l := s), hr]
    simpa using List.takeWhile_prefix _
  · rw [List.length_append, List.length_cons]
    rcases length_le_number hx hs hu h hp with ⟨-, hlen⟩ | ⟨rfl, r', hr', hlen⟩
    · exact .inl (by omega)
    · cases hr.symm.trans hr'
      exact (Nat.lt_or_eq_of_le hlen).imp_right fun heq => ⟨heq, .inl rfl⟩

/-- Digits alone are an integer if it is valid, else a float. -/
theorem reads_whole (hc : c.Before (x :: s)) (hs : single? x = none) (hx : isDigit x = true)
    (hpoint : ∀ r, s.dropWhile isDigit = '.' :: r → valid.contains float = false) :
    Reads (Valid valid) (x :: s) c (whole valid c) := by
  have hdigits : ∀ d ∈ x :: s.takeWhile isDigit, isDigit d = true :=
    List.forall_mem_cons.2 ⟨hx, fun _ => List.mem_takeWhile_imp⟩
  have hlen : ∀ u v, ¬ Inner u → valid.contains u = true → Spells u (x :: v) → v <+: s →
      (u = integer ∨ u = float) ∧ v.length ≤ (s.takeWhile isDigit).length := by
    intro u v hu hvalid h hp
    rcases length_le_number hx hs hu h hp with hlen | ⟨rfl, r, hr, -⟩
    · exact hlen
    · simp [hpoint r hr] at hvalid
  by_cases hinteger : valid.contains integer = true
  · refine reads_valid hout (t := integer) (start_whole valid c) ?_ hinteger (.integer hdigits)
      (List.takeWhile_prefix _) fun u v hu hvalid h hp => ?_
    · rw [accepted_whole, if_pos hinteger, position_whole hc valid hx]
    · obtain ⟨hu, hle⟩ := hlen u v hu hvalid h hp
      exact (Nat.lt_or_eq_of_le hle).imp_right fun heq =>
        ⟨heq, hu.imp_right fun hu => .inl ⟨rfl, hu⟩⟩
  · refine reads_if_valid hout float _ (start_whole valid c) ?_ (.whole hdigits)
      (List.takeWhile_prefix _) fun u v hu hvalid h hp => ?_
    · rw [accepted_whole, if_neg hinteger, position_whole hc valid hx, hn]
    · obtain ⟨rfl | rfl, hle⟩ := hlen u v hu hvalid h hp
      · exact absurd hvalid hinteger
      · exact ⟨rfl, hle⟩

theorem reads_number (hc : c.Before (x :: s)) (hs : single? x = none) (hx : isDigit x = true) :
    Reads (Valid valid) (x :: s) c (lexNumber valid c) := by
  rw [lexNumber_eq, (before_whole hc valid hx).sees_eq]
  split
  · rename_i hpoint
    obtain ⟨hpoint, hfloat⟩ := Bool.and_eq_true_iff.1 hpoint
    obtain ⟨y, r, hr, hy⟩ := exists_cons_of_any hpoint
    cases beq_iff_eq.1 hy
    exact reads_decimal hout hc hs hx hr hfloat
  · rename_i hpoint
    exact reads_whole hout hn hc hs hx fun r hr => by simpa [hr] using hpoint

omit hn in
/-- Behind a dot, as many characters of a class as there are. -/
theorem reads_dotted {p : Char → Bool} (hc : c.Before ('.' :: s)) (hvalid : valid.contains t = true)
    (hp : s.head?.any p = true) (ht : Spells t ('.' :: s.takeWhile p))
    (h : ∀ u v, ¬ Inner u → Spells u ('.' :: v) → v <+: s →
      u = dot ∧ v = [] ∨ u = t ∧ ∀ c ∈ v, p c = true) :
    Reads (Valid valid) ('.' :: s) c
      ((((c.advance 1).acceptIf (valid.contains dot) dot).advanceWhile p).accept t) := by
  have hbefore : ((c.advance 1).acceptIf (valid.contains dot) dot).Before s := hc.next.acceptIf
  refine reads_valid hout (by simp) ?_ hvalid ht (List.takeWhile_prefix _) fun u v hu _ hs hv => ?_
  · simp [hbefore.position_advanceWhile, hc.position_next]
    omega
  · rcases h u v hu hs hv with ⟨-, rfl⟩ | ⟨rfl, hall⟩
    · obtain ⟨y, r, rfl, hy⟩ := exists_cons_of_any hp
      exact .inl (by simp [hy])
    · exact (Nat.lt_or_eq_of_le (length_le_takeWhile hall hv)).imp_right fun heq => ⟨heq, .inl rfl⟩

theorem reads_dot (hc : c.Before ('.' :: s)) :
    Reads (Valid valid) ('.' :: s) c (lexDot valid c) := by
  have hbefore : ((c.advance 1).acceptIf (valid.contains dot) dot).Before s := hc.next.acceptIf
  -- A letter or a digit tells an attribute and a fraction apart.
  have hapart : s.head?.any Char.isAlpha = true → s.head?.any isDigit = true → False := by
    intro halpha hdigit
    obtain ⟨y, r, rfl, hy⟩ := exists_cons_of_any halpha
    have hy' : Keyword.isWordStart y = true := by simp [Keyword.isWordStart, hy]
    simp [not_isDigit hy'] at hdigit
  simp only [lexDot, hbefore.sees_eq]
  split
  · rename_i hattribute
    obtain ⟨halpha, hvalid⟩ := Bool.and_eq_true_iff.1 hattribute
    obtain ⟨y, r, rfl, hy⟩ := exists_cons_of_any halpha
    have hpart := Keyword.isWordPart_of_isAlpha hy
    refine reads_dotted hout hc hvalid (by simp [hpart]) ?_ fun u v hu h hv => ?_
    · rw [List.takeWhile_cons_of_pos (by simp [hpart])]
      exact .attributeName hy fun _ => List.mem_takeWhile_imp
    · rcases spells_dot hu h with h | h | ⟨-, hdigit, -⟩
      · exact .inl h
      · exact .inr ⟨h.1, h.2.2⟩
      · exact absurd (any_head_mono hdigit hv) (hapart halpha)
  split
  · rename_i hfraction
    obtain ⟨hdigit, hvalid⟩ := Bool.and_eq_true_iff.1 hfraction
    obtain ⟨y, r, rfl, hy⟩ := exists_cons_of_any hdigit
    refine reads_dotted hout hc hvalid hdigit ?_ fun u v hu h hv => ?_
    · rw [List.takeWhile_cons_of_pos hy]
      exact .fraction (List.forall_mem_cons.2 ⟨hy, fun _ => List.mem_takeWhile_imp⟩)
    · rcases spells_dot hu h with h | ⟨-, halpha, -⟩ | h
      · exact .inl h
      · exact absurd hdigit (hapart (any_head_mono halpha hv))
      · exact .inr ⟨h.1, h.2.2⟩
  · rename_i hattribute hfraction
    refine reads_if_valid hout dot [] (by simp) ?_ .dot List.nil_prefix fun u v hu hvalid h hv => ?_
    · simp [hc.position_next, hn]
    · rcases spells_dot hu h with ⟨rfl, rfl⟩ | ⟨rfl, halpha, -⟩ | ⟨rfl, hdigit, -⟩
      · exact ⟨rfl, Nat.le_refl _⟩
      · simp [any_head_mono halpha hv, hvalid] at hattribute
      · simp [any_head_mono hdigit hv, hvalid] at hfraction

/-- A comment or a regular expression, where one of them comes into question, else a slash. -/
theorem reads_closing {scan : Input → Nat × Bool} {R : List Char → Prop} {y : Char}
    (hc : c.Before ('/' :: y :: s)) (hscan : Scans scan R) (hvalid : valid.contains t = true)
    (ht : ∀ w, R w → Spells t ('/' :: y :: w))
    (h : ∀ u v, ¬ Inner u → Spells u ('/' :: v) → v <+: y :: s →
      u = slash ∧ v = [] ∨ u = t ∧ ∃ w, v = y :: w ∧ R w) :
    Reads (Valid valid) ('/' :: y :: s) c
      (closing (((c.advance 1).acceptIf (valid.contains slash) slash).advance 1) t scan) := by
  have hbefore : ((c.advance 1).acceptIf (valid.contains slash) slash).Before (y :: s) :=
    hc.next.acceptIf
  rcases hr : scan (s.map some) with ⟨n, closed⟩
  rw [closing_eq hbefore.next hr]
  cases closed with
  | false =>
    refine reads_if_valid hout slash [] (by simp) ?_ .slash List.nil_prefix fun u v hu _ hs hp => ?_
    · simp [hc.position_next, hn]
    · rcases h u v hu hs hp with ⟨rfl, rfl⟩ | ⟨-, w, rfl, hw⟩
      · exact ⟨rfl, Nat.le_refl _⟩
      · have := (hscan s _).2 ⟨w, hw, (List.cons_prefix_cons.1 hp).2, rfl⟩
        simp [hr] at this
  | true =>
    obtain ⟨w, hw, hws, rfl⟩ := (hscan s n).1 hr
    refine reads_valid hout (w := y :: w) (by simp) ?_ hvalid (ht w hw)
      (List.cons_prefix_cons.2 ⟨rfl, hws⟩) fun u v hu _ hs hp => ?_
    · simp [hbefore.next.position_advance hws.length_le, hbefore.position_next, hc.position_next]
      omega
    · rcases h u v hu hs hp with ⟨-, rfl⟩ | ⟨rfl, w', rfl, hw'⟩
      · exact .inl (Nat.succ_pos _)
      · have := (hscan s _).2 ⟨w', hw', (List.cons_prefix_cons.1 hp).2, rfl⟩
        simp only [hr, Prod.mk.injEq, and_true] at this
        exact .inr ⟨congrArg (· + 1) this.symm, .inl rfl⟩

theorem reads_slash (hc : c.Before ('/' :: s)) (hcomment : valid.contains comment = true)
    (hline : s.head? ≠ some '/') : Reads (Valid valid) ('/' :: s) c (lexSlash valid c) := by
  have hbefore : ((c.advance 1).acceptIf (valid.contains slash) slash).Before s := hc.next.acceptIf
  have halone (h : ∀ u v, ¬ Inner u → valid.contains u = true → Spells u ('/' :: v) → v <+: s →
      u = slash ∧ v = []) : Reads (Valid valid) ('/' :: s) c
        ((c.advance 1).acceptIf (valid.contains slash) slash) := by
    refine reads_if_valid hout slash [] (by simp) ?_ .slash List.nil_prefix
      fun u v hu hv hs hp => ?_
    · simp [hc.position_next, hn]
    · obtain ⟨rfl, rfl⟩ := h u v hu hv hs hp
      exact ⟨rfl, Nat.le_refl _⟩
  simp only [lexSlash, hbefore.peek?_eq]
  cases s with
  | nil =>
    refine halone fun u v hu _ h hp => ?_
    cases List.prefix_nil.1 hp
    rcases spells_slash hu h with h | ⟨-, w, hw, -⟩ | ⟨-, y, w, hw, -⟩
    · exact h
    · cases hw
    · cases hw
  | cons y s =>
    have hline : y ≠ '/' := by simpa using hline
    simp only [List.head?_cons, beq_iff_eq, hline, hcomment, Bool.and_true, bne_iff_ne,
      Bool.and_eq_true, if_false]
    split
    · rename_i hstar
      subst hstar
      refine reads_closing hout hn hc scans_blockComment hcomment (fun _ => .blockComment)
        fun u v hu h hp => ?_
      rcases spells_slash hu h with h | ⟨rfl, w, rfl, hw⟩ | ⟨-, z, w, rfl, -, -, hstar, -⟩
      · exact .inl h
      · exact .inr ⟨rfl, w, rfl, hw⟩
      · exact absurd (List.cons_prefix_cons.1 hp).1 hstar
    split
    · rename_i hstar hregex
      refine reads_closing hout hn hc scans_regexRest hregex.2 ?_ fun u v hu h hp => ?_
      · rintro _ ⟨w, hw, rfl⟩
        exact .regex hline hregex.1 hstar hw
      · rcases spells_slash hu h with h | ⟨-, w, rfl, -⟩ | ⟨rfl, z, w, rfl, -, -, -, hw⟩
        · exact .inl h
        · exact absurd (List.cons_prefix_cons.1 hp).1.symm hstar
        · cases (List.cons_prefix_cons.1 hp).1
          exact .inr ⟨rfl, w, rfl, hw⟩
    · rename_i hstar hregex
      refine halone fun u v hu hvalid h hp => ?_
      rcases spells_slash hu h with h | ⟨-, w, rfl, -⟩ | ⟨rfl, z, w, rfl, -, hback, -⟩
      · exact h
      · exact absurd (List.cons_prefix_cons.1 hp).1.symm hstar
      · cases (List.cons_prefix_cons.1 hp).1
        exact absurd ⟨hback, hvalid⟩ hregex

theorem reads_withEqual {short long : Symbol} (hx : WithEqual x short long)
    (hc : c.Before (x :: s)) :
    Reads (Valid valid) (x :: s) c (lexWithEqual valid short long c) := by
  have hbefore : ((c.advance 1).acceptIf (valid.contains short) short).Before s := hc.next.acceptIf
  simp only [lexWithEqual, hbefore.sees_eq]
  split
  · rename_i hequal
    obtain ⟨hequal, hlong⟩ := Bool.and_eq_true_iff.1 hequal
    obtain ⟨y, r, rfl, hy⟩ := exists_cons_of_any hequal
    cases beq_iff_eq.1 hy
    refine reads_valid hout (w := ['=']) (by simp) ?_ hlong hx.spells.2 (by simp)
      fun u v hu _ h _ => ?_
    · simp [hbefore.position_next, hc.position_next]
    · rcases spells_withEqual hx hu h with ⟨-, rfl⟩ | ⟨rfl, rfl⟩ <;> simp
  · rename_i hequal
    refine reads_if_valid hout short [] (by simp) ?_ hx.spells.1 List.nil_prefix
      fun u v hu hvalid h hp => ?_
    · simp [hc.position_next, hn]
    · rcases spells_withEqual hx hu h with ⟨rfl, rfl⟩ | ⟨rfl, rfl⟩
      · exact ⟨rfl, Nat.le_refl _⟩
      · obtain ⟨r, rfl⟩ := hp
        simp [hvalid] at hequal

theorem reads_quote (hc : c.Before ('\x22' :: s)) :
    Reads (Valid valid) ('\x22' :: s) c (lexQuote valid quote closingQuote c) := by
  have hclosing : valid.contains closingQuote = false := by
    simp only [inString, Bool.or_eq_false_iff] at hout
    exact hout.2
  refine reads_if_valid hout quote [] ?_ ?_ .quote List.nil_prefix fun u v hu _ h _ => ?_
  · unfold lexQuote
    split <;> simp
  · unfold lexQuote
    split <;> simp [hc.position_next, hclosing, hn]
  · obtain ⟨rfl, rfl⟩ := spells_quote hu h
    exact ⟨rfl, Nat.le_refl _⟩

theorem reads_rawString (hc : c.Before ('\x60' :: s)) :
    Reads (Valid valid) ('\x60' :: s) c
      (if valid.contains rawString then lexRawString c else c) := by
  have hbefore := hc.next.advanceWhile (p := (· != '\x60'))
  -- A raw string ends at the next tick.
  have hend : ∀ u v, ¬ Inner u → Spells u ('\x60' :: v) → v <+: s → u = rawString ∧
      ∃ r, s.dropWhile (· != '\x60') = '\x60' :: r ∧
        v = s.takeWhile (· != '\x60') ++ ['\x60'] := by
    intro u v hu h hp
    obtain ⟨rfl, w, rfl, hw⟩ := spells_tick hu h
    obtain ⟨htake, r, hr, -⟩ := split_prefix (p := (· != '\x60')) (by simpa using hw) (by simp) hp
    exact ⟨rfl, r, hr, by rw [htake]⟩
  split
  · rename_i hvalid
    simp only [lexRawString, hbefore.sees_eq]
    split
    · rename_i htick
      obtain ⟨y, r, hr, hy⟩ := exists_cons_of_any htick
      cases beq_iff_eq.1 hy
      rw [hr] at hbefore
      refine reads_valid hout (w := s.takeWhile (· != '\x60') ++ ['\x60']) (by simp) ?_ hvalid
        (.rawString ?_) ?_ fun u v hu _ h hp => ?_
      · simp [hbefore.position_next, hc.next.position_advanceWhile, hc.position_next]
        omega
      · intro d hd
        simpa using List.mem_takeWhile_imp hd
      · conv => rhs; rw [← List.takeWhile_append_dropWhile (p := (· != '\x60')) (l := s), hr]
        simp
      · obtain ⟨rfl, _, -, rfl⟩ := hend u v hu h hp
        exact .inr ⟨rfl, .inl rfl⟩
    · rename_i htick
      refine reads_none hout (by simp) (by simpa using hn) fun u v hu _ h hp => ?_
      obtain ⟨-, r, hr, -⟩ := hend u v hu h hp
      simp [hr] at htick
  · rename_i hvalid
    refine reads_none hout rfl hn fun u v hu hu' h hp => ?_
    obtain ⟨rfl, -⟩ := hend u v hu h hp
    exact hvalid hu'

/-- No token starts with another character. -/
theorem reads_other (hs : single? x = none) (hword : Keyword.isWordStart x = false)
    (hdigit : isDigit x = false)
    (hx : x ∉ ['.', '/', '\x60', '\x22', '!', '<', '>']) : Reads (Valid valid) (x :: s) c c := by
  refine reads_none hout rfl hn fun u v hu _ h _ => ?_
  cases h with
  | single h => simp [hs] at h
  | stringContent => exact hu (.inl rfl)
  | escaped | octal | hex | short | long => exact hu (.inr (.inl rfl))
  | identifier h => simp [hword] at h
  | integer h | whole h | decimal h => simp [hdigit] at h
  | _ => simp at hx

/-- Outside of strings, the longest text of a valid token is read. -/
theorem reads_lexFrom (hc : c.Before (x :: s)) (hcomment : valid.contains comment = true)
    (hline : ¬ ['/', '/'] <+: x :: s) : Reads (Valid valid) (x :: s) c (lexFrom valid c x) := by
  unfold lexFrom
  split
  · rename_i hx
    exact reads_single hout hn hc hx
  rename_i hs
  split
  · rename_i hx
    exact reads_word hout hn hc hs hx
  rename_i hword
  split
  · rename_i hx
    exact reads_number hout hn hc hs hx
  rename_i hdigit
  split
  · exact reads_dot hout hn hc
  · refine reads_slash hout hn hc hcomment fun hhead => hline ?_
    obtain ⟨r, rfl⟩ := List.head?_eq_some_iff.1 hhead
    exact ⟨r, rfl⟩
  · exact reads_rawString hout hn hc
  · exact reads_quote hout hn hc
  · exact reads_withEqual hout hn .not hc
  · exact reads_withEqual hout hn .less hc
  · exact reads_withEqual hout hn .greater hc
  · refine reads_other hout hn hs (by simpa using hword) (by simpa using hdigit) ?_
    simp only [List.mem_cons, List.not_mem_nil]
    grind

end Scanners

end GrammarTables.Yaral
