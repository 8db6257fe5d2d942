import GrammarTables.Proofs.Yaral.Outside

/-!
# Tokens inside of strings

Inside a string only its parts and the quotes are read: a run of plain characters, an escape
sequence, or a quote, which is rather the closing one.
-/

namespace GrammarTables.Yaral

open Terminal Lexer

/-- The tokens that are read inside a string. -/
def StringPart (t : Symbol) : Prop :=
  t = stringContent ∨ t = escapeSequence ∨ t = quote ∨ t = closingQuote

instance : DecidablePred StringPart := fun _ => inferInstanceAs (Decidable (_ ∨ _ ∨ _ ∨ _))

/-- The texts of valid tokens inside a string. -/
def ValidPart (valid : TokenSet) (t : Symbol) (w : List Char) : Prop :=
  StringPart t ∧ Valid valid t w

variable {valid : TokenSet} {c c' : Cursor} {x y : Char} {s v w : List Char} {t u : Symbol}

section FirstCharacter

theorem StringPart.single?_ne (hu : StringPart u) : single? x ≠ some u := by
  intro h
  unfold single? at h
  split at h
  all_goals cases h
  all_goals exact absurd hu (by decide)

theorem part_quote (hu : StringPart u) (h : Spells u ('\x22' :: v)) :
    (u = quote ∨ u = closingQuote) ∧ v = [] := by
  cases h with
  | single h => exact absurd h hu.single?_ne
  | quote => exact ⟨.inl rfl, rfl⟩
  | closingQuote => exact ⟨.inr rfl, rfl⟩
  | stringContent h => simp at h
  | integer h | whole h | decimal h => simp [isDigit] at h
  | identifier h => cases h

theorem part_backslash (hu : StringPart u) (h : Spells u ('\\' :: v)) : u = escapeSequence := by
  cases h with
  | single h => exact absurd h hu.single?_ne
  | stringContent h => simp at h
  | integer h | whole h | decimal h => simp [isDigit] at h
  | identifier h => cases h
  | _ => rfl

/-- The characters of a string's content. -/
def isPlain (y : Char) : Bool := y != '\x22' && y != '\n' && y != '\\'

theorem part_plain (hu : StringPart u) (hquote : x ≠ '\x22') (hback : x ≠ '\\')
    (h : Spells u (x :: v)) : u = stringContent ∧ ∀ c ∈ x :: v, isPlain c = true := by
  cases h with
  | single h => exact absurd h hu.single?_ne
  | stringContent h => exact ⟨rfl, fun c hc => by simpa [isPlain, and_assoc] using h c hc⟩
  | quote | closingQuote => exact absurd rfl hquote
  | escaped | octal | hex | short | long => exact absurd rfl hback
  | _ => exact absurd hu (by decide)

/-- An escape sequence goes on behind the backslash. -/
theorem exists_cons_of_escape (h : Spells escapeSequence ('\\' :: v)) (hp : v <+: y :: s) :
    ∃ w, v = y :: w ∧ w <+: s := by
  cases v with
  | nil =>
    cases h with
    | single h => cases h
    | octal h => cases h
  | cons z v =>
    obtain ⟨rfl, hp'⟩ := List.cons_prefix_cons.1 hp
    exact ⟨v, rfl, hp'⟩

theorem escape_hex : Spells escapeSequence ('\\' :: 'x' :: w) ↔
    2 ≤ w.length ∧ ∀ d ∈ w, isHexDigit d = true := by
  constructor
  · intro h
    cases h with
    | escaped h => exact absurd rfl h
    | octal _ _ h => simp [isDigit] at h
    | hex hlen h => exact ⟨hlen, h⟩
  · exact fun h => .hex h.1 h.2

theorem escape_short : Spells escapeSequence ('\\' :: 'u' :: w) ↔
    w.length = 4 ∧ ∀ d ∈ w, isHexDigit d = true := by
  constructor
  · intro h
    cases h with
    | escaped _ h => exact absurd rfl h
    | octal _ _ h => simp [isDigit] at h
    | short hlen h => exact ⟨hlen, h⟩
  · exact fun h => .short h.1 h.2

theorem escape_long : Spells escapeSequence ('\\' :: 'U' :: w) ↔
    w.length = 8 ∧ ∀ d ∈ w, isHexDigit d = true := by
  constructor
  · intro h
    cases h with
    | escaped _ _ h => exact absurd rfl h
    | octal _ _ h => simp [isDigit] at h
    | long hlen h => exact ⟨hlen, h⟩
  · exact fun h => .long h.1 h.2

/-- Behind another character only digits can belong to an escape sequence. -/
theorem escape_other (hx : y ≠ 'x') (hu : y ≠ 'u') (hU : y ≠ 'U')
    (h : Spells escapeSequence ('\\' :: y :: w)) :
    w = [] ∨ (∀ d ∈ y :: w, isDigit d = true) ∧ w.length ≤ 2 := by
  cases h with
  | escaped => exact .inl rfl
  | octal _ hlen h => exact .inr ⟨h, Nat.le_of_succ_le_succ hlen⟩
  | hex => exact absurd rfl hx
  | short => exact absurd rfl hu
  | long => exact absurd rfl hU

end FirstCharacter

section Scanners

theorem ValidPart.exists_cons (h : ValidPart valid u v) (hp : v <+: x :: s) :
    ∃ w, v = x :: w ∧ w <+: s :=
  h.2.2.exists_cons hp

/-- The only escape sequences that come into question are read as far as the longest of them. -/
theorem reads_escape (w : List Char) (complete : Bool)
    (hvalid : valid.contains escapeSequence = true) (hstart : c'.start = c.start)
    (hacc : c'.accepted =
      if complete then some (escapeSequence, c.position + (w.length + 1)) else none)
    (hw : w <+: s) (ht : complete = true → Spells escapeSequence ('\\' :: w))
    (h : ∀ v, Spells escapeSequence ('\\' :: v) → v <+: s →
      complete = true ∧ v.length ≤ w.length) : Reads (ValidPart valid) ('\\' :: s) c c' := by
  refine reads_only escapeSequence ('\\' :: w) complete hstart hacc
    (fun hcomplete => ⟨.inr (.inl rfl), hvalid, ht hcomplete⟩) (List.cons_prefix_cons.2 ⟨rfl, hw⟩)
    fun u v hv hp => ?_
  obtain ⟨v, rfl, hp'⟩ := hv.exists_cons hp
  cases part_backslash hv.1 hv.2.2
  obtain ⟨hcomplete, hlen⟩ := h v hv.2.2 hp'
  exact ⟨hcomplete, rfl, Nat.succ_le_succ hlen⟩

/-- How many digits of a code there are. -/
def Enough (needed : Nat) (exact : Bool) (n : Nat) : Prop :=
  if exact then n = needed else needed ≤ n

/-- How many digits are read where there are some. -/
def digitCount (needed : Nat) (exact : Bool) (n : Nat) : Nat := if exact then min n needed else n

section Enough

variable {needed m n : Nat} {exact : Bool}

theorem digitCount_le : digitCount needed exact n ≤ n := by
  cases exact
  · exact Nat.le_refl n
  · exact Nat.min_le_left n needed

theorem enough_digitCount (h : needed ≤ digitCount needed exact n) :
    Enough needed exact (digitCount needed exact n) := by
  cases exact
  · exact h
  · exact Nat.le_antisymm (Nat.min_le_right n needed) h

theorem Enough.le_digitCount (h : Enough needed exact m) (hmn : m ≤ n) :
    needed ≤ digitCount needed exact n ∧ m ≤ digitCount needed exact n := by
  cases exact
  · exact ⟨Nat.le_trans h hmn, hmn⟩
  · cases (show m = needed from h)
    exact ⟨Nat.le_min.2 ⟨hmn, Nat.le_refl _⟩, Nat.le_min.2 ⟨hmn, Nat.le_refl _⟩⟩

end Enough

/-- The letter of a code and its digits, of which there are enough or exactly enough. -/
theorem reads_hex {needed : Nat} {exact : Bool} (hc : c.Before ('\\' :: y :: s))
    (hn : c.accepted = none) (hvalid : valid.contains escapeSequence = true)
    (h : ∀ w, Spells escapeSequence ('\\' :: y :: w) ↔
      Enough needed exact w.length ∧ ∀ d ∈ w, isHexDigit d = true) :
    Reads (ValidPart valid) ('\\' :: y :: s) c (lexHex needed exact (c.advance 1)) := by
  have hbefore := hc.next.next
  generalize hcount : digitCount needed exact (s.takeWhile isHexDigit).length = count
  have hlex : lexHex needed exact (c.advance 1) =
      (((c.advance 1).advance 1).advance count).acceptIf (needed ≤ count) escapeSequence := by
    rw [← hcount, lexHex, hbefore.count_eq]
    rfl
  have hle : count ≤ (s.takeWhile isHexDigit).length := hcount ▸ digitCount_le
  have hlen : ((s.takeWhile isHexDigit).take count).length = count := by
    rw [List.length_take, Nat.min_eq_left hle]
  have hyp : y :: (s.takeWhile isHexDigit).take count <+: y :: s :=
    List.cons_prefix_cons.2 ⟨rfl, (List.take_prefix _ _).trans (List.takeWhile_prefix _)⟩
  rw [hlex]
  refine reads_escape (y :: (s.takeWhile isHexDigit).take count) (needed ≤ count) hvalid (by simp)
    ?_ hyp (fun hneeded => ?_) fun v hv hvs => ?_
  · have hpos : (((c.advance 1).advance 1).advance count).position =
        c.position + (count + 1 + 1) := by
      rw [hbefore.position_advance (hle.trans (List.takeWhile_prefix _).length_le),
        hc.next.position_next, hc.position_next]
      omega
    rw [Cursor.accepted_acceptIf, hpos, List.length_cons, hlen]
    simp [hn]
  · refine (h _).2 ⟨?_, fun d hd => List.mem_takeWhile_imp (List.mem_of_mem_take hd)⟩
    rw [hlen, ← hcount]
    rw [← hcount] at hneeded
    exact enough_digitCount (of_decide_eq_true hneeded)
  · obtain ⟨w, rfl, hws⟩ := exists_cons_of_escape hv hvs
    obtain ⟨hw, hhex⟩ := (h w).1 hv
    obtain ⟨hneeded, hwcount⟩ := hw.le_digitCount (length_le_takeWhile hhex hws)
    rw [hcount] at hneeded hwcount
    rw [List.length_cons, List.length_cons, hlen]
    exact ⟨decide_eq_true hneeded, Nat.succ_le_succ hwcount⟩

/-- A backslash and a character that starts no code: up to three digits belong to it. -/
theorem reads_escaped (hc : c.Before ('\\' :: y :: s))
    (hvalid : valid.contains escapeSequence = true) (hx : y ≠ 'x') (hu : y ≠ 'u') (hU : y ≠ 'U') :
    Reads (ValidPart valid) ('\\' :: y :: s) c
      (((c.advance 1).advance
        (if isDigit y then min ((c.advance 1).count isDigit) 3 else 1)).accept escapeSequence) := by
  rw [hc.next.count_eq]
  by_cases hy : isDigit y = true
  · generalize hdigits : s.takeWhile isDigit = digits
    have hall : ∀ d ∈ digits.take 2, isDigit d = true := fun d hd =>
      List.mem_takeWhile_imp (hdigits ▸ List.mem_of_mem_take hd)
    have hp : digits.take 2 <+: s :=
      (List.take_prefix _ _).trans (hdigits ▸ List.takeWhile_prefix _)
    have hlen : min (digits.length + 1) 3 = (digits.take 2).length + 1 := by
      rw [List.length_take]
      omega
    rw [if_pos hy, List.takeWhile_cons_of_pos hy, hdigits, List.length_cons, hlen]
    refine reads_escape (y :: digits.take 2) true hvalid rfl ?_ (List.cons_prefix_cons.2 ⟨rfl, hp⟩)
      (fun _ => ?_) fun v hv hvs => ?_
    · have hle : (digits.take 2).length + 1 ≤ (y :: s).length := Nat.succ_le_succ hp.length_le
      simp only [Cursor.accepted_accept, hc.next.position_advance hle, hc.position_next,
        List.length_cons, if_true, Option.some.injEq, Prod.mk.injEq, true_and]
      omega
    · cases htake : digits.take 2 with
      | nil => exact .escaped hx hu hU
      | cons d ds =>
        rw [← htake]
        refine .octal ?_ ?_ (List.forall_mem_cons.2 ⟨hy, hall⟩)
        · rw [List.length_cons, htake, List.length_cons]
          omega
        · rw [List.length_cons]
          exact Nat.succ_le_succ (List.length_take_le 2 digits)
    · obtain ⟨w, rfl, hws⟩ := exists_cons_of_escape hv hvs
      refine ⟨rfl, ?_⟩
      rw [List.length_cons, List.length_cons, List.length_take]
      rcases escape_other hx hu hU hv with rfl | ⟨hw, hlen⟩
      · exact Nat.succ_le_succ (Nat.zero_le _)
      · have hmost := length_le_takeWhile (List.forall_mem_cons.1 hw).2 hws
        rw [hdigits] at hmost
        omega
  · refine reads_escape [y] true hvalid rfl ?_ (by simp) (fun _ => .escaped hx hu hU)
      fun v hv hp => ?_
    · simp [hy, hc.next.position_next, hc.position_next]
    · obtain ⟨w, rfl, -⟩ := exists_cons_of_escape hv hp
      rcases escape_other hx hu hU hv with rfl | ⟨hall, -⟩
      · exact ⟨rfl, Nat.le_refl _⟩
      · exact absurd (hall y List.mem_cons_self) hy

theorem reads_lexEscape (hc : c.Before ('\\' :: s)) (hn : c.accepted = none)
    (hvalid : valid.contains escapeSequence = true) :
    Reads (ValidPart valid) ('\\' :: s) c (lexEscape c) := by
  simp only [lexEscape, hc.next.peek?_eq]
  cases s with
  | nil =>
    refine reads_escape [] false hvalid rfl hn List.nil_prefix (by simp) fun v hv hp => ?_
    cases List.prefix_nil.1 hp
    cases hv with
    | single h => cases h
    | octal h => cases h
  | cons y s =>
    simp only [List.head?_cons]
    split
    · contradiction
    · rename_i hy
      cases hy
      exact reads_hex hc hn hvalid fun w => escape_hex
    · rename_i hy
      cases hy
      exact reads_hex hc hn hvalid fun w => escape_short
    · rename_i hy
      cases hy
      exact reads_hex hc hn hvalid fun w => escape_long
    · rename_i hx hu hU hy
      cases hy
      exact reads_escaped hc hvalid (by simpa using hx) (by simpa using hu) (by simpa using hU)

/-- A quote is rather the closing one. -/
theorem reads_quotes (hc : c.Before ('\x22' :: s)) (hn : c.accepted = none) :
    Reads (ValidPart valid) ('\x22' :: s) c (lexQuote valid closingQuote quote c) := by
  have hsingle : ∀ u v, ValidPart valid u v → v <+: '\x22' :: s →
      valid.contains u = true ∧ (u = quote ∨ u = closingQuote) ∧ v = ['\x22'] := by
    intro u v hv hp
    obtain ⟨v, rfl, -⟩ := hv.exists_cons hp
    obtain ⟨hu, rfl⟩ := part_quote hv.1 hv.2.2
    exact ⟨hv.2.1, hu, rfl⟩
  unfold lexQuote
  split
  · rename_i hclosing
    refine reads_token (t := closingQuote) (w := ['\x22']) rfl ?_
      ⟨by decide, hclosing, .closingQuote⟩ (by simp) fun u v hv hp => ?_
    · simp [hc.position_next]
    · obtain ⟨-, rfl | rfl, rfl⟩ := hsingle u v hv hp
      · exact .inr ⟨rfl, .inr (.inr ⟨rfl, rfl⟩)⟩
      · exact .inr ⟨rfl, .inl rfl⟩
  · rename_i hclosing
    refine reads_only quote ['\x22'] (valid.contains quote) (by simp) ?_
      (fun hquote => ⟨by decide, hquote, .quote⟩) (by simp) fun u v hv hp => ?_
    · simp [hc.position_next, hn]
    · obtain ⟨hvalid, rfl | rfl, rfl⟩ := hsingle u v hv hp
      · exact ⟨hvalid, rfl, Nat.le_refl _⟩
      · exact absurd hvalid hclosing

/-- A run of plain characters. -/
theorem reads_content (hc : c.Before (x :: s)) (hvalid : valid.contains stringContent = true)
    (hquote : x ≠ '\x22') (hback : x ≠ '\\') (hline : x ≠ '\n') :
    Reads (ValidPart valid) (x :: s) c
      ((c.advance (c.count isPlain)).acceptIf (0 < c.count isPlain) stringContent) := by
  have hx : isPlain x = true := by simp [isPlain, hquote, hline, hback]
  have hplain : ∀ d ∈ x :: s.takeWhile isPlain, d ≠ '\x22' ∧ d ≠ '\n' ∧ d ≠ '\\' := by
    rw [← List.takeWhile_cons_of_pos hx]
    intro d hd
    simpa [isPlain, and_assoc] using List.mem_takeWhile_imp hd
  have hcount : c.count isPlain = (s.takeWhile isPlain).length + 1 := by
    rw [hc.count_eq, List.takeWhile_cons_of_pos hx, List.length_cons]
  have hp : x :: s.takeWhile isPlain <+: x :: s :=
    List.cons_prefix_cons.2 ⟨rfl, List.takeWhile_prefix _⟩
  rw [hcount]
  refine reads_only stringContent (x :: s.takeWhile isPlain) true (by simp) ?_
    (fun _ => ⟨by decide, hvalid, .stringContent hplain⟩) hp fun u v hv hvs => ?_
  · simpa using hc.position_advance hp.length_le
  · obtain ⟨v, rfl, hvs'⟩ := hv.exists_cons hvs
    obtain ⟨rfl, hall⟩ := part_plain hv.1 hquote hback hv.2.2
    have hle := length_le_takeWhile (List.forall_mem_cons.1 hall).2 hvs'
    exact ⟨rfl, rfl, Nat.succ_le_succ hle⟩

end Scanners

/-- Inside a string, the longest text of a valid part is read. -/
theorem reads_lexInString {before : List Char} (hc : c.Before before) (hn : c.accepted = none)
    (hrest : before.dropWhile (fun x => x == '\n' || x == '\r') = x :: s) :
    Reads (ValidPart valid) (x :: s) (c.skipWhile fun x => x == '\n' || x == '\r')
      (lexInString valid c) := by
  have hbefore := hc.skipWhile (p := fun x => x == '\n' || x == '\r')
  have hline : x ≠ '\n' := by
    have := List.head?_dropWhile_not (fun x => x == '\n' || x == '\r') before
    simp [hrest] at this
    exact this.1
  rw [hrest] at hbefore
  simp only [lexInString, hbefore.peek?_eq, List.head?_cons]
  split
  · contradiction
  · rename_i hx
    cases hx
    exact reads_quotes hbefore hn
  · rename_i hquote hx
    cases hx
    have hquote : x ≠ '\x22' := by simpa using hquote
    split
    · rename_i hescape
      obtain ⟨hback, hescape⟩ := Bool.and_eq_true_iff.1 hescape
      cases beq_iff_eq.1 hback
      exact reads_lexEscape hbefore hn hescape
    · rename_i hescape
      by_cases hback : x = '\\'
      · -- No plain text starts with a backslash.
        subst hback
        refine reads_nothing ?_ ?_ fun u v hv hvs => ?_
        · split <;> simp
        · split <;> simp [hbefore.count_eq, hn]
        · obtain ⟨v, rfl, -⟩ := hv.exists_cons hvs
          cases part_backslash hv.1 hv.2.2
          simp [hv.2.1] at hescape
      · split
        · rename_i hvalid
          exact reads_content hbefore hvalid hquote hback hline
        · rename_i hvalid
          refine reads_nothing rfl hn fun u v hv hvs => ?_
          obtain ⟨v, rfl, -⟩ := hv.exists_cons hvs
          obtain ⟨rfl, -⟩ := part_plain hv.1 hquote hback hv.2.2
          exact hvalid hv.2.1

end GrammarTables.Yaral
