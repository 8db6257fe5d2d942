import GrammarTables.Proofs.Cursor
import GrammarTables.Proofs.Yaral.Texts

/-!
# Longest texts

The longest text of a token at the front of another text, what it is for a cursor to have read it,
and how far the scanners of the lexer go.
-/

namespace GrammarTables.Yaral

open Terminal Lexer

/-- Of two tokens with the same text, the first one is read. -/
def Precedes (t u : Symbol) : Prop := t = integer ∧ u = float ∨ t = closingQuote ∧ u = quote

theorem Precedes.asymm {t u : Symbol} (h : Precedes t u) : ¬ Precedes u t := by
  rcases h with ⟨rfl, rfl⟩ | ⟨rfl, rfl⟩
  all_goals
    rintro (⟨h, -⟩ | ⟨h, -⟩)
    all_goals cases h

/-- The longest text at the front of another that is a text of a token, by its token and its
length. -/
inductive Longest (P : Symbol → List Char → Prop) (s : List Char) : Option (Symbol × Nat) → Prop
  | nothing : (∀ t w, P t w → ¬ w <+: s) → Longest P s none
  | token {t : Symbol} {w : List Char} : P t w → w <+: s →
      (∀ u v, P u v → v <+: s → v.length < w.length ∨
        v.length = w.length ∧ (u = t ∨ Precedes t u)) → Longest P s (some (t, w.length))

variable {P Q : Symbol → List Char → Prop} {s w : List Char} {t u : Symbol} {c c' : Cursor}

theorem Longest.unique {taken taken' : Option (Symbol × Nat)} (h : Longest P s taken)
    (h' : Longest P s taken') : taken = taken' := by
  cases h with
  | nothing hnone =>
    cases h' with
    | nothing => rfl
    | token ht hw => exact absurd hw (hnone _ _ ht)
  | token ht hw hmax =>
    cases h' with
    | nothing hnone => exact absurd hw (hnone _ _ ht)
    | token ht' hw' hmax' =>
      rcases hmax _ _ ht' hw' with hlt | ⟨heq, ht'⟩
      · rcases hmax' _ _ ht hw with hlt' | ⟨heq, -⟩ <;> omega
      · rcases hmax' _ _ ht hw with hlt | ⟨-, ht⟩
        · omega
        · rcases ht' with rfl | hp
          · rw [heq]
          · rcases ht with rfl | hp'
            · rw [heq]
            · exact absurd hp' hp.asymm

/-- Only the texts that are at the front count. -/
theorem Longest.congr {taken : Option (Symbol × Nat)} (h : Longest P s taken)
    (hPQ : ∀ t w, w <+: s → (P t w ↔ Q t w)) : Longest Q s taken := by
  cases h with
  | nothing hnone => exact .nothing fun t w ht hw => hnone t w ((hPQ t w hw).2 ht) hw
  | token ht hw hmax =>
    exact .token ((hPQ _ _ hw).1 ht) hw fun u v hu hv => hmax u v ((hPQ u v hv).2 hu) hv

/-- A lexer that started at a cursor has accepted the longest text of a token there. -/
def Reads (P : Symbol → List Char → Prop) (s : List Char) (c c' : Cursor) : Prop :=
  c'.start = c.start ∧ ∃ taken, Longest P s taken ∧
    c'.accepted = taken.map fun (t, n) => (t, c.position + n)

theorem Reads.congr (h : Reads P s c c') (hPQ : ∀ t w, w <+: s → (P t w ↔ Q t w)) :
    Reads Q s c c' := by
  obtain ⟨hstart, taken, hlongest, hacc⟩ := h
  exact ⟨hstart, taken, hlongest.congr hPQ, hacc⟩

theorem reads_nothing (hstart : c'.start = c.start) (hacc : c'.accepted = none)
    (h : ∀ u v, P u v → ¬ v <+: s) : Reads P s c c' :=
  ⟨hstart, none, .nothing h, hacc⟩

theorem reads_token (hstart : c'.start = c.start)
    (hacc : c'.accepted = some (t, c.position + w.length)) (ht : P t w) (hw : w <+: s)
    (h : ∀ u v, P u v → v <+: s → v.length < w.length ∨
      v.length = w.length ∧ (u = t ∨ Precedes t u)) : Reads P s c c' :=
  ⟨hstart, some (t, w.length), .token ht hw h, hacc⟩

/-- The only token that comes into question is read if it is valid. -/
theorem reads_only (t : Symbol) (w : List Char) (valid : Bool) (hstart : c'.start = c.start)
    (hacc : c'.accepted = if valid then some (t, c.position + w.length) else none)
    (ht : valid = true → P t w) (hw : w <+: s)
    (h : ∀ u v, P u v → v <+: s → valid = true ∧ u = t ∧ v.length ≤ w.length) :
    Reads P s c c' := by
  cases valid with
  | true =>
    refine reads_token hstart hacc (ht rfl) hw fun u v hu hv => ?_
    obtain ⟨-, rfl, hlen⟩ := h u v hu hv
    rcases Nat.lt_or_eq_of_le hlen with hlt | heq
    · exact .inl hlt
    · exact .inr ⟨heq, .inl rfl⟩
  | false =>
    refine reads_nothing hstart hacc fun u v hu hv => ?_
    cases (h u v hu hv).1

section Scanners

variable {s w d e : List Char} {b : Bool} {n : Nat} {p : Char → Bool} {y : Char}

/-- What is behind characters of a class and one that is not in it. -/
theorem split_prefix (hd : ∀ c ∈ d, p c = true) (hy : p y = false) (h : d ++ y :: e <+: s) :
    s.takeWhile p = d ∧ ∃ r, s.dropWhile p = y :: r ∧ e <+: r := by
  obtain ⟨r, rfl⟩ := h
  rw [List.append_assoc, List.cons_append, List.takeWhile_append_of_pos hd,
    List.dropWhile_append_of_pos hd]
  simp [hy]

/-- Characters of a class go no further than all of them. -/
theorem length_le_takeWhile (hw : ∀ c ∈ w, p c = true) (h : w <+: s) :
    w.length ≤ (s.takeWhile p).length := by
  obtain ⟨r, rfl⟩ := h
  rw [List.takeWhile_append_of_pos hw, List.length_append]
  exact Nat.le_add_right _ _

/-- A scanner goes to the end of a text of the given kind, if there is one at the front. -/
def Scans (scan : Input → Nat × Bool) (R : List Char → Prop) : Prop :=
  ∀ s n, scan (s.map some) = (n, true) ↔ ∃ w, R w ∧ w <+: s ∧ w.length = n

theorem closing_eq {scan : Input → Nat × Bool} (hc : c.Before s)
    (h : scan (s.map some) = (n, b)) : closing c t scan = (c.advance n).acceptIf b t := by
  rw [closing, hc, h]

theorem blockComment_append (h : BlockRest b w) (r : List Char) :
    blockComment b ((w ++ r).map some) = (w.length, true) := by
  induction h with
  | close => rfl
  | next hc _ ih =>
    simp only [Bool.and_eq_true, beq_iff_eq, List.cons_append, List.map_cons, blockComment, hc, ih]
    rfl

theorem exists_blockRest (h : blockComment b (s.map some) = (n, true)) :
    ∃ w, BlockRest b w ∧ w <+: s ∧ w.length = n := by
  induction s generalizing b n with
  | nil => cases h
  | cons c s ih =>
    simp only [List.map_cons, blockComment] at h
    split at h
    · rename_i hc
      simp only [Bool.and_eq_true, beq_iff_eq] at hc
      obtain ⟨rfl, rfl⟩ := hc
      cases h
      exact ⟨_, .close, by simp, rfl⟩
    · rename_i hc
      obtain ⟨hn, hclosed⟩ := Prod.mk.inj h
      obtain ⟨w, hw, hp, hlen⟩ := ih (Prod.ext rfl hclosed)
      refine ⟨c :: w, .next (by simpa using hc) hw, List.cons_prefix_cons.2 ⟨rfl, hp⟩, ?_⟩
      rw [List.length_cons, hlen, ← hn]

theorem scans_blockComment : Scans (blockComment false) (BlockRest false) := by
  intro s n
  constructor
  · exact exists_blockRest
  · rintro ⟨w, hw, ⟨r, rfl⟩, rfl⟩
    exact blockComment_append hw r

/-- What closes a regular expression. -/
def RegexRest (w : List Char) : Prop := ∃ v, RegexBody v ∧ w = v ++ ['/']

theorem regexRest_char (hslash : y ≠ '/') (hback : y ≠ '\\') (i : Input) :
    regexRest (some y :: i) = (regexRest i).map (· + 1) id := by
  rw [regexRest]
  all_goals simp [hslash, hback]

theorem regexRest_escape (hy : y ≠ '\n') (i : Input) :
    regexRest (some '\\' :: some y :: i) = (regexRest i).map (· + 2) id := by
  simp [regexRest, hy]

theorem regexRest_append (h : RegexBody w) (r : List Char) :
    regexRest ((w ++ '/' :: r).map some) = (w.length + 1, true) := by
  induction h with
  | nil => rfl
  | char hslash hback _ ih =>
    rw [List.cons_append, List.map_cons, regexRest_char hslash hback, ih]
    rfl
  | escape hc _ ih =>
    rw [List.cons_append, List.cons_append, List.map_cons, List.map_cons, regexRest_escape hc, ih]
    rfl

theorem exists_regexRest (h : regexRest (s.map some) = (n, true)) :
    ∃ w, RegexRest w ∧ w <+: s ∧ w.length = n := by
  -- An escape takes two characters at once.
  induction s using List.twoStepInduction generalizing n with
  | nil => cases h
  | singleton c =>
    by_cases hslash : c = '/'
    · subst hslash
      cases h
      exact ⟨_, ⟨[], .nil, rfl⟩, List.prefix_rfl, rfl⟩
    · by_cases hback : c = '\\'
      · subst hback
        cases h
      · rw [List.map_cons, regexRest_char hslash hback] at h
        cases h
  | cons_cons c d s ih ih' =>
    by_cases hslash : c = '/'
    · subst hslash
      cases h
      exact ⟨_, ⟨[], .nil, rfl⟩, by simp, rfl⟩
    · by_cases hback : c = '\\'
      · subst hback
        by_cases hd : d = '\n'
        · subst hd
          cases h
        · rw [List.map_cons, List.map_cons, regexRest_escape hd] at h
          obtain ⟨rfl, hclosed⟩ := Prod.mk.inj h
          obtain ⟨w, ⟨v, hv, rfl⟩, hp, hlen⟩ := ih (Prod.ext rfl hclosed)
          exact ⟨_, ⟨_, .escape hd hv, rfl⟩, by simpa using hp, by simpa using hlen⟩
      · rw [List.map_cons, regexRest_char hslash hback] at h
        obtain ⟨rfl, hclosed⟩ := Prod.mk.inj h
        obtain ⟨w, ⟨v, hv, rfl⟩, hp, hlen⟩ := ih' d (Prod.ext rfl hclosed)
        exact ⟨_, ⟨_, .char hslash hback hv, rfl⟩, by simpa using hp, by simpa using hlen⟩

theorem scans_regexRest : Scans regexRest RegexRest := by
  intro s n
  constructor
  · exact exists_regexRest
  · rintro ⟨_, ⟨w, hw, rfl⟩, ⟨r, rfl⟩, rfl⟩
    rw [List.append_assoc]
    simpa using regexRest_append hw r

end Scanners

end GrammarTables.Yaral
