import GrammarTables.Regex.Reader
import Mathlib.Data.List.TakeDrop
import Mathlib.Data.List.TakeWhile

/-!
# Brackets in enclosed patterns

A pattern that has to match a whole text is put into a group between two anchors. The readers of
escapes and brackets do the same with the end of the group behind their text as without it: each of
them stops at the parenthesis as at the end, or fails at the end. Only a comment at the end of a
verbose stretch goes on over the parenthesis, and takes all of it away.
-/

namespace GrammarTables.Pattern.Reader

variable {α β : Type} {verbose : Bool} {c : Char} {cs cs' rest rest' : List Char} {fuel fuel' : Nat}

/-- What stands behind a pattern that is read as a whole. -/
def closing : List Char := [')', '$']

/-- A text and the same text with the closing behind it, unless a comment took that away. -/
inductive Followed : List Char → List Char → Prop
  | closing : Followed [] closing
  | taken : Followed [] []
  | cons (c : Char) {cs cs' : List Char} : Followed cs cs' → Followed (c :: cs) (c :: cs')

/-- Two readers of which the second reads with the closing behind the text what the first reads
without it. -/
def Agree (read read' : List Char → Option (α × List Char)) : Prop :=
  ∀ {cs cs' : List Char} {x : α} {rest : List Char}, Followed cs cs' →
    read cs = some (x, rest) → ∃ rest', read' cs' = some (x, rest') ∧ Followed rest rest'

/-- Two results of which the second leaves the closing behind what the first leaves. -/
structure Alike (y y' : α × List Char) : Prop where
  value : y'.1 = y.1
  rest : Followed y.2 y'.2

theorem followed_append (cs : List Char) : Followed cs (cs ++ closing) := by
  induction cs with
  | nil => exact .closing
  | cons c cs ih => exact .cons c ih

theorem Followed.exists_cons (h : Followed (c :: rest) cs') :
    ∃ rest', cs' = c :: rest' ∧ Followed rest rest' := by
  cases h with
  | cons _ h => exact ⟨_, rfl, h⟩

/-- What a text does not start with, the closing behind it does not change. -/
theorem Followed.ne_cons (h : Followed cs cs') (hc : c ≠ ')') (hne : ∀ rest, cs ≠ c :: rest) :
    ∀ rest', cs' ≠ c :: rest' := by
  rintro rest' rfl
  cases h with
  | closing => exact hc rfl
  | cons _ h => exact hne _ rfl

theorem Followed.ne_nil (h : Followed cs cs') (hnil : cs ≠ []) : cs' ≠ [] := by
  rintro rfl
  cases h
  exact hnil rfl

theorem Followed.ne_cons_of_ne_nil (h : Followed cs cs') (hnil : cs ≠ [])
    (hne : ∀ rest, cs ≠ c :: rest) : ∀ rest', cs' ≠ c :: rest' := by
  rintro rest' rfl
  cases h with
  | closing => exact hnil rfl
  | cons _ h => exact hne _ rfl

theorem Followed.ne_cons_cons {d : Char} (h : Followed cs cs') (hc : c ≠ ')') (hd : d ≠ ')')
    (hne : ∀ rest, cs ≠ c :: d :: rest) : ∀ rest', cs' ≠ c :: d :: rest' := by
  rintro rest' rfl
  cases h with
  | closing => exact hc rfl
  | cons _ h => exact h.ne_cons hd (fun rest hrest => hne rest (by rw [hrest])) _ rfl

theorem Followed.length_le (h : Followed cs cs') : cs.length ≤ cs'.length := by
  induction h with
  | closing => exact Nat.zero_le _
  | taken => exact Nat.le_refl 0
  | cons c _ ih => exact Nat.succ_le_succ ih

theorem Followed.skipVerbose (h : Followed cs cs') (inComment : Bool) :
    Followed (skipVerbose inComment cs) (skipVerbose inComment cs') := by
  induction h generalizing inComment with
  | closing =>
    cases inComment
    · exact .closing
    · exact .taken
  | taken => exact .taken
  | cons c h ih =>
    simp only [Reader.skipVerbose]
    split
    · exact ih _
    · split
      · exact ih _
      · split
        · exact ih _
        · exact .cons c h

theorem Followed.skip (h : Followed cs cs') (verbose : Bool) :
    Followed (skip verbose cs) (skip verbose cs') := by
  cases verbose
  · exact h
  · exact h.skipVerbose false

theorem length_skipVerbose_le (inComment : Bool) (cs : List Char) :
    (skipVerbose inComment cs).length ≤ cs.length := by
  induction cs generalizing inComment with
  | nil => exact Nat.le_refl 0
  | cons c cs ih =>
    rw [skipVerbose]
    have hline := ih (c != '\n')
    have hblank := ih false
    have hcomment := ih true
    split_ifs <;> simp only [List.length_cons] <;> omega

theorem length_skip_le (verbose : Bool) (cs : List Char) :
    (skip verbose cs).length ≤ cs.length := by
  cases verbose
  · exact Nat.le_refl _
  · exact length_skipVerbose_le false cs

theorem Followed.dropWhile {p : Char → Bool} (hp : p ')' = false) (hcs : Followed cs cs') :
    Followed (cs.dropWhile p) (cs'.dropWhile p) := by
  induction hcs with
  | closing =>
    rw [Reader.closing, List.dropWhile_cons_of_neg (by simp [hp])]
    exact .closing
  | taken => exact .taken
  | cons c hcs ih =>
    rw [List.dropWhile_cons, List.dropWhile_cons]
    split
    · exact ih
    · exact hcs.cons c

/-- Where no character of the closing stops a reader, either the reader finds nothing that does, or
it stops at the same place. -/
theorem followed_span {p : Char → Bool} (hp : closing.all p = true) (hcs : Followed cs cs') :
    (cs.span p).2 = [] ∧ (cs'.span p).2 = [] ∨
      (cs'.span p).1 = (cs.span p).1 ∧ Followed (cs.span p).2 (cs'.span p).2 := by
  simp only [List.span_eq_takeWhile_dropWhile]
  induction hcs with
  | closing => exact .inl ⟨rfl, List.dropWhile_eq_nil_iff.2 (List.all_eq_true.1 hp)⟩
  | taken => exact .inl ⟨rfl, rfl⟩
  | cons c hcs ih =>
    by_cases hc : p c = true
    · simpa [hc] using ih
    · exact .inr (by simpa [hc] using hcs.cons c)

theorem agree_hexDigits (n code : Nat) :
    Agree (hexDigits verbose n code) (hexDigits verbose n code) := by
  intro cs cs' x rest hcs h
  induction n generalizing code cs cs' with
  | zero =>
    cases h
    exact ⟨cs', rfl, hcs⟩
  | succ n ih =>
    cases hcs with
    | closing | taken => cases h
    | cons c hcs =>
      obtain ⟨d, hd, h⟩ := Option.bind_eq_some_iff.1 h
      obtain ⟨rest', h', hrest⟩ := ih _ (hcs.skip verbose) h
      exact ⟨rest', by simp [hexDigits, hd, h'], hrest⟩

/-- The longer text comes with more fuel, which a reader that succeeds does not miss. -/
theorem agree_hexBraced (hfuel : fuel ≤ fuel') (code : Option Nat) :
    Agree (hexBraced verbose fuel code) (hexBraced verbose fuel' code) := by
  intro cs cs' x rest hcs h
  induction fuel generalizing fuel' code cs cs' with
  | zero => cases h
  | succ fuel ih =>
    obtain ⟨fuel', rfl⟩ : ∃ n, fuel' = n + 1 := ⟨fuel' - 1, by omega⟩
    rw [hexBraced] at h ⊢
    have hskip := hcs.skip verbose
    generalize skip verbose cs = t at h hskip
    generalize skip verbose cs' = t' at hskip ⊢
    cases hskip with
    | closing | taken => cases h
    | cons c hskip =>
      by_cases hc : c = '\x7d'
      · subst hc
        obtain ⟨n, hn, h⟩ := Option.bind_eq_some_iff.1 h
        cases h
        exact ⟨_, by simp [hn], hskip.skip verbose⟩
      · simp only at h ⊢
        obtain ⟨d, hd, h⟩ := Option.bind_eq_some_iff.1 h
        obtain ⟨rest', h', hrest⟩ := ih (Nat.le_of_succ_le_succ hfuel) _ hskip h
        exact ⟨rest', by simp [hd, h'], hrest⟩

theorem agree_hexEscape (width : Nat) :
    Agree (hexEscape verbose width) (hexEscape verbose width) := by
  intro cs cs' x rest hcs h
  rw [hexEscape] at h ⊢
  have hskip := hcs.skip verbose
  generalize skip verbose cs = t at h hskip
  generalize skip verbose cs' = t' at hskip ⊢
  split at h
  · cases hskip with
    | cons _ hskip =>
      obtain ⟨⟨code, after⟩, hread, h⟩ := Option.bind_eq_some_iff.1 h
      obtain ⟨d, hd, h⟩ := Option.bind_eq_some_iff.1 h
      cases h
      obtain ⟨after', hread', hafter⟩ :=
        agree_hexBraced (Nat.succ_le_succ hskip.length_le) none hskip hread
      exact ⟨after', by simp [hread', hd], hafter⟩
  · rename_i hne
    obtain ⟨⟨code, after⟩, hread, h⟩ := Option.bind_eq_some_iff.1 h
    obtain ⟨d, hd, h⟩ := Option.bind_eq_some_iff.1 h
    cases h
    obtain ⟨after', hread', hafter⟩ := agree_hexDigits width 0 hskip hread
    refine ⟨after', ?_, hafter⟩
    split
    · cases hskip
      exact absurd rfl (hne _)
    · simp [hread', hd]

/-- The name of an edge ends at the closing. -/
theorem alike_edgeName (hcs : Followed cs cs') (hfuel : cs.length ≤ fuel)
    (hfuel' : cs'.length ≤ fuel') :
    Alike (edgeName verbose fuel cs) (edgeName verbose fuel' cs') := by
  induction fuel generalizing fuel' cs cs' with
  | zero =>
    cases hcs with
    | closing => cases fuel' <;> exact ⟨rfl, .closing⟩
    | taken => cases fuel' <;> exact ⟨rfl, .taken⟩
    | cons c hcs => exact absurd hfuel (Nat.not_succ_le_zero _)
  | succ fuel ih =>
    cases hcs with
    | closing => cases fuel' <;> exact ⟨rfl, .closing⟩
    | taken => cases fuel' <;> exact ⟨rfl, .taken⟩
    | @cons c t t' hcs =>
      obtain ⟨fuel', rfl⟩ : ∃ n, fuel' = n + 1 :=
        ⟨fuel' - 1, by rw [List.length_cons] at hfuel'; omega⟩
      have hlen := Nat.le_trans (length_skip_le verbose t) (Nat.le_of_succ_le_succ hfuel)
      have hlen' := Nat.le_trans (length_skip_le verbose t') (Nat.le_of_succ_le_succ hfuel')
      obtain ⟨hname, hrest⟩ := ih (hcs.skip verbose) hlen hlen'
      simp only [edgeName]
      split
      · exact ⟨by rw [hname], hrest⟩
      · exact ⟨rfl, hcs.cons c⟩

theorem agree_wordEdge : Agree (wordEdge verbose) (wordEdge verbose) := by
  intro cs cs' x rest hcs h
  cases hcs with
  | closing =>
    cases h
    exact ⟨_, rfl, .closing⟩
  | taken =>
    cases h
    exact ⟨_, rfl, .taken⟩
  | @cons c t t' hcs =>
    by_cases hc : c = '\x7b'
    · subst hc
      simp only [wordEdge] at h ⊢
      have hskip := hcs.skip verbose
      generalize skip verbose t = s at h hskip
      generalize skip verbose t' = s' at hskip ⊢
      cases hskip with
      | closing | taken => cases h
      | @cons d s s' hskip =>
        simp only at h ⊢
        split at h
        · rename_i hd
          rw [if_pos hd]
          have hedge := @alike_edgeName verbose _ _ _ _ (hskip.cons d) (Nat.le_refl _)
            (Nat.le_refl _)
          generalize edgeName verbose (d :: s).length (d :: s) = y at h hedge
          generalize edgeName verbose (d :: s').length (d :: s') = y' at hedge ⊢
          obtain ⟨name, after⟩ := y
          obtain ⟨name', after'⟩ := y'
          obtain ⟨rfl, hafter⟩ := hedge
          cases hafter with
          | closing | taken => cases h
          | @cons e after after' hafter =>
            by_cases he : e = '\x7d'
            · subst he
              simp only at h ⊢
              split at h
              all_goals first
                | (cases h; exact ⟨_, rfl, hafter⟩)
                | cases h
            · simp [he] at h
        · rename_i hd
          cases h
          exact ⟨_, if_neg hd, hcs.cons _⟩
    · have hplain : ∀ t, wordEdge verbose (c :: t) = some (.boundary, c :: t) := by
        intro t
        simp [wordEdge, hc]
      rw [hplain] at h ⊢
      cases h
      exact ⟨_, rfl, hcs.cons c⟩

theorem agree_escape : Agree (escape verbose) (escape verbose) := by
  intro cs cs' x rest hcs h
  cases hcs with
  | closing | taken => cases h
  | @cons c t t' hcs =>
    unfold escape at h ⊢
    have hex : ∀ width,
        ((hexEscape verbose width t).bind fun y => some (literal y.1, y.2)) = some (x, rest) →
        ∃ rest', ((hexEscape verbose width t').bind fun y => some (literal y.1, y.2)) =
          some (x, rest') ∧ Followed rest rest' := by
      intro width h
      obtain ⟨⟨l, after⟩, hread, h⟩ := Option.bind_eq_some_iff.1 h
      cases h
      obtain ⟨after', hread', hafter⟩ := agree_hexEscape width hcs hread
      exact ⟨after', by simp [hread'], hafter⟩
    simp only at h ⊢
    split at h
    all_goals first
      | exact hex _ h
      | (cases h; exact ⟨_, rfl, hcs⟩)
      | skip
    · obtain ⟨⟨edge, after⟩, hread, h⟩ := Option.bind_eq_some_iff.1 h
      cases h
      obtain ⟨after', hread', hafter⟩ := agree_wordEdge hcs hread
      exact ⟨after', by simp [hread'], hafter⟩
    · split at h
      · rename_i hc
        cases h
        exact ⟨t', if_pos hc, hcs⟩
      · cases h

/-- The name of a class and what closes it, after the sign that may negate it. -/
def classNamed (negated : Bool) (cs : List Char) : Option (ClassTree × List Char) :=
  let (name, rest) := cs.span (· != ':')
  match rest with
  | ':' :: ']' :: rest => do
    some (.ascii (← asciiClass? (String.ofList name)) negated, rest)
  | _ => none

theorem namedClass?_negated (cs : List Char) :
    namedClass? (':' :: '^' :: cs) = classNamed true cs := rfl

theorem namedClass?_plain (h : ∀ rest, cs ≠ '^' :: rest) :
    namedClass? (':' :: cs) = classNamed false cs := by
  cases cs with
  | nil => rfl
  | cons c cs =>
    have hc : c ≠ '^' := fun hc => h cs (by rw [hc])
    simp only [namedClass?]
    rfl

theorem namedClass?_other (hc : c ≠ ':') : namedClass? (c :: cs) = none := by
  simp [namedClass?, hc]

/-- Two results of which the second is the first with the closing behind what is left. -/
inductive SameResult : Option (α × List Char) → Option (α × List Char) → Prop
  | none : SameResult none none
  | some (x : α) {rest rest' : List Char} : Followed rest rest' →
      SameResult (some (x, rest)) (some (x, rest'))

theorem sameResult_classNamed (negated : Bool) (hcs : Followed cs cs') :
    SameResult (classNamed negated cs) (classNamed negated cs') := by
  have hspan := @followed_span _ _ (· != ':') (by decide) hcs
  unfold classNamed
  generalize cs.span (· != ':') = y at hspan ⊢
  generalize cs'.span (· != ':') = y' at hspan ⊢
  obtain ⟨name, after⟩ := y
  obtain ⟨name', after'⟩ := y'
  rcases hspan with ⟨rfl, rfl⟩ | ⟨rfl, hafter⟩
  · exact .none
  · cases hafter with
    | closing | taken => exact .none
    | cons c hafter =>
      by_cases hc : c = ':'
      · subst hc
        cases hafter with
        | closing | taken => exact .none
        | @cons d after after' hafter =>
          by_cases hd : d = ']'
          · subst hd
            simp only
            cases asciiClass? (String.ofList name') with
            | none => exact .none
            | some ranges => exact .some _ hafter
          · simpa [hd] using .none
      · simpa [hc] using .none

theorem sameResult_namedClass? (hcs : Followed cs cs') :
    SameResult (namedClass? cs) (namedClass? cs') := by
  cases hcs with
  | closing | taken => exact .none
  | @cons c t t' hcs =>
    by_cases hc : c = ':'
    · subst hc
      cases hcs with
      | closing => exact sameResult_classNamed false .closing
      | taken => exact .none
      | @cons d t t' hcs =>
        by_cases hd : d = '^'
        · subst hd
          rw [namedClass?_negated, namedClass?_negated]
          exact sameResult_classNamed true hcs
        · rw [namedClass?_plain (by simp [hd]), namedClass?_plain (by simp [hd])]
          exact sameResult_classNamed false (hcs.cons d)
    · rw [namedClass?_other hc, namedClass?_other hc]
      exact .none

theorem agree_classAtom : Agree (classAtom verbose) (classAtom verbose) := by
  intro cs cs' x rest hcs h
  cases hcs with
  | closing | taken => cases h
  | @cons c t t' hcs =>
    by_cases hc : c = '\\'
    · subst hc
      obtain ⟨⟨p, after⟩, hread, h⟩ := Option.bind_eq_some_iff.1 h
      obtain ⟨after', hread', hafter⟩ := agree_escape hcs hread
      cases p with
      | literal | short =>
        cases h
        exact ⟨after', by simp [classAtom, hread'], hafter⟩
      | _ => cases h
    · have hclass : ∀ t, classAtom verbose (c :: t) = some (.literal { char := c }, t) := by
        intro t
        simp [classAtom]
      rw [hclass] at h ⊢
      cases h
      exact ⟨t', rfl, hcs⟩

theorem agree_classRange : Agree (classRange verbose) (classRange verbose) := by
  intro cs cs' x rest hcs h
  obtain ⟨⟨lo, after⟩, hlo, h⟩ := Option.bind_eq_some_iff.1 h
  obtain ⟨after', hlo', hafter⟩ := agree_classAtom hcs hlo
  have hskip := hafter.skip verbose
  simp only [classRange, hlo', Option.bind_eq_bind, Option.bind_some]
  simp only at h
  generalize skip verbose after = t at h hskip
  generalize skip verbose after' = t' at hskip ⊢
  cases hskip with
  | closing | taken => cases h
  | @cons c t t' hskip =>
    by_cases hc : c = '-'
    · subst hc
      simp only at h ⊢
      have hskip' := hskip.skip verbose
      generalize skip verbose t = u at h hskip'
      generalize skip verbose t' = u' at hskip' ⊢
      cases hskip' with
      | closing | taken => cases h
      | @cons d u u' hskip' =>
        simp only at h ⊢
        split at h
        · rename_i hd
          cases h
          exact ⟨_, if_pos hd, hskip.cons _⟩
        · rename_i hd
          rw [if_neg hd]
          obtain ⟨⟨hi, after⟩, hread, h⟩ := Option.bind_eq_some_iff.1 h
          obtain ⟨after', hread', hafter⟩ := agree_classAtom (hskip'.cons d) hread
          cases lo with
          | literal lo =>
            cases hi with
            | literal hi =>
              obtain ⟨hle, h⟩ := Option.ite_none_right_eq_some.1 h
              cases h
              exact ⟨after', by simp [hread', hle], hafter⟩
            | _ => cases h
          | _ => cases h
    · obtain ⟨rfl, rfl⟩ : lo = x ∧ c :: t = rest := by simpa [hc] using h
      exact ⟨c :: t', by simp [hc], hskip.cons c⟩

/-- Dashes at the front of a bracket end at the closing. -/
theorem alike_leadingDashes (hcs : Followed cs cs') (hfuel : cs.length ≤ fuel)
    (hfuel' : cs'.length ≤ fuel') :
    Alike (leadingDashes verbose fuel cs) (leadingDashes verbose fuel' cs') := by
  induction fuel generalizing fuel' cs cs' with
  | zero =>
    cases hcs with
    | closing => cases fuel' <;> exact ⟨rfl, .closing⟩
    | taken => cases fuel' <;> exact ⟨rfl, .taken⟩
    | cons c hcs => exact absurd hfuel (Nat.not_succ_le_zero _)
  | succ fuel ih =>
    cases hcs with
    | closing => cases fuel' <;> exact ⟨rfl, .closing⟩
    | taken => cases fuel' <;> exact ⟨rfl, .taken⟩
    | @cons c t t' hcs =>
      obtain ⟨fuel', rfl⟩ : ∃ n, fuel' = n + 1 :=
        ⟨fuel' - 1, by rw [List.length_cons] at hfuel'; omega⟩
      by_cases hc : c = '-'
      · subst hc
        have hlen := Nat.le_trans (length_skip_le verbose t) (Nat.le_of_succ_le_succ hfuel)
        have hlen' := Nat.le_trans (length_skip_le verbose t') (Nat.le_of_succ_le_succ hfuel')
        obtain ⟨hname, hrest⟩ := ih (hcs.skip verbose) hlen hlen'
        exact ⟨congrArg (_ :: ·) hname, hrest⟩
      · have hdashes : ∀ n t, leadingDashes verbose (n + 1) (c :: t) = ([], c :: t) := by
          intro n t
          simp [leadingDashes, hc]
        rw [hdashes, hdashes]
        exact ⟨rfl, hcs.cons c⟩

/-- The front of a bracket after the sign that may negate it. -/
def classStart (verbose negated : Bool) (cs : List Char) : Bool × List ClassTree × List Char :=
  match leadingDashes verbose cs.length cs with
  | ([], ']' :: rest) => (negated, [.literal { char := ']' }], skip verbose rest)
  | (items, rest) => (negated, items, rest)

theorem classFront_negated (h : skip verbose cs = '^' :: rest) :
    classFront verbose cs = classStart verbose true (skip verbose rest) := by
  simp only [classFront, h]
  rfl

theorem classFront_plain (h : ∀ rest, skip verbose cs ≠ '^' :: rest) :
    classFront verbose cs = classStart verbose false (skip verbose cs) := by
  simp only [classFront]
  generalize skip verbose cs = t at h ⊢
  cases t with
  | nil => rfl
  | cons c t =>
    have hc : c ≠ '^' := fun hc => h t (by rw [hc])
    rfl

theorem followed_classStart (negated : Bool) (hcs : Followed cs cs') :
    (classStart verbose negated cs').1 = (classStart verbose negated cs).1 ∧
      (classStart verbose negated cs').2.1 = (classStart verbose negated cs).2.1 ∧
        Followed (classStart verbose negated cs).2.2 (classStart verbose negated cs').2.2 := by
  obtain ⟨hitems, hrest⟩ := @alike_leadingDashes verbose _ _ _ _ hcs (Nat.le_refl _)
    (Nat.le_refl _)
  unfold classStart
  generalize leadingDashes verbose cs.length cs = y at hitems hrest ⊢
  generalize leadingDashes verbose cs'.length cs' = y' at hitems hrest ⊢
  obtain ⟨items, after⟩ := y
  obtain ⟨items', after'⟩ := y'
  obtain rfl : items' = items := hitems
  cases items' with
  | nil =>
    cases hrest with
    | closing => exact ⟨rfl, rfl, .closing⟩
    | taken => exact ⟨rfl, rfl, .taken⟩
    | cons c hrest =>
      by_cases hc : c = ']'
      · subst hc
        exact ⟨rfl, rfl, hrest.skip verbose⟩
      · simpa [hc] using hrest.cons c
  | cons item items => exact ⟨rfl, rfl, hrest⟩

theorem followed_classFront (hcs : Followed cs cs') :
    (classFront verbose cs').1 = (classFront verbose cs).1 ∧
      (classFront verbose cs').2.1 = (classFront verbose cs).2.1 ∧
        Followed (classFront verbose cs).2.2 (classFront verbose cs').2.2 := by
  have hskip := hcs.skip verbose
  by_cases hsign : ∃ rest, skip verbose cs = '^' :: rest
  · obtain ⟨rest, hrest⟩ := hsign
    rw [hrest] at hskip
    obtain ⟨rest', hrest', hskip⟩ := hskip.exists_cons
    rw [classFront_negated hrest, classFront_negated hrest']
    exact followed_classStart true (hskip.skip verbose)
  · have hplain : ∀ rest, skip verbose cs ≠ '^' :: rest := fun rest h => hsign ⟨rest, h⟩
    rw [classFront_plain hplain, classFront_plain (hskip.ne_cons (by decide) hplain)]
    exact followed_classStart false hskip

theorem agree_classBody (hfuel : fuel ≤ fuel') (pending : Option (SetOperator × ClassTree))
    (items : List ClassTree) :
    Agree (classBody verbose fuel pending items) (classBody verbose fuel' pending items) := by
  intro cs cs' x rest hcs h
  induction fuel generalizing fuel' pending items cs cs' x rest with
  | zero => cases h
  | succ fuel ih =>
    obtain ⟨fuel', rfl⟩ : ∃ n, fuel' = n + 1 := ⟨fuel' - 1, by omega⟩
    replace hfuel := Nat.le_of_succ_le_succ hfuel
    unfold classBody at h ⊢
    have hskip := hcs.skip verbose
    generalize skip verbose cs = t at h hskip
    generalize skip verbose cs' = t' at hskip ⊢
    simp only at h ⊢
    split at h
    · cases h
    · obtain ⟨rest', rfl, hrest⟩ := hskip.exists_cons
      simp only
      have hnamed := sameResult_namedClass? hrest
      generalize namedClass? rest' = y' at hnamed ⊢
      split at h
      · rename_i hy
        rw [hy] at hnamed
        cases hnamed with
        | some named hafter => exact ih hfuel _ _ hafter h
      · rename_i hy
        rw [hy] at hnamed
        cases hnamed with
        | none =>
          obtain ⟨⟨body, after⟩, hread, h⟩ := Option.bind_eq_some_iff.1 h
          obtain ⟨hsign, hitems, hfront⟩ := @followed_classFront verbose _ _ hrest
          obtain ⟨after', hread', hafter⟩ := ih hfuel _ _ hfront hread
          obtain ⟨rest', h', hrest'⟩ := ih hfuel _ _ hafter h
          exact ⟨rest', by simp [hsign, hitems, hread', h'], hrest'⟩
    · obtain ⟨rest', rfl, hrest⟩ := hskip.exists_cons
      cases h
      exact ⟨rest', rfl, hrest⟩
    · obtain ⟨rest', rfl, hrest⟩ := hskip.exists_cons
      obtain ⟨rest'', rfl, hafter⟩ := hrest.exists_cons
      exact ih hfuel _ _ hafter h
    · obtain ⟨rest', rfl, hrest⟩ := hskip.exists_cons
      obtain ⟨rest'', rfl, hafter⟩ := hrest.exists_cons
      exact ih hfuel _ _ hafter h
    · obtain ⟨rest', rfl, hrest⟩ := hskip.exists_cons
      obtain ⟨rest'', rfl, hafter⟩ := hrest.exists_cons
      exact ih hfuel _ _ hafter h
    · obtain ⟨⟨item, after⟩, hread, h⟩ := Option.bind_eq_some_iff.1 h
      obtain ⟨after', hread', hafter⟩ := agree_classRange hskip hread
      obtain ⟨rest', h', hrest⟩ := ih hfuel _ _ hafter h
      refine ⟨rest', ?_, hrest⟩
      -- The longer text starts as the shorter one, so it comes to the same branch.
      rename_i hnil hopen hclose hand hminus hxor _
      split
      · cases hskip
        exact absurd rfl hnil
      · exact absurd rfl (hskip.ne_cons (by decide) hopen _)
      · exact absurd rfl (hskip.ne_cons (by decide) hclose _)
      · exact absurd rfl (hskip.ne_cons_cons (by decide) (by decide) hand _)
      · exact absurd rfl (hskip.ne_cons_cons (by decide) (by decide) hminus _)
      · exact absurd rfl (hskip.ne_cons_cons (by decide) (by decide) hxor _)
      · simp [hread', h']

theorem agree_bracket : Agree (bracket verbose) (bracket verbose) := by
  intro cs cs' x rest hcs h
  have hcsfront := @followed_classFront verbose _ _ hcs
  unfold bracket at h ⊢
  generalize classFront verbose cs = y at h hcsfront
  generalize classFront verbose cs' = y' at hcsfront ⊢
  obtain ⟨negated, items, front⟩ := y
  obtain ⟨negated', items', front'⟩ := y'
  obtain ⟨rfl, rfl, hfront⟩ := hcsfront
  obtain ⟨⟨body, after⟩, hread, h⟩ := Option.bind_eq_some_iff.1 h
  cases h
  obtain ⟨after', hread', hafter⟩ :=
    agree_classBody (Nat.succ_le_succ hcs.length_le) none _ hfront hread
  exact ⟨after', by simp [hread'], hafter⟩

end GrammarTables.Pattern.Reader
