import GrammarTables.Proofs.EnclosedBrackets

/-!
# Enclosed patterns

A pattern in a group of its own between two anchors is read as it is alone, where both texts are
patterns. So no flag, name or repetition reaches over the end of the group.
-/

namespace GrammarTables.Pattern

namespace Reader

variable {verbose : Bool} {c : Char} {cs cs' rest rest' : List Char} {fuel fuel' : Nat}

/-- The digits of a number end at the closing. -/
theorem alike_countDigits (n : Option Nat) (hcs : Followed cs cs') (hfuel : cs.length ≤ fuel)
    (hfuel' : cs'.length ≤ fuel') :
    Alike (countDigits verbose fuel n cs) (countDigits verbose fuel' n cs') := by
  induction fuel generalizing fuel' n cs cs' with
  | zero =>
    cases hcs with
    | closing => cases fuel' <;> exact ⟨rfl, .closing⟩
    | taken => cases fuel' <;> exact ⟨rfl, .taken⟩
    | cons c hcs => exact absurd hfuel (Nat.not_succ_le_zero _)
  | succ fuel ih =>
    cases hcs with
    | closing => cases fuel' <;> exact ⟨rfl, .closing⟩
    | taken => cases fuel' <;> exact ⟨rfl, .taken⟩
    | @cons c t t' hcs =>
      obtain ⟨fuel', rfl⟩ : ∃ n, fuel' = n + 1 :=
        ⟨fuel' - 1, by rw [List.length_cons] at hfuel'; omega⟩
      have hlen := Nat.le_trans (length_skip_le verbose t) (Nat.le_of_succ_le_succ hfuel)
      have hlen' := Nat.le_trans (length_skip_le verbose t') (Nat.le_of_succ_le_succ hfuel')
      simp only [countDigits]
      split
      · exact ih _ (hcs.skip verbose) hlen hlen'
      · exact ⟨rfl, hcs.cons c⟩

theorem alike_count (hcs : Followed cs cs') : Alike (count verbose cs) (count verbose cs') := by
  have hblank : Text.isWhiteSpace ')' = false := by decide
  obtain ⟨hn, hrest⟩ := @alike_countDigits verbose _ _ _ _ none (hcs.dropWhile hblank)
    (Nat.le_refl _) (Nat.le_refl _)
  simp only [count]
  exact ⟨by rw [hn], ((hrest.dropWhile hblank).skip verbose).dropWhile hblank⟩

theorem agree_bounds : Agree (bounds verbose) (bounds verbose) := by
  intro cs cs' x rest hcs h
  have hleast := @alike_count verbose _ _ (hcs.skip verbose)
  unfold bounds at h ⊢
  generalize count verbose (skip verbose cs) = y at h hleast
  generalize count verbose (skip verbose cs') = y' at hleast ⊢
  obtain ⟨least, after⟩ := y
  obtain ⟨least', after'⟩ := y'
  obtain ⟨rfl, hafter⟩ := hleast
  obtain ⟨least, rfl, h⟩ := Option.bind_eq_some_iff.1 h
  simp only [Option.bind_eq_bind, Option.bind_some]
  cases hafter with
  | closing | taken => cases h
  | @cons c t t' hafter =>
    by_cases hc : c = '\x7d'
    · subst hc
      cases h
      exact ⟨_, rfl, hafter⟩
    by_cases hc' : c = ','
    · subst hc'
      simp only at h ⊢
      have hskip := hafter.skip verbose
      generalize skip verbose t = s at h hskip
      generalize skip verbose t' = s' at hskip ⊢
      split at h
      · obtain ⟨u', rfl, hu⟩ := hskip.exists_cons
        cases h
        exact ⟨_, rfl, hu⟩
      · rename_i hopen
        have hmost := @alike_count verbose _ _ hskip
        generalize count verbose s = z at h hmost
        split at h
        · rename_i most after
          obtain ⟨hnumber, hafter⟩ := hmost
          obtain ⟨after', hafter', hrest⟩ := hafter.exists_cons
          have hcount : count verbose s' = (some most, '\x7d' :: after') :=
            Prod.ext hnumber hafter'
          obtain ⟨hle, h⟩ := Option.ite_none_right_eq_some.1 h
          cases h
          refine ⟨after', ?_, hrest⟩
          split
          · exact absurd rfl (hskip.ne_cons (by decide) hopen _)
          · rw [hcount]
            exact if_pos hle
        · cases h
    · simp [hc, hc'] at h

theorem Followed.skipLazy (hcs : Followed cs cs') : Followed (skipLazy cs) (skipLazy cs') := by
  cases hcs with
  | closing => exact .closing
  | taken => exact .taken
  | cons c hcs =>
    by_cases hc : c = '?'
    · subst hc
      exact hcs
    · simpa [Reader.skipLazy, hc] using hcs.cons c

theorem agree_flagList (changes : List FlagChange) (off dangling : Bool) :
    Agree (fun cs => flagList cs changes off dangling)
      (fun cs => flagList cs changes off dangling) := by
  intro cs cs' x rest hcs h
  induction hcs generalizing changes off dangling with
  | closing | taken => cases h
  | cons c hcs ih =>
    simp only [flagList] at h ⊢
    split at h
    · rename_i hc
      rw [if_pos hc]
      obtain ⟨hdangling, h⟩ := Option.ite_none_left_eq_some.1 h
      cases h
      exact ⟨_, if_neg hdangling, hcs.cons c⟩
    · rename_i hc
      rw [if_neg hc]
      split at h
      · rename_i hminus
        obtain ⟨hoff, h⟩ := Option.ite_none_left_eq_some.1 h
        rw [if_pos hminus, if_neg hoff]
        exact ih _ _ _ h
      · rename_i hminus
        obtain ⟨flag, hflag, h⟩ := Option.bind_eq_some_iff.1 h
        obtain ⟨hnew, h⟩ := Option.ite_none_left_eq_some.1 h
        obtain ⟨rest', h', hrest⟩ := ih _ _ _ h
        exact ⟨rest', by simp [hminus, hflag, hnew, h'], hrest⟩

theorem agree_groupName : Agree groupName groupName := by
  intro cs cs' x rest hcs h
  have hspan := @followed_span _ _ (· != '>') (by decide) hcs
  unfold groupName at h ⊢
  generalize cs.span (· != '>') = y at h hspan
  generalize cs'.span (· != '>') = y' at hspan ⊢
  obtain ⟨name, after⟩ := y
  obtain ⟨name', after'⟩ := y'
  split at h
  · rename_i heq
    cases heq
    rcases hspan with ⟨hnil, -⟩ | ⟨rfl, hafter⟩
    · cases hnil
    · obtain ⟨rest', rfl, hrest⟩ := hafter.exists_cons
      obtain ⟨hname, h⟩ := Option.ite_none_right_eq_some.1 h
      cases h
      exact ⟨rest', if_pos hname, hrest⟩
  · cases h

/-- What opens with a name. -/
def namedOpening (cs : List Char) : Option (Opening × List Char) := do
  let (name, rest) ← groupName cs
  some (Opening.group true [] (some name), rest)

theorem agree_namedOpening : Agree namedOpening namedOpening := by
  intro cs cs' x rest hcs h
  obtain ⟨⟨name, after⟩, hread, h⟩ := Option.bind_eq_some_iff.1 h
  cases h
  obtain ⟨after', hread', hafter⟩ := agree_groupName hcs hread
  exact ⟨after', by simp [namedOpening, hread'], hafter⟩

/-- What opens after some flags. -/
def flagsOpening (changes : List FlagChange) : List Char → Option (Opening × List Char)
  | [] => none
  | ')' :: rest => if changes.isEmpty then none else some (.flags changes, rest)
  | _ :: rest => some (.group false changes none, rest)

theorem agree_flagsOpening (changes : List FlagChange) :
    Agree (flagsOpening changes) (flagsOpening changes) := by
  intro cs cs' x rest hcs h
  cases hcs with
  | closing | taken => cases h
  | @cons c t t' hcs =>
    by_cases hc : c = ')'
    · subst hc
      obtain ⟨hne, h⟩ := Option.ite_none_left_eq_some.1 h
      cases h
      exact ⟨t', if_neg hne, hcs⟩
    · have hgroup : ∀ t, flagsOpening changes (c :: t) = some (.group false changes none, t) := by
        intro t
        simp [flagsOpening]
      rw [hgroup] at h ⊢
      cases h
      exact ⟨t', rfl, hcs⟩

/-- A text after a question mark that is no name and no look. -/
def FlagsFollow (cs : List Char) : Prop :=
  ∀ rest, cs ≠ '=' :: rest ∧ cs ≠ '!' :: rest ∧ cs ≠ '<' :: rest ∧ cs ≠ 'P' :: '<' :: rest

theorem FlagsFollow.of_followed (h : FlagsFollow cs) (hcs : Followed cs cs') :
    FlagsFollow cs' := by
  intro rest'
  refine ⟨?_, ?_, ?_, ?_⟩
  · exact hcs.ne_cons (by decide) (fun rest => (h rest).1) rest'
  · exact hcs.ne_cons (by decide) (fun rest => (h rest).2.1) rest'
  · exact hcs.ne_cons (by decide) (fun rest => (h rest).2.2.1) rest'
  · exact hcs.ne_cons_cons (by decide) (by decide) (fun rest => (h rest).2.2.2) rest'

theorem opening_flags (h : skip verbose cs = '?' :: rest) (hrest : FlagsFollow rest) :
    opening verbose cs = (flagList rest [] false false).bind fun y => flagsOpening y.1 y.2 := by
  have hahead : ∀ u, rest ≠ '=' :: u := fun u => (hrest u).1
  have hnot : ∀ u, rest ≠ '!' :: u := fun u => (hrest u).2.1
  have hname : ∀ u, rest ≠ '<' :: u := fun u => (hrest u).2.2.1
  have hbehind : ∀ u, rest ≠ '<' :: '=' :: u := fun u => hname _
  have hnotBehind : ∀ u, rest ≠ '<' :: '!' :: u := fun u => hname _
  have hp : ∀ u, rest ≠ 'P' :: '<' :: u := fun u => (hrest u).2.2.2
  unfold opening
  rw [h]
  simp only
  refine congrArg _ (funext fun y => ?_)
  obtain ⟨changes, after⟩ := y
  cases after with
  | nil => cases changes <;> rfl
  | cons c after =>
    by_cases hc : c = ')'
    · subst hc
      cases changes <;> rfl
    · simp [flagsOpening, hc]

theorem opening_name (h : skip verbose cs = '?' :: '<' :: rest)
    (hahead : ∀ u, rest ≠ '=' :: u) (hnot : ∀ u, rest ≠ '!' :: u) :
    opening verbose cs = namedOpening rest := by
  unfold opening
  rw [h]
  simp only
  rfl

theorem opening_plain (h : ∀ rest, skip verbose cs ≠ '?' :: rest) :
    opening verbose cs = some (.group true [] none, skip verbose cs) := by
  unfold opening
  generalize skip verbose cs = t at h ⊢
  simp only
  split
  all_goals first
    | exact absurd rfl (h _)
    | rfl

theorem agree_opening : Agree (opening verbose) (opening verbose) := by
  intro cs cs' x rest hcs h
  have hskip := hcs.skip verbose
  by_cases hsign : ∃ t, skip verbose cs = '?' :: t
  · obtain ⟨t, ht⟩ := hsign
    rw [ht] at hskip
    obtain ⟨t', ht', htail⟩ := hskip.exists_cons
    by_cases hflags : FlagsFollow t
    · rw [opening_flags ht hflags] at h
      rw [opening_flags ht' (hflags.of_followed htail)]
      obtain ⟨⟨changes, after⟩, hread, h⟩ := Option.bind_eq_some_iff.1 h
      obtain ⟨after', hread', hafter⟩ := agree_flagList [] false false htail hread
      obtain ⟨rest', h', hrest⟩ := agree_flagsOpening changes hafter h
      exact ⟨rest', by simp [hread', h'], hrest⟩
    · obtain ⟨u, hu⟩ : ∃ u, t = '=' :: u ∨ t = '!' :: u ∨ t = '<' :: u ∨ t = 'P' :: '<' :: u := by
        simp only [FlagsFollow, not_forall] at hflags
        obtain ⟨u, hu⟩ := hflags
        exact ⟨u, by tauto⟩
      rcases hu with rfl | rfl | rfl | rfl
      · simp [opening, ht] at h
      · simp [opening, ht] at h
      · obtain ⟨u', rfl, hu⟩ := htail.exists_cons
        by_cases hahead : ∃ w, u = '=' :: w ∨ u = '!' :: w
        · obtain ⟨w, rfl | rfl⟩ := hahead <;> simp [opening, ht] at h
        · simp only [not_exists, not_or, forall_and] at hahead
          rw [opening_name ht hahead.1 hahead.2] at h
          rw [opening_name ht' (hu.ne_cons (by decide) hahead.1)
            (hu.ne_cons (by decide) hahead.2)]
          exact agree_namedOpening hu h
      · obtain ⟨v, rfl, hv⟩ := htail.exists_cons
        obtain ⟨u', rfl, hu⟩ := hv.exists_cons
        simp only [opening, ht, ht'] at h ⊢
        exact agree_namedOpening hu h
  · have hplain : ∀ t, skip verbose cs ≠ '?' :: t := fun t h => hsign ⟨t, h⟩
    rw [opening_plain hplain] at h
    rw [opening_plain (hskip.ne_cons (by decide) hplain)]
    cases h
    exact ⟨_, rfl, hskip⟩

theorem agree_primitive : Agree (primitive verbose) (primitive verbose) := by
  intro cs cs' x rest hcs h
  unfold primitive at h ⊢
  split at h
  · cases h
  · obtain ⟨t', rfl, ht⟩ := hcs.exists_cons
    exact agree_escape ht h
  all_goals
    obtain ⟨t', rfl, ht⟩ := hcs.exists_cons
    cases h
    exact ⟨t', by simp only, ht⟩

/-- With so much fuel, a body ends at the closing as it ends at the end of the text. -/
def BodyFollows (fuel : Nat) : Prop :=
  ∀ {fuel' : Nat} {s s' : State} {parts done : List Pattern} {p : Pattern}
    {cs cs' rest : List Char}, fuel ≤ fuel' → Followed cs cs' →
    body fuel s parts done cs = some (p, s', rest) →
    ∃ rest', body fuel' s parts done cs' = some (p, s', rest') ∧ Followed rest rest'

section

variable {s s' : State} {parts done : List Pattern} {p : Pattern}

/-- A body goes on behind a repetition. -/
theorem BodyFollows.repeated (ih : BodyFollows fuel) (hfuel : fuel ≤ fuel') {least : Nat}
    {most : Option Nat} (hcs : Followed cs cs')
    (h : (do body fuel s (← repeatLast least most parts) done (skipLazy cs)) =
      some (p, s', rest)) :
    ∃ rest', (do body fuel' s (← repeatLast least most parts) done (skipLazy cs')) =
      some (p, s', rest') ∧ Followed rest rest' := by
  obtain ⟨parts', hparts, h⟩ := Option.bind_eq_some_iff.1 h
  obtain ⟨rest', h', hrest⟩ := ih hfuel hcs.skipLazy h
  exact ⟨rest', by simp [hparts, h'], hrest⟩

/-- A body goes on behind flags and behind a group, whose own parenthesis ends it. -/
theorem BodyFollows.opened (ih : BodyFollows fuel) (hfuel : fuel ≤ fuel') {t t' : List Char}
    (hcs : skip s.verbose cs = '(' :: t) (hcs' : skip s.verbose cs' = '(' :: t')
    (ht : Followed t t') (h : body (fuel + 1) s parts done cs = some (p, s', rest)) :
    ∃ rest', body (fuel' + 1) s parts done cs' = some (p, s', rest') ∧ Followed rest rest' := by
  simp only [body, hcs, hcs'] at h ⊢
  obtain ⟨⟨o, after⟩, hread, h⟩ := Option.bind_eq_some_iff.1 h
  obtain ⟨after', hread', hafter⟩ := agree_opening ht hread
  cases o with
  | flags changes =>
    obtain ⟨rest', h', hrest⟩ := ih hfuel hafter h
    exact ⟨rest', by simp [hread', h'], hrest⟩
  | group capturing changes name =>
    obtain ⟨named, hname, h⟩ := Option.bind_eq_some_iff.1 h
    obtain ⟨⟨inner, inside, after⟩, hbody, h⟩ := Option.bind_eq_some_iff.1 h
    obtain ⟨after', hbody', hafter⟩ := ih hfuel hafter hbody
    split at h
    · rename_i heq
      cases heq
      obtain ⟨v', rfl, hv⟩ := hafter.exists_cons
      obtain ⟨rest', h', hrest⟩ := ih hfuel hv h
      exact ⟨rest', by simp [hread', hname, hbody', h'], hrest⟩
    · cases h

end

/-- The body of a group ends at the closing as it ends at the end of the text. A group that is still
open there is not closed by it: without the closing, it is an error. -/
theorem followed_body (fuel : Nat) : BodyFollows fuel := by
  induction fuel with
  | zero =>
    intro fuel' s s' parts done p cs cs' rest hfuel hcs h
    cases h
  | succ fuel ih =>
    intro fuel' s s' parts done p cs cs' rest hfuel hcs h
    obtain ⟨fuel', rfl⟩ : ∃ n, fuel' = n + 1 := ⟨fuel' - 1, by omega⟩
    replace hfuel := Nat.le_of_succ_le_succ hfuel
    have hbody := h
    have hskip := hcs.skip s.verbose
    unfold body at h ⊢
    generalize ht : skip s.verbose cs = t at h hskip
    generalize ht' : skip s.verbose cs' = t' at hskip ⊢
    simp only at h ⊢
    split at h
    · cases h
      cases hskip with
      | closing => exact ⟨_, rfl, .closing⟩
      | taken => exact ⟨_, rfl, .taken⟩
    · obtain ⟨u', rfl, hu⟩ := hskip.exists_cons
      cases h
      exact ⟨_, rfl, hskip⟩
    · obtain ⟨u', rfl, hu⟩ := hskip.exists_cons
      exact ih hfuel hu h
    · obtain ⟨u', rfl, hu⟩ := hskip.exists_cons
      have hopened := ih.opened hfuel ht ht' hu hbody
      rwa [body, ht'] at hopened
    · obtain ⟨u', rfl, hu⟩ := hskip.exists_cons
      obtain ⟨⟨q, after⟩, hread, h⟩ := Option.bind_eq_some_iff.1 h
      obtain ⟨after', hread', hafter⟩ := agree_bracket hu hread
      obtain ⟨rest', h', hrest⟩ := ih hfuel hafter h
      exact ⟨rest', by simp [hread', h'], hrest⟩
    · obtain ⟨u', rfl, hu⟩ := hskip.exists_cons
      exact ih.repeated hfuel hu h
    · obtain ⟨u', rfl, hu⟩ := hskip.exists_cons
      exact ih.repeated hfuel hu h
    · obtain ⟨u', rfl, hu⟩ := hskip.exists_cons
      exact ih.repeated hfuel hu h
    · obtain ⟨u', rfl, hu⟩ := hskip.exists_cons
      obtain ⟨⟨⟨least, most⟩, after⟩, hread, h⟩ := Option.bind_eq_some_iff.1 h
      obtain ⟨after', hread', hafter⟩ := agree_bounds hu hread
      obtain ⟨rest', h', hrest⟩ := ih.repeated hfuel (hafter.skip s.verbose) h
      exact ⟨rest', by simp [hread']; simpa using h', hrest⟩
    · obtain ⟨⟨q, after⟩, hread, h⟩ := Option.bind_eq_some_iff.1 h
      obtain ⟨after', hread', hafter⟩ := agree_primitive hskip hread
      obtain ⟨rest', h', hrest⟩ := ih hfuel hafter h
      -- The longer text starts as the shorter one, so it comes to the same branch.
      rename_i hnil hclose hbar hopen hbracket hquestion hstar hplus hbrace _
      replace hclose := hskip.ne_cons_of_ne_nil hnil hclose
      replace hnil := hskip.ne_nil hnil
      replace hbar := hskip.ne_cons (by decide) hbar
      replace hopen := hskip.ne_cons (by decide) hopen
      replace hbracket := hskip.ne_cons (by decide) hbracket
      replace hquestion := hskip.ne_cons (by decide) hquestion
      replace hstar := hskip.ne_cons (by decide) hstar
      replace hplus := hskip.ne_cons (by decide) hplus
      replace hbrace := hskip.ne_cons (by decide) hbrace
      refine ⟨rest', ?_, hrest⟩
      simp only
      simp [hread', h']

theorem body_lineStart (fuel : Nat) (names : List String) (parts done : List Pattern)
    (cs : List Char) : body (fuel + 1) ⟨false, names⟩ parts done ('^' :: cs) =
      body fuel ⟨false, names⟩ (.anchor .lineStart :: parts) done cs := rfl

theorem body_group (fuel : Nat) (names : List String) (parts done : List Pattern)
    (cs : List Char) : body (fuel + 1) ⟨false, names⟩ parts done ('(' :: '?' :: ':' :: cs) =
      (body fuel ⟨false, names⟩ [] [] cs).bind fun
        | (inner, inside, ')' :: rest) =>
          body fuel { inside with verbose := false } (.group false [] inner :: parts) done rest
        | _ => none := rfl

end Reader

/-- The pattern that matches a whole text as another matches it. -/
def whole (p : Pattern) : Pattern :=
  .concat [.anchor .lineStart, .group false [] p, .anchor .lineEnd]

theorem exists_body_of_parse? {text : String} {p : Pattern} (h : parse? text = some p) :
    ∃ s, Reader.body (text.toList.length + 1) ⟨false, []⟩ [] [] text.toList = some (p, s, []) := by
  rw [parse?] at h
  split at h
  · obtain ⟨-, h⟩ := Option.ite_none_right_eq_some.1 h
    cases h
    exact ⟨_, ‹_›⟩
  · cases h

/-- A pattern that stands in a group of its own between two anchors is read as it is alone. -/
theorem parse?_whole {text : String} {p q : Pattern} (hp : parse? text = some p)
    (hq : parse? ("^(?:" ++ text ++ ")$") = some q) : q = p.whole := by
  have hchars : ("^(?:" ++ text ++ ")$").toList =
      '^' :: '(' :: '?' :: ':' :: (text.toList ++ Reader.closing) := by
    simp [Reader.closing]
  obtain ⟨s, hbody⟩ := exists_body_of_parse? hp
  obtain ⟨s', hwhole⟩ := exists_body_of_parse? hq
  obtain ⟨rest, hinner, hrest⟩ := Reader.followed_body _ (Nat.le_add_right _ 4)
    (Reader.followed_append text.toList) hbody
  rw [hchars] at hwhole
  have hfuel : ('^' :: '(' :: '?' :: ':' :: (text.toList ++ Reader.closing)).length + 1 =
      text.toList.length + 1 + 4 + 2 := by
    simp [Reader.closing]
  rw [hfuel] at hwhole
  rw [Reader.body_lineStart, Reader.body_group, hinner, Option.bind_some] at hwhole
  cases hrest with
  | closing =>
    cases hwhole
    rfl
  | taken => cases hwhole

end GrammarTables.Pattern
