import GrammarTables.Proofs.Limits

/-!
# Conflicts are never silent

Where an entry of the canonical table is left with several actions, a repetition competes with
itself, or the grammar expects a conflict between the variables of the competing items, or the
conflict is reported under their names. Nothing else is reported: a report is about a state and a
lookahead whose entry has several actions that neither of the first two accounts for.
-/

namespace GrammarTables

/-- An item competes for a lookahead if it is complete before it, or past its start and able to go
on with it. The item for the start symbol belongs to no variable and does not compete. -/
def ItemSet.Competes (g : FlatGrammar) (closure : ItemSet) (t : Symbol) (i : Item) : Prop :=
  i.isStart = false ∧ ∃ given, (i, given) ∈ closure ∧
    ((i.next? g = none ∧ given.contains t = true) ∨
      ∃ x, i.next? g = some x ∧ 0 < i.dot ∧ g.Begins [x] t)

/-- The variable that an item's variable counts as in a conflict: the tree of a repetition counts as
the variable that the repetition was first met in. -/
inductive FlatGrammar.CountsAs (g : FlatGrammar) : Head → Symbol → Prop
  | own {v : Nat} {x : Variable} : g.vars[v]? = some x → x.kind ≠ .auxiliary ∨ x.parent = none →
      CountsAs g (.nonterminal v) (.nonterminal v)
  | parent {v : Nat} {x : Variable} {p : Symbol} : g.vars[v]? = some x → x.kind = .auxiliary →
      x.parent = some p → CountsAs g (.nonterminal v) p

/-- The variables between which the items of a state compete for a lookahead, in ascending order. -/
structure ItemSet.Between (g : FlatGrammar) (closure : ItemSet) (t : Symbol)
    (symbols : List Symbol) : Prop where
  ascending : Ordered.Ascending symbols
  mem_iff : ∀ s, s ∈ symbols ↔ ∃ i, closure.Competes g t i ∧ g.CountsAs i.head s

/-- All items that compete for a lookahead belong to the tree of one repetition. -/
def ItemSet.OneRepetition (g : FlatGrammar) (closure : ItemSet) (t : Symbol) : Prop :=
  ∃ v, g.symbolKind (.nonterminal v) = .auxiliary ∧
    ∀ i, closure.Competes g t i → i.head = .nonterminal v

/-- A repetition competes with itself, and the shift is marked for it. -/
def ItemSet.Repeats (g : FlatGrammar) (closure : ItemSet) (t : Symbol) (actions : List Action) :
    Prop :=
  (∃ n, .shift n true ∈ actions) ∧ closure.OneRepetition g t

namespace FlatGrammar

variable {g : FlatGrammar} {t : Symbol}

theorem isTerminal_of_mem (h : t ∈ g.terminals) : t.isTerminal = true := by
  rcases List.mem_cons.1 h with rfl | h
  · rfl
  · obtain ⟨i, -, rfl⟩ := List.mem_map.1 h
    rfl

theorem position_lt_of_mem (h : t ∈ g.terminals) : TokenSet.position t < g.tokenCount := by
  rcases List.mem_cons.1 h with rfl | h
  · simp [TokenSet.position, tokenCount]
  · obtain ⟨i, hi, rfl⟩ := List.mem_map.1 h
    rw [List.mem_range] at hi
    simp only [TokenSet.position, tokenCount]
    omega

end FlatGrammar

namespace Analysis

section

variable {g : FlatGrammar} {closure : ItemSet} {t : Symbol}

theorem contains_first_iff (wf : g.WellFormed) (ht : t.isTerminal = true) {x : Symbol} :
    ((ofGrammar g).first x).contains t = true ↔ g.Begins [x] t := by
  rw [← FlatGrammar.contains_ofSymbols_iff wf ht, Opening.ofSymbols_cons, Opening.ofSymbols_nil,
    Opening.contains_andThen]
  simp [first, ofGrammar, Opening.blank]

theorem continues_iff (wf : g.WellFormed) (ht : t.isTerminal = true) {i : Item} :
    (ofGrammar g).continues t i = true ↔
      ∃ x, i.next? g = some x ∧ 0 < i.dot ∧ g.Begins [x] t := by
  unfold continues
  rw [show (ofGrammar g).grammar = g from rfl]
  cases hn : i.next? g with
  | none => simp
  | some x => simp [contains_first_iff wf ht]

theorem mem_rivals_iff (wf : g.WellFormed) (ht : t.isTerminal = true) {i : Item} :
    i ∈ (ofGrammar g).rivals closure t ↔ closure.Competes g t i := by
  have hg : (ofGrammar g).grammar = g := rfl
  simp only [rivals, List.mem_map, List.mem_filter, Bool.and_eq_true, Bool.or_eq_true,
    Bool.not_eq_true', completes, Option.isNone_iff_eq_none, hg]
  constructor
  · rintro ⟨⟨i, given⟩, ⟨hmem, hs, h⟩, rfl⟩
    exact ⟨hs, given, hmem, h.imp id (continues_iff wf ht).1⟩
  · rintro ⟨hs, given, hmem, h⟩
    exact ⟨(i, given), ⟨hmem, hs, h.imp id (continues_iff wf ht).2⟩, rfl⟩

theorem countsAs_iff {i : Item} (hb : i.Belongs g) (hs : i.isStart = false) {s : Symbol} :
    g.CountsAs i.head s ↔ (ofGrammar g).blamed i = s := by
  obtain ⟨head, n, d⟩ := i
  cases head with
  | start => cases hs
  | nonterminal v =>
    have hv := FlatGrammar.lt_of_productionsOf hb.1
    obtain ⟨⟨name, kind, productions, parent⟩, hx⟩ : ∃ x, g.vars[v]? = some x :=
      ⟨_, Array.getElem?_eq_getElem hv⟩
    have hg : (ofGrammar g).grammar = g := rfl
    have hblamed : (ofGrammar g).blamed ⟨.nonterminal v, n, d⟩ =
        if kind = .auxiliary then parent.getD (.nonterminal v) else .nonterminal v := by
      simp only [blamed, hg, hx]
      cases kind <;> cases parent <;> rfl
    rw [hblamed]
    constructor
    · rintro (⟨hx', hown⟩ | ⟨hx', hkind, hparent⟩) <;> rw [hx] at hx' <;> cases hx'
      · rcases hown with hown | rfl
        · exact if_neg hown
        · exact ite_self _
      · obtain rfl : parent = some s := hparent
        exact if_pos hkind
    · rintro rfl
      split
      · rename_i hkind
        cases parent with
        | none => exact .own hx (.inr rfl)
        | some p => exact .parent hx hkind rfl
      · rename_i hkind
        exact .own hx (.inl hkind)

/-- The variables that a conflict is reported between are those of the competing items. -/
theorem between_blamed (wf : g.WellFormed) (ht : t.isTerminal = true)
    (hb : ∀ x ∈ closure, x.1.Belongs g) : closure.Between g t
      (Ordered.ofList (((ofGrammar g).rivals closure t).map (ofGrammar g).blamed)) := by
  refine ⟨Ordered.ascending_ofList _, fun s => ?_⟩
  rw [Ordered.mem_ofList, List.mem_map]
  constructor
  · rintro ⟨i, hi, hs⟩
    have hc := (mem_rivals_iff wf ht).1 hi
    obtain ⟨hstart, given, hmem, -⟩ := id hc
    exact ⟨i, hc, (countsAs_iff (hb _ hmem) hstart).2 hs⟩
  · rintro ⟨i, hc, hs⟩
    obtain ⟨hstart, given, hmem, -⟩ := id hc
    exact ⟨i, (mem_rivals_iff wf ht).2 hc, (countsAs_iff (hb _ hmem) hstart).1 hs⟩

theorem oneRepetition_of_sameRepetition (wf : g.WellFormed) (ht : t.isTerminal = true)
    (h : (ofGrammar g).sameRepetition ((ofGrammar g).rivals closure t) = true) :
    closure.OneRepetition g t := by
  unfold sameRepetition at h
  split at h
  · cases h
  · rename_i i rest hrivals
    split at h
    · rename_i v hv
      obtain ⟨hkind, hall⟩ := Bool.and_eq_true_iff.1 h
      refine ⟨v, eq_of_beq hkind, fun j hj => ?_⟩
      rw [← hv]
      exact eq_of_beq (List.all_eq_true.1 hall j ((mem_rivals_iff wf ht).2 hj))
    · cases h

end

variable {a : Analysis} {closure : ItemSet} {t : Symbol} {rank : Option Rank}
  {actions : List Action} {symbols : List Symbol}

/-- A contest leaves at most one action alone, marks the shift of a repetition, or keeps some of the
actions and is a conflict if these are several and the grammar does not expect it. -/
theorem contest_cases (a : Analysis) (closure : ItemSet) (t : Symbol) (rank : Option Rank)
    (actions : List Action) :
    (actions.length ≤ 1 ∧ a.contest closure t rank actions = (actions, none)) ∨
    (a.sameRepetition (a.rivals closure t) = true ∧ ∃ marked n, .shift n true ∈ marked ∧
      a.contest closure t rank actions = (marked, none)) ∨
    ∃ kept, (∀ x ∈ kept, x ∈ actions) ∧ a.contest closure t rank actions = (kept,
      if kept.length ≤ 1 ∨
        Ordered.ofList ((a.rivals closure t).map a.blamed) ∈ a.grammar.conflicts then none
      else some (Ordered.ofList ((a.rivals closure t).map a.blamed))) := by
  unfold contest
  split
  · rename_i hlen
    exact .inl ⟨hlen, rfl⟩
  · right
    simp only
    split
    · rename_i hrep
      obtain ⟨hshift, hsame⟩ := Bool.and_eq_true_iff.1 hrep
      obtain ⟨x, hx, hxs⟩ := List.any_eq_true.1 hshift
      cases x <;> simp only [Action.isShift, Bool.false_eq_true] at hxs
      exact .inl ⟨hsame, _, _, List.mem_map.2 ⟨_, hx, rfl⟩, rfl⟩
    · generalize hkept : (if actions.any Action.isShift = true then
        a.settleShift ((a.rivals closure t).filter (a.continues t)) rank actions
        else actions) = kept
      refine .inr ⟨kept, fun x hx => ?_, ?_⟩
      · rw [← hkept] at hx
        split at hx
        · exact mem_settleShift hx
        · exact hx
      · simp only [Bool.or_eq_true, decide_eq_true_eq, List.contains_iff_mem]
        split <;> rfl

/-- Several actions that stay are a repetition's, or expected, or a conflict. -/
theorem several_of_contest (h : 1 < (a.contest closure t rank actions).1.length) :
    ((∃ n, .shift n true ∈ (a.contest closure t rank actions).1) ∧
        a.sameRepetition (a.rivals closure t) = true) ∨
      Ordered.ofList ((a.rivals closure t).map a.blamed) ∈ a.grammar.conflicts ∨
      (a.contest closure t rank actions).2 =
        some (Ordered.ofList ((a.rivals closure t).map a.blamed)) := by
  obtain ⟨hlen, heq⟩ | ⟨hsame, marked, n, hn, heq⟩ | ⟨kept, -, heq⟩ :=
    contest_cases a closure t rank actions
  · rw [heq] at h
    exact absurd h (Nat.not_lt.2 hlen)
  · rw [heq]
    exact .inl ⟨⟨n, hn⟩, hsame⟩
  · rw [heq] at h ⊢
    by_cases hexpected : Ordered.ofList ((a.rivals closure t).map a.blamed) ∈ a.grammar.conflicts
    · exact .inr (.inl hexpected)
    · exact .inr (.inr (if_neg (not_or.2 ⟨Nat.not_le.2 h, hexpected⟩)))

/-- A conflict is between several actions that stay, none of them a repetition's, and is not
expected. -/
theorem contest_eq_some (hs : ∀ n, .shift n true ∉ actions)
    (h : (a.contest closure t rank actions).2 = some symbols) :
    1 < (a.contest closure t rank actions).1.length ∧
      (∀ n, .shift n true ∉ (a.contest closure t rank actions).1) ∧
      symbols ∉ a.grammar.conflicts ∧
      symbols = Ordered.ofList ((a.rivals closure t).map a.blamed) := by
  obtain ⟨-, heq⟩ | ⟨-, marked, n, -, heq⟩ | ⟨kept, hkept, heq⟩ :=
    contest_cases a closure t rank actions
  · rw [heq] at h
    cases h
  · rw [heq] at h
    cases h
  · rw [heq] at h ⊢
    split at h
    · cases h
    · rename_i hopen
      cases h
      rw [not_or, Nat.not_le] at hopen
      exact ⟨hopen.1, fun n hn => hs n (hkept _ hn), hopen.2, rfl⟩

end Analysis

namespace Canonical

variable {g : FlatGrammar} {q : Nat} {a : Automaton.State} {s : State} {t : Symbol}

/-- The conflict that a state of the automaton has for a terminal. -/
def conflictOf (g : FlatGrammar) (a : Automaton.State) (t : Symbol) : Option (List Symbol) :=
  (entry (Analysis.ofGrammar g) (reductionOf g) a (a.closure.completed g) t).2

/-- An entry with several actions has those that the automaton wants. -/
theorem Describes.on_of_several (h : Describes g q a s) (ht : t.isTerminal = true)
    (hlen : 1 < (s.on t).length) : t ∈ g.terminals ∧ s.on t = actionsOf g a t := by
  have hp : TokenSet.position t < g.tokenCount := by
    by_contra hp
    simp [h.on_eq ht, hp] at hlen
  refine ⟨List.mem_of_getElem? (i := TokenSet.position t) ?_, h.on_of_ne_nil ht hp fun hnil => ?_⟩
  · rw [FlatGrammar.getElem?_terminals g ht, if_pos hp]
  · rw [h.on_eq ht, if_pos hp, hnil] at hlen
    unfold withExtra withRecovery at hlen
    grind

/-- Several actions are a repetition's, or expected, or a conflict. -/
theorem Describes.several (h : Describes g q a s) (wf : g.WellFormed) (ht : t.isTerminal = true)
    (hlen : 1 < (actionsOf g a t).length) : ∃ symbols, a.closure.Between g t symbols ∧
      (a.closure.Repeats g t (actionsOf g a t) ∨ symbols ∈ g.conflicts ∨
        conflictOf g a t = some symbols) := by
  refine ⟨_, Analysis.between_blamed wf ht h.belongs, ?_⟩
  rcases Analysis.several_of_contest hlen with ⟨hshift, hsame⟩ | hopen
  · exact .inl ⟨hshift, Analysis.oneRepetition_of_sameRepetition wf ht hsame⟩
  · exact .inr hopen

/-- A conflict is between several actions, and neither a repetition's nor expected. -/
theorem Describes.conflict (h : Describes g q a s) (wf : g.WellFormed) (ht : t.isTerminal = true)
    {symbols : List Symbol} (hc : conflictOf g a t = some symbols) :
    1 < (actionsOf g a t).length ∧ a.closure.Between g t symbols ∧
      ¬ a.closure.Repeats g t (actionsOf g a t) ∧ symbols ∉ g.conflicts := by
  have hset := ItemSet.settled_offer (g := g) (t := t) fun x hx => h.not_shift hx
  have hplain : ∀ n, .shift n true ∉ ((a.closure.completed g).offer g (reductionOf g) t).actions ++
      ((a.successors.lookup t).map fun n => Action.shift n false).toList := by
    intro n hn
    rcases List.mem_append.1 hn with hn | hn
    · cases hset.1.1 _ hn
    · simp at hn
  obtain ⟨hlen, hshift, hopen, rfl⟩ := Analysis.contest_eq_some hplain hc
  exact ⟨hlen, Analysis.between_blamed wf ht h.belongs, fun hrep => hrep.1.elim hshift, hopen⟩

theorem conflicts_of_canonical {table : ParseTable} {conflicts : List Conflict}
    (h : ParseTable.canonical g = .ok (table, conflicts)) : conflicts = distinct (reports g) :=
  (eq_of_canonical h).2

theorem mem_conflicts {number core : Nat} {x : Symbol × List Symbol} :
    x ∈ (state (Analysis.ofGrammar g) (reductionOf g) number core a (a.closure.completed g)).2 ↔
      x.1 ∈ g.terminals ∧ conflictOf g a x.1 = some x.2 := by
  obtain ⟨t, symbols⟩ := x
  simp only [state, List.mem_filterMap, List.mem_map]
  constructor
  · rintro ⟨_, ⟨t', ht', rfl⟩, hx⟩
    obtain ⟨symbols', hc, heq⟩ := Option.map_eq_some_iff.1 hx
    cases heq
    exact ⟨ht', hc⟩
  · rintro ⟨ht, hc⟩
    exact ⟨_, ⟨t, ht, rfl⟩, Option.map_eq_some_iff.2 ⟨symbols, hc, rfl⟩⟩

/-- A state's conflicts are reported with the number of the state. -/
theorem mem_reports (wf : g.WellFormed) {c : Conflict} : c ∈ reports g ↔
    ∃ q a t symbols, (Automaton.states (Analysis.ofGrammar g))[q]? = some a ∧ t ∈ g.terminals ∧
      conflictOf g a t = some symbols ∧ c = report g q (t, symbols) := by
  simp only [reports, List.mem_flatMap, List.mem_map]
  constructor
  · rintro ⟨⟨⟨s, conflicts⟩, q⟩, hs, ⟨t, symbols⟩, hx, rfl⟩
    have hq : (built g)[q]? = some (s, conflicts) := List.mem_zipIdx_iff_getElem?.1 hs
    rw [getElem?_built] at hq
    obtain ⟨a, ha, hq⟩ := Option.bind_eq_some_iff.1 hq
    obtain ⟨core, -, heq⟩ := Option.map_eq_some_iff.1 hq
    obtain ⟨ht, hc⟩ := mem_conflicts.1 ((Prod.ext_iff.1 heq).2 ▸ hx)
    exact ⟨q, a, t, symbols, ha, ht, hc, rfl⟩
  · rintro ⟨q, a, t, symbols, ha, ht, hc, rfl⟩
    obtain ⟨s, hs, -⟩ := (table_states wf).describes ha
    rw [getElem?_states, ha] at hs
    obtain ⟨core, hcore, -⟩ := Option.map_eq_some_iff.1 hs
    have hq : (built g)[q]? = some (state (Analysis.ofGrammar g) (reductionOf g) q core a
        (a.closure.completed g)) := by
      rw [getElem?_built, ha, Option.bind_some, hcore, Option.map_some]
    have hx : (t, symbols) ∈ (state (Analysis.ofGrammar g) (reductionOf g) q core a
        (a.closure.completed g)).2 := mem_conflicts.2 ⟨ht, hc⟩
    generalize state (Analysis.ofGrammar g) (reductionOf g) q core a (a.closure.completed g) = x
      at hq hx
    exact ⟨(x, q), List.mem_zipIdx_iff_getElem?.2 hq, (t, symbols), hx, rfl⟩

/-- Of the conflicts between the same names before the same name one stays. -/
theorem exists_mem_distinct {c : Conflict} {cs : List Conflict} (h : c ∈ cs) :
    ∃ d ∈ distinct cs, d.symbols = c.symbols ∧ d.lookahead = c.lookahead := by
  obtain ⟨d, hd, hsame⟩ : ∃ d ∈ distinct cs,
      (c.symbols == d.symbols && c.lookahead == d.lookahead) = true :=
    exists_mem_eraseDupsBy (fun _ => by simp) h
  rw [Bool.and_eq_true, beq_iff_eq, beq_iff_eq] at hsame
  exact ⟨d, hd, hsame.1.symm, hsame.2.symm⟩

end Canonical

/-- Conflicts are never silent. An entry of the canonical table with several actions has a shift
that is marked as a repetition's, and all items that compete for the lookahead belong to that
repetition; or the variables of these items are an expected conflict; or a conflict with their names
and the lookahead's name is reported. And what is reported is a state and a lookahead whose entry
has several actions, and neither of the first two holds of it. -/
theorem conflicts_reported [RegexEngine] {source : Grammar} {g : FlatGrammar}
    (h : FlatGrammar.ofGrammar source = .ok g) {table : ParseTable} {conflicts : List Conflict}
    (hc : ParseTable.canonical g = .ok (table, conflicts)) :
    (∀ (q : Nat) (s : State), table.states[q]? = some s →
      ∃ a, (Automaton.states (Analysis.ofGrammar g))[q]? = some a ∧
        ∀ t, t.isTerminal = true → 1 < (s.on t).length → ∃ symbols,
          a.closure.Between g t symbols ∧
          (a.closure.Repeats g t (s.on t) ∨ symbols ∈ g.conflicts ∨ ∃ c ∈ conflicts,
            c.symbols = symbols.map g.symbolName ∧ c.lookahead = g.symbolName t)) ∧
    ∀ c ∈ conflicts, ∃ s a t symbols, table.states[c.state]? = some s ∧
      (Automaton.states (Analysis.ofGrammar g))[c.state]? = some a ∧ t ∈ g.terminals ∧
      a.closure.Between g t symbols ∧ c.symbols = symbols.map g.symbolName ∧
      c.lookahead = g.symbolName t ∧ 1 < (s.on t).length ∧
      ¬ a.closure.Repeats g t (s.on t) ∧ symbols ∉ g.conflicts := by
  have wf := FlatGrammar.wellFormed_of_ofGrammar h
  have htable := Canonical.table_states wf
  rw [Canonical.states_of_canonical hc, Canonical.conflicts_of_canonical hc]
  constructor
  · intro q s hs
    obtain ⟨a, ha, hdesc⟩ := htable.described hs
    refine ⟨a, ha, fun t ht hlen => ?_⟩
    obtain ⟨hmem, hon⟩ := hdesc.on_of_several ht hlen
    rw [hon] at hlen ⊢
    obtain ⟨symbols, hbetween, hcases⟩ := hdesc.several wf ht hlen
    refine ⟨symbols, hbetween, hcases.imp id (Or.imp id fun hconflict => ?_)⟩
    have hreport := (Canonical.mem_reports wf).2 ⟨q, a, t, symbols, ha, hmem, hconflict, rfl⟩
    exact Canonical.exists_mem_distinct hreport
  · intro c hmem
    obtain ⟨q, a, t, symbols, ha, ht, hconflict, rfl⟩ :=
      (Canonical.mem_reports wf).1 (mem_of_mem_eraseDupsBy hmem)
    obtain ⟨s, hs, hdesc⟩ := htable.describes ha
    have hterminal := FlatGrammar.isTerminal_of_mem ht
    obtain ⟨hlen, hbetween, hrepeats, hexpected⟩ := hdesc.conflict wf hterminal hconflict
    have hon := hdesc.on_of_ne_nil hterminal (FlatGrammar.position_lt_of_mem ht)
      (List.ne_nil_of_length_pos (Nat.lt_of_succ_lt hlen))
    rw [← hon] at hlen hrepeats
    exact ⟨s, a, t, symbols, hs, ha, ht, hbetween, rfl, rfl, hlen, hrepeats, hexpected⟩

/-- A grammar whose only variable is made of itself. -/
def Grammar.looping : Grammar where
  name := "looping"
  rules := [⟨"start", .symbol "start"⟩]

/-- The flat form of the looping grammar. -/
theorem FlatGrammar.exists_looping : ∃ g, ofGrammar .looping = .ok g ∧ g.Small ∧ g.Neutral ∧
    g.conflicts = [] ∧ g.vars.size = 1 ∧ g.symbolName (.nonterminal 0) = "start" ∧
    g.symbolKind (.nonterminal 0) = .named ∧
    (g.productionsOf (.nonterminal 0)).map Production.symbols = [[.nonterminal 0]] :=
  exists_of_decide (by decide +kernel)

section

variable {g : FlatGrammar} (wf : g.WellFormed)
  (hp : (g.productionsOf (.nonterminal 0)).map Production.symbols = [[.nonterminal 0]])
include wf hp

/-- Where the start symbol is made of itself its production is complete where a text is. -/
theorem Automaton.exists_both : ∃ (q : Nat) (a : State) (L M : TokenSet),
    (states (Analysis.ofGrammar g))[q]? = some a ∧
    (Item.initial.advance, L) ∈ a.closure ∧ L.contains .eof = true ∧
    ((⟨.nonterminal 0, 0, 1⟩ : Item), M) ∈ a.closure ∧ M.contains .eof = true ∧
    Item.after g ⟨.nonterminal 0, 0, 1⟩ = [] := by
  have hn : 0 < (g.productionsOf (.nonterminal 0)).length := by
    have hlen := congrArg List.length hp
    rw [List.length_map, List.length_singleton] at hlen
    exact hlen ▸ Nat.one_pos
  have hsymbols : (g.productionsOf (.nonterminal 0))[0].symbols = [.nonterminal 0] := by
    have hhead := congrArg List.head? hp
    rw [List.head?_map, List.head?_eq_getElem?, List.getElem?_eq_getElem hn] at hhead
    exact Option.some.inj hhead
  have hsteps : (g.productionsOf (.nonterminal 0))[0].steps.length = 1 := by
    rw [← List.length_map (·.symbol)]
    exact congrArg List.length hsymbols
  have hstart : g.Valid [.nonterminal 0] Item.initial.advance .eof := .moved .initial rfl
  have hloop : g.Valid [.nonterminal 0] ⟨.nonterminal 0, 0, 1⟩ .eof := by
    have hafter : (⟨.nonterminal 0, 0, 0⟩ : Item).after g = [.nonterminal 0] := by
      rw [Item.after_start hn, hsymbols]
    exact .moved (.opened .initial rfl hn FlatGrammar.next_nil) hafter
  have hcomplete := complete_states wf
  obtain ⟨q, σ, a, hsp, ha, -⟩ := hcomplete.allows_of_valid wf hstart
  obtain ⟨L, hL, hLc⟩ := hcomplete.mem_closure_of_valid wf hstart hsp ha
  obtain ⟨M, hM, hMc⟩ := hcomplete.mem_closure_of_valid wf hloop hsp ha
  exact ⟨q, a, L, M, ha, hL, hLc, hM, hMc, hsteps ▸ FlatGrammar.after_end hn⟩

/-- Where the start symbol is made of itself it can be accepted and reduced. -/
theorem Canonical.exists_several (hneutral : g.Neutral) :
    ∃ (q : Nat) (a : Automaton.State) (s : State),
      (Automaton.states (Analysis.ofGrammar g))[q]? = some a ∧ (states g)[q]? = some s ∧
      Describes g q a s ∧ a.closure.Competes g .eof ⟨.nonterminal 0, 0, 1⟩ ∧
      1 < (s.on .eof).length := by
  obtain ⟨q, a, L, M, ha, hL, hLc, hM, hMc, hafter⟩ := Automaton.exists_both wf hp
  obtain ⟨s, hs, hdesc⟩ := (table_states wf).describes ha
  obtain ⟨r, hr, -⟩ := reductionOf_eq 1 (hdesc.belongs _ hM).1
  have haccept : .accept ∈ s.on .eof := hdesc.mem_on_of_gives hneutral rfl hL rfl hLc ⟨rfl, rfl⟩
  have hreduce : .reduce r ∈ s.on .eof :=
    hdesc.mem_on_of_gives hneutral rfl hM hafter hMc ⟨hMc, hr.symm⟩
  refine ⟨q, a, s, ha, hs, hdesc, ⟨rfl, M, hM, .inl ⟨Item.next?_eq_none.2 hafter, hMc⟩⟩, ?_⟩
  by_contra hlen
  match hon : s.on .eof with
  | [] => simp [hon] at haccept
  | [x] =>
    rw [hon, List.mem_singleton] at haccept hreduce
    rw [← haccept] at hreduce
    cases hreduce
  | x :: y :: rest => simp [hon] at hlen

end

/-- The variable can be accepted or reduced to itself at the end of a text, which is reported. -/
theorem conflicts_reported_looping : ∃ g table conflicts,
    FlatGrammar.ofGrammar .looping = .ok g ∧ ParseTable.canonical g = .ok (table, conflicts) ∧
    ∃ c ∈ conflicts, c.symbols = ["start"] ∧ c.lookahead = "end" := by
  obtain ⟨g, h, hsmall, hneutral, hconflicts, hsize, hname, hkind, hp⟩ :=
    FlatGrammar.exists_looping
  have wf := FlatGrammar.wellFormed_of_ofGrammar h
  obtain ⟨⟨table, conflicts⟩, hc⟩ := ParseTable.exists_canonical wf hsmall
  obtain ⟨q, a, s, ha, hs, hdesc, hcompetes, hlen⟩ := Canonical.exists_several wf hp hneutral
  rw [← Canonical.states_of_canonical hc] at hs
  obtain ⟨a', ha', hall⟩ := (conflicts_reported h hc).1 q s hs
  rw [ha] at ha'
  cases ha'
  obtain ⟨symbols, hbetween, hcases⟩ := hall .eof rfl hlen
  obtain ⟨x, hx⟩ : ∃ x, g.vars[0]? = some x :=
    ⟨_, Array.getElem?_eq_getElem (show 0 < g.vars.size from hsize ▸ Nat.one_pos)⟩
  have hnamed : x.kind = .named := by simpa [FlatGrammar.symbolKind, hx] using hkind
  have hstart : .nonterminal 0 ∈ symbols :=
    (hbetween.mem_iff _).2 ⟨_, hcompetes, .own hx (.inl (by simp [hnamed]))⟩
  have hmem : ∀ y ∈ symbols, y = .nonterminal 0 := by
    intro y hy
    obtain ⟨i, -, hcounts⟩ := (hbetween.mem_iff y).1 hy
    generalize i.head = head at hcounts
    have hzero : ∀ {v z}, g.vars[v]? = some z → v = 0 := fun hv =>
      Nat.lt_one_iff.1 (hsize ▸ (Array.getElem?_eq_some_iff.1 hv).1)
    cases hcounts with
    | own hv _ => rw [hzero hv]
    | parent hv haux _ =>
      rw [hzero hv, hx] at hv
      cases hv
      rw [hnamed] at haux
      cases haux
  have hsymbols : symbols = [.nonterminal 0] := by
    match symbols, hstart, hmem, hbetween.ascending with
    | [y], _, hmem, _ => rw [hmem y (by simp)]
    | y :: z :: rest, _, hmem, hasc =>
      have hlt := (List.pairwise_cons.1 hasc).1 z (by simp)
      rw [hmem y (by simp), hmem z (by simp)] at hlt
      cases hlt
  rcases hcases with ⟨-, v, haux, hrepeats⟩ | hexpected | ⟨c, hc', hcs, hcl⟩
  · cases hrepeats _ hcompetes
    rw [hkind] at haux
    cases haux
  · rw [hconflicts] at hexpected
    cases hexpected
  · refine ⟨g, table, conflicts, h, hc, c, hc', ?_, hcl⟩
    rw [hcs, hsymbols, List.map_singleton, hname]

end GrammarTables
