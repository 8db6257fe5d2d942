import GrammarTables.Proofs.LexSets
import GrammarTables.Proofs.TableIndices

/-!
# Merging does not confuse the lexer

A merged state has the entries of all its members. A member may gain a token by that, but none that
can start with the same character as a token which the member had: each two members have been
compared under the groups that the states end up in, and whatever is gained comes from one of them.
-/

namespace GrammarTables

/-- Two terminals are tokens that can start with the same character. -/
def FlatGrammar.Overlap (g : FlatGrammar) (x y : Symbol) : Prop :=
  ∃ s t, g.token? x = some s ∧ g.token? y = some t ∧ t.pattern.overlaps s.pattern = true

namespace FlatGrammar

variable {g : FlatGrammar} {x y : Symbol}

theorem contains_overlaps (hx : x.isTerminal = true) (hy : y.isTerminal = true) :
    (g.overlaps[TokenSet.position x]?.getD .empty).contains y = true ↔ g.Overlap x y := by
  cases x with
  | nonterminal => cases hx
  | eof => simp [overlaps, TokenSet.position, Overlap, token?]
  | terminal i =>
    by_cases hi : i < g.tokens.size
    · cases y with
      | nonterminal => cases hy
      | eof =>
        simp [overlaps, TokenSet.position, Overlap, token?, Array.getElem?_append, hi,
          TokenSet.contains_ofList]
      | terminal j =>
        simp [overlaps, TokenSet.position, Overlap, token?, Array.getElem?_append, hi,
          TokenSet.contains_ofList, List.mem_zipIdx_iff_getElem?, TokenPattern.overlaps]
    · simp [overlaps, TokenSet.position, Overlap, token?, Array.getElem?_append, hi]

end FlatGrammar

namespace Merge

/-- Of two states the first has no token that the second lacks and that overlaps one of its
tokens. -/
def Apart (g : FlatGrammar) (s t : State) : Prop :=
  ∀ x y : Symbol, x.isTerminal = true → y.isTerminal = true → s.on x ≠ [] → t.on x = [] →
    t.on y ≠ [] → ¬ g.Overlap x y

variable {g : FlatGrammar} {states : Array State} {s t : State} {table : Array Nat} {i j : Nat}

theorem confuses_iff {new old : TokenSet} : confuses g.overlaps new old = true ↔
    ∃ x y : Symbol, x.isTerminal = true ∧ y.isTerminal = true ∧ new.contains x = true ∧
      old.contains x = false ∧ old.contains y = true ∧ g.Overlap x y := by
  simp only [confuses, List.any_eq_true, TokenSet.mem_positions, Bool.and_eq_true,
    Bool.not_eq_true', TokenSet.isEmpty_eq_false_iff, TokenSet.contains_inter]
  constructor
  · rintro ⟨i, hi, hold, y, hy, hoverlaps, hyold⟩
    rw [TokenSet.testBit_eq_contains] at hi hold
    rw [← TokenSet.position_symbolAt i,
      FlatGrammar.contains_overlaps (TokenSet.isTerminal_symbolAt i) hy] at hoverlaps
    exact ⟨_, y, TokenSet.isTerminal_symbolAt i, hy, hi, hold, hyold, hoverlaps⟩
  · rintro ⟨x, y, hx, hy, hnew, hold, hyold, hoverlap⟩
    exact ⟨_, hnew, hold, y, hy, (FlatGrammar.contains_overlaps hx hy).2 hoverlap, hyold⟩

theorem apart_iff : Apart g s t ↔ confuses g.overlaps s.tokens t.tokens = false := by
  have hnil (u : State) (x : Symbol) : u.tokens.contains x = false ↔ u.on x = [] := by
    rw [← Bool.not_eq_true, State.contains_tokens, not_not]
  rw [← Bool.not_eq_true, confuses_iff]
  simp only [State.contains_tokens, hnil, not_exists, not_and]
  rfl

/-- Compatible states are apart from each other. -/
theorem apart_of_compatible
    (h : compatible g.overlaps (states.map (·.tokens)) states table i j = true)
    (hs : states[i]? = some s) (ht : states[j]? = some t) : Apart g s t ∧ Apart g t s := by
  simp only [compatible, hs, ht, Bool.and_eq_true, Bool.not_eq_true', Array.getElem?_map,
    Option.map_some, Option.getD_some] at h
  obtain ⟨⟨⟨-, hst⟩, hts⟩, -⟩ := h
  exact ⟨apart_iff.2 hst, apart_iff.2 hts⟩

/-- Two members of a group have been compared under the groups before they were put in order. -/
theorem compatible_of_mem (h : Mergeable states) {G : List Nat} (hG : G ∈ groups g states)
    (hi : i ∈ G) (hj : j ∈ G) (hij : i < j) :
    ∃ table, compatible g.overlaps (states.map (·.tokens)) states table j i = true := by
  obtain ⟨hpartition, -, hcoherent⟩ := refine_coherent
    (compatible g.overlaps (states.map (·.tokens)) states) (fun _ _ _ _ => trivial)
    (states.size + 1) (partition_byCore h.core_lt) (fun _ _ => trivial) (by omega)
  have hG := (List.mergeSort_perm _ _).mem_iff.1 hG
  exact ⟨_, (hcoherent G hG).of_lt (hpartition.ascending G hG) hi hj hij⟩

theorem apart_of_mem (h : Mergeable states) {G : List Nat} (hG : G ∈ groups g states)
    (hi : i ∈ G) (hj : j ∈ G) (hne : i ≠ j) (hs : states[i]? = some s) (ht : states[j]? = some t) :
    Apart g s t := by
  obtain hij | hij := Nat.lt_or_gt_of_ne hne
  · obtain ⟨table, hc⟩ := compatible_of_mem h hG hi hj hij
    exact (apart_of_compatible hc ht hs).2
  · obtain ⟨table, hc⟩ := compatible_of_mem h hG hj hi hij
    exact (apart_of_compatible hc hs ht).1

/-- States that are merged into the same state are members of one group. -/
theorem exists_group_of_eq (h : Mergeable states) (hi : i < states.size) (hj : j < states.size)
    (hij : group g states i = group g states j) : ∃ G ∈ groups g states, i ∈ G ∧ j ∈ G := by
  obtain ⟨G, hG, hiG⟩ := (grouped_groups g h).partition.exists_group hi
  obtain ⟨K, hK, hjK⟩ := (grouped_groups g h).partition.exists_group hj
  have hGK : some G = some K := hG.symm.trans ((congrArg _ hij).trans hK)
  cases hGK
  exact ⟨G, List.mem_of_getElem? hG, hiG, hjK⟩

/-- A merged state is apart from its members. -/
theorem apart_states (h : Mergeable states) {q : Nat} {m : State} (hs : states[q]? = some s)
    (hm : (Merge.states g states)[group g states q]? = some m) : Apart g m s := by
  intro x y hx hy hmx hsx hsy
  obtain ⟨p, t, hpq, ht, hon⟩ := (merges g h).on hm hmx
  have htx : t.on x ≠ [] := fun hnil => hmx (by rw [hon, hnil, List.map_nil])
  have hne : p ≠ q := by
    rintro rfl
    rw [hs] at ht
    cases ht
    exact htx hsx
  obtain ⟨G, hG, hp, hq⟩ := exists_group_of_eq h (Array.getElem?_eq_some_iff.1 ht).1
    (Array.getElem?_eq_some_iff.1 hs).1 hpq
  exact apart_of_mem h hG hp hq hne ht hs x y hx hy htx hsx hsy

end Merge

/-- A table is another one with its states shared out among merged states. Every merged state has
members; it has the entries of each of them and none that its members have not. What a member does
not have overlaps none of its tokens. -/
structure Merge.Keeps (g : FlatGrammar) (states merged : Array State) (group : Nat → Nat) : Prop
    extends Merges states merged group where
  member : ∀ k < merged.size, ∃ q s, group q = k ∧ states[q]? = some s
  error : group ParseTable.errorState = ParseTable.errorState
  apart : ∀ {q : Nat} {s m : State}, states[q]? = some s → merged[group q]? = some m → Apart g m s

/-- Merging the canonical table keeps every entry, and no lexer is confused by it. The states that
become one are those of kernels with the same items. -/
theorem canonical_merged [RegexEngine] {source : Grammar} {g : FlatGrammar}
    (h : FlatGrammar.ofGrammar source = .ok g) {table : ParseTable} {conflicts : List Conflict}
    (hc : ParseTable.canonical g = .ok (table, conflicts)) :
    Merge.Keeps g table.states (Merge.states g table.states) (Merge.group g table.states) ∧
    ∀ (p q : Nat) (a b : Automaton.State), (Automaton.states (Analysis.ofGrammar g))[p]? = some a →
      (Automaton.states (Analysis.ofGrammar g))[q]? = some b →
      Merge.group g table.states p = Merge.group g table.states q →
      a.kernel.core = b.kernel.core := by
  have ht := Canonical.table_states (FlatGrammar.wellFormed_of_ofGrammar h)
  rw [Canonical.states_of_canonical hc]
  have hm := Merge.merges g ht.mergeable
  refine ⟨⟨hm, fun k hk => ?_, Merge.group_error ht.mergeable, Merge.apart_states ht.mergeable⟩,
    fun p q a b ha hb hpq => ?_⟩
  · exact Merge.exists_member ht.mergeable (Array.getElem?_eq_getElem hk)
  · obtain ⟨s, hs, -⟩ := ht.describes ha
    obtain ⟨t, ht', -⟩ := ht.describes hb
    exact ht.core ha hb hs ht' (hm.core hs ht' hpq)

/-- Of the tables of items between brackets the states of a word behind the two brackets become one:
they are states of different kernels with the same items. The merged table has the run of the
canonical one. -/
theorem canonical_merged_bracketed : ∃ g table, FlatGrammar.ofGrammar .bracketed = .ok g ∧
    ParseTable.canonical g = .ok (table, []) ∧
    Merge.Keeps g table.states (Merge.states g table.states) (Merge.group g table.states) ∧
    (table.states.size = 13 ∧ (Merge.states g table.states).size = 11) ∧
    Merge.group g table.states 5 = Merge.group g table.states 8 ∧
    (∃ a b, (Automaton.states (Analysis.ofGrammar g))[5]? = some a ∧
      (Automaton.states (Analysis.ofGrammar g))[8]? = some b ∧ a.kernel ≠ b.kernel ∧
      a.kernel.core = b.kernel.core) ∧
    Machine.Accepts (Merge.states g table.states) ⟨[ParseTable.startState], [0, 6, 4, 1]⟩
      Grammar.bracketedRun := by
  obtain ⟨g, table, h, hc, hrun, ⟨hsize, hmerged, -⟩, hgroup, ⟨a, b, ha, hb, hne, -⟩, -⟩ :=
    ParseTable.exists_bracketed
  obtain ⟨hkeeps, hcore⟩ := canonical_merged h hc
  have hstart : Merge.group g table.states ParseTable.startState = ParseTable.startState :=
    hkeeps.start
  have hrun' := hkeeps.toMerges.accepts hrun
  rw [List.map_singleton, hstart] at hrun'
  exact ⟨g, table, h, hc, hkeeps, ⟨hsize, hmerged⟩, hgroup,
    ⟨a, b, ha, hb, hne, hcore 5 8 a b ha hb hgroup⟩, hrun'⟩

end GrammarTables
