import GrammarTables.Proofs.Conflicts
import GrammarTables.Proofs.Operators
import GrammarTables.Proofs.Precedence

/-!
# The entries of operators

In the automaton of a grammar of binary operators at most one item of a state is complete, and its
lookaheads are the operators and the end. So an entry is a shift, a reduction, or what the
precedences of two operators leave of both.
-/

namespace GrammarTables

/-- Whether an operation is complete when another operator follows it. -/
def Operator.Binds (o o' : Operator) : Prop :=
  o'.precedence < o.precedence ∨ (o.precedence = o'.precedence ∧ o.associativity = .left)

instance (o o' : Operator) : Decidable (o.Binds o') := by
  unfold Operator.Binds
  infer_instance

namespace Operator

open FlatGrammar (start)

/-- The items of a grammar of binary operators, with what stands before and after their dots. -/
inductive Dotted (terms : List (Operator × Nat)) (atom : Nat) :
    Item → List Symbol → List Symbol → Prop
  | initial : Dotted terms atom .initial [] [start]
  | done : Dotted terms atom Item.initial.advance [start] []
  | left {j : Nat} {x : Operator × Nat} : terms[j]? = some x →
      Dotted terms atom ⟨.nonterminal 0, j, 0⟩ [] [start, .terminal x.2, start]
  | operator {j : Nat} {x : Operator × Nat} : terms[j]? = some x →
      Dotted terms atom ⟨.nonterminal 0, j, 1⟩ [start] [.terminal x.2, start]
  | right {j : Nat} {x : Operator × Nat} : terms[j]? = some x →
      Dotted terms atom ⟨.nonterminal 0, j, 2⟩ [start, .terminal x.2] [start]
  | operation {j : Nat} {x : Operator × Nat} : terms[j]? = some x →
      Dotted terms atom ⟨.nonterminal 0, j, 3⟩ [start, .terminal x.2, start] []
  | atom : Dotted terms atom ⟨.nonterminal 0, terms.length, 0⟩ [] [.terminal atom]
  | word : Dotted terms atom ⟨.nonterminal 0, terms.length, 1⟩ [.terminal atom] []

namespace Dotted

variable {terms : List (Operator × Nat)} {atom : Nat} {i : Item} {b ss : List Symbol}

theorem complete (h : Dotted terms atom i b []) :
    (i = Item.initial.advance ∧ b = [start]) ∨
      (∃ j x, terms[j]? = some x ∧ i = ⟨.nonterminal 0, j, 3⟩ ∧
        b = [start, .terminal x.2, start]) ∨
      (i = ⟨.nonterminal 0, terms.length, 1⟩ ∧ b = [.terminal atom]) := by
  cases h with
  | done => exact .inl ⟨rfl, rfl⟩
  | operation hx => exact .inr (.inl ⟨_, _, hx, rfl, rfl⟩)
  | word => exact .inr (.inr ⟨rfl, rfl⟩)

/-- What has a terminal after its dot. -/
theorem terminal {t : Symbol} (ht : t.isTerminal = true) (h : Dotted terms atom i b (t :: ss)) :
    (∃ j x, terms[j]? = some x ∧ t = .terminal x.2 ∧ i = ⟨.nonterminal 0, j, 1⟩ ∧ b = [start]) ∨
      t = .terminal atom := by
  cases h with
  | operator hx => exact .inl ⟨_, _, hx, rfl, rfl, rfl⟩
  | atom => exact .inr rfl
  | _ => cases ht

/-- What follows an expression. -/
theorem follow {v : Nat} (h : Dotted terms atom i b (.nonterminal v :: ss)) :
    ss = [] ∨ ∃ x ∈ terms, ss = [.terminal x.2, start] := by
  cases h with
  | initial => exact .inl rfl
  | left hx => exact .inr ⟨_, List.mem_of_getElem? hx, rfl⟩
  | right _ => exact .inl rfl

end Dotted

end Operator

/-- An item of a variable that is not complete belongs to the grammar. -/
theorem Item.belongs_of_after {g : FlatGrammar} {v n d : Nat} {s : Symbol} {ss : List Symbol}
    (h : Item.after g ⟨.nonterminal v, n, d⟩ = s :: ss) :
    Item.Belongs g ⟨.nonterminal v, n, d⟩ := by
  by_cases hn : n < (g.productionsOf (.nonterminal v)).length
  · refine ⟨hn, Nat.le_of_not_lt fun hlt => ?_⟩
    simp [Item.after, Item.rest, Item.productionIn_nonterminal hn,
      List.drop_eq_nil_of_le (Nat.le_of_lt hlt)] at h
  · simp [Item.after, Item.rest, Item.productionIn, hn] at h

namespace FlatGrammar.Operates

variable {g : FlatGrammar} {terms : List (Operator × Nat)} {atom : Nat} (h : g.Operates terms atom)
include h

theorem productionsOf_zero :
    g.productionsOf (.nonterminal 0) = Operator.productions terms atom := h.productions

theorem productionIn_operation {j : Nat} {x : Operator × Nat} (hx : terms[j]? = some x) (d : Nat) :
    Item.productionIn g ⟨.nonterminal 0, j, d⟩ = x.1.production (.terminal x.2) := by
  obtain ⟨hj, rfl⟩ := List.getElem?_eq_some_iff.1 hx
  simp [Item.productionIn, h.productionsOf_zero, Operator.productions, List.getElem?_append_left,
    hj]

theorem productionIn_atom (d : Nat) :
    Item.productionIn g ⟨.nonterminal 0, terms.length, d⟩ = .atom atom := by
  simp [Item.productionIn, h.productionsOf_zero, Operator.productions]

/-- Every item of the grammar is one of those. -/
theorem dotted {i : Item} (hi : i.Belongs g) :
    Operator.Dotted terms atom i (i.before g) (i.after g) := by
  obtain ⟨head, j, dot⟩ := i
  cases head with
  | start =>
    obtain ⟨rfl, hdot : dot ≤ 1⟩ := hi
    obtain rfl | rfl : dot = 0 ∨ dot = 1 := by omega
    · exact .initial
    · exact .done
  | nonterminal v =>
    obtain ⟨hj, hdot⟩ := hi
    obtain rfl : v = 0 := by
      have hv := lt_of_productionsOf hj
      have hsize := h.size
      omega
    rw [← Item.productionIn_nonterminal hj (d := dot)] at hdot
    have hj' : j < terms.length + 1 := by
      simpa [h.productionsOf_zero, Operator.productions] using hj
    by_cases hlt : j < terms.length
    · have hx := List.getElem?_eq_getElem hlt
      rw [h.productionIn_operation hx] at hdot
      simp only [Item.before, Item.after, Item.rest, h.productionIn_operation hx]
      obtain rfl | rfl | rfl | rfl : dot = 0 ∨ dot = 1 ∨ dot = 2 ∨ dot = 3 := by
        simp only [Operator.production, List.length_cons, List.length_nil] at hdot
        omega
      · exact .left hx
      · exact .operator hx
      · exact .right hx
      · exact .operation hx
    · obtain rfl : j = terms.length := by omega
      rw [h.productionIn_atom] at hdot
      simp only [Item.before, Item.after, Item.rest, h.productionIn_atom]
      obtain rfl | rfl : dot = 0 ∨ dot = 1 := by
        simp only [Production.atom, List.length_cons, List.length_nil] at hdot
        omega
      · exact .atom
      · exact .word

theorem not_mem_terms {x : Operator × Nat} (hx : x ∈ terms) : x.2 ≠ atom := fun heq =>
  (List.nodup_cons.1 h.nodup).1 (heq ▸ List.mem_map_of_mem hx)

/-- An operator's token tells where it stands among the terms. -/
theorem index_unique {i j : Nat} {x y : Operator × Nat} (hx : terms[i]? = some x)
    (hy : terms[j]? = some y) (heq : x.2 = y.2) : i = j := by
  have hi : (terms.map (·.2))[i]? = some x.2 := by simp [hx]
  have hj : (terms.map (·.2))[j]? = some x.2 := by simp [hy, heq]
  exact (List.getElem?_inj (List.getElem?_eq_some_iff.1 hi).1 (List.nodup_cons.1 h.nodup).2).1
    (hi.trans hj.symm)

/-- Complete items are told apart by what stands before their dots. -/
theorem eq_of_suffix {i j : Item} {b c : List Symbol} (hi : Operator.Dotted terms atom i b [])
    (hj : Operator.Dotted terms atom j c []) (hsuffix : b <:+ c)
    (hstart : i.isStart = true → c <:+ b) : i = j := by
  cases hi with
  | done =>
    have hback := hstart rfl
    cases hj with
    | done => rfl
    | operation _ => simp [List.suffix_cons_iff] at hback
    | word => simp [List.suffix_cons_iff, start] at hback
  | operation hx =>
    cases hj with
    | done => simp [List.suffix_cons_iff] at hsuffix
    | operation hy =>
      rw [h.index_unique hx hy (by simpa [List.suffix_cons_iff] using hsuffix)]
    | word => simp [List.suffix_cons_iff] at hsuffix
  | word =>
    cases hj with
    | done => simp [List.suffix_cons_iff, start] at hsuffix
    | operation _ => simp [List.suffix_cons_iff, start] at hsuffix
    | word => rfl

/-- No atom comes right after an expression. -/
theorem inherits_atom (wf : g.WellFormed) :
    Lookaheads.Inherits g fun L => L.contains (.terminal atom) = false where
  eof := by
    rw [Bool.eq_false_iff]
    intro hc
    cases (TokenSet.contains_singleton_iff rfl rfl).1 hc
  union {L M} hL hM := by simp [TokenSet.contains_union, hL, hM]
  demand {i d given} hd hgiven := by
    obtain ⟨ss, hss : i.after g = _, hfollow⟩ := Demand.ofSteps_eq_some hd
    obtain ⟨v, follow⟩ := d
    subst hfollow
    have hfollow : ss = [] ∨ ∃ x ∈ terms, ss = [.terminal x.2, start] := by
      obtain ⟨head, n, dot⟩ := i
      cases head with
      | start =>
        cases dot with
        | zero => exact .inl (List.cons.inj hss).2.symm
        | succ dot => simp [Item.after, Item.rest, Item.productionIn, Production.start] at hss
      | nonterminal u => exact (hss ▸ h.dotted (Item.belongs_of_after hss)).follow
    have hnot : ¬ g.Begins ss (.terminal atom) := by
      intro hb
      obtain rfl | ⟨x, hx, rfl⟩ := hfollow
      · cases hb
      · generalize hk : x.2 = k at hb
        cases hb
        exact h.not_mem_terms hx hk
    rw [Bool.eq_false_iff]
    intro hc
    obtain hb | ⟨-, hc⟩ := (Demand.contains_lookaheads wf rfl).1 hc
    · exact hnot hb
    · rw [hgiven] at hc
      cases hc

theorem before_operation {j : Nat} {x : Operator × Nat} (hx : terms[j]? = some x) :
    Item.before g ⟨.nonterminal 0, j, 3⟩ = [start, .terminal x.2, start] := by
  rw [Item.before, h.productionIn_operation hx]
  rfl

theorem after_operation {j : Nat} {x : Operator × Nat} (hx : terms[j]? = some x) (d : Nat) :
    Item.after g ⟨.nonterminal 0, j, d⟩ = [start, .terminal x.2, start].drop d := by
  rw [Item.after, Item.rest, h.productionIn_operation hx, List.map_drop]
  rfl

theorem next?_operator {j : Nat} {x : Operator × Nat} (hx : terms[j]? = some x) :
    Item.next? g ⟨.nonterminal 0, j, 1⟩ = some (.terminal x.2) :=
  Item.next?_eq_some.2 ⟨_, h.after_operation hx 1⟩

theorem precedence_operation {j d : Nat} {x : Operator × Nat} (hx : terms[j]? = some x)
    (hd : d < 3) :
    Item.precedence g ⟨.nonterminal 0, j, d + 1⟩ = x.1.precedence ∧
      Item.associativity g ⟨.nonterminal 0, j, d + 1⟩ = some x.1.associativity := by
  simp only [Item.precedence, Item.associativity, Item.previous?, h.productionIn_operation hx]
  obtain rfl | rfl | rfl : d = 0 ∨ d = 1 ∨ d = 2 := by omega
  · exact ⟨rfl, rfl⟩
  · exact ⟨rfl, rfl⟩
  · exact ⟨rfl, rfl⟩

/-- There are no repetitions. -/
theorem sameRepetition_eq_false (wf : g.WellFormed) {closure : ItemSet} {t : Symbol}
    (ht : t.isTerminal = true) :
    (Analysis.ofGrammar g).sameRepetition ((Analysis.ofGrammar g).rivals closure t) = false := by
  rw [Bool.eq_false_iff]
  intro hsame
  obtain ⟨v, hkind, -⟩ := Analysis.oneRepetition_of_sameRepetition wf ht hsame
  cases v with
  | zero =>
    rw [show g.symbolKind (.nonterminal 0) = _ from h.kind] at hkind
    cases hkind
  | succ v => simp [symbolKind, h.size] at hkind

section

variable (wf : g.WellFormed) {q : Nat} {a : Automaton.State}
  (ha : (Automaton.states (Analysis.ofGrammar g))[q]? = some a)
include wf ha

theorem contains_atom_eq_false {x : Item × TokenSet} (hx : x ∈ a.closure) :
    x.2.contains (.terminal atom) = false := by
  have hc := Automaton.complete_states wf
  rw [hc.closure ha] at hx
  exact Analysis.inherits_closure (h.inherits_atom wf)
    ((hc.kernel ha).inherits (h.inherits_atom wf)) x hx

/-- At most one item of a state is complete. -/
theorem eq_of_complete {x y : Item × TokenSet} (hx : x ∈ a.closure) (hy : y ∈ a.closure)
    (hxc : x.1.after g = []) (hyc : y.1.after g = []) : x.1 = y.1 := by
  have hc := Automaton.complete_states wf
  have haligned := Automaton.aligned_states wf ha
  have hdx := hxc ▸ h.dotted (hc.belongs ha hx)
  have hdy := hyc ▸ h.dotted (hc.belongs ha hy)
  obtain ⟨hsuffix | hsuffix, hstart⟩ := haligned x hx y hy
  · exact h.eq_of_suffix hdx hdy hsuffix hstart
  · exact (h.eq_of_suffix hdy hdx hsuffix (haligned y hy x hx).2).symm

theorem completed_eq {x : Item × TokenSet} (hx : x ∈ a.closure) (hxc : x.1.after g = []) :
    a.closure.completed g = [x] := by
  have hc := Automaton.complete_states wf
  have hnodup := (hc.kernel ha).nodup_closure
  rw [← hc.closure ha] at hnodup
  have hmem : x ∈ a.closure.completed g := Canonical.mem_completed.2 ⟨hx, hxc⟩
  obtain hnil | ⟨x', -, -, hone⟩ := ItemSet.completed_cases hnodup fun x hx y hy =>
    h.eq_of_complete wf ha hx hy
  · simp [hnil] at hmem
  · rw [hone, List.mem_singleton] at hmem
    rw [hone, hmem]

/-- Where an operation is complete, the items that go on with an operator are those of its
operation. -/
theorem precedence_of_continues {i j : Nat} {x y : Operator × Nat} (hx : terms[i]? = some x)
    (hy : terms[j]? = some y) {L : TokenSet} (hmem : (⟨.nonterminal 0, i, 3⟩, L) ∈ a.closure)
    {k : Item} {M : TokenSet} (hk : (k, M) ∈ a.closure)
    (hc : (Analysis.ofGrammar g).continues (.terminal y.2) k = true) :
    k.precedence g = y.1.precedence := by
  obtain ⟨s, hs, hdot, hbegins⟩ := (Analysis.continues_iff wf rfl).1 hc
  obtain ⟨ss, hss⟩ := Item.next?_eq_some.1 hs
  have haligned := (Automaton.aligned_states wf ha _ hmem _ hk).1
  have hd := hss ▸ h.dotted ((Automaton.complete_states wf).belongs ha hk)
  rw [h.before_operation hx] at haligned
  generalize k.before g = b at hd haligned
  cases hd with
  | initial => cases hdot
  | left _ => cases hdot
  | atom => cases hdot
  | right _ => simp [List.suffix_cons_iff, start] at haligned
  | @operator j' z hz =>
    have heq : y.2 = z.2 := by
      generalize y.2 = u at hbegins
      cases hbegins
      rfl
    rw [h.index_unique hy hz heq] at hy
    cases hy.symm.trans hz
    exact (h.precedence_operation (d := 0) hz (by omega)).1

/-- An operation stays against the shift of an operator if it binds more. -/
theorem actionsOf_operation {i j n : Nat} {x y : Operator × Nat} (hx : terms[i]? = some x)
    (hy : terms[j]? = some y) {L M : TokenSet}
    (hmem : (⟨.nonterminal 0, i, 3⟩, L) ∈ a.closure) (hc : L.contains (.terminal y.2) = true)
    (hj : (⟨.nonterminal 0, j, 1⟩, M) ∈ a.closure)
    (hl : a.successors.lookup (.terminal y.2) = some n) :
    Canonical.actionsOf g a (.terminal y.2) =
      if x.1.Binds y.1 then [Canonical.reductionOf g ⟨.nonterminal 0, i, 3⟩]
      else [.shift n false] := by
  have hone := h.completed_eq wf ha hmem (h.after_operation hx 3)
  have hcontinues :
      (Analysis.ofGrammar g).continues (.terminal y.2) ⟨.nonterminal 0, j, 1⟩ = true :=
    (Analysis.continues_iff wf rfl).2 ⟨_, h.next?_operator hy, Nat.one_pos, .here rfl⟩
  have hrival : ⟨.nonterminal 0, j, 1⟩ ∈
      (Analysis.ofGrammar g).rivals a.closure (.terminal y.2) :=
    (Analysis.mem_rivals_iff wf rfl).2
      ⟨rfl, M, hj, .inr ((Analysis.continues_iff wf rfl).1 hcontinues)⟩
  obtain ⟨hp, has⟩ := h.precedence_operation (d := 2) hx (by omega)
  have hpair := Canonical.actionsOf_of_pair hone rfl
    ((Automaton.complete_states wf).belongs ha hmem) hc hl has (h.sameRepetition_eq_false wf rfl)
    (List.ne_nil_of_mem (List.mem_filter.2 ⟨hrival, hcontinues⟩)) (q := y.1.precedence) ?_
  · rw [hpair, hp]
    rfl
  · intro k hk
    obtain ⟨hk, hkc⟩ := List.mem_filter.1 hk
    obtain ⟨-, M', hk, -⟩ := (Analysis.mem_rivals_iff wf rfl).1 hk
    exact h.precedence_of_continues wf ha hx hy hmem hk hkc

/-- What an entry can be: a shift, a reduction or the end, or what is left of an operation and a
shift of the next operator. -/
theorem actionsOf_cases {t : Symbol} (ht : t.isTerminal = true) :
    (Canonical.actionsOf g a t = ((a.successors.lookup t).map (Action.shift · false)).toList ∧
      ∀ x ∈ a.closure, x.1.after g = [] →
        ∀ z, ¬ ItemSet.Gives (Canonical.reductionOf g) t x z) ∨
    (a.successors.lookup t = none ∧ ∃ z, Canonical.actionsOf g a t = [z]) ∨
    ∃ (i j : Nat) (x y : Operator × Nat) (L : TokenSet) (n : Nat), terms[i]? = some x ∧
      terms[j]? = some y ∧ t = .terminal y.2 ∧ (⟨.nonterminal 0, i, 3⟩, L) ∈ a.closure ∧
      a.successors.lookup t = some n ∧ Canonical.actionsOf g a t =
        if x.1.Binds y.1 then [Canonical.reductionOf g ⟨.nonterminal 0, i, 3⟩]
        else [.shift n false] := by
  have hcomplete := Automaton.complete_states wf
  by_cases hgives : ∃ x ∈ a.closure, x.1.after g = [] ∧
      ∃ z, ItemSet.Gives (Canonical.reductionOf g) t x z
  swap
  · have hsilent : ∀ x ∈ a.closure, x.1.after g = [] →
        ∀ z, ¬ ItemSet.Gives (Canonical.reductionOf g) t x z :=
      fun x hx hxc z hz => hgives ⟨x, hx, hxc, z, hz⟩
    exact .inl ⟨Canonical.actionsOf_of_silent hsilent, hsilent⟩
  obtain ⟨x, hx, hxc, z, hz⟩ := hgives
  cases hl : a.successors.lookup t with
  | none =>
    have hone := Canonical.actionsOf_of_single (h.completed_eq wf ha hx hxc) hz hl
    exact .inr (.inl ⟨rfl, z, hone⟩)
  | some n =>
    obtain ⟨⟨⟨k, M⟩, hk, hkn⟩, -⟩ := hcomplete.of_lookup ha hl
    obtain ⟨ss, hss⟩ := Item.next?_eq_some.1 hkn
    obtain ⟨j, y, hy, rfl, rfl, hb⟩ | rfl :=
      (hss ▸ h.dotted (hcomplete.belongs ha hk)).terminal ht
    · obtain ⟨i, L⟩ := x
      obtain ⟨rfl, -⟩ | ⟨i, x, hx', rfl, -⟩ | ⟨rfl, hb'⟩ :=
        (hxc ▸ h.dotted (hcomplete.belongs ha hx)).complete
      · cases hz.1
      · exact .inr (.inr ⟨i, j, x, y, L, n, hx', hy, rfl, hx, rfl,
          h.actionsOf_operation wf ha hx' hy hx hz.1 hk hl⟩)
      · -- An operator does not come right after an atom.
        have hsuffix := (Automaton.aligned_states wf ha _ hx _ hk).1
        simp [hb, hb', List.suffix_cons_iff, start] at hsuffix
    · -- An atom does not come right after an expression.
      rw [ItemSet.Gives, h.contains_atom_eq_false wf ha hx] at hz
      split at hz <;> cases hz.1

theorem length_actionsOf_le_one {t : Symbol} (ht : t.isTerminal = true) :
    (Canonical.actionsOf g a t).length ≤ 1 := by
  obtain ⟨hactions, -⟩ | ⟨-, z, hactions⟩ | ⟨i, j, x, y, L, n, -, -, -, -, -, hactions⟩ :=
    h.actionsOf_cases wf ha ht
  · rw [hactions]
    cases a.successors.lookup t <;> simp
  · simp [hactions]
  · rw [hactions]
    split <;> simp

end

/-- No conflict is left. -/
theorem reports_eq_nil (wf : g.WellFormed) : Canonical.reports g = [] := by
  refine List.eq_nil_iff_forall_not_mem.2 fun c hc => ?_
  obtain ⟨q, a, t, symbols, ha, ht, hconflict, -⟩ := (Canonical.mem_reports wf).1 hc
  obtain ⟨s, -, hd⟩ := (Canonical.table_states wf).describes ha
  have ht := isTerminal_of_mem ht
  have hlength := h.length_actionsOf_le_one wf ha ht
  have hseveral := (hd.conflict wf ht hconflict).1
  omega

end FlatGrammar.Operates

end GrammarTables
