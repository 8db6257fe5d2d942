import GrammarTables.Proofs.Evaluation
import GrammarTables.Proofs.OperatorEntries
import GrammarTables.Proofs.Spelling

/-!
# The tables of operators

Precedences and associativities settle every grammar of binary operators. Its tables have no
conflicts and one action in every entry, and after an operation the next operator is shifted unless
the operation binds.
-/

namespace GrammarTables

open Automaton (Spells)

/-- Before an operator's token an operation is reduced if it binds, and otherwise the operator is
shifted. -/
def State.Resolves (s : State) (o o' : Operator) (token : Nat) : Prop :=
  if o.Binds o' then
    ∃ r : Reduction, s.on (.terminal token) = [.reduce r] ∧ r.symbol = FlatGrammar.start ∧
      r.children = 3
  else ∃ n, s.on (.terminal token) = [.shift n false]

theorem State.Resolves.copies {s s' : State} {o o' : Operator} {token : Nat}
    (h : s.Resolves o o' token) (hc : s.Copies s') : s'.Resolves o o' token := by
  obtain ⟨f, hc⟩ := hc
  unfold Resolves at h ⊢
  split
  · rename_i hb
    rw [if_pos hb] at h
    obtain ⟨r, hr, hsymbol, hchildren⟩ := h
    exact ⟨r, by simp [hc _ (hr ▸ List.cons_ne_nil _ _), hr, Action.mapTarget], hsymbol, hchildren⟩
  · rename_i hb
    rw [if_neg hb] at h
    obtain ⟨n, hn⟩ := h
    exact ⟨f n, by simp [hc _ (hn ▸ List.cons_ne_nil _ _), hn, Action.mapTarget]⟩

namespace Canonical

variable {g : FlatGrammar} {t : Symbol} {actions : List Action} (h : actions.length ≤ 1)
include h

theorem length_withExtra_le_one : (withExtra g t actions).length ≤ 1 := by
  unfold withExtra
  split
  · exact Nat.le_refl 1
  · exact h

theorem length_withRecovery_le_one : (withRecovery g t actions).length ≤ 1 := by
  unfold withRecovery
  split
  · exact Nat.le_refl 1
  · exact h

end Canonical

/-- A variable leads in the table where it leads in the automaton. -/
theorem Canonical.Table.leads_nonterminal {g : FlatGrammar} {auto : Array Automaton.State}
    {states : Array State} (h : Table g auto states) {q n v : Nat} (hv : v < g.vars.size)
    (hl : Automaton.Leads auto q (.nonterminal v) n) : Leads states q (.nonterminal v) n := by
  obtain ⟨a, ha, hlook⟩ := hl
  obtain ⟨s, hs, hd⟩ := h.describes ha
  exact ⟨s, hs, by rw [hd.goto?_eq, if_pos hv, hlook]⟩

namespace FlatGrammar.Operates

variable {g : FlatGrammar} {terms : List (Operator × Nat)} {atom : Nat} (h : g.Operates terms atom)
include h

theorem lt_productionsOf {j : Nat} {x : Operator × Nat} (hx : terms[j]? = some x) :
    j < (g.productionsOf (.nonterminal 0)).length := by
  have hj := (List.getElem?_eq_some_iff.1 hx).1
  rw [h.productionsOf_zero, Operator.productions, List.length_append, List.length_map]
  omega

/-- An expression derives the atom. -/
theorem derives_atom : g.Derives [start] [atom] := by
  have hmem : Production.atom atom ∈ g.productionsOf (.nonterminal 0) := by
    simp [h.productionsOf_zero, Operator.productions]
  exact .single hmem (.token .nil)

theorem reductionOf_operation {j : Nat} {x : Operator × Nat} (hx : terms[j]? = some x) :
    ∃ r : Reduction, Canonical.reductionOf g ⟨.nonterminal 0, j, 3⟩ = .reduce r ∧
      r.symbol = start ∧ r.children = 3 := by
  have hj := h.lt_productionsOf hx
  obtain ⟨r, hr, hsymbol, hchildren, -⟩ := Canonical.reductionOf_eq 3 hj
  refine ⟨r, hr, hsymbol, ?_⟩
  rw [hchildren, ← Item.productionIn_nonterminal hj (d := 0), h.productionIn_operation hx]
  rfl

/-- After an expression at the start nothing competes with a shift. -/
theorem leads_terminal (wf : g.WellFormed) {q n t : Nat} {σ : List Nat}
    (hsp : Spells (Automaton.Leads (Automaton.states (Analysis.ofGrammar g))) [start] (q :: σ))
    (hl : Automaton.Leads (Automaton.states (Analysis.ofGrammar g)) q (.terminal t) n) :
    Leads (Canonical.states g) q (.terminal t) n := by
  have ht := Canonical.table_states wf
  obtain ⟨a, ha, hlook⟩ := hl
  obtain ⟨s, hs, hd⟩ := ht.describes ha
  obtain ⟨L, hL, -⟩ := ht.complete.mem_closure_of_valid wf (Valid.initial.moved rfl) hsp ha
  have hactions : Canonical.actionsOf g a (.terminal t) = [.shift n false] := by
    obtain ⟨hactions, -⟩ | ⟨hnone, -⟩ | ⟨j, k, y, z, M, m, hy, -, -, hM, -, -⟩ :=
      h.actionsOf_cases wf ha (Symbol.isTerminal_terminal t)
    · rw [hactions, hlook]
      rfl
    · cases hnone.symm.trans hlook
    · cases h.eq_of_complete wf ha hL hM rfl (h.after_operation hy 3)
  obtain ⟨⟨y, -, hy⟩, -⟩ := ht.complete.of_lookup ha hlook
  refine ⟨s, false, hs, ?_⟩
  rw [hd.on_of_ne_nil rfl (Item.position_lt_of_next? wf hy rfl) (hactions ▸ List.cons_ne_nil _ _),
    hactions]
  exact List.mem_singleton_self _

section

variable {i j : Nat} {x y : Operator × Nat} (hx : terms[i]? = some x)
include hx

theorem valid_left : g.Valid [] ⟨.nonterminal 0, i, 0⟩ .eof :=
  .opened .initial (show Item.after g .initial = _ from rfl) (h.lt_productionsOf hx) next_nil

/-- As a left operand an operation stands before an operator. -/
theorem valid_left_operand (hy : terms[j]? = some y) :
    g.Valid [] ⟨.nonterminal 0, i, 0⟩ (.terminal y.2) :=
  .opened (h.valid_left hy) (h.after_operation hy 0) (h.lt_productionsOf hx)
    ⟨[y.2, atom], .token h.derives_atom, rfl⟩

/-- After its operands an operation is complete. -/
theorem valid_operation {t : Symbol} (ht : g.Valid [] ⟨.nonterminal 0, i, 0⟩ t) :
    g.Valid [start, .terminal x.2, start] ⟨.nonterminal 0, i, 3⟩ t :=
  ht.moves (show _ = [start, .terminal x.2, start] ++ [] from h.after_operation hx 0)

/-- The right operand of an operation may be the left operand of another one. -/
theorem valid_operator (hy : terms[j]? = some y) :
    g.Valid [start, .terminal x.2, start] ⟨.nonterminal 0, j, 1⟩ .eof := by
  have hright : g.Valid [start, .terminal x.2] ⟨.nonterminal 0, i, 2⟩ .eof :=
    (h.valid_left hx).moves
      (show _ = [start, .terminal x.2] ++ [start] from h.after_operation hx 0)
  have hleft : g.Valid [start, .terminal x.2] ⟨.nonterminal 0, j, 0⟩ .eof :=
    hright.opened (h.after_operation hx 2) (h.lt_productionsOf hy) next_nil
  exact hleft.moved (h.after_operation hy 0)

/-- In the canonical table an operation is followed by a state that resolves every operator. -/
theorem exists_resolves (wf : g.WellFormed) : ∃ q σ s,
    Spells (Leads (Canonical.states g)) [start, .terminal x.2, start] (q :: σ) ∧
      (Canonical.states g)[q]? = some s ∧ ∀ y ∈ terms, s.Resolves x.1 y.1 y.2 := by
  have ht := Canonical.table_states wf
  obtain ⟨q, σ, a, hsp, ha, -⟩ :=
    ht.complete.allows_of_valid wf (h.valid_operation hx (h.valid_left hx))
  obtain ⟨s, hs, hd⟩ := ht.describes ha
  refine ⟨q, σ, s, ?_, hs, fun y hy => ?_⟩
  · have hvars : 0 < g.vars.size := h.size ▸ Nat.one_pos
    obtain ⟨q₂, _, _, heq, hsp₂, hl₃⟩ := hsp.push_inv (α := [start, .terminal x.2])
    cases heq
    obtain ⟨q₁, _, _, heq, hsp₁, hl₂⟩ := hsp₂.push_inv (α := [start])
    cases heq
    obtain ⟨q₀, _, _, heq, hsp₀, hl₁⟩ := hsp₁.push_inv (α := [])
    cases heq
    cases hsp₀.nil_inv
    exact ((Spells.start.push (ht.leads_nonterminal hvars hl₁)).push
      (h.leads_terminal wf hsp₁ hl₂)).push (ht.leads_nonterminal hvars hl₃)
  · obtain ⟨j, hy⟩ := List.mem_iff_getElem?.1 hy
    obtain ⟨L, hL, hc⟩ := ht.complete.mem_closure_of_valid wf
      (h.valid_operation hx (h.valid_left_operand hx hy)) hsp ha
    obtain ⟨M, hM, -⟩ := ht.complete.mem_closure_of_valid wf (h.valid_operator hx hy) hsp ha
    obtain ⟨n, hn⟩ := ht.complete.exists_lookup ha hM (h.next?_operator hy)
    have hactions := h.actionsOf_operation wf ha hx hy hL hc hM hn
    have hon : s.on (.terminal y.2) = Canonical.actionsOf g a (.terminal y.2) := by
      refine hd.on_of_ne_nil rfl (Item.position_lt_of_next? wf (h.next?_operator hy) rfl) ?_
      rw [hactions]
      split <;> exact List.cons_ne_nil _ _
    rw [State.Resolves, hon, hactions]
    obtain ⟨r, hr, hsymbol, hchildren⟩ := h.reductionOf_operation hx
    split
    · exact ⟨r, by rw [hr], hsymbol, hchildren⟩
    · exact ⟨n, rfl⟩

end

variable (wf : g.WellFormed)
include wf

/-- Every entry of the canonical table has one action. -/
theorem settled_states : ∀ s ∈ Canonical.states g, s.Settled := by
  intro s hs t
  obtain ⟨q, hq⟩ := Array.mem_iff_getElem?.1 hs
  obtain ⟨a, ha, hd⟩ := (Canonical.table_states wf).described hq
  have ht := TokenSet.isTerminal_symbolAt (TokenSet.position t)
  have hle := h.length_actionsOf_le_one wf ha ht
  rw [← Bypass.on_symbolAt_position, hd.on_eq ht]
  split
  · split
    · exact Canonical.length_withRecovery_le_one (Canonical.length_withExtra_le_one hle)
    · exact Canonical.length_withExtra_le_one hle
  · exact Nat.zero_le 1

/-- No state is passed by, since expressions show. -/
theorem unit?_eq_none :
    ∀ m ∈ Merge.states g (Canonical.states g), Bypass.unit? g m = none := by
  intro m hm
  rw [Option.eq_none_iff_forall_ne_some]
  intro u hu
  have ht := Canonical.table_states wf
  obtain ⟨k, hk⟩ := Array.mem_iff_getElem?.1 hm
  obtain ⟨i, r, hr, hsilent, -⟩ := (Bypass.isUnit_of_unit? hu).some
  obtain ⟨v, n, hn, -, hsymbol, -⟩ := ((Merge.merges g ht.mergeable).annotated ht).reduce hk
    (TokenSet.isTerminal_symbolAt i) hr
  obtain rfl : v = 0 := by
    have hv := lt_of_productionsOf hn
    have hsize := h.size
    omega
  exact hsilent.2.2 (hsymbol ▸ h.kind)

end FlatGrammar.Operates

/-- Precedence and associativity settle every grammar of binary operators whose atom has a token: it
has a flat form, and its tables have no conflicts and one action in every entry. The state that an
operation leads to reduces it before an operator of lower precedence, or of the same where it
associates to the left, and otherwise shifts the operator. -/
theorem binary_operators_settled [RegexEngine] [RegexEngine.LawfulEscape] {name : String}
    {ops : List Operator} {atom : Rule} (hatom : atom.isToken = true) {x : Symbol × Lexicon}
    (htoken : Lexicon.named "atom" atom {} = .ok x) (htexts : (ops.map (·.text)).Nodup) :
    ∃ g, FlatGrammar.ofGrammar (.binary name ops atom) = .ok g ∧
    ∀ tables, Tables.ofGrammar g = .ok tables →
      tables.conflicts = [] ∧ (∀ s ∈ tables.table.states, ∀ e ∈ s.entries, e.2.length = 1) ∧
      ∀ o ∈ ops, ∃ k q σ s, inlineToken? g.tokens (.string o.text) = some k ∧
        (∀ τ, Spells (Leads tables.table.states)
          [FlatGrammar.start, .terminal k, FlatGrammar.start] τ ↔ τ = q :: σ) ∧
        tables.table.states[q]? = some s ∧
        ∀ o' ∈ ops, ∃ k', inlineToken? g.tokens (.string o'.text) = some k' ∧
          s.Resolves o o' k' := by
  obtain ⟨g, h⟩ : ∃ g, FlatGrammar.ofGrammar (.binary name ops atom) = .ok g :=
    FlatGrammar.exists_ofGrammar hatom htoken
  refine ⟨g, h, fun tables ht => ?_⟩
  have wf := FlatGrammar.wellFormed_of_ofGrammar h
  obtain ⟨terms, a, hg, rfl, hterms⟩ := FlatGrammar.exists_operates hatom htexts h
  have hsettled := Tables.settled wf ht (hg.settled_states wf)
  refine ⟨?_, fun s hs e he => (hsettled s hs).length_eq_one he, fun o ho => ?_⟩
  · obtain ⟨⟨canonical, conflicts⟩, hc, ht⟩ := bind_eq_ok.1 ht
    cases ht
    rw [Canonical.conflicts_of_canonical hc, hg.reports_eq_nil wf]
    rfl
  · obtain ⟨x, hx, rfl⟩ := List.mem_map.1 ho
    obtain ⟨i, hi⟩ := List.mem_iff_getElem?.1 hx
    obtain ⟨q, σ, s, hsp, hs, hresolves⟩ := hg.exists_resolves hi wf
    obtain ⟨q', σ', s', hsp', hs', hcopies⟩ :=
      Tables.exists_spelled wf ht (hg.unit?_eq_none wf) hsp hs
    refine ⟨x.2, q', σ', s', hterms x hx, fun τ => ⟨fun hτ => ?_, fun hτ => hτ ▸ hsp'⟩, hs',
      fun o' ho' => ?_⟩
    · exact hτ.eq_of_functional hsp' (Leads.unique_of_settled hsettled)
    · obtain ⟨y, hy, rfl⟩ := List.mem_map.1 ho'
      exact ⟨y.2, hterms y hy, (hresolves y hy).copies hcopies⟩

/-- Differences, which associate to the left, and powers, which associate to the right. -/
def Grammar.arithmetic : Grammar :=
  .binary "arithmetic" [⟨"-", 1, .left⟩, ⟨"^", 2, .right⟩] (.string "1")

/-- A text as an atom has a token. -/
theorem Lexicon.exists_named_string [RegexEngine] [RegexEngine.LawfulEscape] (name text : String) :
    ∃ x, named name (.string text) {} = .ok x := by
  have hbody : TokenBody.ofRule (.string text) = .ok ⟨.string text, false, 0⟩ := rfl
  obtain ⟨token, htoken⟩ :=
    @Token.exists_ofBody _ _ ⟨.string text, false, 0⟩ text rfl name (.ofRuleName name)
  refine ⟨({} : Lexicon).add token, ?_⟩
  simp only [named_empty, hbody, htoken, bind, Except.bind]
  rfl

theorem Tables.exists_arithmetic : ∃ g tables, FlatGrammar.ofGrammar .arithmetic = .ok g ∧
    Tables.ofGrammar g = .ok tables := by
  obtain ⟨g, hg, hsize, hitems⟩ : ∃ g, FlatGrammar.ofGrammar .arithmetic = .ok g ∧
      (Automaton.visitStates (Analysis.ofGrammar g) (ItemSet.insertedSuccessors g)
        (Nat.pow 2 (Automaton.itemCount g * (g.tokenCount + 1)) + 2) #[]
        [[], [(Item.initial, .singleton .eof)]]).size ≤ 65535 ∧ Automaton.itemCount g ≤ 65535 :=
    FlatGrammar.exists_of_decide (by decide +kernel)
  have hstates := Automaton.states_eq_visitStates (Analysis.ofGrammar g)
  obtain ⟨tables, ht⟩ := Tables.exists_of_canonical
    (ParseTable.exists_canonical_of_le (hstates ▸ hsize) hitems)
  exact ⟨g, tables, hg, ht⟩

/-- After a power another power is shifted, and before a minus the power is complete. -/
theorem binary_operators_settled_arithmetic : ∃ g tables,
    FlatGrammar.ofGrammar .arithmetic = .ok g ∧ Tables.ofGrammar g = .ok tables ∧
    tables.conflicts = [] ∧ (∀ s ∈ tables.table.states, ∀ e ∈ s.entries, e.2.length = 1) ∧
    ∃ power minus q σ s, inlineToken? g.tokens (.string "^") = some power ∧
      inlineToken? g.tokens (.string "-") = some minus ∧
      Spells (Leads tables.table.states)
        [FlatGrammar.start, .terminal power, FlatGrammar.start] (q :: σ) ∧
      tables.table.states[q]? = some s ∧ (∃ n, s.on (.terminal power) = [.shift n false]) ∧
      ∃ r, s.on (.terminal minus) = [.reduce r] ∧ r.symbol = FlatGrammar.start ∧
        r.children = 3 := by
  obtain ⟨token, htoken⟩ := Lexicon.exists_named_string "atom" "1"
  obtain ⟨g, hg, hsettled⟩ := @binary_operators_settled _ _ "arithmetic"
    [⟨"-", 1, .left⟩, ⟨"^", 2, .right⟩] (.string "1") rfl token htoken (by decide)
  obtain ⟨g', tables, hg', ht⟩ := Tables.exists_arithmetic
  cases hg.symm.trans hg'
  obtain ⟨hconflicts, hentries, hresolves⟩ := hsettled tables ht
  obtain ⟨power, q, σ, s, hpower, hsp, hs, hall⟩ := hresolves ⟨"^", 2, .right⟩ (by simp)
  obtain ⟨power', hpower', hshift⟩ := hall ⟨"^", 2, .right⟩ (by simp)
  obtain ⟨minus, hminus, hreduce⟩ := hall ⟨"-", 1, .left⟩ (by simp)
  cases hpower.symm.trans hpower'
  rw [State.Resolves, if_neg (by decide)] at hshift
  rw [State.Resolves, if_pos (by decide)] at hreduce
  exact ⟨g, tables, hg, ht, hconflicts, hentries, power, minus, q, σ, s, hpower, hminus,
    (hsp _).2 rfl, hs, hshift, hreduce⟩

end GrammarTables
