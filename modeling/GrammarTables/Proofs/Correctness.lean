import GrammarTables.Proofs.Minimization

/-!
# The tables are sound and complete

What the tables of a grammar accept, the grammar derives. Precedences and declared conflicts only
take actions away, and the invariant that ties the stack to what can be on it on the way to the
start symbol does not depend on which actions are there. Without precedences the tables accept all
that the grammar derives, with extras anywhere in it: the canonical table does, and minimization
loses no extra that stands in no production.
-/

namespace GrammarTables

open Machine

/-- Completeness of the tables without precedences: a text whose tokens, without its extras, are
derived from the start symbol has an accepting run. -/
theorem accepts_of_derives [RegexEngine] {source : Grammar} {g : FlatGrammar}
    (h : FlatGrammar.ofGrammar source = .ok g) (hg : g.Neutral) (hf : g.ForeignExtras)
    {tables : Tables} (ht : Tables.ofGrammar g = .ok tables) {w : List Nat}
    (hw : g.Derives [FlatGrammar.start] (g.withoutExtras w)) :
    ∃ es, Accepts tables.table.states ⟨[ParseTable.startState], w⟩ es := by
  have wf := FlatGrammar.wellFormed_of_ofGrammar h
  have htable := Canonical.table_states wf
  have hm := Merge.merges g htable.mergeable
  obtain ⟨es, hes⟩ :=
    htable.accepts_of_completes wf hg hf (FlatGrammar.completes_nil_iff.2 hw) .start rfl
  have hk := Bypass.keepsExtras_of_foreign wf htable hm hf
  obtain ⟨es', hes', -⟩ := Bypass.exists_accepts_redirect hm hk hes
  exact ⟨es', (accepts_final_iff wf ht).2 hes'⟩

/-- A word between brackets, with a blank before it, has a run. -/
theorem accepts_of_derives_bracketed : ∃ g tables, FlatGrammar.ofGrammar .bracketed = .ok g ∧
    g.Neutral ∧ g.ForeignExtras ∧ Tables.ofGrammar g = .ok tables ∧
    g.Derives [FlatGrammar.start] (g.withoutExtras [0, 6, 4, 1]) ∧
    ∃ es, Accepts tables.table.states ⟨[ParseTable.startState], [0, 6, 4, 1]⟩ es := by
  obtain ⟨g, tables, -, h, ht, -⟩ := Encoding.exists_bracketed
  obtain ⟨g', h', hg, hf, hw⟩ := FlatGrammar.exists_bracketed
  cases h.symm.trans h'
  exact ⟨g, tables, h, hg, hf, ht, hw, accepts_of_derives h hg hf ht hw⟩

/-- Soundness of the tables: an accepting run consumes its text from left to right, and what it puts
on the stack, the text without what it passes over as extras, is derived from the start symbol. -/
theorem derives_of_accepts [RegexEngine] {source : Grammar} {g : FlatGrammar}
    (h : FlatGrammar.ofGrammar source = .ok g) {tables : Tables}
    (ht : Tables.ofGrammar g = .ok tables) {w : List Nat} {es : List Event}
    (ha : Accepts tables.table.states ⟨[ParseTable.startState], w⟩ es) :
    es.filterMap Event.token? = w ∧ g.Derives [FlatGrammar.start] (shifted es) := by
  have wf := FlatGrammar.wellFormed_of_ofGrammar h
  have htable := Canonical.table_states wf
  have hm := Merge.merges g htable.mergeable
  have hrun := (accepts_final_iff wf ht).1 ha
  have hcomp := (hm.annotated htable).completes (Bypass.detours_redirect g _) hrun .start
  exact ⟨ha.tokens_eq, FlatGrammar.completes_nil_iff.1 hcomp⟩

/-- What the run for a word between brackets puts on the stack is derived: the text without the
blank. -/
theorem derives_of_accepts_bracketed : ∃ g tables es, FlatGrammar.ofGrammar .bracketed = .ok g ∧
    Tables.ofGrammar g = .ok tables ∧
    Accepts tables.table.states ⟨[ParseTable.startState], [0, 6, 4, 1]⟩ es ∧
    es.filterMap Event.token? = [0, 6, 4, 1] ∧ shifted es = [0, 4, 1] ∧
    g.Derives [FlatGrammar.start] (shifted es) := by
  obtain ⟨g, tables, -, h, ht, -, hrun, -⟩ := Encoding.exists_bracketed
  obtain ⟨htokens, hderives⟩ := derives_of_accepts h ht hrun
  exact ⟨g, tables, _, h, ht, hrun, htokens, by decide, hderives⟩

end GrammarTables
