import GrammarTables.Proofs.KeptExtras

/-!
# Runs of the canonical table

Without precedences the canonical table has a run for every text that the grammar derives, with
extras anywhere in it: the closures hold every valid item with every lookahead that is possible.
-/

namespace GrammarTables

open Machine
open Automaton (Spells)
open FlatGrammar (lookahead)

/-- The text without its extras. -/
def FlatGrammar.withoutExtras (g : FlatGrammar) (w : List Nat) : List Nat :=
  w.filter fun t => !g.isExtra (.terminal t)

namespace Canonical

variable {g : FlatGrammar} {auto : Array Automaton.State} {states : Array State}
  (wf : g.WellFormed) (ht : Table g auto states)
include wf ht

/-- A run starts with the extras before the next token. -/
theorem Table.accepts_of_leading (hf : g.ForeignExtras) {q : Nat} {σ y : List Nat} {s : State}
    (hs : states[q]? = some s)
    (hbase : ∀ {w}, g.withoutExtras w = y → lookahead w = lookahead y →
      ∃ es, Accepts states ⟨q :: σ, w⟩ es) {w : List Nat} (hw : g.withoutExtras w = y) :
    ∃ es, Accepts states ⟨q :: σ, w⟩ es := by
  induction w with
  | nil => exact hbase hw (hw ▸ rfl)
  | cons t w ih =>
    by_cases he : g.isExtra (.terminal t) = true
    · obtain ⟨es, hes⟩ := ih (by simpa [FlatGrammar.withoutExtras, he] using hw)
      refine ⟨_, .step (.extra hs ?_) hes⟩
      rw [ht.on_eq_of_foreign wf he (hf.foreign he) hs]
      exact List.mem_singleton_self _
    · apply hbase hw
      rw [← hw]
      simp [FlatGrammar.withoutExtras, he, lookahead]

omit wf in
/-- The states that symbols lead to are states of the table. -/
theorem Table.exists_top {α : List Symbol} {σ : List Nat}
    (hsp : Spells (Automaton.Leads auto) α σ) : ∃ q τ a s, σ = q :: τ ∧ auto[q]? = some a ∧
      states[q]? = some s ∧ Describes g q a s := by
  have hauto : ∃ q τ a, σ = q :: τ ∧ auto[q]? = some a := by
    cases hsp with
    | start =>
      obtain ⟨a, ha, -⟩ := ht.complete.start
      exact ⟨1, [], a, rfl, ha⟩
    | push _ hl =>
      obtain ⟨b, hb, hlook⟩ := hl
      obtain ⟨-, a, ha, -⟩ := ht.complete.of_lookup hb hlook
      exact ⟨_, _, a, rfl, ha⟩
  obtain ⟨q, τ, a, rfl, ha⟩ := hauto
  obtain ⟨s, hs, hd⟩ := ht.describes ha
  exact ⟨q, τ, a, s, rfl, ha, hs, hd⟩

section

variable {α : List Symbol} {q : Nat} {σ : List Nat} {s : State} (hs : states[q]? = some s)
include hs

/-- A token that can come onto the stack is shifted to where it leads. -/
theorem Table.exists_shift (hg : g.Neutral) {t : Nat} {y : Symbol}
    (hv : g.Viable (α ++ [.terminal t]) y) (hsp : Spells (Automaton.Leads auto) α (q :: σ)) :
    ∃ n r, .shift n r ∈ s.on (.terminal t) ∧
      Spells (Automaton.Leads auto) (α ++ [.terminal t]) (n :: q :: σ) := by
  obtain ⟨a, ha, hd⟩ := ht.described hs
  obtain ⟨n, hn, hpush⟩ := ht.complete.spells_of_viable wf hv hsp ha
  obtain ⟨⟨x, -, hx⟩, -⟩ := ht.complete.of_lookup ha hn
  obtain ⟨r, hr⟩ := hd.shift_of_lookup hg rfl (Item.position_lt_of_next? wf hx rfl) hn
  exact ⟨n, r, hr, hpush⟩

/-- A variable that can come onto the stack leads on. -/
theorem Table.exists_goto {v : Nat} {y : Symbol} (hlt : v < g.vars.size)
    (hv : g.Viable (α ++ [.nonterminal v]) y) (hsp : Spells (Automaton.Leads auto) α (q :: σ)) :
    ∃ n, s.goto? v = some n ∧
      Spells (Automaton.Leads auto) (α ++ [.nonterminal v]) (n :: q :: σ) := by
  obtain ⟨a, ha, hd⟩ := ht.described hs
  obtain ⟨n, hn, hpush⟩ := ht.complete.spells_of_viable wf hv hsp ha
  exact ⟨n, by rw [hd.goto?_eq, if_pos hlt, hn], hpush⟩

/-- A production that is on the stack is reduced where its variable can come onto the stack. -/
theorem Table.exists_reduce (hg : g.Neutral) {v n : Nat} {x : Symbol} (hx : x.isTerminal = true)
    (hn : n < (g.productionsOf (.nonterminal v)).length) (hv : g.Viable (α ++ [.nonterminal v]) x)
    (hsp : Spells (Automaton.Leads auto)
      (α ++ (g.productionsOf (.nonterminal v))[n].symbols) (q :: σ)) :
    ∃ r : Reduction, .reduce r ∈ s.on x ∧ r.symbol = .nonterminal v ∧
      r.children = (g.productionsOf (.nonterminal v))[n].symbols.length := by
  obtain ⟨a, ha, hd⟩ := ht.described hs
  obtain ⟨L, hL, hLc⟩ := ht.complete.mem_closure_of_valid wf (hv.valid_production hn) hsp ha
  obtain ⟨r, hreduce, hrs, hrc, -⟩ :=
    reductionOf_eq (g.productionsOf (.nonterminal v))[n].steps.length hn
  refine ⟨r, ?_, hrs, by rw [hrc, Production.symbols, List.length_map]⟩
  exact hd.mem_on_of_gives hg hx hL (FlatGrammar.after_end hn) hLc ⟨hLc, hreduce.symm⟩

end

/-- What can be completed from the symbols on the stack is accepted. -/
theorem Table.accepts_of_completes (hg : g.Neutral) (hf : g.ForeignExtras) {α : List Symbol}
    {y : List Nat} (hc : g.Completes α y) {σ : List Nat} (hsp : Spells (Automaton.Leads auto) α σ)
    {w : List Nat} (hw : g.withoutExtras w = y) : ∃ es, Accepts states ⟨σ, w⟩ es := by
  induction hc generalizing σ w with
  | done =>
    obtain ⟨q, τ, a, s, rfl, ha, hs, hd⟩ := ht.exists_top hsp
    refine ht.accepts_of_leading wf hf hs (fun {w} _ hnext => ?_) hw
    obtain rfl : w = [] := by
      cases w with
      | nil => rfl
      | cons t w => cases hnext
    obtain ⟨L, hL, hc⟩ := ht.complete.mem_closure_of_valid wf (FlatGrammar.Valid.initial.moved rfl)
      hsp ha
    refine ⟨[], .accept hs (hd.mem_on_of_gives hg rfl hL rfl hc ?_)⟩
    exact ⟨rfl, rfl⟩
  | @shift α t y hc ih =>
    obtain ⟨q, τ, -, s, rfl, -, hs, -⟩ := ht.exists_top hsp
    refine ht.accepts_of_leading wf hf hs (fun {w} hw hnext => ?_) hw
    obtain ⟨w, rfl⟩ : ∃ w', w = t :: w' := by
      cases w with
      | nil => cases hnext
      | cons t' w =>
        cases hnext
        exact ⟨w, rfl⟩
    have hne : g.isExtra (.terminal t) = false := by
      obtain ⟨i, u, ss, -, hss, -⟩ := hc.viable.back
      obtain ⟨v, p, hp, hmem⟩ := Item.exists_production_of_terminal hss rfl
      rw [Bool.eq_false_iff]
      exact fun he => hf.foreign he v p hp hmem
    obtain ⟨n, r, hr, hpush⟩ := ht.exists_shift wf hs hg hc.viable hsp
    obtain ⟨es, hes⟩ := ih hpush (by simpa [FlatGrammar.withoutExtras, hne] using hw)
    exact ⟨_, .step (.shift hs hr) hes⟩
  | @reduce α v p y hp hc ih =>
    obtain ⟨q, τ, -, s, rfl, -, hs, -⟩ := ht.exists_top hsp
    refine ht.accepts_of_leading wf hf hs (fun {w} hw hnext => ?_) hw
    obtain ⟨n, hn, rfl⟩ := List.mem_iff_getElem.1 hp
    obtain ⟨r, hr, hrs, hrc⟩ :=
      ht.exists_reduce wf hs hg (isTerminal_lookahead y) hn hc.viable hsp
    -- Below the production the variable leads on.
    have hdrop := hsp.drop
    obtain ⟨p, ρ, -, s', hpop, -, hs', -⟩ := ht.exists_top hdrop
    rw [hpop] at hdrop
    obtain ⟨m, hgoto, hpush⟩ :=
      ht.exists_goto wf hs' (FlatGrammar.lt_of_productionsOf hn) hc.viable hdrop
    obtain ⟨es, hes⟩ := ih hpush hw
    exact ⟨_, .step (.reduce hs (hnext ▸ hr) (hrc ▸ hpop) hrs hs' hgoto) hes⟩

end Canonical

end GrammarTables
