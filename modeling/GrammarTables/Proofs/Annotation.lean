import GrammarTables.Proofs.Bypass
import GrammarTables.Proofs.Canonical
import GrammarTables.Proofs.Merge

/-!
# Tables that are annotated with items

When the states of a table are annotated with items, the states on a stack spell symbols, and an
item of the topmost state has its symbols before the dot at the end of them. Then a run that accepts
its text reduces the spelled symbols and what it shifts to the start symbol. This holds too when the
targets of the table are redirected past unit states, since a chain of unit states is a chain of
productions.

The canonical table is annotated with the closures of the automaton, and a merged table with the
closures of all members.
-/

namespace GrammarTables

open Machine

namespace Item

variable {g : FlatGrammar} {i : Item}

/-- The symbols before the dot. -/
def before (g : FlatGrammar) (i : Item) : List Symbol :=
  ((i.productionIn g).steps.take i.dot).map (·.symbol)

theorem before_of_dot_eq_zero (h : i.dot = 0) : i.before g = [] := by simp [before, h]

theorem before_advance {x : Symbol} (h : i.next? g = some x) :
    i.advance.before g = i.before g ++ [x] := by
  obtain ⟨step, hstep, rfl⟩ := Option.map_eq_some_iff.1 h
  have hget : (i.productionIn g).steps[i.dot]? = some step := by
    rw [rest, List.head?_drop] at hstep
    exact hstep
  change ((i.productionIn g).steps.take (i.dot + 1)).map (·.symbol) = _
  rw [List.take_add_one, hget]
  simp [before]

theorem before_end {v n : Nat} (hn : n < (g.productionsOf (.nonterminal v)).length) :
    before g ⟨.nonterminal v, n, (g.productionsOf (.nonterminal v))[n].steps.length⟩ =
      (g.productionsOf (.nonterminal v))[n].symbols := by
  simp [before, productionIn_nonterminal hn, Production.symbols]

end Item

/-- A symbol leads from a state of a table to another. -/
def Leads (states : Array State) (q : Nat) : Symbol → Nat → Prop
  | .eof, _ => False
  | .terminal t, n =>
    ∃ (s : State) (r : Bool), states[q]? = some s ∧ .shift n r ∈ s.on (.terminal t)
  | .nonterminal v, n => ∃ s : State, states[q]? = some s ∧ s.goto? v = some n

open Automaton (Spells)

/-- The items that states of a table are annotated with tell what is on the stack. -/
structure Annotated (g : FlatGrammar) (states : Array State) (items : Nat → Item → Prop) :
    Prop where
  start : ∀ {i : Item}, items 1 i → i.dot = 0
  push : ∀ {q n : Nat} {x : Symbol} {i : Item}, Leads states q x n → items n i →
    (i.dot = 0 ∧ i.isStart = false) ∨ ∃ j, items q j ∧ j.next? g = some x ∧ i = j.advance
  reduce : ∀ {q : Nat} {s : State} {t : Symbol} {r : Reduction}, states[q]? = some s →
    t.isTerminal = true → .reduce r ∈ s.on t →
    ∃ v n, ∃ hn : n < (g.productionsOf (.nonterminal v)).length,
      items q ⟨.nonterminal v, n, (g.productionsOf (.nonterminal v))[n].steps.length⟩ ∧
      r.symbol = .nonterminal v ∧ r.children = (g.productionsOf (.nonterminal v))[n].steps.length
  accept : ∀ {q : Nat} {s : State} {t : Symbol}, states[q]? = some s → t.isTerminal = true →
    .accept ∈ s.on t → items q Item.initial.advance

namespace Annotated

variable {g : FlatGrammar} {states : Array State} {items : Nat → Item → Prop} {α : List Symbol}
  {q : Nat} {σ : List Nat} {i : Item}

/-- An item of the topmost state has its symbols before the dot at the end of the spelled ones. -/
theorem spelled (h : Annotated g states items) (hsp : Spells (Leads states) α (q :: σ))
    (hi : items q i) : ∃ α', α = α' ++ i.before g ∧ (i.isStart = true → α' = []) := by
  generalize hτ : q :: σ = τ at hsp
  induction hsp generalizing q σ i with
  | start =>
    cases hτ
    exact ⟨[], by rw [Item.before_of_dot_eq_zero (h.start hi)]; rfl, fun _ => rfl⟩
  | @push α p n τ x hsp hl ih =>
    cases hτ
    rcases h.push hl hi with ⟨hdot, hs⟩ | ⟨j, hj, hx, rfl⟩
    · refine ⟨α ++ [x], by rw [Item.before_of_dot_eq_zero hdot, List.append_nil], fun hs' => ?_⟩
      rw [hs] at hs'
      cases hs'
    · obtain ⟨α', rfl, hα'⟩ := ih hj rfl
      exact ⟨α', by rw [Item.before_advance hx, List.append_assoc], hα'⟩

/-- A reduction undoes a production that the spelled symbols end with. -/
theorem spelled_reduce (h : Annotated g states items) (hsp : Spells (Leads states) α (q :: σ))
    {s : State} (hs : states[q]? = some s) {t : Symbol} (ht : t.isTerminal = true) {r : Reduction}
    (hr : .reduce r ∈ s.on t) :
    ∃ v, ∃ p ∈ g.productionsOf (.nonterminal v), ∃ α', α = α' ++ p.symbols ∧
      r.symbol = .nonterminal v ∧ r.children = p.symbols.length := by
  obtain ⟨v, n, hn, hi, hrs, hrc⟩ := h.reduce hs ht hr
  obtain ⟨α', rfl, -⟩ := h.spelled hsp hi
  rw [Item.before_end hn]
  refine ⟨v, _, List.getElem_mem hn, α', rfl, hrs, ?_⟩
  rw [hrc, Production.symbols, List.length_map]

/-- A chain of unit states is a chain of productions with one step. -/
theorem spelled_chain (h : Annotated g states items) {x : Symbol} {u t p : Nat} {τ : List Nat}
    {s : State} (hp : states[p]? = some s) (hc : Bypass.Chain g states s.goto? u t)
    (hsp : Spells (Leads states) (α ++ [x]) (u :: p :: τ)) :
    ∃ y, Spells (Leads states) (α ++ [y]) (t :: p :: τ) ∧
      ∀ w, g.Completes (α ++ [y]) w → g.Completes (α ++ [x]) w := by
  induction hc generalizing x with
  | refl u => exact ⟨x, hsp, fun _ hw => hw⟩
  | @step u n t hpass _ ih =>
    obtain ⟨su, v, hsu, hunit, hgoto⟩ := hpass
    obtain ⟨i, r, hr, ⟨hone, -, -⟩, hv⟩ := (Bypass.isUnit_of_unit? hunit).some
    obtain ⟨v', prod, hprod, α', hα, hv', hlen⟩ :=
      h.spelled_reduce hsp hsu (TokenSet.isTerminal_symbolAt i) hr
    rw [hv, Symbol.nonterminal.injEq] at hv'
    subst hv'
    obtain ⟨z, hz⟩ := List.length_eq_one_iff.1 (hlen.symm.trans hone)
    rw [hz] at hα
    obtain ⟨rfl, hxz⟩ := List.append_inj' hα rfl
    obtain rfl : x = z := by simpa using hxz
    obtain ⟨q', n', τ', hcons, hsp', -⟩ := hsp.push_inv
    cases hcons
    have hpush : Spells (Leads states) (α ++ [.nonterminal v]) (n :: p :: τ) :=
      hsp'.push ⟨s, hp, hgoto⟩
    obtain ⟨y, hy, hcomp⟩ := ih hpush
    refine ⟨y, hy, fun w hw => ?_⟩
    rw [← hz]
    exact .reduce hprod (hcomp w hw)

/-- What is spelled and what an accepting run shifts are reduced to the start symbol. -/
theorem completes (h : Annotated g states items) {states' : Array State}
    (hd : Bypass.Detours g states states') {c : Config} {es : List Event}
    (ha : Accepts states' c es) (hsp : Spells (Leads states) α c.stack) :
    g.Completes α (shifted es) := by
  induction ha generalizing α with
  | accept hs hacc =>
    obtain ⟨s, f, hs₀, rfl, -⟩ := hd hs
    rw [State.mem_mapTargets rfl] at hacc
    obtain ⟨α', rfl, hα'⟩ := h.spelled hsp (h.accept hs₀ rfl hacc)
    rw [hα' rfl]
    exact .done
  | step hstep _ ih =>
    cases hstep with
    | @shift q n t σ w s' r hs hn =>
      obtain ⟨s, f, hs₀, rfl, hchain⟩ := hd hs
      obtain ⟨m, hm, rfl⟩ := State.shift_mem_mapTargets.1 hn
      have hpush : Spells (Leads states) (α ++ [.terminal t]) (m :: q :: σ) :=
        hsp.push ⟨s, r, hs₀, hm⟩
      obtain ⟨y, hy, hcomp⟩ := h.spelled_chain hs₀ (hchain m) hpush
      exact .shift (hcomp _ (ih hy))
    | extra hs he => exact ih hsp
    | @reduce q p n v σ τ w s' s₂' r hs hr hpop hv hp hn =>
      obtain ⟨s, f, hs₀, rfl, -⟩ := hd hs
      obtain ⟨s₂, f₂, hp₀, rfl, hchain⟩ := hd hp
      rw [State.mem_mapTargets rfl] at hr
      obtain ⟨m, hm, rfl⟩ := State.goto?_mapTargets_eq_some.1 hn
      have hterm : (FlatGrammar.lookahead w).isTerminal = true := by cases w <;> rfl
      obtain ⟨v', prod, hprod, α', rfl, hv', hlen⟩ := h.spelled_reduce hsp hs₀ hterm hr
      rw [hv, Symbol.nonterminal.injEq] at hv'
      subst hv'
      have hdrop := hsp.drop
      rw [← hlen, hpop] at hdrop
      have hpush : Spells (Leads states) (α' ++ [.nonterminal v]) (m :: p :: τ) :=
        hdrop.push ⟨s₂, hp₀, hm⟩
      obtain ⟨y, hy, hcomp⟩ := h.spelled_chain hp₀ (hchain m) hpush
      exact .reduce hprod (hcomp _ (ih hy))

end Annotated

namespace Merge

variable {g : FlatGrammar} {auto : Array Automaton.State} {states merged : Array State}
  {group : Nat → Nat}

/-- The items that the members of a group have. -/
def itemsOf (auto : Array Automaton.State) (group : Nat → Nat) (k : Nat) (i : Item) : Prop :=
  ∃ q a L, group q = k ∧ auto[q]? = some a ∧ (i, L) ∈ a.closure

/-- The states of a group have the same items. -/
theorem Merges.mem_core (h : Merges states merged group) (ht : Canonical.Table g auto states)
    {p q : Nat} {a b : Automaton.State} (ha : auto[p]? = some a) (hb : auto[q]? = some b)
    (hpq : group p = group q) : a.kernel.core = b.kernel.core := by
  obtain ⟨s, hs, -⟩ := ht.describes ha
  obtain ⟨t, ht', -⟩ := ht.describes hb
  exact ht.core ha hb hs ht' (h.core hs ht' hpq)

/-- An item of a closure is at the start of its production or in the kernel. -/
theorem dot_eq_zero_or_mem_core (ht : Canonical.Table g auto states) {q : Nat}
    {a : Automaton.State} (ha : auto[q]? = some a) {i : Item} {L : TokenSet}
    (hi : (i, L) ∈ a.closure) : (i.dot = 0 ∧ i.isStart = false) ∨ i ∈ a.kernel.core := by
  rw [ht.complete.closure ha] at hi
  rcases Analysis.mem_closure.1 hi with hi | ⟨v, n, rfl, -, -⟩
  · exact .inr (List.mem_map_of_mem hi)
  · exact .inl ⟨rfl, rfl⟩

/-- Where a symbol leads in the merged table it leads in the automaton from some member. -/
theorem Merges.lookup (h : Merges states merged group) (ht : Canonical.Table g auto states)
    {k n : Nat} {x : Symbol} (hl : Leads merged k x n) :
    ∃ q a n', group q = k ∧ auto[q]? = some a ∧ a.successors.lookup x = some n' ∧
      group n' = n := by
  cases x with
  | eof => cases hl
  | terminal t =>
    obtain ⟨m, r, hm, hn⟩ := hl
    obtain ⟨q, s, hq, hs, hon⟩ := h.on hm (List.ne_nil_of_mem hn)
    obtain ⟨a, ha, hd⟩ := ht.described hs
    rw [hon] at hn
    obtain ⟨n', hn', hgn⟩ := Action.mem_map_shift.1 hn
    exact ⟨q, a, n', hq, ha, hd.lookup_of_shift rfl hn', hgn⟩
  | nonterminal v =>
    obtain ⟨m, hm, hn⟩ := hl
    obtain ⟨q, s, n', hq, hs, hn', hgn⟩ := h.goto hm hn
    obtain ⟨a, ha, hd⟩ := ht.described hs
    rw [hd.goto?_eq] at hn'
    split at hn'
    · exact ⟨q, a, n', hq, ha, hn', hgn⟩
    · cases hn'

/-- The merged table is annotated with the items of the members. -/
theorem Merges.annotated (h : Merges states merged group) (ht : Canonical.Table g auto states) :
    Annotated g merged (itemsOf auto group) := by
  refine ⟨fun {i} hi => ?_, fun {k n x i} hl hi => ?_, fun {k m t r} hm hterm hr => ?_,
    fun {k m t} hm hterm hacc => ?_⟩
  · obtain ⟨q, a, L, hq, ha, hi⟩ := hi
    rcases dot_eq_zero_or_mem_core ht ha hi with hi | hi
    · exact hi.1
    · obtain ⟨b, hb, hk⟩ := ht.complete.start
      rw [h.mem_core ht ha hb (hq.trans h.start.symm), hk] at hi
      rw [List.mem_singleton.1 hi]
      rfl
  · obtain ⟨q, a, L, hq, ha, hi⟩ := hi
    rcases dot_eq_zero_or_mem_core ht ha hi with hi | hi
    · exact .inl hi
    · obtain ⟨p, b, n', hp, hb, hlook, hn'⟩ := h.lookup ht hl
      obtain ⟨-, c, hc, hkernel⟩ := ht.complete.of_lookup hb hlook
      rw [h.mem_core ht ha hc (hq.trans hn'.symm), hkernel] at hi
      obtain ⟨⟨j, M⟩, hj, rfl⟩ := List.mem_map.1 hi
      obtain ⟨i, hiM, hx, rfl⟩ := ItemSet.mem_goto.1 hj
      exact .inr ⟨i, ⟨p, b, M, hp, hb, hiM⟩, hx, rfl⟩
  · obtain ⟨q, s, hq, hs, hon⟩ := h.on hm (List.ne_nil_of_mem hr)
    obtain ⟨a, ha, hd⟩ := ht.described hs
    rw [hon, Action.mem_map_of_not_shift rfl] at hr
    obtain ⟨v, n, hn, L, hi, hrs, hrc⟩ := hd.mem_closure_of_reduce hterm hr
    exact ⟨v, n, hn, ⟨q, a, L, hq, ha, hi⟩, hrs, hrc⟩
  · obtain ⟨q, s, hq, hs, hon⟩ := h.on hm (List.ne_nil_of_mem hacc)
    obtain ⟨a, ha, hd⟩ := ht.described hs
    rw [hon, Action.mem_map_of_not_shift rfl] at hacc
    obtain ⟨L, hi⟩ := hd.mem_closure_of_accept hterm hacc
    exact ⟨q, a, L, hq, ha, hi⟩

end Merge

namespace Canonical

variable {g : FlatGrammar} {auto : Array Automaton.State} {states : Array State}

theorem Table.targeted (h : Table g auto states) : Targeted states := by
  intro q s hs n hn
  obtain ⟨a, ha, hd⟩ := h.described hs
  have hlook : ∃ x, a.successors.lookup x = some n := by
    rcases State.mem_successors.1 hn with ⟨i, r, hr⟩ | ⟨v, hv⟩
    · exact ⟨_, hd.lookup_of_shift (TokenSet.isTerminal_symbolAt i) hr⟩
    · rw [hd.goto?_eq] at hv
      split at hv
      · exact ⟨_, hv⟩
      · cases hv
  obtain ⟨x, hx⟩ := hlook
  obtain ⟨-, b, hb, -⟩ := h.complete.of_lookup ha hx
  obtain ⟨s', hs', -⟩ := h.describes hb
  exact (Array.getElem?_eq_some_iff.1 hs').1

theorem Table.mergeable (h : Table g auto states) : Merge.Mergeable states := by
  refine ⟨h.targeted, ⟨g.terminals.length, g.nonterminals.length, fun {q s} hs => ?_⟩, h.core_lt,
    ?_⟩
  · obtain ⟨a, -, hd⟩ := h.described hs
    obtain ⟨core, rfl⟩ := hd.built
    constructor <;> simp [state, Analysis.ofGrammar]
  · obtain ⟨a, ha, hka⟩ := h.complete.error
    obtain ⟨b, hb, hkb⟩ := h.complete.start
    obtain ⟨s, hs, -⟩ := h.describes ha
    obtain ⟨t, ht, -⟩ := h.describes hb
    refine ⟨s, t, hs, ht, fun hst => ?_⟩
    have hcore := h.core ha hb hs ht hst
    rw [hka, hkb] at hcore
    cases hcore

end Canonical

end GrammarTables
