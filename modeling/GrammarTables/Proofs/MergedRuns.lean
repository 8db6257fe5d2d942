import GrammarTables.Proofs.Annotation

/-!
# Merged tables have the same runs

A run of the canonical table is a run of the merged table. Conversely an accepting run of the merged
table shows that what is on the stack can go on with the next token, so that the member of each
group that the symbols on the stack lead to has the entry too.
-/

namespace GrammarTables

open Machine
open Automaton (Spells)
open FlatGrammar (lookahead)

theorem isTerminal_lookahead (w : List Nat) : (lookahead w).isTerminal = true := by
  cases w <;> rfl

namespace FlatGrammar

variable {g : FlatGrammar}

theorem WellFormed.position_lt (wf : g.WellFormed) {e : Symbol} (he : g.isExtra e = true) :
    TokenSet.position e < g.tokenCount := by
  obtain ⟨i, hi, rfl⟩ := wf.extras e (by simpa [isExtra] using he)
  simp only [TokenSet.position, tokenCount]
  omega

/-- The item of the start production is only valid before the end of the text. -/
theorem Valid.eof_of_start {α : List Symbol} {i : Item} {u : Symbol} (h : g.Valid α i u)
    (hi : i.isStart = true) : u = .eof := by
  induction h with
  | initial => rfl
  | opened _ _ _ _ _ => cases hi
  | moved _ _ ih => exact ih hi

end FlatGrammar

theorem Item.position_lt_of_next? {g : FlatGrammar} (wf : g.WellFormed) {i : Item} {x : Symbol}
    (hx : i.next? g = some x) (ht : x.isTerminal = true) : TokenSet.position x < g.tokenCount := by
  obtain ⟨ss, hss⟩ := Item.next?_eq_some.1 hx
  obtain ⟨v, p, hp, hxp⟩ := Item.exists_production_of_terminal hss ht
  have hdecl := wf.declares hp x hxp
  cases x with
  | eof => cases hdecl
  | terminal t =>
    have hlt : t < g.tokens.size := hdecl
    simp only [TokenSet.position, FlatGrammar.tokenCount]
    omega
  | nonterminal _ => cases ht

namespace Canonical

variable {g : FlatGrammar} {auto : Array Automaton.State} {states : Array State}

/-- Where a terminal can come next the canonical table has an entry for it. -/
theorem Table.on_ne_nil_of_viable (h : Table g auto states) (wf : g.WellFormed) {α : List Symbol}
    {x : Symbol} (hv : g.Viable α x) (hx : x.isTerminal = true) {q : Nat} {σ : List Nat}
    (hsp : Spells (Automaton.Leads auto) α (q :: σ)) {s : State} (hs : states[q]? = some s) :
    s.on x ≠ [] := by
  obtain ⟨a, ha, hd⟩ := h.described hs
  obtain ⟨i, u, hi, hnext⟩ := hv
  obtain ⟨j, t, hj, hcase⟩ := hi.descend hnext
  obtain ⟨L, hL, ht⟩ := h.complete.mem_closure_of_valid wf hj hsp ha
  rcases hcase with ⟨hc, rfl⟩ | ⟨ss, hss⟩
  · exact hd.on_ne_nil_of_complete hx hL hc ht hj.eof_of_start
  · have hjx : j.next? g = some x := Item.next?_eq_some.2 ⟨ss, hss⟩
    obtain ⟨n, hn⟩ := h.complete.exists_lookup ha hL hjx
    exact hd.on_ne_nil_of_lookup hx (Item.position_lt_of_next? wf hjx hx) hn

end Canonical

namespace Merge

section Members

variable {g : FlatGrammar} {auto : Array Automaton.State} {states merged : Array State}
  {group : Nat → Nat}

/-- A successor of a merged state is the group of a successor. -/
theorem Merges.exists_successor (h : Merges states merged group) {k n : Nat} {m : State}
    (hm : merged[k]? = some m) (hn : n ∈ m.successors) :
    ∃ (q : Nat) (s : State) (n' : Nat), states[q]? = some s ∧ n' ∈ s.successors ∧
      group n' = n := by
  rcases State.mem_successors.1 hn with ⟨i, r, hr⟩ | ⟨v, hv⟩
  · obtain ⟨q, s, -, hs, hon⟩ := h.on hm (List.ne_nil_of_mem hr)
    rw [hon] at hr
    obtain ⟨n', hn', rfl⟩ := Action.mem_map_shift.1 hr
    exact ⟨q, s, n', hs, State.mem_successors_of_on hn', rfl⟩
  · obtain ⟨q, s, n', -, hs, hn', rfl⟩ := h.goto hm hv
    exact ⟨q, s, n', hs, State.mem_successors_of_goto? hn', rfl⟩

theorem Merges.targeted (h : Merges states merged group) (ht : Targeted states) :
    Targeted merged := by
  intro k m hm n hn
  obtain ⟨q, s, n', hs, hn', rfl⟩ := h.exists_successor hm hn
  exact h.lt (ht hs n' hn')

/-- A run of a table is a run of the table with its states merged. -/
theorem Merges.accepts (h : Merges states merged group) {c : Config} {es : List Event}
    (ha : Accepts states c es) : Accepts merged ⟨c.stack.map group, c.rest⟩ es := by
  induction ha with
  | accept hs hacc =>
    obtain ⟨m, hm, hon, -⟩ := h.state hs
    refine .accept hm ?_
    rw [hon _ (List.ne_nil_of_mem hacc), Action.mem_map_of_not_shift rfl]
    exact hacc
  | step hstep _ ih =>
    cases hstep with
    | @shift q n t σ w s r hs hn =>
      obtain ⟨m, hm, hon, -⟩ := h.state hs
      refine .step (.shift hm ?_) ih
      rw [hon _ (List.ne_nil_of_mem hn)]
      exact Action.mem_map_shift.2 ⟨n, hn, rfl⟩
    | extra hs he =>
      obtain ⟨m, hm, hon, -⟩ := h.state hs
      refine .step (.extra hm ?_) ih
      rw [hon _ (List.ne_nil_of_mem he), Action.mem_map_of_not_shift rfl]
      exact he
    | @reduce q p n v σ τ w s s' r hs hr hd hv hp hn =>
      obtain ⟨m, hm, hon, -⟩ := h.state hs
      obtain ⟨m', hm', -, hgoto⟩ := h.state hp
      refine .step (.reduce hm ?_ ?_ hv hm' (hgoto v n hn)) ih
      · rw [hon _ (List.ne_nil_of_mem hr), Action.mem_map_of_not_shift rfl]
        exact hr
      · rw [← List.map_cons, ← List.map_drop, hd]
        rfl

/-- What the merged table passes over is an extra and has no other actions. -/
theorem Merges.extra (h : Merges states merged group) (ht : Canonical.Table g auto states)
    {k : Nat} {t : Symbol} (hterm : t.isTerminal = true) {m : State} (hm : merged[k]? = some m)
    (he : .shiftExtra ∈ m.on t) : g.isExtra t = true ∧ m.on t = [.shiftExtra] := by
  obtain ⟨q, s, -, hs, hon⟩ := h.on hm (List.ne_nil_of_mem he)
  obtain ⟨a, -, hd⟩ := ht.described hs
  rw [hon, Action.mem_map_of_not_shift rfl] at he
  obtain ⟨hex, heq⟩ := hd.extra hterm he
  exact ⟨hex, by rw [hon, heq]; rfl⟩

variable (wf : g.WellFormed) (ht : Canonical.Table g auto states) (h : Merges states merged group)
include wf ht h

/-- Symbols lead in the merged table to the groups of the states that they lead to in the
automaton. -/
theorem Merges.map_group {α : List Symbol} {σ τ : List Nat} (hm : Spells (Leads merged) α τ)
    (ha : Spells (Automaton.Leads auto) α σ) : τ = σ.map group := by
  induction ha generalizing τ with
  | start =>
    rw [hm.nil_inv]
    simp [h.start]
  | @push α q n σ x ha hl ih =>
    obtain ⟨k, l, ρ, rfl, hm, hlk⟩ := hm.push_inv
    have hk := ih hm
    rw [List.map_cons, List.cons.injEq] at hk
    obtain ⟨rfl, rfl⟩ := hk
    obtain ⟨a, haq, hlook⟩ := hl
    obtain ⟨s, hs, hd⟩ := ht.describes haq
    obtain ⟨m, hm', hon, hgoto⟩ := h.state hs
    suffices hgn : l = group n by rw [hgn]; rfl
    cases x with
    | eof => cases hlk
    | terminal t =>
      -- The member has the entry, since it wants to shift, so the merged entry is the member's.
      obtain ⟨m', r, hm'', hr⟩ := hlk
      rw [hm'] at hm''
      cases hm''
      obtain ⟨⟨y, hy, hyx⟩, -⟩ := ht.complete.of_lookup haq hlook
      have hlt := Item.position_lt_of_next? wf hyx rfl
      rw [hon _ (hd.on_ne_nil_of_lookup rfl hlt hlook)] at hr
      obtain ⟨n', hn', rfl⟩ := Action.mem_map_shift.1 hr
      have hlook' := hd.lookup_of_shift rfl hn'
      rw [hlook] at hlook'
      rw [Option.some.inj hlook']
    | nonterminal v =>
      obtain ⟨m', hm'', hv⟩ := hlk
      rw [hm'] at hm''
      cases hm''
      obtain ⟨q', s', n', -, hs', hv', -⟩ := h.goto hm' hv
      obtain ⟨a', -, hd'⟩ := ht.described hs'
      have hlt : v < g.vars.size := by
        rw [hd'.goto?_eq] at hv'
        by_contra hge
        simp [hge] at hv'
      have hsv : s.goto? v = some n := by rw [hd.goto?_eq, if_pos hlt, hlook]
      rw [hgoto v n hsv] at hv
      exact (Option.some.inj hv).symm

/-- Symbols on the stack that can be completed lead somewhere in the automaton, to a member of the
topmost group. -/
theorem Merges.exists_member {α : List Symbol} {y : List Nat} (hc : g.Completes α y) {k : Nat}
    {τ : List Nat} (hm : Spells (Leads merged) α (k :: τ)) :
    ∃ q σ s, Spells (Automaton.Leads auto) α (q :: σ) ∧ k :: τ = (q :: σ).map group ∧
      states[q]? = some s ∧ s.on (lookahead y) ≠ [] := by
  obtain ⟨i, u, hi, -⟩ := hc.viable
  obtain ⟨q, σ, a, hsp, ha, -⟩ := ht.complete.allows_of_valid wf hi
  obtain ⟨s, hs, -⟩ := ht.describes ha
  exact ⟨q, σ, s, hsp, h.map_group wf ht hm hsp, hs,
    ht.on_ne_nil_of_viable wf hc.viable (isTerminal_lookahead y) hsp hs⟩

/-- The member that the symbols on the stack lead to has the entry for the next token of a text that
is accepted. -/
theorem Merges.member_on {states' : Array State} (hd : Bypass.Detours g merged states')
    {α : List Symbol} {q : Nat} {σ : List Nat} (ha : Spells (Automaton.Leads auto) α (q :: σ))
    {s : State} (hs : states[q]? = some s) {p : Nat} {τ w : List Nat} {es : List Event}
    (hacc : Accepts states' ⟨p :: τ, w⟩ es) (hc : g.Completes α (shifted es)) :
    s.on (lookahead w) ≠ [] := by
  rcases hacc.next_token with ⟨p', e, s', hw, hs', he⟩ | hw
  · obtain ⟨m, f, hm, rfl, -⟩ := hd hs'
    rw [State.mem_mapTargets rfl] at he
    obtain ⟨hex, -⟩ := h.extra ht rfl hm he
    obtain ⟨a, -, hda⟩ := ht.described hs
    rw [hw]
    exact hda.on_ne_nil_of_extra rfl (wf.position_lt hex) hex
  · rw [hw]
    exact ht.on_ne_nil_of_viable wf hc.viable (isTerminal_lookahead _) ha hs

/-- The entry of the topmost group is that of the member that the symbols on the stack lead to. -/
theorem Merges.entry {k : Nat} {τ w : List Nat} {es : List Event} {m : State}
    (hacc : Accepts merged ⟨k :: τ, w⟩ es) (hk : merged[k]? = some m) {α : List Symbol}
    {σ : List Nat} (hm : Spells (Leads merged) α (k :: τ))
    (ha : Spells (Automaton.Leads auto) α σ) :
    ∃ q σ' s, σ = q :: σ' ∧ k = group q ∧ τ = σ'.map group ∧ states[q]? = some s ∧
      m.on (lookahead w) = (s.on (lookahead w)).map (·.mapTarget group) := by
  have hdet := Bypass.detours_self g merged
  have hc := (h.annotated ht).completes hdet hacc hm
  obtain ⟨q, σ', s, ha', hmap, hs, -⟩ := h.exists_member wf ht hc hm
  obtain rfl := ha.unique ha'
  obtain ⟨rfl, rfl⟩ := List.cons.inj hmap
  obtain ⟨m', hm', hon, -⟩ := h.state hs
  rw [hk] at hm'
  cases hm'
  exact ⟨q, σ', s, rfl, rfl, rfl, hs, hon _ (h.member_on wf ht hdet ha hs hacc hc)⟩

/-- An accepting run of the merged table is a run of the table. -/
theorem Merges.accepts_of_merged {c : Config} {es : List Event} (hacc : Accepts merged c es)
    {α : List Symbol} {σ : List Nat} (hsp : Spells (Leads merged) α c.stack)
    (ha : Spells (Automaton.Leads auto) α σ) : Accepts states ⟨σ, c.rest⟩ es := by
  have hdet := Bypass.detours_self g merged
  have hann := h.annotated ht
  induction hacc generalizing α σ with
  | accept hm hacc =>
    obtain ⟨q, τ, s, rfl, rfl, rfl, hs, hon⟩ := h.entry wf ht (.accept hm hacc) hm hsp ha
    refine .accept hs ?_
    rwa [show Symbol.eof = lookahead [] from rfl, hon, Action.mem_map_of_not_shift rfl] at hacc
  | step hstep hrest ih =>
    have hwhole := Accepts.step hstep hrest
    cases hstep with
    | @shift k n t τ' w m r hm hn =>
      obtain ⟨q, τ, s, rfl, rfl, rfl, hs, hon⟩ := h.entry wf ht hwhole hm hsp ha
      have hn' : .shift n r ∈ m.on (lookahead (t :: w)) := hn
      rw [hon] at hn'
      obtain ⟨n', hn'', rfl⟩ := Action.mem_map_shift.1 hn'
      obtain ⟨a, haq, hd⟩ := ht.described hs
      have hpush : Spells (Leads merged) (α ++ [.terminal t]) _ := hsp.push ⟨m, r, hm, hn⟩
      exact .step (.shift hs hn'') (ih hpush (ha.push ⟨a, haq, hd.lookup_of_shift rfl hn''⟩))
    | @extra k t τ' w m hm he =>
      obtain ⟨q, τ, s, rfl, rfl, rfl, hs, hon⟩ := h.entry wf ht hwhole hm hsp ha
      have he' : .shiftExtra ∈ m.on (lookahead (t :: w)) := he
      rw [hon, Action.mem_map_of_not_shift rfl] at he'
      exact .step (.extra hs he') (ih hsp ha)
    | @reduce k l n v τ' ρ w m m₂ r hm hr hpop hv hl hn =>
      obtain ⟨q, τ, s, rfl, rfl, rfl, hs, hon⟩ := h.entry wf ht hwhole hm hsp ha
      obtain ⟨v', prod, hprod, α', rfl, hv', hlen⟩ :=
        hann.spelled_reduce hsp hm (isTerminal_lookahead w) hr
      rw [hv, Symbol.nonterminal.injEq] at hv'
      subst hv'
      -- Below the production both stacks are spelled by the same symbols, and so is the variable.
      have hdropm := hsp.drop
      have hdropa := ha.drop
      rw [← hlen, hpop] at hdropm
      rw [← hlen] at hdropa
      have hpush : Spells (Leads merged) (α' ++ [.nonterminal v]) (n :: l :: ρ) :=
        hdropm.push ⟨m₂, hl, hn⟩
      obtain ⟨n', σ', s', ha', hmap, hs', -⟩ :=
        h.exists_member wf ht (hann.completes hdet hrest hpush) hpush
      obtain ⟨p, n'', ρ', hcons, hap, ⟨b, hb, hlook⟩⟩ := ha'.push_inv
      cases hcons
      have hσ' := hap.unique hdropa
      obtain ⟨sp, hsp', hd⟩ := ht.describes hb
      have hlt : v < g.vars.size := by
        obtain ⟨i, hi, -⟩ := List.mem_iff_getElem.1 hprod
        exact FlatGrammar.lt_of_productionsOf hi
      rw [hon, Action.mem_map_of_not_shift rfl] at hr
      refine .step (.reduce hs hr hσ'.symm hv hsp' ?_) (ih hpush ha')
      rw [hd.goto?_eq, if_pos hlt, hlook]

/-- Merging states leaves the accepting runs as they are. -/
theorem Merges.accepts_iff {w : List Nat} {es : List Event} :
    Accepts merged ⟨[1], w⟩ es ↔ Accepts states ⟨[1], w⟩ es := by
  constructor
  · intro hacc
    exact h.accepts_of_merged wf ht hacc .start .start
  · intro hacc
    have := h.accepts hacc
    simpa [h.start] using this

end Members

end Merge

end GrammarTables
