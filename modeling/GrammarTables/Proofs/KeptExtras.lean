import GrammarTables.Proofs.BypassedRuns
import GrammarTables.Proofs.Lookahead

/-!
# Where extras are kept

Passing by unit states loses no extra when no extra stands in a production, since every state passes
over every extra then. Nor does it when every variable derives a text: then every item of the
automaton has lookaheads, and what the state behind a unit state wants the unit state wants too.
-/

namespace GrammarTables

open FlatGrammar (Foreign Productive)

namespace Canonical

variable {g : FlatGrammar} {auto : Array Automaton.State} {states : Array State} {q e : Nat}
  {a : Automaton.State} {s : State}

/-- An item of a state goes on with a terminal or is complete before it. -/
def Wants (g : FlatGrammar) (a : Automaton.State) (t : Symbol) : Prop :=
  ∃ i L, (i, L) ∈ a.closure ∧ ((∃ ss, i.after g = t :: ss) ∨
    (i.after g = [] ∧ i.isStart = false ∧ L.contains t = true))

/-- An extra that a state does not want is passed over. -/
theorem Table.on_eq_shiftExtra (h : Table g auto states) (wf : g.WellFormed)
    (ha : auto[q]? = some a) (hd : Describes g q a s) (he : g.isExtra (.terminal e) = true)
    (hw : ¬ Wants g a (.terminal e)) : s.on (.terminal e) = [.shiftExtra] := by
  refine hd.on_eq_shiftExtra (wf.position_lt he) he ?_ fun y hy hend hs => ?_
  · cases hl : a.successors.lookup (.terminal e) with
    | none => rfl
    | some n =>
      obtain ⟨⟨y, hy, hye⟩, -⟩ := h.complete.of_lookup ha hl
      exact absurd ⟨y.1, y.2, hy, .inl (Item.next?_eq_some.1 hye)⟩ hw
  · rw [Bool.eq_false_iff]
    intro hc
    exact hw ⟨y.1, y.2, hy, .inr ⟨hend, hs, hc⟩⟩

/-- An extra that a state wants is not passed over. -/
theorem Table.not_wants (h : Table g auto states) (wf : g.WellFormed) (ha : auto[q]? = some a)
    (hd : Describes g q a s) (he : g.isExtra (.terminal e) = true)
    (hx : .shiftExtra ∈ s.on (.terminal e)) : ¬ Wants g a (.terminal e) := by
  rintro ⟨i, L, hi, hcase⟩
  have hne : actionsOf g a (.terminal e) ≠ [] := by
    apply hd.actionsOf_ne_nil
    rcases hcase with ⟨ss, hss⟩ | ⟨hend, hs, hc⟩
    · exact .inl (h.complete.exists_lookup ha hi (Item.next?_eq_some.2 ⟨ss, hss⟩))
    · exact .inr ⟨_, hi, hend, Describes.exists_gives hc fun hs' => by simp [hs] at hs'⟩
  rw [hd.on_of_ne_nil rfl (wf.position_lt he) hne] at hx
  exact hd.not_mem_actionsOf hx

/-- An extra that stands in no production is passed over in every state. -/
theorem Table.on_eq_of_foreign (h : Table g auto states) (wf : g.WellFormed)
    (he : g.isExtra (.terminal e) = true) (hf : g.Foreign (.terminal e))
    (hs : states[q]? = some s) : s.on (.terminal e) = [.shiftExtra] := by
  obtain ⟨a, ha, hd⟩ := h.described hs
  apply h.on_eq_shiftExtra wf ha hd he
  rintro ⟨i, L, hi, ⟨ss, hss⟩ | ⟨-, -, hc⟩⟩
  · obtain ⟨v, p, hp, hx⟩ := Item.exists_production_of_terminal hss rfl
    exact hf v p hp hx
  · have hP := Lookaheads.inherits_foreign wf hf
    rw [h.complete.closure ha] at hi
    have hno := Analysis.inherits_closure hP ((h.complete.kernel ha).inherits hP) _ hi
    simp [hno] at hc

end Canonical

namespace ItemSet

variable {g : FlatGrammar} {kernel : ItemSet}

/-- What an item of a closure goes on with an item of the kernel goes on with. -/
theorem Allows.exists_kernel {i : Item} {t x : Symbol} (h : Allows g kernel i t)
    (hx : g.Ahead (i.after g) t x) : ∃ j L u, (j, L) ∈ kernel ∧ u.isTerminal = true ∧
      L.contains u = true ∧ g.Ahead (j.after g) u x := by
  induction h generalizing x with
  | given hi ht hc => exact ⟨_, _, _, hi, ht, hc, hx⟩
  | opened _ hss hn ht ih =>
    apply ih
    rw [hss]
    rw [Item.after_start hn] at hx
    exact ht.expand (List.getElem_mem hn) hx

/-- An item at the start of a production of a variable is there since the variable is after a
dot. -/
theorem Allows.exists_next {v n : Nat} {t : Symbol} (h : Allows g kernel ⟨.nonterminal v, n, 0⟩ t)
    (hk : ∀ x ∈ kernel, x.1 = .initial ∨ 0 < x.1.dot) :
    ∃ i u ss, Allows g kernel i u ∧ i.after g = .nonterminal v :: ss := by
  cases h with
  | given hi _ _ =>
    rcases hk _ hi with h | h
    · cases h
    · exact absurd h (Nat.lt_irrefl 0)
  | opened ha hss _ _ => exact ⟨_, _, _, ha, hss⟩

end ItemSet

namespace Canonical

variable {g : FlatGrammar} {auto : Array Automaton.State} {states : Array State} {q e : Nat}
  {a : Automaton.State}

theorem Table.ne_empty (h : Table g auto states) (wf : g.WellFormed) (hg : g.Productive)
    (ha : auto[q]? = some a) : ∀ x ∈ a.kernel, x.2 ≠ .empty :=
  (h.complete.kernel ha).inherits (Lookaheads.inherits_ne_empty wf hg)

theorem Table.allows (h : Table g auto states) (wf : g.WellFormed) (hg : g.Productive)
    (ha : auto[q]? = some a) {i : Item} {L : TokenSet} (hi : (i, L) ∈ a.closure) {t : Symbol}
    (ht : t.isTerminal = true) (hc : L.contains t = true) : ItemSet.Allows g a.kernel i t := by
  rw [h.complete.closure ha] at hi
  exact Analysis.allows_of_mem_closure wf (h.ne_empty wf hg ha) hi ht hc

theorem Table.exists_contains (h : Table g auto states) (wf : g.WellFormed) (hg : g.Productive)
    (ha : auto[q]? = some a) {i : Item} {L : TokenSet} (hi : (i, L) ∈ a.closure) :
    ∃ t, t.isTerminal = true ∧ L.contains t = true := by
  rw [h.complete.closure ha] at hi
  have hne := Analysis.inherits_closure (Lookaheads.inherits_ne_empty wf hg)
    (h.ne_empty wf hg ha) _ hi
  exact TokenSet.exists_contains fun he => hne (TokenSet.isEmpty_iff.1 he)

/-- Where a variable is made of one symbol, what is wanted behind the variable is wanted behind the
symbol. -/
theorem Table.wants_back (h : Table g auto states) (wf : g.WellFormed) (hg : g.Productive)
    (ha : auto[q]? = some a) {v m u n : Nat} {z : Symbol} {b c : Automaton.State}
    (hm : m < (g.productionsOf (.nonterminal v)).length)
    (hafter : Item.after g ⟨.nonterminal v, m, 0⟩ = [z]) (hz : a.successors.lookup z = some u)
    (hb : auto[u]? = some b) (hv : a.successors.lookup (.nonterminal v) = some n)
    (hc : auto[n]? = some c) (hw : Wants g c (.terminal e)) : Wants g b (.terminal e) := by
  obtain ⟨i, L, hi, hcase⟩ := hw
  obtain ⟨t, ht, hLt, hahead⟩ : ∃ t, t.isTerminal = true ∧ L.contains t = true ∧
      g.Ahead (i.after g) t (.terminal e) := by
    rcases hcase with ⟨ss, hss⟩ | ⟨hend, -, hLe⟩
    · obtain ⟨t, ht, hLt⟩ := h.exists_contains wf hg hc hi
      exact ⟨t, ht, hLt, hss ▸ .inl (.here rfl)⟩
    · exact ⟨_, rfl, hLe, hend ▸ FlatGrammar.ahead_nil.2 rfl⟩
  -- The item of the kernel that it comes from was behind the variable before.
  obtain ⟨j, M, t', hj, ht', hMt, hahead'⟩ := (h.allows wf hg hc hi ht hLt).exists_kernel hahead
  obtain ⟨-, c', hc', hkernel⟩ := h.complete.of_lookup ha hv
  rw [hc] at hc'
  cases hc'
  rw [hkernel] at hj
  obtain ⟨i', hi', hnext, rfl⟩ := ItemSet.mem_goto.1 hj
  obtain ⟨ss, hss⟩ := Item.next?_eq_some.1 hnext
  rw [Item.after_advance hss] at hahead'
  have hopened := (h.allows wf hg ha hi' ht' hMt).opened hss hm hahead'
  obtain ⟨L', hL', hLe⟩ :=
    Analysis.mem_closure_of_allows wf ((h.complete.kernel ha).within wf) hopened
  rw [← h.complete.closure ha] at hL'
  obtain ⟨-, b', hb', hkernel'⟩ := h.complete.of_lookup ha hz
  rw [hb] at hb'
  cases hb'
  refine ⟨_, L', ?_, .inr ⟨Item.after_advance hafter, rfl, hLe⟩⟩
  rw [h.complete.closure hb, Analysis.mem_closure, hkernel']
  exact .inl (ItemSet.mem_goto.2 ⟨_, hL', Item.next?_eq_some.2 ⟨_, hafter⟩, rfl⟩)

end Canonical

namespace Bypass

variable {g : FlatGrammar} {auto : Array Automaton.State} {states merged : Array State}
  {group : Nat → Nat}

/-- Extras are kept along chains when they are kept from each state on a chain to the next. -/
theorem keepsExtras_of_passes (ht : Targeted merged)
    (hstep : ∀ {p u n e : Nat} {s x y : State}, merged[p]? = some s → u ∈ s.successors →
      Passes g merged s.goto? u n → merged[u]? = some x → merged[n]? = some y →
      .shiftExtra ∈ x.on (.terminal e) → .shiftExtra ∈ y.on (.terminal e)) :
    KeepsExtras g merged := by
  intro p u k t e s x y hs hu hends hx hy he
  induction hends generalizing x with
  | here _ _ =>
    rw [hx] at hy
    cases hy
    exact he
  | step hp _ ih =>
    obtain ⟨_, v, -, -, hn⟩ := id hp
    have hmem := State.mem_successors_of_goto? hn
    have hget := Array.getElem?_eq_getElem (ht hs _ hmem)
    exact ih hmem hget hy (hstep hs hu hp hx hget he)

variable (wf : g.WellFormed) (ht : Canonical.Table g auto states)
  (h : Merge.Merges states merged group)
include wf ht h

/-- No extra is lost when none stands in a production. -/
theorem keepsExtras_of_foreign (hf : g.ForeignExtras) : KeepsExtras g merged := by
  refine keepsExtras_of_passes (h.targeted ht.targeted) fun {p u n e s x y} hs _ hp hx hy he => ?_
  obtain ⟨hextra, -⟩ := h.extra ht rfl hx he
  obtain ⟨_, v, -, -, hn⟩ := hp
  obtain ⟨q, s', n', -, hs', hn', rfl⟩ := h.goto hs hn
  have hlt := ht.targeted hs' n' (State.mem_successors_of_goto? hn')
  have heq := ht.on_eq_of_foreign wf hextra (hf.foreign hextra) (Array.getElem?_eq_getElem hlt)
  obtain ⟨y', hy', hon, -⟩ := h.state (Array.getElem?_eq_getElem hlt)
  rw [hy] at hy'
  cases hy'
  rw [hon _ (by simp [heq]), heq]
  exact List.mem_singleton_self _

/-- A symbol leads to each successor, since the end of a text is not shifted. -/
theorem exists_leads {p u : Nat} {s : State} (hs : merged[p]? = some s) (hu : u ∈ s.successors) :
    ∃ z, Leads merged p z u := by
  rcases State.mem_successors.1 hu with ⟨i, r, hr⟩ | ⟨v, hv⟩
  · have hterm := TokenSet.isTerminal_symbolAt i
    generalize TokenSet.symbolAt i = z at hr hterm
    cases z with
    | eof =>
      obtain ⟨q, s', -, hs', hon⟩ := h.on hs (List.ne_nil_of_mem hr)
      obtain ⟨a, ha, hd⟩ := ht.described hs'
      rw [hon] at hr
      obtain ⟨n, hn, -⟩ := Action.mem_map_shift.1 hr
      obtain ⟨⟨y, -, hye⟩, -⟩ := ht.complete.of_lookup ha (hd.lookup_of_shift rfl hn)
      obtain ⟨ss, hss⟩ := Item.next?_eq_some.1 hye
      obtain ⟨w, p, hp, hx⟩ := Item.exists_production_of_terminal hss rfl
      exact (wf.declares hp _ hx).elim
    | terminal t => exact ⟨.terminal t, s, r, hs, hr⟩
    | nonterminal w => cases hterm
  · exact ⟨.nonterminal v, s, hs, hv⟩

omit wf in
/-- What leads to a unit state stands in a production of one symbol of the variable that the state
makes. -/
theorem exists_production_of_unit {p u v : Nat} {z : Symbol} {x : State}
    (hl : Leads merged p z u) (hx : merged[u]? = some x)
    (hunit : unit? g x = some (.nonterminal v)) :
    ∃ q a u' m L, group q = p ∧ auto[q]? = some a ∧ a.successors.lookup z = some u' ∧
      group u' = u ∧ m < (g.productionsOf (.nonterminal v)).length ∧
      Item.after g ⟨.nonterminal v, m, 0⟩ = [z] ∧ (⟨.nonterminal v, m, 0⟩, L) ∈ a.closure := by
  obtain ⟨q, a, u', hq, ha, hlook, hu⟩ := h.lookup ht hl
  obtain ⟨-, b, hb, hkernel⟩ := ht.complete.of_lookup ha hlook
  obtain ⟨i, r, hr, ⟨hone, -, -⟩, hrv⟩ := (isUnit_of_unit? hunit).some
  obtain ⟨v', m, hm, ⟨q', c, L, hq', hc, hi⟩, hrv', hrc⟩ :=
    (h.annotated ht).reduce hx (TokenSet.isTerminal_symbolAt i) hr
  rw [hrv, Symbol.nonterminal.injEq] at hrv'
  subst hrv'
  rw [hone] at hrc
  -- The complete item is in the kernel that the symbol leads to, so it was before the symbol.
  rcases Merge.dot_eq_zero_or_mem_core ht hc hi with ⟨hdot, -⟩ | hcore
  · simp only at hdot
    omega
  · rw [h.mem_core ht hc hb (hq'.trans hu.symm), hkernel] at hcore
    obtain ⟨⟨j, M⟩, hj, hjeq⟩ := List.mem_map.1 hcore
    obtain ⟨i', hi', hnext, rfl⟩ := ItemSet.mem_goto.1 hj
    have hzero : Item.advance ⟨.nonterminal v, m, 0⟩ =
        ⟨.nonterminal v, m, (g.productionsOf (.nonterminal v))[m].steps.length⟩ := by
      rw [← hrc]
      rfl
    obtain rfl := Item.advance_injective (hjeq.trans hzero.symm)
    refine ⟨q, a, u', m, M, hq, ha, hlook, hu, hm, ?_, hi'⟩
    obtain ⟨ss, hss⟩ := Item.next?_eq_some.1 hnext
    have hlen : ss = [] := by
      have hlen := congrArg List.length hss
      rw [Item.after_start hm, Production.symbols, List.length_map, ← hrc] at hlen
      simpa using hlen.symm
    rw [hss, hlen]

/-- No extra is lost when every variable derives a text. -/
theorem keepsExtras_of_productive (hg : g.Productive) : KeepsExtras g merged := by
  refine keepsExtras_of_passes (h.targeted ht.targeted) fun {p u n e s x y} hs hu hp hx hy he => ?_
  obtain ⟨hextra, -⟩ := h.extra ht rfl hx he
  obtain ⟨x', v, hx', hunit, hn⟩ := hp
  rw [hx] at hx'
  cases hx'
  obtain ⟨z, hl⟩ := exists_leads wf ht h hs hu
  obtain ⟨q, a, u', m, L, rfl, ha, hlook, rfl, hm, hafter, hL⟩ :=
    exists_production_of_unit ht h hl hx hunit
  -- The variable leads somewhere from the same state.
  obtain ⟨t, hterm, hLt⟩ := ht.exists_contains wf hg ha hL
  obtain ⟨i, t', ss, hi, hss⟩ :=
    (ht.allows wf hg ha hL hterm hLt).exists_next (ht.complete.kernel ha).moved
  obtain ⟨M, hM, -⟩ := Analysis.mem_closure_of_allows wf ((ht.complete.kernel ha).within wf) hi
  rw [← ht.complete.closure ha] at hM
  obtain ⟨n', hn'⟩ := ht.complete.exists_lookup ha hM (Item.next?_eq_some.2 ⟨ss, hss⟩)
  obtain ⟨s', hs', hd⟩ := ht.describes ha
  have hgoto : s'.goto? v = some n' := by
    rw [hd.goto?_eq, if_pos (FlatGrammar.lt_of_productionsOf hm), hn']
  obtain ⟨s'', hs'', -, hgotos⟩ := h.state hs'
  rw [hs] at hs''
  cases hs''
  rw [hgotos v n' hgoto, Option.some.injEq] at hn
  subst hn
  -- Both states have the entries of these members.
  obtain ⟨-, b, hb, -⟩ := ht.complete.of_lookup ha hlook
  obtain ⟨-, c, hc, -⟩ := ht.complete.of_lookup ha hn'
  obtain ⟨sb, hsb, hdb⟩ := ht.describes hb
  obtain ⟨sc, hsc, hdc⟩ := ht.describes hc
  have hentry : ∀ {q : Nat} {a : Automaton.State} {s m : State}, states[q]? = some s →
      Canonical.Describes g q a s → merged[group q]? = some m →
      (.shiftExtra ∈ m.on (.terminal e) ↔ .shiftExtra ∈ s.on (.terminal e)) := by
    intro q a s m hs hd hm
    obtain ⟨m', hm', hon, -⟩ := h.state hs
    rw [hm] at hm'
    cases hm'
    rw [hon _ (hd.on_ne_nil_of_extra rfl (wf.position_lt hextra) hextra)]
    exact Action.mem_map_of_not_shift rfl
  rw [hentry hsb hdb hx] at he
  rw [hentry hsc hdc hy]
  have hnb := ht.not_wants wf hb hdb hextra he
  have hnc : ¬ Canonical.Wants g c (.terminal e) := fun hw =>
    hnb (ht.wants_back wf hg ha hm hafter hlook hb hn' hc hw)
  rw [ht.on_eq_shiftExtra wf hc hdc hextra hnc]
  exact List.mem_singleton_self _

end Bypass

end GrammarTables
