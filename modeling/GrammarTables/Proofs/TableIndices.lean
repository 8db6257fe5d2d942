import GrammarTables.Proofs.Declarations
import GrammarTables.Proofs.LexSets
import GrammarTables.Proofs.ReadBack
import Mathlib.Order.Bounds.Basic

/-!
# Tables are indexed

Each number in a table is that of something which is there: targets are states behind the error
state and the start state, and reductions are those of productions. That holds of the canonical
table, where a target has items with the dot behind a symbol. Merging states keeps it as no such
state is merged into the first two, and the steps behind it only rename targets.
-/

namespace GrammarTables

namespace FieldLayout

variable {g : FlatGrammar} {exposed : Array (List String)} {layout : FieldLayout} {n : Nat}

/-- All places are below a number. -/
def Below (n : Nat) (layout : FieldLayout) : Prop :=
  ∀ e ∈ layout, ∀ place ∈ e.2, place.index < n

theorem Below.add (h : layout.Below n) (field : String) {place : FieldPlace}
    (hp : place.index < n) : (layout.add field place).Below n := by
  unfold FieldLayout.add
  induction layout with
  | nil => simpa [Ordered.update, Below] using hp
  | cons e layout ih =>
    obtain ⟨he, hrest⟩ := List.forall_mem_cons.1 h
    rw [Ordered.update]
    split
    · exact List.forall_mem_cons.2 ⟨by simpa using hp, h⟩
    · refine List.forall_mem_cons.2 ⟨fun x hx => ?_, hrest⟩
      rcases List.mem_append.1 hx with hx | hx
      · exact he x hx
      · cases List.mem_singleton.1 hx
        exact hp
    · exact List.forall_mem_cons.2 ⟨he, ih hrest⟩

theorem Below.addStep (h : layout.Below n) {step : Step × Nat} (hstep : step.2 < n) :
    (addStep g exposed layout step).Below n := by
  unfold FieldLayout.addStep
  refine List.foldlRecOn _ _ ?_ fun layout h field _ => h.add field hstep
  split
  · exact h.add _ hstep
  · exact h

/-- The places in a layout are those of the production's steps. -/
theorem below_ofProduction (p : Production) : (ofProduction g exposed p).Below p.steps.length := by
  refine List.foldlRecOn _ _ (by simp [Below]) fun layout h step hstep => h.addStep ?_
  exact (List.getElem?_eq_some_iff.1 (List.mem_zipIdx_iff_getElem?.1 hstep)).1

end FieldLayout

/-- A reduction is that of a production, and its number is that of the production's layout. -/
def Reduction.Stands (g : FlatGrammar) (layouts : List FieldLayout) (r : Reduction) : Prop :=
  ∃ v < g.vars.size, ∃ p ∈ g.productionsOf (.nonterminal v), r.symbol = .nonterminal v ∧
    r.children = p.steps.length ∧ r.dynamic = p.dynamic ∧
    layouts[r.production]? = some (FieldLayout.ofProduction g (FieldLayout.exposed g) p)

/-- The reduction of an item is that of its production, with the number of its layout. -/
structure Item.Reduces (g : FlatGrammar) (layouts : List FieldLayout) (i : Item) (r : Reduction) :
    Prop where
  symbol : ∃ v, i.head = .nonterminal v ∧ r.symbol = .nonterminal v
  children : r.children = (i.productionIn g).steps.length
  dynamic : r.dynamic = (i.productionIn g).dynamic
  layout : layouts[r.production]? =
    some (FieldLayout.ofProduction g (FieldLayout.exposed g) (i.productionIn g))

/-- All numbers in a table are those of something which is there. -/
structure ParseTable.Indexed (g : FlatGrammar) (t : ParseTable) : Prop where
  two_le : 2 ≤ t.states.size
  sized : ∀ s ∈ t.states, Merge.Sized g.tokenCount g.vars.size s
  /-- Nothing leads to the error state or back to the start state. -/
  targets : ∀ s ∈ t.states, ∀ n ∈ s.successors, 2 ≤ n ∧ n < t.states.size
  reductions : ∀ s ∈ t.states, ∀ x r, .reduce r ∈ s.on x →
    r.Stands g t.layouts ∧ r.children ≤ t.maxChildren
  extras : ∀ s ∈ t.states, ∀ x ∈ g.extras, s.on x ≠ []
  layouts : ∀ layout ∈ t.layouts, layout.Below t.maxChildren

namespace Canonical

variable {g : FlatGrammar} {v n : Nat}

theorem table_of_canonical {table : ParseTable} {conflicts : List Conflict}
    (h : ParseTable.canonical g = .ok (table, conflicts)) :
    table.states = states g ∧ table.layouts = numbered (layouts g) (allReduced g) ∧
      table.maxChildren =
        (allReduced g).foldl (fun n i => max n (i.productionIn g).steps.length) 0 := by
  rw [(eq_of_canonical h).1]
  exact ⟨rfl, rfl, rfl⟩

theorem mem_allReduced {q : Nat} {a : Automaton.State} {i : Item} {L : TokenSet}
    (ha : (Automaton.states (Analysis.ofGrammar g))[q]? = some a) (hi : (i, L) ∈ a.closure)
    (hc : i.after g = []) (hs : i.isStart = false) : i ∈ allReduced g := by
  refine List.mem_flatMap.2 ⟨_, List.mem_map_of_mem (Array.mem_toList_iff.2
    (Array.mem_of_getElem? ha)), List.mem_filter.2 ⟨?_, by simp [hs]⟩⟩
  exact List.mem_map.2 ⟨(i, L), mem_completed.2 ⟨hi, hc⟩, rfl⟩

theorem le_maxChildren {i : Item} (hi : i ∈ allReduced g) : (i.productionIn g).steps.length ≤
    (allReduced g).foldl (fun n i => max n (i.productionIn g).steps.length) 0 := by
  have key : ∀ (items : List Item) (n : Nat),
      n ≤ items.foldl (fun n i => max n (i.productionIn g).steps.length) n ∧
      ∀ i ∈ items, (i.productionIn g).steps.length ≤
        items.foldl (fun n i => max n (i.productionIn g).steps.length) n := by
    intro items
    induction items with
    | nil => simp
    | cons i items ih =>
      intro n
      obtain ⟨hn, hitems⟩ := ih (max n (i.productionIn g).steps.length)
      exact ⟨(Nat.le_max_left ..).trans hn,
        List.forall_mem_cons.2 ⟨(Nat.le_max_right ..).trans hn, hitems⟩⟩
  exact (key (allReduced g) 0).2 i hi

theorem lookup_layouts (d : Nat) (hn : n < (g.productionsOf (.nonterminal v)).length) :
    lookup (layouts g) [] ⟨.nonterminal v, n, d⟩ = FieldLayout.ofProduction g
      (FieldLayout.exposed g) (g.productionsOf (.nonterminal v))[n] := by
  have hv := FlatGrammar.lt_of_productionsOf hn
  simp only [FlatGrammar.productionsOf_eq_getElem hv] at hn ⊢
  simp [lookup, layouts, hv, hn]

/-- What is looked up for an item is nothing or the layout of its production. -/
theorem lookup_layouts_cases (g : FlatGrammar) (i : Item) : lookup (layouts g) [] i = [] ∨
    lookup (layouts g) [] i =
      FieldLayout.ofProduction g (FieldLayout.exposed g) (i.productionIn g) := by
  obtain ⟨head, n, d⟩ := i
  cases head with
  | start => exact .inl rfl
  | nonterminal v =>
    by_cases hn : n < (g.productionsOf (.nonterminal v)).length
    · exact .inr (by rw [lookup_layouts d hn, Item.productionIn_nonterminal hn])
    · exact .inl (lookup_layouts_of_le d (Nat.le_of_not_lt hn))

/-- A layout with a number is that of nothing or of a production that is reduced. -/
theorem mem_numbered {layout : FieldLayout} (h : layout ∈ numbered (layouts g) (allReduced g)) :
    layout = [] ∨ ∃ i ∈ allReduced g,
      layout = FieldLayout.ofProduction g (FieldLayout.exposed g) (i.productionIn g) := by
  rcases List.mem_cons.1 (List.mem_eraseDups.1 h) with rfl | hl
  · exact .inl rfl
  · obtain ⟨i, hi, rfl⟩ := List.mem_map.1 hl
    exact (lookup_layouts_cases g i).imp id fun heq => ⟨i, hi, heq⟩

theorem below_numbered : ∀ layout ∈ numbered (layouts g) (allReduced g), layout.Below
    ((allReduced g).foldl (fun n i => max n (i.productionIn g).steps.length) 0) := by
  intro layout hl
  obtain rfl | ⟨i, hi, rfl⟩ := mem_numbered hl
  · simp [FieldLayout.Below]
  · exact fun e he place hp => Nat.lt_of_lt_of_le
      (FieldLayout.below_ofProduction (i.productionIn g) e he place hp) (le_maxChildren hi)

/-- The reduction of an item of a variable, with the number of its layout. -/
theorem reductionOf_mk (d : Nat) (hn : n < (g.productionsOf (.nonterminal v)).length) :
    reductionOf g ⟨.nonterminal v, n, d⟩ = .reduce
      { symbol := .nonterminal v
        children := (g.productionsOf (.nonterminal v))[n].steps.length
        dynamic := (g.productionsOf (.nonterminal v))[n].dynamic
        production := (numbered (layouts g) (allReduced g)).idxOf (FieldLayout.ofProduction g
          (FieldLayout.exposed g) (g.productionsOf (.nonterminal v))[n]) } := by
  have hv := FlatGrammar.lt_of_productionsOf hn
  simp only [FlatGrammar.productionsOf_eq_getElem hv] at hn ⊢
  simp [reductionOf, lookup, reductions, layouts, allReduced, hv, hn]

/-- The reduction of a complete item has the number of its production's layout. -/
theorem reduces_of_mem {d : Nat} (hi : ⟨.nonterminal v, n, d⟩ ∈ allReduced g)
    (hn : n < (g.productionsOf (.nonterminal v)).length) : ∃ r,
      reductionOf g ⟨.nonterminal v, n, d⟩ = .reduce r ∧
      Item.Reduces g (numbered (layouts g) (allReduced g)) ⟨.nonterminal v, n, d⟩ r := by
  refine ⟨_, reductionOf_mk d hn, ⟨v, rfl, rfl⟩, ?_, ?_, ?_⟩ <;>
    rw [Item.productionIn_nonterminal hn]
  refine List.getElem?_idxOf (List.mem_eraseDups.2 (List.mem_cons_of_mem _ ?_))
  rw [← lookup_layouts d hn]
  exact List.mem_map_of_mem hi

theorem Describes.stands {q : Nat} {a : Automaton.State} {s : State} (h : Describes g q a s)
    (ha : (Automaton.states (Analysis.ofGrammar g))[q]? = some a) {x : Symbol} {r : Reduction}
    (hr : .reduce r ∈ s.on x) : r.Stands g (numbered (layouts g) (allReduced g)) ∧
      r.children ≤ (allReduced g).foldl (fun n i => max n (i.productionIn g).steps.length) 0 := by
  rw [← Bypass.on_symbolAt_position] at hr
  obtain ⟨v, n, d, hn, L, hi, hc, heq⟩ := h.exists_item (TokenSet.isTerminal_symbolAt _) hr
  have hmem := mem_allReduced ha hi hc rfl
  obtain ⟨r', heq', ⟨w, ⟨⟩, hsymbol⟩, hchildren, hdynamic, hlayout⟩ := reduces_of_mem hmem hn
  cases heq'.symm.trans heq
  have hle := hchildren ▸ le_maxChildren hmem
  rw [Item.productionIn_nonterminal hn] at hchildren hdynamic hlayout
  exact ⟨⟨v, FlatGrammar.lt_of_productionsOf hn, _, List.getElem_mem hn, hsymbol, hchildren,
    hdynamic, hlayout⟩, hle⟩

variable {auto : Array Automaton.State} {states : Array State} {q : Nat} {s : State}

theorem Table.exists_lookup (h : Table g auto states) (hs : states[q]? = some s) {n : Nat}
    (hn : n ∈ s.successors) : ∃ a x, auto[q]? = some a ∧ a.successors.lookup x = some n := by
  obtain ⟨a, ha, hd⟩ := h.described hs
  rcases State.mem_successors.1 hn with ⟨i, r, hr⟩ | ⟨v, hv⟩
  · exact ⟨a, _, ha, hd.lookup_of_shift (TokenSet.isTerminal_symbolAt i) hr⟩
  · rw [hd.goto?_eq] at hv
    split at hv
    · exact ⟨a, _, ha, hv⟩
    · cases hv

/-- A target has an item with its dot behind a symbol. The error state has no item to start with,
and the start state one with the dot in front. -/
theorem Table.core_ne (h : Table g auto states) (hs : states[q]? = some s) {n k : Nat}
    (hn : n ∈ s.successors) (hk : k < 2) {t u : State} (ht : states[n]? = some t)
    (hu : states[k]? = some u) : t.core ≠ u.core := by
  intro hcore
  obtain ⟨a, x, ha, hx⟩ := h.exists_lookup hs hn
  obtain ⟨⟨⟨i, L⟩, hi, hnext⟩, b, hb, hkernel⟩ := h.complete.of_lookup ha hx
  have hmem : i.advance ∈ b.kernel.core := by
    rw [hkernel]
    exact List.mem_map.2 ⟨(i.advance, L), ItemSet.mem_goto.2 ⟨i, hi, hnext, rfl⟩, rfl⟩
  obtain rfl | rfl : k = 0 ∨ k = 1 := by omega
  · obtain ⟨c, hc, hnil⟩ := h.complete.error
    rw [h.core hb hc ht hu hcore, hnil] at hmem
    cases hmem
  · obtain ⟨c, hc, hinitial⟩ := h.complete.start
    rw [h.core hb hc ht hu hcore, hinitial] at hmem
    have hdot := congrArg Item.dot (List.mem_singleton.1 hmem)
    simp [Item.advance, Item.initial] at hdot

theorem Table.two_le (h : Table g auto states) (hs : states[q]? = some s) {n : Nat}
    (hn : n ∈ s.successors) : 2 ≤ n := by
  by_contra hlt
  have ht := Array.getElem?_eq_getElem (h.targeted hs n hn)
  exact h.core_ne hs hn (Nat.lt_of_not_le hlt) ht ht rfl

theorem Describes.sized {a : Automaton.State} (h : Describes g q a s) :
    Merge.Sized g.tokenCount g.vars.size s := by
  obtain ⟨core, rfl⟩ := h.built
  constructor
  · simp [state, Analysis.ofGrammar, FlatGrammar.terminals, FlatGrammar.tokenCount, Nat.add_comm]
  · simp [state, Analysis.ofGrammar, FlatGrammar.nonterminals]

/-- The canonical table is indexed. -/
theorem indexed (wf : g.WellFormed) {table : ParseTable} {conflicts : List Conflict}
    (h : ParseTable.canonical g = .ok (table, conflicts)) : table.Indexed g := by
  have ht := table_states wf
  have hdescribed : ∀ s ∈ Canonical.states g, ∃ q a, (Canonical.states g)[q]? = some s ∧
      (Automaton.states (Analysis.ofGrammar g))[q]? = some a ∧ Describes g q a s := by
    intro s hs
    obtain ⟨q, hq⟩ := Array.mem_iff_getElem?.1 hs
    obtain ⟨a, ha, hd⟩ := ht.described hq
    exact ⟨q, a, hq, ha, hd⟩
  obtain ⟨states, layouts, maxChildren⟩ := table
  obtain ⟨rfl, rfl, rfl⟩ := table_of_canonical h
  refine ⟨?_, fun s hs => ?_, fun s hs n hn => ?_, fun s hs x r hr => ?_, fun s hs x hx => ?_,
    below_numbered⟩
  · obtain ⟨a, ha, -⟩ := ht.complete.start
    obtain ⟨s, hs, -⟩ := ht.describes ha
    exact (Array.getElem?_eq_some_iff.1 hs).1
  · obtain ⟨q, a, -, -, hd⟩ := hdescribed s hs
    exact hd.sized
  · obtain ⟨q, a, hq, -, -⟩ := hdescribed s hs
    exact ⟨ht.two_le hq hn, ht.targeted hq n hn⟩
  · obtain ⟨q, a, -, ha, hd⟩ := hdescribed s hs
    exact hd.stands ha hr
  · obtain ⟨q, a, -, -, hd⟩ := hdescribed s hs
    obtain ⟨i, hi, rfl⟩ := wf.extras x hx
    have he : g.isExtra (.terminal i) = true := List.contains_iff_mem.2 hx
    exact hd.on_ne_nil_of_extra rfl (wf.position_lt he) he

end Canonical

namespace Merge

variable {g : FlatGrammar} {states merged : Array State} {group : Nat → Nat}

theorem sized_states (h : Mergeable states) {a v : Nat} (hs : ∀ s ∈ states, Sized a v s) :
    ∀ m ∈ Merge.states g states, Sized a v m := by
  intro m hm
  have hg := grouped_groups g h
  obtain ⟨k, hk⟩ := Array.mem_iff_getElem?.1 hm
  rw [getElem?_states] at hk
  obtain ⟨G, hG, rfl⟩ := Option.map_eq_some_iff.1 hk
  have hsized := sized_union (sized_members fun hq => hs _ (Array.mem_of_getElem? hq))
    (hg.partition.members_ne_nil (List.mem_of_getElem? hG))
  simpa [Sized, State.mapTargets] using hsized

theorem group_error (h : Mergeable states) : Merge.group g states 0 = 0 := by
  obtain ⟨s, -, hs, -⟩ := h.start
  exact groupAt_eq_self (grouped_groups g h).partition (sorted_groups g states)
    (Array.getElem?_eq_some_iff.1 hs).1 (by simp) (by simp)

end Merge

/-- No state gets the number of one of the first two when unused states are left out. -/
theorem Bypass.two_le_renumbered {states : Array State} {n : Nat} (hn : 2 ≤ n)
    (hlt : n < states.size) : 2 ≤ Bypass.renumbered states n := by
  have hsize : 2 ≤ states.size := by omega
  have hused : ∀ i ≤ 1, (used states).toList[i]? = some true := fun i hi => by
    rw [Array.getElem?_toList]
    exact live_of_le hsize hi
  have h0 := hused 0 (Nat.zero_le 1)
  have h1 := hused 1 (Nat.le_refl 1)
  rw [renumbered_eq hlt]
  obtain ⟨n, rfl⟩ := Nat.exists_eq_add_of_le' hn
  match hu : (used states).toList with
  | [] => simp [hu] at h0
  | [_] => simp [hu] at h1
  | u :: v :: us =>
    obtain rfl : u = true := by simpa [hu] using h0
    obtain rfl : v = true := by simpa [hu] using h1
    simp

/-- No state gets the number of one of the first two when larger states come first. -/
theorem StateOrder.two_le_renumbered {states : Array State} {n : Nat} (hn : 2 ≤ n)
    (hlt : n < states.size) : 2 ≤ StateOrder.renumbered states n := by
  by_contra! hlow
  have hself := renumbered_of_lt (show 2 ≤ states.size by omega) hlow
  have h := getElem?_order_renumbered (show renumbered states n < states.size by omega)
  rw [hself, getElem?_order_renumbered hlt] at h
  exact absurd (Option.some.inj h ▸ hlow) (Nat.not_lt.2 hn)

namespace ParseTable.Indexed

variable {g : FlatGrammar} {t : ParseTable}

theorem targeted (h : t.Indexed g) : Targeted t.states :=
  fun _ s hs n hn => (h.targets s (Array.mem_of_getElem? hs) n hn).2

/-- Merging states keeps a table indexed if no target is like one of the first two states. -/
theorem merge (h : t.Indexed g) (hm : Merge.Mergeable t.states)
    (hcore : ∀ {q n k : Nat} {s u v : State}, t.states[q]? = some s → n ∈ s.successors → k < 2 →
      t.states[n]? = some u → t.states[k]? = some v → u.core ≠ v.core) :
    ParseTable.Indexed g { t with states := Merge.states g t.states } := by
  have hmerges := Merge.merges g hm
  have hgroup : ∀ k < 2, Merge.group g t.states k = k := by
    intro k hk
    obtain rfl | rfl : k = 0 ∨ k = 1 := by omega
    · exact Merge.group_error hm
    · exact hmerges.start
  refine ⟨?_, Merge.sized_states hm h.sized, fun m hmem n hn => ?_, fun m hmem x r hr => ?_,
    fun m hmem x hx => ?_, h.layouts⟩
  · have hlt := hmerges.lt (q := 1) h.two_le
    rwa [hmerges.start] at hlt
  · obtain ⟨k, hk⟩ := Array.mem_iff_getElem?.1 hmem
    obtain ⟨q, s, n', hs, hn', rfl⟩ := hmerges.exists_successor hk hn
    have hlt := h.targeted hs n' hn'
    refine ⟨?_, hmerges.lt hlt⟩
    by_contra hge
    have htwo := Nat.lt_of_not_le hge
    have hu := Array.getElem?_eq_getElem hlt
    have hv := Array.getElem?_eq_getElem (Nat.lt_of_lt_of_le htwo h.two_le)
    exact hcore hs hn' htwo hu hv (hmerges.core hu hv (hgroup _ htwo).symm)
  · obtain ⟨k, hk⟩ := Array.mem_iff_getElem?.1 hmem
    obtain ⟨q, s, -, hs, hon⟩ := hmerges.on hk (List.ne_nil_of_mem hr)
    rw [hon, Action.mem_map_of_not_shift rfl] at hr
    exact h.reductions s (Array.mem_of_getElem? hs) x r hr
  · obtain ⟨k, hk⟩ := Array.mem_iff_getElem?.1 hmem
    obtain ⟨q, s, rfl, hs⟩ := Merge.exists_member hm hk
    have hne := h.extras s (Array.mem_of_getElem? hs) x hx
    obtain ⟨m', hm', hon, -⟩ := hmerges.state hs
    rw [hk] at hm'
    cases hm'
    rw [hon _ hne]
    simpa using hne

/-- Renaming targets keeps a table indexed. -/
theorem rename (h : t.Indexed g) {states : Array State} (htwo : 2 ≤ states.size)
    (hs : ∀ s' ∈ states, ∃ s ∈ t.states, ∃ f, s' = s.mapTargets f ∧
      ∀ n ∈ s.successors, 2 ≤ f n ∧ f n < states.size) :
    ParseTable.Indexed g { t with states } := by
  refine ⟨htwo, fun s' hs' => ?_, fun s' hs' n hn => ?_, fun s' hs' x r hr => ?_,
    fun s' hs' x hx => ?_, h.layouts⟩
  all_goals obtain ⟨s, hmem, f, rfl, hf⟩ := hs s' hs'
  · simpa [Merge.Sized, State.mapTargets] using h.sized s hmem
  · obtain ⟨m, hm, rfl⟩ := State.mem_successors_mapTargets hn
    exact hf m hm
  · rw [State.mem_mapTargets rfl] at hr
    exact h.reductions s hmem x r hr
  · rw [State.on_mapTargets]
    simpa using h.extras s hmem x hx

theorem redirect (h : t.Indexed g) :
    ParseTable.Indexed g { t with states := Bypass.redirect g t.states } := by
  have hsize : (Bypass.redirect g t.states).size = t.states.size := Bypass.size_redirect
  refine h.rename (hsize.symm ▸ h.two_le) fun s' hs' => ?_
  obtain ⟨q, hq⟩ := Array.mem_iff_getElem?.1 hs'
  obtain ⟨s, f, hs, rfl, hchain⟩ := Bypass.detours_redirect g t.states hq
  have hmem := Array.mem_of_getElem? hs
  refine ⟨s, hmem, f, rfl, fun n hn => ?_⟩
  rw [hsize]
  exact h.targets s hmem _ ((hchain n).mem_successors hn)

theorem prune (h : t.Indexed g) :
    ParseTable.Indexed g { t with states := Bypass.prune t.states } := by
  refine h.rename (Bypass.two_le_size_prune h.targeted h.two_le) fun s' hs' => ?_
  obtain ⟨⟨s, b⟩, hmem, rfl⟩ := Array.mem_map.1 hs'
  have hs : s ∈ t.states := (Array.of_mem_zip (Array.mem_filter.1 hmem).1).1
  refine ⟨s, hs, Bypass.renumbered t.states, rfl, fun n hn => ?_⟩
  obtain ⟨htwo, hlt⟩ := h.targets s hs n hn
  obtain ⟨q, hq⟩ := Array.mem_iff_getElem?.1 hs
  obtain ⟨_, -, hn', -⟩ := Bypass.renames_prune h.targeted n
    (Bypass.live_of_mem_successors h.targeted hq hn)
  exact ⟨Bypass.two_le_renumbered htwo hlt, (Array.getElem?_eq_some_iff.1 hn').1⟩

theorem order (h : t.Indexed g) :
    ParseTable.Indexed g { t with states := StateOrder.states t.states } := by
  have hlt : ∀ n < t.states.size,
      StateOrder.renumbered t.states n < (StateOrder.states t.states).size := by
    intro n hn
    obtain ⟨_, -, hn', -⟩ := StateOrder.renames h.targeted n hn
    exact (Array.getElem?_eq_some_iff.1 hn').1
  refine h.rename ?_ fun s' hs' => ?_
  · have hstart := hlt 1 h.two_le
    have heq : StateOrder.renumbered t.states 1 = 1 := StateOrder.renumbered_start h.two_le
    rwa [heq] at hstart
  · obtain ⟨i, -, hi⟩ := List.mem_filterMap.1 (List.mem_toArray.1 hs')
    obtain ⟨s, hs, rfl⟩ := Option.map_eq_some_iff.1 hi
    have hmem := Array.mem_of_getElem? hs
    refine ⟨s, hmem, StateOrder.renumbered t.states, rfl, fun n hn => ?_⟩
    obtain ⟨htwo, hn⟩ := h.targets s hmem n hn
    exact ⟨StateOrder.two_le_renumbered htwo hn, hlt n hn⟩

/-- The symbol of an entry is a terminal that the grammar has. -/
theorem mem_terminals (h : t.Indexed g) {s : State} (hs : s ∈ t.states) {x : Symbol}
    {actions : List Action} (hx : (x, actions) ∈ s.entries) : actions ≠ [] ∧ x ∈ g.terminals := by
  obtain ⟨i, hi, hne, rfl⟩ := State.mem_entries.1 hx
  have hlt := (h.sized s hs).1 ▸ (Array.getElem?_eq_some_iff.1 hi).1
  have hget := FlatGrammar.getElem?_terminals g (TokenSet.isTerminal_symbolAt i)
  rw [TokenSet.position_symbolAt, if_pos hlt] at hget
  exact ⟨hne, List.mem_of_getElem? hget⟩

/-- The variable of a target is one that the grammar has. -/
theorem lt_of_mem_targets (h : t.Indexed g) {s : State} (hs : s ∈ t.states) {v n : Nat}
    (hv : (v, n) ∈ s.targets) : v < g.vars.size ∧ 2 ≤ n ∧ n < t.states.size := by
  have hgoto := State.mem_targets.1 hv
  obtain ⟨hlt, -⟩ := Array.getElem?_eq_some_iff.1 (Option.join_eq_some_iff.1 hgoto)
  exact ⟨(h.sized s hs).2 ▸ hlt, h.targets s hs n (State.mem_successors_of_goto? hgoto)⟩

end ParseTable.Indexed

/-- A state of the automaton wants an entry for a terminal: an item goes on with it, or an item is
complete before it. -/
def Automaton.State.Wants (g : FlatGrammar) (a : Automaton.State) (x : Symbol) : Prop :=
  ∃ y ∈ a.closure, y.1.next? g = some x ∨
    y.1.after g = [] ∧ ∃ z, ItemSet.Gives (Canonical.reductionOf g) x y z

/-- All items of an automaton are those of productions, and all symbols lead to states. -/
structure Automaton.Indexed (g : FlatGrammar) (auto : Array Automaton.State) : Prop where
  items : ∀ a ∈ auto, ∀ y ∈ a.closure, y.1.Belongs g
  successors : ∀ a ∈ auto, ∀ y ∈ a.successors, y.2 < auto.size

namespace Canonical

variable {g : FlatGrammar} {auto : Array Automaton.State} {states : Array State} {q : Nat}
  {a : Automaton.State} {s : State}

theorem Table.indexed_automaton (h : Table g auto states) : Automaton.Indexed g auto := by
  constructor
  all_goals
    intro a ha y hy
    obtain ⟨q, hq⟩ := Array.mem_iff_getElem?.1 ha
  · obtain ⟨s, -, hd⟩ := h.describes hq
    exact hd.belongs y hy
  · obtain ⟨i, hi⟩ := List.mem_iff_getElem?.1 hy
    have hall := h.complete.successors hq
    have hlt : i < (a.closure.successors g).length :=
      hall.length_eq ▸ (List.getElem?_eq_some_iff.1 hi).1
    obtain ⟨-, t, ht, -⟩ := Numbering.forall₂_getElem? hall (List.getElem?_eq_getElem hlt) hi
    exact (Array.getElem?_eq_some_iff.1 ht).1

/-- Settling conflicts leaves an action in every entry. -/
theorem Table.on_ne_nil (h : Table g auto states) (wf : g.WellFormed) (ha : auto[q]? = some a)
    (hs : states[q]? = some s) {x : Symbol} (hx : x.isTerminal = true) (hw : a.Wants g x) :
    s.on x ≠ [] := by
  obtain ⟨a', ha', hd⟩ := h.described hs
  obtain rfl : a = a' := Option.some.inj (ha.symm.trans ha')
  obtain ⟨⟨i, L⟩, hy, hnext | ⟨hc, z, hz⟩⟩ := hw
  · obtain ⟨n, hn⟩ := h.complete.exists_lookup ha hy hnext
    exact hd.on_ne_nil_of_lookup hx (Item.position_lt_of_next? wf hnext hx) hn
  · have hne := hd.actionsOf_ne_nil (.inr ⟨(i, L), hy, hc, z, hz⟩)
    have hlt : TokenSet.position x < g.tokenCount := by
      unfold ItemSet.Gives at hz
      split at hz
      · rw [hz.1]
        simp [TokenSet.position, FlatGrammar.tokenCount]
      · exact (hd.within _ hy).lt hz.1
    rwa [hd.on_of_ne_nil hx hlt hne]

end Canonical

/-- All numbers in the tables of a grammar are those of something which is there. -/
structure Tables.Indexed (g : FlatGrammar) (t : Tables) : Prop where
  table : t.table.Indexed g
  entries : ∀ s ∈ t.table.states, ∀ e ∈ s.entries, e.2 ≠ [] ∧ e.1 ∈ g.terminals
  targets : ∀ s ∈ t.table.states, ∀ e ∈ s.targets,
    e.1 < g.vars.size ∧ 2 ≤ e.2 ∧ e.2 < t.table.states.size
  largeCount : t.largeCount ≤ t.table.states.size
  reusable : t.reusable.length = t.table.states.size
  lexStates : List.Forall₂ (fun n s => t.lexSets[n]? = some (lexSet g s)) t.lexStates
    t.table.states.toList
  primary : List.Forall₂ (fun p s =>
      IsLeast {q | ∃ u, t.table.states[q]? = some u ∧ u.core = s.core} p)
    t.primary t.table.states.toList

theorem isLeast_idxOf {α : Type} [BEq α] [LawfulBEq α] {l : List α} {a : α} (h : a ∈ l) :
    IsLeast {i | l[i]? = some a} (l.idxOf a) := by
  refine ⟨List.getElem?_idxOf h, fun i hi => ?_⟩
  by_contra hlt
  obtain ⟨hi', heq⟩ := List.getElem?_eq_some_iff.1 hi
  have := List.not_of_lt_findIdx (Nat.lt_of_not_le hlt)
  simp [heq] at this

theorem StateOrder.forall₂_primary (states : Array State) : List.Forall₂ (fun p s =>
      IsLeast {q | ∃ u, states[q]? = some u ∧ u.core = s.core} p)
    (primary states) states.toList := by
  rw [primary, List.map_map, List.forall₂_map_left_iff, List.forall₂_same]
  intro s hs
  have := isLeast_idxOf (List.mem_map_of_mem (f := State.core) hs)
  simpa [List.getElem?_map, Option.map_eq_some_iff] using this

/-- The canonical table has what its automaton wants, and each step from it to the final table gives
a table that is indexed. -/
structure ParseTable.Staged (g : FlatGrammar) (t : ParseTable) : Prop where
  automaton : Automaton.Indexed g (Automaton.states (Analysis.ofGrammar g))
  filled : ∀ {q : Nat} {a : Automaton.State} {s : State},
    (Automaton.states (Analysis.ofGrammar g))[q]? = some a → t.states[q]? = some s →
    ∀ {x : Symbol}, x.isTerminal = true → a.Wants g x → s.on x ≠ []
  canonical : t.Indexed g
  merged : ParseTable.Indexed g { t with states := Merge.states g t.states }
  redirected : ParseTable.Indexed g
    { t with states := Bypass.redirect g (Merge.states g t.states) }
  pruned : ParseTable.Indexed g { t with states := Bypass.states g (Merge.states g t.states) }
  ordered : ParseTable.Indexed g
    { t with states := StateOrder.states (Bypass.states g (Merge.states g t.states)) }

theorem ParseTable.staged_of_canonical {g : FlatGrammar} (wf : g.WellFormed) {t : ParseTable}
    {conflicts : List Conflict} (h : canonical g = .ok (t, conflicts)) : t.Staged g := by
  have ht := Canonical.table_states wf
  have hi := Canonical.indexed wf h
  rw [← Canonical.states_of_canonical h] at ht
  have hm := hi.merge ht.mergeable fun hs hn hk hu hv => ht.core_ne hs hn hk hu hv
  exact ⟨ht.indexed_automaton, fun ha hs _ hx hw => ht.on_ne_nil wf ha hs hx hw, hi, hm,
    hm.redirect, hm.redirect.prune, hm.redirect.prune.order⟩

/-- The tables of a grammar are indexed. -/
theorem Tables.indexed_of_ofGrammar {g : FlatGrammar} (wf : g.WellFormed) {t : Tables}
    (h : Tables.ofGrammar g = .ok t) : t.Indexed g := by
  have hfits := Tables.fits_of_ofGrammar h
  obtain ⟨⟨canonical, conflicts⟩, hc, h⟩ := bind_eq_ok.1 h
  have hi := (ParseTable.staged_of_canonical wf hc).ordered
  cases h
  refine ⟨hi, fun s hs e he => hi.mem_terminals hs he, fun s hs e he => hi.lt_of_mem_targets hs he,
    ?_, hfits.reusable, ?_, StateOrder.forall₂_primary _⟩
  · refine (List.takeWhile_sublist _).length_le.trans ?_
    simp
  · rw [List.map_map, List.forall₂_map_left_iff, List.forall₂_same]
    intro s hs
    exact List.getElem?_idxOf (List.mem_eraseDups.2 (List.mem_map_of_mem hs))

end GrammarTables
