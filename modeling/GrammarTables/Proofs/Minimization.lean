import GrammarTables.Proofs.Evaluation

/-!
# Minimization preserves parsing

The table of a grammar has its states merged, passed by, left out and put in order. Each of these
steps leaves the accepting runs as they are, but for silent reductions that passing by leaves out
and for extras that it may lose.
-/

namespace GrammarTables

open Machine

namespace State

theorem mem_successors_mapTargets {s : State} {f : Nat → Nat} {n : Nat}
    (h : n ∈ (s.mapTargets f).successors) : ∃ m ∈ s.successors, f m = n := by
  rcases mem_successors.1 h with ⟨i, r, hr⟩ | ⟨v, hv⟩
  · obtain ⟨m, hm, rfl⟩ := shift_mem_mapTargets.1 hr
    exact ⟨m, mem_successors_of_on hm, rfl⟩
  · obtain ⟨m, hm, rfl⟩ := goto?_mapTargets_eq_some.1 hv
    exact ⟨m, mem_successors_of_goto? hm, rfl⟩

end State

namespace Bypass

variable {g : FlatGrammar} {states : Array State}

theorem Chain.mem_successors {s : State} {u t : Nat} (h : Chain g states s.goto? u t)
    (hu : u ∈ s.successors) : t ∈ s.successors := by
  induction h with
  | refl _ => exact hu
  | step hp _ ih =>
    obtain ⟨_, v, -, -, hn⟩ := hp
    exact ih (State.mem_successors_of_goto? hn)

@[simp] theorem size_redirect : (redirect g states).size = states.size := by simp [redirect]

theorem targeted_redirect (ht : Targeted states) : Targeted (redirect g states) := by
  intro q s' hs' n hn
  obtain ⟨s, f, hs, rfl, hchain⟩ := detours_redirect g states hs'
  obtain ⟨m, hm, rfl⟩ := State.mem_successors_mapTargets hn
  rw [size_redirect]
  exact ht hs _ ((hchain m).mem_successors hm)

theorem targeted_prune (ht : Targeted states) : Targeted (prune states) := by
  intro k s' hs' n hn
  obtain ⟨⟨s, b⟩, hmem, rfl⟩ := Array.mem_map.1 (Array.mem_of_getElem? hs')
  obtain ⟨m, hm, rfl⟩ := State.mem_successors_mapTargets hn
  have hs : s ∈ states := (Array.of_mem_zip (Array.mem_filter.1 hmem).1).1
  obtain ⟨q, hq⟩ := Array.mem_iff_getElem?.1 hs
  obtain ⟨t, -, ht', -⟩ := renames_prune ht m (live_of_mem_successors ht hq hm)
  exact (Array.getElem?_eq_some_iff.1 ht').1

theorem two_le_size_prune (ht : Targeted states) (h : 2 ≤ states.size) :
    2 ≤ (prune states).size := by
  obtain ⟨s, -, hs, -⟩ := renames_prune ht 1 (live_of_le h (Nat.le_refl 1))
  have hstart : renumbered states 1 = 1 := renumbered_start h
  rw [hstart] at hs
  exact (Array.getElem?_eq_some_iff.1 hs).1

/-- Leaving unused states out leaves the accepting runs as they are. -/
theorem accepts_prune_iff (ht : Targeted states) (h : 2 ≤ states.size) {w : List Nat}
    {es : List Event} : Accepts (prune states) ⟨[1], w⟩ es ↔ Accepts states ⟨[1], w⟩ es := by
  have hstart : renumbered states 1 = 1 := renumbered_start h
  have hiff : Accepts (prune states) ⟨[1].map (renumbered states), w⟩ es ↔
      Accepts states ⟨[1], w⟩ es :=
    (renames_prune ht).accepts_iff (by simpa using live_of_le h (Nat.le_refl 1))
  rwa [List.map_singleton, hstart] at hiff

end Bypass

/-- Putting larger states first leaves the accepting runs as they are. -/
theorem StateOrder.accepts_iff {states : Array State} (ht : Targeted states)
    (h : 2 ≤ states.size) {w : List Nat} {es : List Event} :
    Accepts (StateOrder.states states) ⟨[1], w⟩ es ↔ Accepts states ⟨[1], w⟩ es := by
  have hstart : renumbered states 1 = 1 := renumbered_start h
  have hiff : Accepts (StateOrder.states states) ⟨[1].map (renumbered states), w⟩ es ↔
      Accepts states ⟨[1], w⟩ es :=
    (renames ht).accepts_iff (by simpa using (show 1 < states.size by omega))
  rwa [List.map_singleton, hstart] at hiff

section

variable {g : FlatGrammar} {auto : Array Automaton.State} {states merged : Array State}
  {group : Nat → Nat}

theorem Merge.Merges.two_le_size (h : Merges states merged group)
    (ht : Canonical.Table g auto states) : 2 ≤ merged.size := by
  obtain ⟨a, ha, -⟩ := ht.complete.start
  obtain ⟨s, hs, -⟩ := ht.describes ha
  have hlt := h.lt (Array.getElem?_eq_some_iff.1 hs).1
  rwa [h.start] at hlt

/-- Where no extra is lost, passing by unit states leaves nothing but their reductions out of
accepting runs. -/
theorem Bypass.exists_omits_redirect (h : Merge.Merges states merged group)
    (hk : KeepsExtras g merged) {w : List Nat} {es : List Event} (ha : Accepts states ⟨[1], w⟩ es) :
    ∃ es', Accepts (redirect g merged) ⟨[1], w⟩ es' ∧ Omits (OfUnit g merged) es es' := by
  have ha' := h.accepts ha
  rw [List.map_singleton, h.start] at ha'
  obtain ⟨k, t, es', hends, hrun, hsh⟩ := accepts_redirect hk ha' rfl fun p τ hρ => nomatch hρ
  obtain rfl := hends.eq_of_nil
  exact ⟨es', hrun, hsh⟩

/-- Where no extra is lost, accepting runs that pass by unit states are runs that only their
reductions are missing from. -/
theorem Bypass.exists_omits (wf : g.WellFormed) (ht : Canonical.Table g auto states)
    (h : Merge.Merges states merged group) (hk : KeepsExtras g merged) {w : List Nat}
    {es' : List Event} (ha : Accepts (redirect g merged) ⟨[1], w⟩ es') :
    ∃ es, Accepts states ⟨[1], w⟩ es ∧ Omits (OfUnit g merged) es es' := by
  obtain ⟨k, t, hends⟩ := exists_ends ha rfl
  obtain rfl := hends.eq_of_nil
  obtain ⟨es, hes, hsh⟩ := accepts_of_redirect wf ht h hk ha rfl hends .start
  exact ⟨es, (h.accepts_iff wf ht).1 hes, hsh⟩

/-- Where no extra is lost, passing by unit states only shortens accepting runs. -/
theorem Bypass.exists_accepts_redirect (h : Merge.Merges states merged group)
    (hk : KeepsExtras g merged) {w : List Nat} {es : List Event} (ha : Accepts states ⟨[1], w⟩ es) :
    ∃ es', Accepts (redirect g merged) ⟨[1], w⟩ es' ∧ Shortens g es es' := by
  obtain ⟨es', hrun, ho⟩ := exists_omits_redirect h hk ha
  exact ⟨es', hrun, ho.shortens fun _ hr => hr.silent⟩

/-- Where no extra is lost, accepting runs that pass by unit states are shortened runs. -/
theorem Bypass.exists_accepts (wf : g.WellFormed) (ht : Canonical.Table g auto states)
    (h : Merge.Merges states merged group) (hk : KeepsExtras g merged) {w : List Nat}
    {es' : List Event} (ha : Accepts (redirect g merged) ⟨[1], w⟩ es') :
    ∃ es, Accepts states ⟨[1], w⟩ es ∧ Shortens g es es' := by
  obtain ⟨es, hrun, ho⟩ := exists_omits wf ht h hk ha
  exact ⟨es, hrun, ho.shortens fun _ hr => hr.silent⟩

end

section

variable {source : Grammar} {g : FlatGrammar} {w : List Nat} {es : List Event}

theorem targeted_redirect_merged (wf : g.WellFormed) :
    Targeted (Bypass.redirect g (Merge.states g (Canonical.states g))) ∧
      2 ≤ (Bypass.redirect g (Merge.states g (Canonical.states g))).size := by
  have ht := Canonical.table_states wf
  have h := Merge.merges g ht.mergeable
  refine ⟨Bypass.targeted_redirect (h.targeted ht.targeted), ?_⟩
  rw [Bypass.size_redirect]
  exact h.two_le_size ht

theorem accepts_bypass_iff (wf : g.WellFormed) :
    Accepts (Bypass.states g (Merge.states g (Canonical.states g))) ⟨[1], w⟩ es ↔
      Accepts (Bypass.redirect g (Merge.states g (Canonical.states g))) ⟨[1], w⟩ es := by
  obtain ⟨htarget, hsize⟩ := targeted_redirect_merged wf
  exact Bypass.accepts_prune_iff htarget hsize

/-- The table in its final form has the accepting runs that pass by unit states of the merged
table. -/
theorem accepts_final_iff (wf : g.WellFormed) {tables : Tables}
    (h : Tables.ofGrammar g = .ok tables) : Accepts tables.table.states ⟨[1], w⟩ es ↔
      Accepts (Bypass.redirect g (Merge.states g (Canonical.states g))) ⟨[1], w⟩ es := by
  obtain ⟨⟨canonical, conflicts⟩, hc, h⟩ := bind_eq_ok.1 h
  cases h
  obtain ⟨htarget, hsize⟩ := targeted_redirect_merged wf
  rw [← accepts_bypass_iff wf, Canonical.states_of_canonical hc]
  exact StateOrder.accepts_iff (Bypass.targeted_prune htarget)
    (Bypass.two_le_size_prune htarget hsize)

namespace Bypass

variable {table : ParseTable} {conflicts : List Conflict} (wf : g.WellFormed)
  (hc : ParseTable.canonical g = .ok (table, conflicts))
include wf hc

/-- No extra is lost when none stands in a production or every variable derives a text. -/
theorem keepsExtras_of_canonical (hg : g.ForeignExtras ∨ g.Productive) :
    KeepsExtras g (Merge.states g table.states) := by
  have ht := Canonical.table_states wf
  have hm := Merge.merges g ht.mergeable
  rw [Canonical.states_of_canonical hc]
  rcases hg with hg | hg
  · exact keepsExtras_of_foreign wf ht hm hg
  · exact keepsExtras_of_productive wf ht hm hg

variable (hk : KeepsExtras g (Merge.states g table.states))
include hk

theorem exists_shorter (ha : Accepts table.states ⟨[1], w⟩ es) :
    ∃ es', Accepts (states g (Merge.states g table.states)) ⟨[1], w⟩ es' ∧ Shortens g es es' := by
  rw [Canonical.states_of_canonical hc] at hk ha ⊢
  have hm := Merge.merges g (Canonical.table_states wf).mergeable
  obtain ⟨es', hrun, hsh⟩ := exists_accepts_redirect hm hk ha
  exact ⟨es', (accepts_bypass_iff wf).2 hrun, hsh⟩

theorem exists_longer {es' : List Event}
    (ha : Accepts (states g (Merge.states g table.states)) ⟨[1], w⟩ es') :
    ∃ es, Accepts table.states ⟨[1], w⟩ es ∧ Shortens g es es' := by
  rw [Canonical.states_of_canonical hc] at hk ha ⊢
  have ht := Canonical.table_states wf
  have hm := Merge.merges g ht.mergeable
  exact exists_accepts wf ht hm hk ((accepts_bypass_iff wf).1 ha)

end Bypass

variable {table : ParseTable} {conflicts : List Conflict}

/-- Minimization preserves parsing where passing by unit states loses no extra: the table before it
and the table after it have the same accepting runs, but for silent reductions that are missing from
the runs after it. -/
theorem minimized_accepts [RegexEngine] (h : FlatGrammar.ofGrammar source = .ok g)
    (hc : ParseTable.canonical g = .ok (table, conflicts))
    (hk : Bypass.KeepsExtras g (Merge.states g table.states)) (w : List Nat) :
    (∀ es, Accepts table.states ⟨[ParseTable.startState], w⟩ es →
      ∃ es', Accepts (Bypass.states g (Merge.states g table.states))
        ⟨[ParseTable.startState], w⟩ es' ∧ Shortens g es es') ∧
    ∀ es', Accepts (Bypass.states g (Merge.states g table.states))
        ⟨[ParseTable.startState], w⟩ es' →
      ∃ es, Accepts table.states ⟨[ParseTable.startState], w⟩ es ∧ Shortens g es es' := by
  have wf := FlatGrammar.wellFormed_of_ofGrammar h
  exact ⟨fun es => Bypass.exists_shorter wf hc hk, fun es' => Bypass.exists_longer wf hc hk⟩

/-- Minimization preserves parsing where no extra stands in a production or every variable derives a
text. -/
theorem minimized_accepts_of_foreign_or_productive [RegexEngine]
    (h : FlatGrammar.ofGrammar source = .ok g)
    (hc : ParseTable.canonical g = .ok (table, conflicts)) (hg : g.ForeignExtras ∨ g.Productive)
    (w : List Nat) :
    (∀ es, Accepts table.states ⟨[ParseTable.startState], w⟩ es →
      ∃ es', Accepts (Bypass.states g (Merge.states g table.states))
        ⟨[ParseTable.startState], w⟩ es' ∧ Shortens g es es') ∧
    ∀ es', Accepts (Bypass.states g (Merge.states g table.states))
        ⟨[ParseTable.startState], w⟩ es' →
      ∃ es, Accepts table.states ⟨[ParseTable.startState], w⟩ es ∧ Shortens g es es' := by
  have wf := FlatGrammar.wellFormed_of_ofGrammar h
  have hk := Bypass.keepsExtras_of_canonical wf hc hg
  exact ⟨fun es => Bypass.exists_shorter wf hc hk, fun es' => Bypass.exists_longer wf hc hk⟩

/-- Of the tables of items between brackets states are merged and passed by, and the reduction of
the word to an item is missing from the run after that. -/
theorem minimized_accepts_bracketed : ∃ g table, FlatGrammar.ofGrammar .bracketed = .ok g ∧
    ParseTable.canonical g = .ok (table, []) ∧
    (table.states.size = 13 ∧ (Merge.states g table.states).size = 11 ∧
      (Bypass.states g (Merge.states g table.states)).size = 9) ∧
    Bypass.KeepsExtras g (Merge.states g table.states) ∧
    Accepts table.states ⟨[ParseTable.startState], [0, 6, 4, 1]⟩ Grammar.bracketedRun ∧
    ∃ es', Accepts (Bypass.states g (Merge.states g table.states))
        ⟨[ParseTable.startState], [0, 6, 4, 1]⟩ es' ∧
      Shortens g Grammar.bracketedRun es' ∧
      .reduce Grammar.itemReduction ∈ Grammar.bracketedRun ∧
      .reduce Grammar.itemReduction ∉ es' := by
  obtain ⟨g, table, h, hc, hrun, hsizes, -, -, hitem⟩ := ParseTable.exists_bracketed
  obtain ⟨g', h', -, hf, -⟩ := FlatGrammar.exists_bracketed
  cases h.symm.trans h'
  have hk := Bypass.keepsExtras_of_canonical (FlatGrammar.wellFormed_of_ofGrammar h) hc (.inl hf)
  obtain ⟨es', hrun', hshort⟩ := (minimized_accepts h hc hk [0, 6, 4, 1]).1 _ hrun
  exact ⟨g, table, h, hc, hsizes, hk, hrun, es', hrun', hshort, by decide, hitem _ es' hrun'⟩

end

end GrammarTables
