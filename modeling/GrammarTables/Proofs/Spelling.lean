import GrammarTables.Proofs.Minimization

/-!
# Spelled stacks through minimization

Symbols that lead from the start of the canonical table to a state lead to that state's counterpart
in the final table, as long as no state is passed by. Where every entry has one action they lead
nowhere else.
-/

namespace GrammarTables

open Automaton (Spells)

/-- A stack keeps its spelling when the states that come up are renamed. -/
theorem Automaton.Spells.map {leads leads' : Nat → Symbol → Nat → Prop} {P : Nat → Prop}
    {f : Nat → Nat} (hf : f 1 = 1) (hP : P 1)
    (hleads : ∀ {q x n}, leads q x n → P q → leads' (f q) x (f n) ∧ P n)
    {α : List Symbol} {q : Nat} {σ : List Nat} (h : Spells leads α (q :: σ)) :
    Spells leads' α (f q :: σ.map f) ∧ P q := by
  generalize hτ : q :: σ = τ at h
  induction h generalizing q σ with
  | start =>
    cases hτ
    rw [hf]
    exact ⟨.start, hP⟩
  | @push α p n τ x _ hl ih =>
    cases hτ
    obtain ⟨hsp, hp⟩ := ih rfl
    obtain ⟨hl', hn⟩ := hleads hl hp
    exact ⟨hsp.push hl', hn⟩

theorem Machine.Renames.leads {states states' : Array State} {live : Nat → Prop} {f : Nat → Nat}
    (h : Renames states states' live f) {q n : Nat} {x : Symbol} (hl : Leads states q x n)
    (hq : live q) : Leads states' (f q) x (f n) ∧ live n := by
  cases x with
  | eof => cases hl
  | terminal t =>
    obtain ⟨s, r, hs, hr⟩ := hl
    obtain ⟨hs', hlive⟩ := h.state hq hs
    refine ⟨⟨_, r, hs', ?_⟩, hlive _ (State.mem_successors_of_on hr)⟩
    exact State.shift_mem_mapTargets.2 ⟨n, hr, rfl⟩
  | nonterminal v =>
    obtain ⟨s, hs, hn⟩ := hl
    obtain ⟨hs', hlive⟩ := h.state hq hs
    refine ⟨⟨_, hs', ?_⟩, hlive _ (State.mem_successors_of_goto? hn)⟩
    exact State.goto?_mapTargets_eq_some.2 ⟨n, hn, rfl⟩

theorem Merge.Merges.leads {states merged : Array State} {group : Nat → Nat}
    (h : Merges states merged group) {q n : Nat} {x : Symbol} (hl : Leads states q x n) :
    Leads merged (group q) x (group n) := by
  cases x with
  | eof => cases hl
  | terminal t =>
    obtain ⟨s, r, hs, hr⟩ := hl
    obtain ⟨m, hm, hon, -⟩ := h.state hs
    refine ⟨m, r, hm, ?_⟩
    rw [hon _ (List.ne_nil_of_mem hr)]
    exact Action.mem_map_shift.2 ⟨n, hr, rfl⟩
  | nonterminal v =>
    obtain ⟨s, hs, hn⟩ := hl
    obtain ⟨m, hm, -, hgoto⟩ := h.state hs
    exact ⟨m, hm, hgoto v n hn⟩

namespace Bypass

variable {g : FlatGrammar} {states : Array State} (h : ∀ s ∈ states, unit? g s = none)
include h

theorem follow_eq_self (s : State) (fuel target : Nat) :
    follow (states.map (unit? g)) s fuel target = target := by
  cases fuel with
  | zero => rfl
  | succ fuel =>
    have hnone : ((states.map (unit? g))[target]?).join = none := by
      refine join_units.2 (Option.bind_eq_none_iff.2 fun s hs => ?_)
      exact h s (Array.mem_of_getElem? hs)
    rw [follow, hnone]

/-- Without unit states no target is redirected. -/
theorem redirect_eq_self : redirect g states = states := by
  refine Array.ext_getElem? fun q => ?_
  rw [getElem?_redirect]
  have hid : ∀ s, redirected g states s = fun n => n := fun s => funext (follow_eq_self h s _)
  simp [hid]

end Bypass

namespace State

/-- An entry has no more than one action. -/
def Settled (s : State) : Prop := ∀ t, (s.on t).length ≤ 1

theorem Settled.mapTargets {s : State} (h : s.Settled) (f : Nat → Nat) :
    (s.mapTargets f).Settled := by
  intro t
  rw [on_mapTargets, List.length_map]
  exact h t

/-- A state has the entries of another, with targets renamed. -/
def Copies (s s' : State) : Prop :=
  ∃ f, ∀ t, s.on t ≠ [] → s'.on t = (s.on t).map (Action.mapTarget f)

theorem Copies.mapTargets {s s' : State} (h : s.Copies s') (f : Nat → Nat) :
    s.Copies (s'.mapTargets f) := by
  obtain ⟨f', h⟩ := h
  refine ⟨f ∘ f', fun t hne => ?_⟩
  rw [on_mapTargets, h t hne, List.map_map]
  refine List.map_congr_left fun a _ => ?_
  cases a <;> rfl

theorem Settled.length_eq_one {s : State} (h : s.Settled) {e : Symbol × List Action}
    (he : e ∈ s.entries) : e.2.length = 1 := by
  obtain ⟨⟨as, i⟩, hmem, he⟩ := List.mem_filterMap.1 he
  simp only at he
  split at he
  · cases he
  · rename_i hne
    cases he
    have hon : s.on (TokenSet.symbolAt i) = as := by
      have hi := List.mk_mem_zipIdx_iff_getElem?.1 hmem
      rw [on, TokenSet.position_symbolAt, ← Array.getElem?_toList, hi, Option.getD_some]
    have hle := h (TokenSet.symbolAt i)
    rw [hon] at hle
    have hpos : 0 < as.length := List.length_pos_iff.2 (by simpa using hne)
    simp only
    omega

end State

/-- Where every entry has one action, a symbol leads to one state. -/
theorem Leads.unique_of_settled {states : Array State} (h : ∀ s ∈ states, s.Settled) {q n m : Nat}
    {x : Symbol} (hn : Leads states q x n) (hm : Leads states q x m) : n = m := by
  cases x with
  | eof => cases hn
  | terminal t =>
    obtain ⟨s, r, hs, hr⟩ := hn
    obtain ⟨s', r', hs', hr'⟩ := hm
    cases hs.symm.trans hs'
    have hle := h s (Array.mem_of_getElem? hs) (.terminal t)
    obtain ⟨a, ha⟩ := List.length_eq_one_iff.1 (Nat.le_antisymm hle (List.length_pos_of_mem hr))
    rw [ha, List.mem_singleton] at hr hr'
    cases hr.trans hr'.symm
    rfl
  | nonterminal v =>
    obtain ⟨s, hs, hn⟩ := hn
    obtain ⟨s', hs', hm⟩ := hm
    cases hs.symm.trans hs'
    exact Option.some.inj (hn.symm.trans hm)

namespace Tables

variable {g : FlatGrammar} (wf : g.WellFormed) {tables : Tables}
  (ht : Tables.ofGrammar g = .ok tables)
include wf ht

/-- The final table has one action for an entry where the canonical table does. -/
theorem settled (h : ∀ s ∈ Canonical.states g, s.Settled) :
    ∀ s ∈ tables.table.states, s.Settled := by
  obtain ⟨⟨canonical, conflicts⟩, hc, ht⟩ := bind_eq_ok.1 ht
  cases ht
  have hP : ∀ (s : State) (f : Nat → Nat), s.Settled → (s.mapTargets f).Settled :=
    fun s f hs => hs.mapTargets f
  refine StateOrder.forall_states hP (Bypass.forall_states hP fun m hm t => ?_)
  rw [Canonical.states_of_canonical hc] at hm
  obtain ⟨k, hk⟩ := Array.mem_iff_getElem?.1 hm
  by_cases hne : m.on t = []
  · simp [hne]
  · obtain ⟨q, s, -, hs, hon⟩ :=
      (Merge.merges g (Canonical.table_states wf).mergeable).on hk hne
    rw [hon, List.length_map]
    exact h s (Array.mem_of_getElem? hs) t

/-- Where no state is passed by, what symbols lead to in the canonical table they lead to in the
final one, with the same entries. -/
theorem exists_spelled
    (hunits : ∀ m ∈ Merge.states g (Canonical.states g), Bypass.unit? g m = none)
    {α : List Symbol} {q : Nat} {σ : List Nat}
    (hsp : Spells (Leads (Canonical.states g)) α (q :: σ)) {s : State}
    (hs : (Canonical.states g)[q]? = some s) :
    ∃ q' σ' s', Spells (Leads tables.table.states) α (q' :: σ') ∧
      tables.table.states[q']? = some s' ∧ s.Copies s' := by
  obtain ⟨htarget, hsize⟩ := targeted_redirect_merged wf
  have hm := Merge.merges g (Canonical.table_states wf).mergeable
  obtain ⟨⟨canonical, conflicts⟩, hc, ht⟩ := bind_eq_ok.1 ht
  cases ht
  simp only [Canonical.states_of_canonical hc, Bypass.states]
  rw [Bypass.redirect_eq_self hunits] at htarget hsize ⊢
  have hsize' := Bypass.two_le_size_prune htarget hsize
  have hprune := Bypass.renames_prune htarget
  have horder := StateOrder.renames (Bypass.targeted_prune htarget)
  obtain ⟨m, hmq, hon, -⟩ := hm.state hs
  have hcopies : s.Copies m := ⟨_, hon⟩
  obtain ⟨hmerged, -⟩ := hsp.map (P := fun _ => True) hm.start trivial
    fun hl _ => ⟨hm.leads hl, trivial⟩
  obtain ⟨hpruned, hlive⟩ := hmerged.map (Bypass.renumbered_start hsize)
    (Bypass.live_of_le hsize (Nat.le_refl 1)) hprune.leads
  obtain ⟨hordered, hlt⟩ := hpruned.map (StateOrder.renumbered_start hsize') hsize' horder.leads
  have hstate := (horder.state hlt (hprune.state hlive hmq).1).1
  exact ⟨_, _, _, hordered, hstate, (hcopies.mapTargets _).mapTargets _⟩

end Tables

end GrammarTables
