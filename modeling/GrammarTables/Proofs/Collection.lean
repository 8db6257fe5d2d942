import GrammarTables.Proofs.Declarations
import GrammarTables.Proofs.Limits

/-!
# The canonical collection

The states of the canonical table are the canonical collection of item sets. Its kernels are
different from each other and closed under moving dots past symbols, and every kernel but the first
two is met at a state that comes before it. States share a core where their kernels have the same
items.
-/

namespace GrammarTables

namespace Numbering

variable {α β : Type} [BEq α] [Hashable α] {n : Numbering α} {m : Nat}

theorem lt_or_eq_of_number {a : α} (hm : m < (n.number a).2.members.size) :
    m < n.members.size ∨ m = (n.number a).1 := by
  unfold number at hm ⊢
  split at hm
  · exact .inl hm
  · simp only [Array.size_push] at hm ⊢
    omega

theorem size_le_number (n : Numbering α) (a : α) :
    n.members.size ≤ (n.number a).2.members.size := by
  unfold number
  split <;> simp

theorem size_le_numberAll (xs : List (β × α)) (n : Numbering α) :
    n.members.size ≤ (numberAll xs n).2.members.size := by
  induction xs generalizing n with
  | nil => exact Nat.le_refl _
  | cons x xs ih => exact (size_le_number n x.2).trans (ih _)

/-- A number that was not there before is given to one of the values. -/
theorem exists_of_numberAll {xs : List (β × α)} (hm : m < (numberAll xs n).2.members.size) :
    m < n.members.size ∨ ∃ b, (b, m) ∈ (numberAll xs n).1 := by
  induction xs generalizing n with
  | nil => exact .inl hm
  | cons x xs ih =>
    obtain ⟨l, a⟩ := x
    rcases ih hm with hm | ⟨b, hb⟩
    · rcases lt_or_eq_of_number hm with hm | rfl
      · exact .inl hm
      · exact .inr ⟨l, List.mem_cons_self⟩
    · exact .inr ⟨b, List.mem_cons_of_mem _ hb⟩

theorem nodup_ofList [LawfulBEq α] (values : List α) : (ofList values).2.Nodup := by
  refine Valid.nodup (List.foldlRecOn (motive := fun x : Array Nat × Numbering α => x.2.Valid)
    values _ valid_empty fun x hx a _ => ?_)
  exact (hx.number a).1

/-- The same value has the same number. -/
theorem ofList_eq_of_eq [LawfulBEq α] {values : List α} {i j k l : Nat} {a : α}
    (hi : (ofList values).1[i]? = some k) (ha : values[i]? = some a)
    (hj : (ofList values).1[j]? = some l) (hb : values[j]? = some a) : k = l := by
  have h := (ofList_members values).1
  have hk := forall₂_getElem? h hi ha
  have hl := forall₂_getElem? h hj hb
  exact (List.getElem?_inj (List.getElem?_eq_some_iff.1 hk).1 (nodup_ofList values)).1
    (hk.trans hl.symm)

end Numbering

namespace Automaton

/-- Every number below the given one but the first two was given at a state that comes before. -/
def Met (states : Array State) (count : Nat) : Prop :=
  ∀ n, 2 ≤ n → n < count → ∃ q < n, ∃ s x, states[q]? = some s ∧ (x, n) ∈ s.successors

/-- The kernels that a state meets get numbers behind its own. -/
theorem Met.step {done : Array State} {kernels : Numbering ItemSet}
    (h : Met done kernels.members.size) (hlt : done.size < kernels.members.size)
    (kernel closure : ItemSet) (xs : List (Symbol × ItemSet)) :
    Met (done.push { kernel, closure, successors := (Numbering.numberAll xs kernels).1 })
      (Numbering.numberAll xs kernels).2.members.size := by
  intro n hn hcount
  by_cases hold : n < kernels.members.size
  · obtain ⟨q, hq, s, x, hs, hx⟩ := h n hn hold
    have hlt' := (Array.getElem?_eq_some_iff.1 hs).1
    refine ⟨q, hq, s, x, ?_, hx⟩
    rw [Array.getElem?_push, if_neg (by omega), hs]
  · obtain hlt' | ⟨x, hx⟩ := Numbering.exists_of_numberAll hcount
    · exact absurd hlt' hold
    · exact ⟨done.size, by omega, _, x, Array.getElem?_push_size, hx⟩

theorem explore_met (a : Analysis) (fuel : Nat) {done : Array State} {kernels : Numbering ItemSet}
    (hle : done.size ≤ kernels.members.size) (h : Met done kernels.members.size) :
    Met (explore a fuel done kernels) (explore a fuel done kernels).size := by
  induction fuel generalizing done kernels with
  | zero => exact fun n hn hcount => h n hn (Nat.lt_of_lt_of_le hcount hle)
  | succ fuel ih =>
    unfold explore
    split
    · exact fun n hn hcount => h n hn (Nat.lt_of_lt_of_le hcount hle)
    · rename_i kernel hk
      have hlt := (Array.getElem?_eq_some_iff.1 hk).1
      refine ih ?_ (h.step hlt _ _ _)
      rw [Array.size_push]
      exact Nat.le_trans hlt (Numbering.size_le_numberAll _ _)

theorem met_states (a : Analysis) : Met (states a) (states a).size := by
  refine explore_met a _ (Nat.zero_le _) fun n hn hcount => ?_
  have htwo : initialKernels.members.size = 2 := by simp [initialKernels, Numbering.number]
  omega

end Automaton

namespace ItemSet

variable {g : FlatGrammar}

/-- A kernel is where a symbol leads from another one: the items of the other's closure that have
the symbol after the dot, moved past it, with their lookaheads. -/
def Advances (g : FlatGrammar) (kernel : ItemSet) (x : Symbol) (next : ItemSet) : Prop :=
  (∃ y ∈ (Analysis.ofGrammar g).closure kernel, y.1.next? g = some x) ∧
    ∀ i given, (i, given) ∈ next ↔
      ∃ j, (j, given) ∈ (Analysis.ofGrammar g).closure kernel ∧ j.next? g = some x ∧ i = j.advance

/-- Kernels with the same items have them in the same order. -/
theorem Kernel.core_ext {items items' : ItemSet} (h : Kernel g items) (h' : Kernel g items')
    (hmem : ∀ i, i ∈ items.core ↔ i ∈ items'.core) : items.core = items'.core := by
  have hasc : ∀ {items : ItemSet}, Kernel g items →
      items.core.Pairwise fun i j => compare i j = .lt := fun h => List.pairwise_map.2 h.ascending
  refine List.Perm.eq_of_pairwise ?_ (hasc h) (hasc h')
    ((List.perm_ext_iff_of_nodup h.nodup h'.nodup).2 hmem)
  intro i j _ _ hij hji
  rw [Std.OrientedCmp.gt_of_lt hji] at hij
  cases hij

end ItemSet

/-- The numbers that a state has for symbols are those of the kernels where the symbols lead. -/
theorem Automaton.Complete.advances {g : FlatGrammar} {states : Array State} {q n : Nat} {s : State}
    {x : Symbol} (h : Complete g states) (hs : states[q]? = some s) (hx : (x, n) ∈ s.successors) :
    ∃ t, states[n]? = some t ∧ s.kernel.Advances g x t.kernel := by
  obtain ⟨k, hk⟩ := List.mem_iff_getElem?.1 hx
  have hlt : k < (s.closure.successors g).length :=
    (h.successors hs).length_eq ▸ (List.getElem?_eq_some_iff.1 hk).1
  obtain ⟨y, hy⟩ : ∃ y, (s.closure.successors g)[k]? = some y :=
    ⟨_, List.getElem?_eq_getElem hlt⟩
  obtain ⟨hyx, t, ht, hkernel⟩ := Numbering.forall₂_getElem? (h.successors hs) hy hk
  have hmem := List.mem_of_getElem? hy
  rw [ItemSet.successors_eq] at hmem
  obtain ⟨z, hz, rfl⟩ := List.mem_map.1 hmem
  cases hyx
  rw [Ordered.mem_ofList, mem_moves] at hz
  refine ⟨t, ht, h.closure hs ▸ hz, fun i given => ?_⟩
  rw [hkernel, ItemSet.mem_goto, h.closure hs]

theorem Item.declares_of_next {g : FlatGrammar} (wf : g.WellFormed) (hstart : 0 < g.vars.size)
    {i : Item} (hi : i.Belongs g) {x : Symbol} (hx : i.next? g = some x) : g.Declares x := by
  obtain ⟨step, hstep, rfl⟩ := Option.map_eq_some_iff.1 hx
  have hmem : step ∈ (i.productionIn g).steps :=
    List.mem_of_mem_drop (List.mem_of_head? hstep)
  obtain ⟨head, n, dot⟩ := i
  cases head with
  | start =>
    obtain rfl := List.mem_singleton.1 hmem
    exact hstart
  | nonterminal v =>
    rw [productionIn_nonterminal hi.1] at hmem
    exact wf.declares (List.getElem_mem hi.1) _ (List.mem_map_of_mem hmem)

namespace Canonical

variable {g : FlatGrammar}

/-- A symbol's state as a table has it: the target of a variable, or that of the one shift which
competes with what complete items offer for a terminal. -/
def Targets (g : FlatGrammar) (a : Automaton.State) (s : State) (n : Nat) : Symbol → Prop
  | .nonterminal v => s.goto? v = some n
  | x =>
    let offer := (a.closure.completed g).offer g (reductionOf g) x
    (∀ r ∈ offer.actions, r.isShift = false) ∧
      s.on x = ((Analysis.ofGrammar g).contest a.closure x offer.rank
        (offer.actions ++ [.shift n false])).1

/-- The states of a table are the canonical collection. -/
structure Collection (g : FlatGrammar) (auto : Array Automaton.State) (states : Array State) :
    Prop where
  size_eq : states.size = auto.size
  error : ∃ a, auto[0]? = some a ∧ a.kernel = []
  start : ∃ a, auto[1]? = some a ∧ a.kernel = [(.initial, .singleton .eof)]
  closure : ∀ {i : Nat} {a : Automaton.State}, auto[i]? = some a →
    a.closure = (Analysis.ofGrammar g).closure a.kernel
  /-- No two states have the same kernel. -/
  distinct : ∀ {i j : Nat} {a b : Automaton.State}, auto[i]? = some a → auto[j]? = some b →
    (∀ y, y ∈ a.kernel ↔ y ∈ b.kernel) → i = j
  /-- A symbol after a dot leads to a state, which is the target that the table has for it. -/
  target : ∀ {i : Nat} {a : Automaton.State} {s : State}, auto[i]? = some a →
    states[i]? = some s → ∀ y ∈ a.closure, ∀ x, y.1.next? g = some x →
      ∃ n b, auto[n]? = some b ∧ a.kernel.Advances g x b.kernel ∧ Targets g a s n x
  /-- Every other state is where a symbol leads from a state before it. -/
  reached : ∀ {n : Nat} {b : Automaton.State}, auto[n]? = some b → 2 ≤ n →
    ∃ i < n, ∃ a x, auto[i]? = some a ∧ a.kernel.Advances g x b.kernel
  core : ∀ {i j : Nat} {a b : Automaton.State} {s t : State}, auto[i]? = some a →
    auto[j]? = some b → states[i]? = some s → states[j]? = some t →
    (s.core = t.core ↔ ∀ item, item ∈ a.kernel.core ↔ item ∈ b.kernel.core)

theorem Describes.targets {q n : Nat} {a : Automaton.State} {s : State} (h : Describes g q a s)
    {x : Symbol} (hx : g.Declares x) (hl : a.successors.lookup x = some n) : Targets g a s n x := by
  cases x with
  | eof => cases hx
  | nonterminal v =>
    have hv : v < g.vars.size := hx
    refine (h.goto?_eq v).trans ?_
    rw [if_pos hv, hl]
  | terminal i =>
    have hi : i < g.tokens.size := hx
    have hp : TokenSet.position (.terminal i) < g.tokenCount := by
      simpa [TokenSet.position, FlatGrammar.tokenCount, Nat.add_comm 1] using hi
    have hset := ItemSet.settled_offer (g := g) (t := .terminal i) fun x hx => h.not_shift hx
    refine ⟨hset.1.1, ?_⟩
    rw [h.on_of_ne_nil rfl hp (h.actionsOf_ne_nil (.inl ⟨n, hl⟩)), actionsOf, entry, hl]
    rfl

theorem Table.size_eq {auto : Array Automaton.State} {states : Array State}
    (h : Table g auto states) : states.size = auto.size := by
  refine Nat.le_antisymm (Nat.le_of_not_lt fun hlt => ?_) (Nat.le_of_not_lt fun hlt => ?_)
  · obtain ⟨a, ha, -⟩ := h.described (Array.getElem?_eq_getElem hlt)
    simp at ha
  · obtain ⟨s, hs, -⟩ := h.describes (Array.getElem?_eq_getElem hlt)
    simp at hs

/-- The core of a state is the number of its kernel's items. -/
theorem getElem?_cores {q : Nat} {a : Automaton.State} {s : State}
    (ha : (Automaton.states (Analysis.ofGrammar g))[q]? = some a)
    (hs : (states g)[q]? = some s) :
    (Automaton.cores (Automaton.states (Analysis.ofGrammar g)))[q]? = some s.core ∧
      ((Automaton.states (Analysis.ofGrammar g)).toList.map (·.kernel.core))[q]? =
        some a.kernel.core := by
  rw [getElem?_states, ha] at hs
  obtain ⟨core, hcore, rfl⟩ := Option.map_eq_some_iff.1 hs
  exact ⟨hcore, by simp [ha]⟩

theorem collection_states (wf : g.WellFormed) (hstart : 0 < g.vars.size) :
    Collection g (Automaton.states (Analysis.ofGrammar g)) (states g) := by
  have h := table_states wf
  have hc := h.complete
  refine ⟨h.size_eq, hc.error, hc.start, hc.closure, fun ha hb hmem => ?_,
    fun {i a s} ha hs y hy x hx => ?_, fun {n b} hb hn => ?_, fun {i j a b s t} ha hb hs ht => ?_⟩
  · exact hc.inj ha hb ((hc.kernel ha).ext (hc.kernel hb) hmem)
  · obtain ⟨n, hn⟩ := hc.exists_lookup ha hy hx
    obtain ⟨l₁, l₂, hl, -⟩ := List.lookup_eq_some_iff.1 hn
    obtain ⟨b, hb, hadv⟩ := hc.advances ha (by simp [hl] : (x, n) ∈ a.successors)
    obtain ⟨a', ha', hd⟩ := h.described hs
    cases Option.some.inj (ha.symm.trans ha')
    have hdecl := Item.declares_of_next wf hstart (hd.belongs y hy) hx
    exact ⟨n, b, hb, hadv, hd.targets hdecl hn⟩
  · obtain ⟨i, hi, a, x, ha, hx⟩ :=
      Automaton.met_states _ n hn (Array.getElem?_eq_some_iff.1 hb).1
    obtain ⟨b', hb', hadv⟩ := hc.advances ha hx
    cases Option.some.inj (hb.symm.trans hb')
    exact ⟨i, hi, a, x, ha, hadv⟩
  · obtain ⟨hs, hka⟩ := getElem?_cores ha hs
    obtain ⟨ht, hkb⟩ := getElem?_cores hb ht
    constructor
    · intro hcore item
      rw [hcore] at hs
      rw [Numbering.ofList_inj hs hka ht hkb]
    · intro hmem
      rw [(hc.kernel ha).core_ext (hc.kernel hb) hmem] at hka
      exact Numbering.ofList_eq_of_eq hs hka ht hkb

end Canonical

/-- The canonical table of a grammar that has rules has the canonical collection of item sets for
its states. -/
theorem canonical_collection [RegexEngine] {source : Grammar} {g : FlatGrammar} {table : ParseTable}
    {conflicts : List Conflict} (h : FlatGrammar.ofGrammar source = .ok g)
    (hrules : source.rules ≠ []) (hc : ParseTable.canonical g = .ok (table, conflicts)) :
    Canonical.Collection g (Automaton.states (Analysis.ofGrammar g)) table.states := by
  obtain ⟨v, hv, -⟩ := (FlatGrammar.declared_of_ofGrammar h hrules).start
  rw [Canonical.states_of_canonical hc]
  exact Canonical.collection_states (FlatGrammar.wellFormed_of_ofGrammar h) (Nat.zero_lt_of_lt hv)

/-- The canonical collection of items between brackets: the states of a word behind the two brackets
have different kernels and one core. -/
theorem canonical_collection_bracketed : ∃ g table, FlatGrammar.ofGrammar .bracketed = .ok g ∧
    Grammar.bracketed.rules ≠ [] ∧ ParseTable.canonical g = .ok (table, []) ∧
    Canonical.Collection g (Automaton.states (Analysis.ofGrammar g)) table.states ∧
    table.states.size = 13 ∧
    ∃ a b s t, (Automaton.states (Analysis.ofGrammar g))[5]? = some a ∧
      (Automaton.states (Analysis.ofGrammar g))[8]? = some b ∧ table.states[5]? = some s ∧
      table.states[8]? = some t ∧ a.kernel ≠ b.kernel ∧ s.core = t.core := by
  obtain ⟨g, table, h, hc, -, ⟨hsize, -⟩, -, ⟨a, b, ha, hb, hne, hcore⟩, -⟩ :=
    ParseTable.exists_bracketed
  have hrules : Grammar.bracketed.rules ≠ [] := by simp [Grammar.bracketed]
  have hcollection := canonical_collection h hrules hc
  have hs := Array.getElem?_eq_getElem (show 5 < table.states.size by omega)
  have ht := Array.getElem?_eq_getElem (show 8 < table.states.size by omega)
  refine ⟨g, table, h, hrules, hc, hcollection, hsize, a, b, _, _, ha, hb, hs, ht, hne, ?_⟩
  exact (hcollection.core ha hb hs ht).2 fun item => by rw [hcore]

end GrammarTables
