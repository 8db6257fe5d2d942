import GrammarTables.ParseTable.Canonical
import GrammarTables.Proofs.Automaton
import GrammarTables.Proofs.Contest
import GrammarTables.Proofs.Machine

/-!
# The entries of the canonical table

A state of the canonical table is described by a state of the automaton. Its shifts go where the
automaton goes, and it reduces or accepts only for complete items. Wherever an item of the closure
wants a terminal the entry for it is not empty, and without precedences it has all actions that
items want.
-/

namespace GrammarTables

namespace FlatGrammar

/-- No step has a precedence or an associativity. -/
def Neutral (g : FlatGrammar) : Prop :=
  ∀ {s : Symbol} {p : Production}, p ∈ g.productionsOf s →
    ∀ step ∈ p.steps, step.precedence = 0 ∧ step.associativity = none

theorem neutral_iff (g : FlatGrammar) : g.Neutral ↔ ∀ v < g.vars.size,
    ∀ p ∈ g.productionsOf (.nonterminal v), ∀ step ∈ p.steps,
      step.precedence = 0 ∧ step.associativity = none := by
  refine ⟨fun h v _ p hp => h hp, fun h s p hp => ?_⟩
  cases s with
  | eof | terminal => simp at hp
  | nonterminal v =>
    obtain ⟨n, hn, -⟩ := List.mem_iff_getElem.1 hp
    exact h v (lt_of_productionsOf hn) p hp

instance (g : FlatGrammar) : Decidable g.Neutral := decidable_of_iff' _ g.neutral_iff

theorem getElem?_terminals (g : FlatGrammar) {t : Symbol} (ht : t.isTerminal = true) :
    g.terminals[TokenSet.position t]? =
      if TokenSet.position t < g.tokenCount then some t else none := by
  cases t with
  | nonterminal => simp at ht
  | eof => simp [terminals, TokenSet.position, tokenCount]
  | terminal i =>
    simp only [terminals, TokenSet.position, tokenCount, List.getElem?_cons_succ,
      List.getElem?_map]
    by_cases hi : i < g.tokens.size
    · rw [List.getElem?_range hi]
      simp [Nat.add_comm 1, hi]
    · rw [List.getElem?_eq_none (by simpa using hi)]
      simp [Nat.add_comm 1, hi]

end FlatGrammar

namespace Item

variable {g : FlatGrammar} {i : Item}

theorem Neutral.precedence (hg : g.Neutral) (i : Item) :
    i.precedence g = 0 ∧ i.associativity g = none := by
  have key : ∀ step, i.previous? g = some step →
      step.precedence = 0 ∧ step.associativity = none := by
    intro step hstep
    obtain ⟨head, n, dot⟩ := i
    cases dot with
    | zero => simp [previous?] at hstep
    | succ d =>
      have hmem : step ∈ (productionIn g ⟨head, n, d + 1⟩).steps := List.mem_of_getElem? hstep
      cases head with
      | start =>
        obtain rfl := List.mem_singleton.1 hmem
        exact ⟨rfl, rfl⟩
      | nonterminal v =>
        by_cases hn : n < (g.productionsOf (.nonterminal v)).length
        · rw [productionIn_nonterminal hn] at hmem
          exact hg (List.getElem_mem hn) step hmem
        · simp [productionIn, List.getElem?_eq_none (Nat.le_of_not_lt hn)] at hmem
  unfold Item.precedence Item.associativity
  cases hp : i.previous? g with
  | none => exact ⟨rfl, rfl⟩
  | some step => simpa using key step hp

/-- A complete item of a grammar has its dot behind all steps. -/
theorem Belongs.complete (h : i.Belongs g) (hi : i.after g = []) :
    i = initial.advance ∨ ∃ v n, ∃ hn : n < (g.productionsOf (.nonterminal v)).length,
      i = ⟨.nonterminal v, n, (g.productionsOf (.nonterminal v))[n].steps.length⟩ := by
  have hle : (i.productionIn g).steps.length ≤ i.dot := by simpa [after, rest] using hi
  obtain ⟨head, n, dot⟩ := i
  cases head with
  | start =>
    obtain ⟨rfl, hd⟩ := h
    have h1 : 1 ≤ dot := hle
    have h2 : dot ≤ 1 := hd
    obtain rfl : dot = 1 := by omega
    exact .inl rfl
  | nonterminal v =>
    obtain ⟨hn, hd⟩ := h
    simp only at hn hd
    rw [productionIn_nonterminal hn] at hle
    obtain rfl : dot = _ := Nat.le_antisymm hd hle
    exact .inr ⟨v, n, hn, rfl⟩

end Item

namespace Canonical

/-- The reductions of a grammar's items. -/
def reductionOf (g : FlatGrammar) : Item → Action :=
  let completed := (Automaton.states (Analysis.ofGrammar g)).toList.map fun s =>
    s.closure.completed g
  lookup (reductions g (layouts g) (numbered (layouts g) (completed.flatMap reduced))) .accept

theorem reductionOf_eq {g : FlatGrammar} {v n : Nat} (d : Nat)
    (hn : n < (g.productionsOf (.nonterminal v)).length) :
    ∃ r : Reduction, reductionOf g ⟨.nonterminal v, n, d⟩ = .reduce r ∧
      r.symbol = .nonterminal v ∧
      r.children = (g.productionsOf (.nonterminal v))[n].steps.length ∧
      r.dynamic = (g.productionsOf (.nonterminal v))[n].dynamic := by
  have hv := FlatGrammar.lt_of_productionsOf hn
  simp only [FlatGrammar.productionsOf_eq_getElem hv] at hn ⊢
  simp [reductionOf, lookup, reductions, layouts, hv, hn]

/-- Nothing is looked up for a production that is not there. -/
theorem lookup_layouts_of_le {g : FlatGrammar} {v n : Nat} (d : Nat)
    (hn : (g.productionsOf (.nonterminal v)).length ≤ n) :
    lookup (layouts g) [] ⟨.nonterminal v, n, d⟩ = [] := by
  cases hv : g.vars[v]? with
  | none => simp [lookup, layouts, hv]
  | some x =>
    rw [FlatGrammar.productionsOf_of_getElem? hv] at hn
    simp [lookup, layouts, hv, List.getElem?_eq_none hn]

theorem isShift_reductionOf {g : FlatGrammar} {i : Item} (hi : i.Belongs g)
    (hs : i.isStart = false) : (reductionOf g i).isShift = false := by
  obtain ⟨head, n, d⟩ := i
  cases head with
  | start => cases hs
  | nonterminal v =>
    obtain ⟨r, hr, -⟩ := reductionOf_eq d hi.1
    rw [hr]
    rfl

theorem mem_completed {g : FlatGrammar} {items : ItemSet} {x : Item × TokenSet} :
    x ∈ items.completed g ↔ x ∈ items ∧ x.1.after g = [] := by
  simp [ItemSet.completed, Item.next?_eq_none]

/-- A state of the table has the entries that a state of the automaton wants. -/
structure Describes (g : FlatGrammar) (q : Nat) (a : Automaton.State) (s : State) : Prop where
  belongs : ∀ x ∈ a.closure, x.1.Belongs g
  within : a.closure.Within g
  built : ∃ core, s = (state (Analysis.ofGrammar g) (reductionOf g) q core a
    (a.closure.completed g)).1

variable {g : FlatGrammar} {q : Nat} {a : Automaton.State} {s : State} {t : Symbol}

/-- The actions that a state of the automaton has for a terminal. -/
def actionsOf (g : FlatGrammar) (a : Automaton.State) (t : Symbol) : List Action :=
  (entry (Analysis.ofGrammar g) (reductionOf g) a (a.closure.completed g) t).1

theorem Describes.on_eq (h : Describes g q a s) (ht : t.isTerminal = true) :
    s.on t = if TokenSet.position t < g.tokenCount then
      if q = ParseTable.errorState then withRecovery g t (withExtra g t (actionsOf g a t))
      else withExtra g t (actionsOf g a t)
    else [] := by
  obtain ⟨core, rfl⟩ := h.built
  have hg : (Analysis.ofGrammar g).grammar = g := rfl
  simp only [State.on, state, hg, List.getElem?_toArray, List.getElem?_map,
    FlatGrammar.getElem?_terminals g ht]
  by_cases hp : TokenSet.position t < g.tokenCount
  · simp only [hp, if_true]
    split <;> rfl
  · simp [hp]

theorem Describes.goto?_eq (h : Describes g q a s) (v : Nat) :
    s.goto? v = if v < g.vars.size then a.successors.lookup (.nonterminal v) else none := by
  obtain ⟨core, rfl⟩ := h.built
  simp only [State.goto?, state]
  change ((List.map _ g.nonterminals).toArray[v]?).join = _
  rw [List.getElem?_toArray, FlatGrammar.nonterminals, List.map_map, List.getElem?_map]
  by_cases hv : v < g.vars.size
  · rw [List.getElem?_range hv, if_pos hv]
    rfl
  · rw [List.getElem?_eq_none (by simpa using hv), if_neg hv]
    rfl

theorem Describes.not_shift (h : Describes g q a s) {x : Item × TokenSet}
    (hx : x ∈ a.closure.completed g) (hs : x.1.isStart = false) :
    (reductionOf g x.1).isShift = false :=
  isShift_reductionOf (h.belongs x (mem_completed.1 hx).1) hs

/-- An action of a state is a shift where the automaton goes on, or an item gives it. -/
theorem mem_actionsOf {x : Action} (hx : x ∈ actionsOf g a t) :
    (∃ n, a.successors.lookup t = some n ∧ x.plain = .shift n false) ∨
      ∃ y ∈ a.closure, y.1.after g = [] ∧
        ∃ z, ItemSet.Gives (reductionOf g) t y z ∧ x.plain = z.plain := by
  obtain ⟨z, hz, hxz⟩ := Analysis.mem_contest hx
  rcases List.mem_append.1 hz with hz | hz
  · obtain ⟨y, hy, hg⟩ := ItemSet.mem_offer hz
    exact .inr ⟨y, (mem_completed.1 hy).1, (mem_completed.1 hy).2, z, hg, hxz⟩
  · cases hl : a.successors.lookup t with
    | none => simp [hl] at hz
    | some n =>
      obtain rfl : z = .shift n false := by simpa [hl] using hz
      exact .inl ⟨n, rfl, hxz⟩

theorem Describes.actionsOf_ne_nil (h : Describes g q a s)
    (hw : (∃ n, a.successors.lookup t = some n) ∨
      ∃ y ∈ a.closure, y.1.after g = [] ∧ ∃ z, ItemSet.Gives (reductionOf g) t y z) :
    actionsOf g a t ≠ [] := by
  have hset := ItemSet.settled_offer (g := g) (t := t) fun x hx => h.not_shift hx
  unfold actionsOf entry
  have hmap : (a.successors.lookup t).map (fun n => Action.shift n false) =
      (a.successors.lookup t).map (Action.shift · false) := rfl
  rw [hmap]
  apply Analysis.contest_ne_nil hset.1.1
  rcases hw with ⟨n, hn⟩ | ⟨y, hy, hc, z, hz⟩
  · exact .inr (by simp [hn])
  · exact .inl (hset.2 ⟨y, mem_completed.2 ⟨hy, hc⟩, z, hz⟩)

theorem withExtra_of_ne_nil {as : List Action} (h : as ≠ []) : withExtra g t as = as := by
  simp [withExtra, h]

theorem withRecovery_of_ne_nil {as : List Action} (h : as ≠ []) : withRecovery g t as = as := by
  simp [withRecovery, h]

/-- Actions that the automaton wants are the entry. -/
theorem Describes.on_of_ne_nil (h : Describes g q a s) (ht : t.isTerminal = true)
    (hp : TokenSet.position t < g.tokenCount) (hne : actionsOf g a t ≠ []) :
    s.on t = actionsOf g a t := by
  rw [h.on_eq ht, if_pos hp, withExtra_of_ne_nil hne, withRecovery_of_ne_nil hne, ite_self]

/-- What else is in an entry only passes over an extra or recovers from an error. -/
theorem Describes.mem_on (h : Describes g q a s) (ht : t.isTerminal = true) {x : Action}
    (hx : x ∈ s.on t) :
    x ∈ actionsOf g a t ∨ (x = .shiftExtra ∧ g.isExtra t = true ∧ s.on t = [.shiftExtra]) ∨
      x = .recover := by
  rw [h.on_eq ht] at hx ⊢
  split at hx
  · rename_i hp
    by_cases hne : actionsOf g a t = []
    · by_cases he : g.isExtra t = true
      · have hw : withExtra g t (actionsOf g a t) = [.shiftExtra] := by simp [withExtra, hne, he]
        rw [hw, withRecovery_of_ne_nil (by simp), ite_self] at hx ⊢
        exact .inr (.inl ⟨by simpa using hx, he, if_pos hp⟩)
      · have hw : withExtra g t (actionsOf g a t) = [] := by simp [withExtra, hne, he]
        rw [hw] at hx
        split at hx
        · unfold withRecovery at hx
          split at hx
          · exact .inr (.inr (by simpa using hx))
          · simp at hx
        · simp at hx
    · rw [withExtra_of_ne_nil hne, withRecovery_of_ne_nil hne, ite_self] at hx
      exact .inl hx
  · simp at hx

/-- Items that give an action for a terminal are accepted or reduced. -/
theorem Describes.gives (h : Describes g q a s) {y : Item × TokenSet} (hy : y ∈ a.closure)
    (hc : y.1.after g = []) {z : Action} (hz : ItemSet.Gives (reductionOf g) t y z) :
    (t = .eof ∧ z = .accept ∧ y.1 = Item.initial.advance) ∨
      ∃ v n, ∃ hn : n < (g.productionsOf (.nonterminal v)).length, ∃ r, z = .reduce r ∧
        r.symbol = .nonterminal v ∧
        r.children = (g.productionsOf (.nonterminal v))[n].steps.length ∧
        y.1 = ⟨.nonterminal v, n, (g.productionsOf (.nonterminal v))[n].steps.length⟩ := by
  obtain ⟨i, L⟩ := y
  rcases (h.belongs _ hy).complete hc with rfl | ⟨v, n, hn, rfl⟩
  · exact .inl ⟨hz.1, hz.2, rfl⟩
  · obtain ⟨r, hr, hs, hk, -⟩ :=
      reductionOf_eq (g.productionsOf (.nonterminal v))[n].steps.length hn
    exact .inr ⟨v, n, hn, r, hz.2.trans hr, hs, hk, rfl⟩

theorem mem_actionsOf_of_neutral (hg : g.Neutral) {z : Action}
    (hw : (∃ n, a.successors.lookup t = some n ∧ z = .shift n false) ∨
      ∃ y ∈ a.closure, y.1.after g = [] ∧ ItemSet.Gives (reductionOf g) t y z) :
    ∃ x ∈ actionsOf g a t, x.plain = z.plain := by
  obtain ⟨hr, hoffer⟩ := ItemSet.mem_offer_of_gives (g := g) (t := t)
    fun x (_ : x ∈ a.closure.completed g) => Item.Neutral.precedence hg x.1
  refine Analysis.mem_contest_of_neutral hr (fun y _ => (Item.Neutral.precedence hg y.1).1) ?_
  rcases hw with ⟨n, hn, rfl⟩ | ⟨y, hy, hc, hz⟩
  · simp [hn]
  · exact List.mem_append_left _ (hoffer y (mem_completed.2 ⟨hy, hc⟩) z hz)

namespace Describes

theorem plain_shift {x : Action} {n : Nat} (h : x.plain = .shift n false) :
    ∃ r, x = .shift n r := by
  cases x <;> grind [Action.plain]

/-- A shift goes where the automaton goes. -/
theorem lookup_of_shift (h : Describes g q a s) (ht : t.isTerminal = true) {n : Nat} {r : Bool}
    (hx : .shift n r ∈ s.on t) : a.successors.lookup t = some n := by
  rcases h.mem_on ht hx with hx | ⟨hx, -⟩ | hx
  · rcases mem_actionsOf hx with ⟨m, hm, hp⟩ | ⟨y, hy, hc, z, hz, hp⟩
    · cases hp
      exact hm
    · obtain ⟨-, rfl, -⟩ | ⟨_, _, _, _, rfl, -⟩ := h.gives hy hc hz <;> cases hp
  · cases hx
  · cases hx

/-- A reduction is that of a complete item. -/
theorem mem_closure_of_reduce (h : Describes g q a s) (ht : t.isTerminal = true) {r : Reduction}
    (hx : .reduce r ∈ s.on t) :
    ∃ v n, ∃ hn : n < (g.productionsOf (.nonterminal v)).length, ∃ L,
      ((⟨.nonterminal v, n, (g.productionsOf (.nonterminal v))[n].steps.length⟩ : Item), L) ∈
        a.closure ∧ r.symbol = .nonterminal v ∧
      r.children = (g.productionsOf (.nonterminal v))[n].steps.length := by
  rcases h.mem_on ht hx with hx | ⟨hx, -⟩ | hx
  · rcases mem_actionsOf hx with ⟨m, hm, hp⟩ | ⟨y, hy, hc, z, hz, hp⟩
    · cases hp
    · rcases h.gives hy hc hz with ⟨-, rfl, -⟩ | ⟨v, n, hn, r', rfl, hs, hk, hi⟩
      · cases hp
      · cases hp
        exact ⟨v, n, hn, y.2, hi ▸ hy, hs, hk⟩
  · cases hx
  · cases hx

/-- Only the item behind the start symbol accepts. -/
theorem mem_closure_of_accept (h : Describes g q a s) (ht : t.isTerminal = true)
    (hx : .accept ∈ s.on t) : ∃ L, (Item.initial.advance, L) ∈ a.closure := by
  rcases h.mem_on ht hx with hx | ⟨hx, -⟩ | hx
  · rcases mem_actionsOf hx with ⟨m, hm, hp⟩ | ⟨y, hy, hc, z, hz, hp⟩
    · cases hp
    · rcases h.gives hy hc hz with ⟨-, rfl, hi⟩ | ⟨v, n, hn, r', rfl, -⟩
      · exact ⟨y.2, hi ▸ hy⟩
      · cases hp
  · cases hx
  · cases hx

/-- Passing over is no action that the automaton wants. -/
theorem not_mem_actionsOf (h : Describes g q a s) : .shiftExtra ∉ actionsOf g a t := by
  intro hx
  rcases mem_actionsOf hx with ⟨m, hm, hp⟩ | ⟨y, hy, hc, z, hz, hp⟩
  · cases hp
  · obtain ⟨-, rfl, hi⟩ | ⟨v, n, hn, r', rfl, -⟩ := h.gives hy hc hz <;> cases hp

/-- What is passed over is an extra and has no other actions. -/
theorem extra (h : Describes g q a s) (ht : t.isTerminal = true) (hx : .shiftExtra ∈ s.on t) :
    g.isExtra t = true ∧ s.on t = [.shiftExtra] := by
  rcases h.mem_on ht hx with hx | ⟨-, he⟩ | hx
  · exact absurd hx h.not_mem_actionsOf
  · exact he
  · cases hx

/-- An extra has actions in every state. -/
theorem on_ne_nil_of_extra (h : Describes g q a s) (ht : t.isTerminal = true)
    (hp : TokenSet.position t < g.tokenCount) (he : g.isExtra t = true) : s.on t ≠ [] := by
  have hne : withExtra g t (actionsOf g a t) ≠ [] := by
    unfold withExtra
    split
    · simp
    · rename_i h
      simpa [he] using h
  rw [h.on_eq ht, if_pos hp, withRecovery_of_ne_nil hne, ite_self]
  exact hne

/-- An extra that no item wants is passed over. -/
theorem on_eq_shiftExtra (h : Describes g q a s) {e : Nat}
    (hp : TokenSet.position (.terminal e) < g.tokenCount) (he : g.isExtra (.terminal e) = true)
    (hl : a.successors.lookup (.terminal e) = none)
    (hc : ∀ y ∈ a.closure, y.1.after g = [] → y.1.isStart = false →
      y.2.contains (.terminal e) = false) : s.on (.terminal e) = [.shiftExtra] := by
  have hnil : actionsOf g a (.terminal e) = [] := by
    refine List.eq_nil_iff_forall_not_mem.2 fun x hx => ?_
    rcases mem_actionsOf hx with ⟨n, hn, -⟩ | ⟨y, hy, hend, z, hz, -⟩
    · rw [hl] at hn
      cases hn
    · unfold ItemSet.Gives at hz
      split at hz
      · cases hz.1
      · rename_i hs
        simp [hc y hy hend (by simpa using hs)] at hz
  have hw : withExtra g (.terminal e) (actionsOf g a (.terminal e)) = [.shiftExtra] := by
    simp [withExtra, hnil, he]
  rw [h.on_eq rfl, if_pos hp, hw, withRecovery_of_ne_nil (by simp), ite_self]

/-- An item that is complete before a terminal gives an action. -/
theorem exists_gives {i : Item} {L : TokenSet} (hL : L.contains t = true)
    (hstart : i.isStart = true → t = .eof) :
    ∃ z, ItemSet.Gives (reductionOf g) t (i, L) z := by
  unfold ItemSet.Gives
  by_cases hs : i.isStart = true
  · exact ⟨.accept, by simp [hs, hstart hs]⟩
  · exact ⟨reductionOf g i, by simp [hs, hL]⟩

/-- Where the automaton goes on with a terminal the entry is not empty. -/
theorem on_ne_nil_of_lookup (h : Describes g q a s) (ht : t.isTerminal = true)
    (hp : TokenSet.position t < g.tokenCount) {n : Nat} (hn : a.successors.lookup t = some n) :
    s.on t ≠ [] := by
  have hne := h.actionsOf_ne_nil (.inl ⟨n, hn⟩)
  rwa [h.on_of_ne_nil ht hp hne]

/-- Where an item is complete before a terminal the entry is not empty. -/
theorem on_ne_nil_of_complete (h : Describes g q a s) (ht : t.isTerminal = true) {i : Item}
    {L : TokenSet} (hi : (i, L) ∈ a.closure) (hc : i.after g = []) (hL : L.contains t = true)
    (hstart : i.isStart = true → t = .eof) : s.on t ≠ [] := by
  have hne := h.actionsOf_ne_nil (.inr ⟨(i, L), hi, hc, exists_gives hL hstart⟩)
  rwa [h.on_of_ne_nil ht ((h.within _ hi).lt hL) hne]

/-- Without precedences the table shifts wherever the automaton goes on with a terminal. -/
theorem shift_of_lookup (h : Describes g q a s) (hg : g.Neutral) (ht : t.isTerminal = true)
    (hp : TokenSet.position t < g.tokenCount) {n : Nat} (hn : a.successors.lookup t = some n) :
    ∃ r, .shift n r ∈ s.on t := by
  obtain ⟨x, hx, hxp⟩ := mem_actionsOf_of_neutral hg (.inl ⟨n, hn, rfl⟩)
  obtain ⟨r, rfl⟩ := plain_shift hxp
  rw [h.on_of_ne_nil ht hp (List.ne_nil_of_mem hx)]
  exact ⟨r, hx⟩

/-- Without precedences the table has what every complete item gives. -/
theorem mem_on_of_gives (h : Describes g q a s) (hg : g.Neutral) (ht : t.isTerminal = true)
    {i : Item} {L : TokenSet} (hi : (i, L) ∈ a.closure) (hc : i.after g = [])
    (hL : L.contains t = true) {z : Action} (hz : ItemSet.Gives (reductionOf g) t (i, L) z) :
    z ∈ s.on t := by
  obtain ⟨x, hx, hxp⟩ := mem_actionsOf_of_neutral hg (.inr ⟨(i, L), hi, hc, hz⟩)
  rw [h.on_of_ne_nil ht ((h.within _ hi).lt hL) (List.ne_nil_of_mem hx)]
  rcases h.gives hi hc hz with ⟨-, rfl, -⟩ | ⟨_, _, _, _, rfl, -⟩
  · cases x <;> first | exact hx | cases hxp
  · cases x <;> first | cases hxp
    exact hx

/-- A reduction of the canonical table is that of a complete item. -/
theorem exists_item (h : Describes g q a s) {t : Symbol} (ht : t.isTerminal = true) {r : Reduction}
    (hr : .reduce r ∈ s.on t) :
    ∃ v n d, ∃ _ : n < (g.productionsOf (.nonterminal v)).length, ∃ L,
      ((⟨.nonterminal v, n, d⟩ : Item), L) ∈ a.closure ∧
      Item.after g ⟨.nonterminal v, n, d⟩ = [] ∧
      reductionOf g ⟨.nonterminal v, n, d⟩ = .reduce r := by
  rcases h.mem_on ht hr with hr | ⟨hr, -⟩ | hr
  · rcases mem_actionsOf hr with ⟨n, -, hp⟩ | ⟨⟨i, L⟩, hy, hc, z, hz, hp⟩
    · cases hp
    · rcases (h.belongs _ hy).complete hc with rfl | ⟨v, n, hn, rfl⟩
      · obtain rfl : z = .accept := hz.2
        cases hp
      · obtain ⟨r', hr', -⟩ := reductionOf_eq (g.productionsOf (.nonterminal v))[n].steps.length hn
        obtain rfl : z = .reduce r' := hz.2.trans hr'
        cases hp
        exact ⟨v, n, _, hn, L, hy, hc, hr'⟩
  · cases hr
  · cases hr

end Describes

/-- The states of the canonical table. -/
def states (g : FlatGrammar) : Array State :=
  let auto := Automaton.states (Analysis.ofGrammar g)
  let completed := auto.toList.map fun s => s.closure.completed g
  ((((auto.toList.zip completed).zip (Automaton.cores auto)).mapIdx fun i ((s, completed), core) =>
    state (Analysis.ofGrammar g) (reductionOf g) i core s completed).map (·.1)).toArray

/-- The states with their conflicts. -/
def built (g : FlatGrammar) : List (State × List (Symbol × List Symbol)) :=
  let auto := Automaton.states (Analysis.ofGrammar g)
  let completed := auto.toList.map fun s => s.closure.completed g
  ((auto.toList.zip completed).zip (Automaton.cores auto)).mapIdx fun i ((s, completed), core) =>
    state (Analysis.ofGrammar g) (reductionOf g) i core s completed

theorem getElem?_built (g : FlatGrammar) (q : Nat) :
    (built g)[q]? = ((Automaton.states (Analysis.ofGrammar g))[q]?).bind fun a =>
      ((Automaton.cores (Automaton.states (Analysis.ofGrammar g)))[q]?).map fun core =>
        state (Analysis.ofGrammar g) (reductionOf g) q core a (a.closure.completed g) := by
  simp only [built, List.getElem?_mapIdx, List.zip_eq_zipWith, List.getElem?_zipWith,
    List.getElem?_map, Array.getElem?_toList]
  cases (Automaton.states (Analysis.ofGrammar g))[q]? with
  | none => rfl
  | some a => cases (Automaton.cores (Automaton.states (Analysis.ofGrammar g)))[q]? <;> rfl

/-- The conflicts of all states. -/
def reports (g : FlatGrammar) : List Conflict :=
  (built g).zipIdx.flatMap fun ((_, conflicts), i) => conflicts.map (report g i)

/-- The complete items of the automaton whose productions are reduced. -/
def allReduced (g : FlatGrammar) : List Item :=
  ((Automaton.states (Analysis.ofGrammar g)).toList.map fun s =>
    s.closure.completed g).flatMap reduced

/-- What the canonical table and its conflicts are, when no limit is exceeded. -/
theorem eq_of_canonical {table : ParseTable} {conflicts : List Conflict}
    (h : ParseTable.canonical g = .ok (table, conflicts)) :
    table =
        { states := states g
          layouts := numbered (layouts g) (allReduced g)
          maxChildren :=
            (allReduced g).foldl (fun n i => max n (i.productionIn g).steps.length) 0 } ∧
      conflicts = distinct (reports g) := by
  unfold ParseTable.canonical at h
  simp only [checkLimit, bind, Except.bind, pure, Except.pure] at h
  split at h
  · cases h
  · split at h
    · cases h
    · cases h
      exact ⟨rfl, rfl⟩

theorem states_of_canonical {table : ParseTable} {conflicts : List Conflict}
    (h : ParseTable.canonical g = .ok (table, conflicts)) : table.states = states g := by
  rw [(eq_of_canonical h).1]

/-- The canonical table goes with a complete automaton. -/
structure Table (g : FlatGrammar) (auto : Array Automaton.State) (states : Array State) : Prop where
  complete : Automaton.Complete g auto
  describes : ∀ {q : Nat} {a : Automaton.State}, auto[q]? = some a →
    ∃ s, states[q]? = some s ∧ Describes g q a s
  described : ∀ {q : Nat} {s : State}, states[q]? = some s →
    ∃ a, auto[q]? = some a ∧ Describes g q a s
  core : ∀ {p q : Nat} {a b : Automaton.State} {s t : State}, auto[p]? = some a →
    auto[q]? = some b → states[p]? = some s → states[q]? = some t → s.core = t.core →
    a.kernel.core = b.kernel.core
  core_lt : ∀ {q : Nat} {s : State}, states[q]? = some s → s.core < states.size

theorem getElem?_states (g : FlatGrammar) (q : Nat) :
    (states g)[q]? = ((Automaton.states (Analysis.ofGrammar g))[q]?).bind fun a =>
      ((Automaton.cores (Automaton.states (Analysis.ofGrammar g)))[q]?).map fun core =>
        (state (Analysis.ofGrammar g) (reductionOf g) q core a (a.closure.completed g)).1 := by
  have hstates : states g = ((built g).map (·.1)).toArray := rfl
  simp only [hstates, List.getElem?_toArray, List.getElem?_map, getElem?_built, Option.map_bind,
    Option.map_map, Function.comp_def]

theorem table_states (wf : g.WellFormed) :
    Table g (Automaton.states (Analysis.ofGrammar g)) (states g) := by
  have hc := Automaton.complete_states wf
  generalize hauto : Automaton.states (Analysis.ofGrammar g) = auto at hc
  have hlen : (Automaton.cores auto).length = auto.size := by
    have h := (Numbering.ofList_members (auto.toList.map (·.kernel.core))).1.length_eq
    simpa [Automaton.cores] using h
  have hget := getElem?_states g
  rw [hauto] at hget
  have hsize : (states g).size = auto.size := by
    simp [states, hauto, hlen]
  have hcore : ∀ {q : Nat} {a : Automaton.State} {s : State}, auto[q]? = some a →
      (states g)[q]? = some s → (Automaton.cores auto)[q]? = some s.core := by
    intro q a s ha hs
    rw [hget, ha] at hs
    obtain ⟨core, hcore, rfl⟩ := Option.map_eq_some_iff.1 hs
    exact hcore
  have hkernel : ∀ {q : Nat} {a : Automaton.State}, auto[q]? = some a →
      (auto.toList.map (·.kernel.core))[q]? = some a.kernel.core := by
    intro q a ha
    simp [ha]
  have hdesc : ∀ {q : Nat} {a : Automaton.State} {core : Nat}, auto[q]? = some a →
      Describes g q a (state (Analysis.ofGrammar g) (reductionOf g) q core a
        (a.closure.completed g)).1 := by
    intro q a core ha
    have hk := hc.kernel ha
    refine ⟨fun x hx => ?_, fun x hx => ?_, core, rfl⟩ <;> rw [hc.closure ha] at hx
    · exact hk.belongs_closure hx
    · exact Analysis.inherits_closure (Analysis.inherits_within wf) (hk.within wf) x hx
  refine ⟨hc, fun {q a} ha => ?_, fun {q s} hs => ?_, ?_, fun {q s} hs => ?_⟩
  · have hlt : q < (Automaton.cores auto).length := hlen ▸ (Array.getElem?_eq_some_iff.1 ha).1
    refine ⟨_, ?_, @hdesc q a (Automaton.cores auto)[q] ha⟩
    rw [hget, ha, List.getElem?_eq_getElem hlt]
    rfl
  · rw [hget] at hs
    obtain ⟨a, ha, hs⟩ := Option.bind_eq_some_iff.1 hs
    obtain ⟨core, -, rfl⟩ := Option.map_eq_some_iff.1 hs
    exact ⟨a, ha, hdesc ha⟩
  · intro p q a b s t ha hb hs ht hst
    have hp := hcore ha hs
    rw [hst] at hp
    exact Numbering.ofList_inj hp (hkernel ha) (hcore hb ht) (hkernel hb)
  · have hlt : q < auto.size := hsize ▸ (Array.getElem?_eq_some_iff.1 hs).1
    have hlt' := Numbering.lt_of_ofList (hcore (Array.getElem?_eq_getElem hlt) hs)
    simpa [hsize] using hlt'

end Canonical

end GrammarTables
