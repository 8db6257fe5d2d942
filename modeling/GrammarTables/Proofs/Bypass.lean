import GrammarTables.Proofs.Renumbering

/-!
# Passing by unit states

A unit state only reduces its one child to a symbol that does not show, or passes over extras. A
target is followed through unit states along a chain. A chain that comes to an end does so before
the number of states is used up, so its end is where the target is redirected to.
-/

namespace GrammarTables

/-- A reduction that may be missing from a run: it has one child and no fields, and makes a symbol
that is not a named variable. -/
def Reduction.Silent (g : FlatGrammar) (r : Reduction) : Prop :=
  r.children = 1 ∧ r.production = 0 ∧ g.symbolKind r.symbol ≠ .named

/-- Two runs do the same but for silent reductions that are missing from the second. -/
inductive Shortens (g : FlatGrammar) : List Event → List Event → Prop
  | nil : Shortens g [] []
  | keep {es es' : List Event} (e : Event) : Shortens g es es' → Shortens g (e :: es) (e :: es')
  | drop {es es' : List Event} {r : Reduction} : r.Silent g → Shortens g es es' →
      Shortens g (.reduce r :: es) es'

/-- Two runs do the same but for reductions of a given sort that are missing from the second. -/
inductive Omits (missing : Reduction → Prop) : List Event → List Event → Prop
  | nil : Omits missing [] []
  | keep {es es' : List Event} (e : Event) : Omits missing es es' →
      Omits missing (e :: es) (e :: es')
  | drop {es es' : List Event} {r : Reduction} : missing r → Omits missing es es' →
      Omits missing (.reduce r :: es) es'

theorem Omits.shortens {g : FlatGrammar} {missing : Reduction → Prop}
    (hsilent : ∀ r, missing r → r.Silent g) {es es' : List Event} (h : Omits missing es es') :
    Shortens g es es' := by
  induction h with
  | nil => exact .nil
  | keep e _ ih => exact .keep e ih
  | drop hr _ ih => exact .drop (hsilent _ hr) ih

namespace Bypass

variable {g : FlatGrammar} {states : Array State} {s : State}

theorem unitSymbol?_eq_some {a : Action} {u : Symbol} (h : unitSymbol? g a = some u) :
    ∃ r : Reduction, a = .reduce r ∧ r.Silent g ∧ r.symbol = u := by
  cases a with
  | reduce r =>
    simp only [unitSymbol?] at h
    split at h
    · rename_i hr
      exact ⟨r, rfl, ⟨hr.1, hr.2.1, hr.2.2.1⟩, Option.some.inj h⟩
    · cases h
  | _ => cases h

/-- All actions of a state but for passing over extras reduce one child to the symbol. -/
structure IsUnit (g : FlatGrammar) (s : State) (u : Symbol) : Prop where
  some : ∃ (i : Nat) (r : Reduction), .reduce r ∈ s.on (TokenSet.symbolAt i) ∧ r.Silent g ∧
    r.symbol = u
  all : ∀ (t : Symbol) (a : Action), a ∈ s.on t → a = .shiftExtra ∨
    ∃ r : Reduction, a = .reduce r ∧ r.Silent g ∧ r.symbol = u

theorem mem_actions {a : Action} :
    a ∈ s.actions.toList.flatMap id ↔ ∃ i, a ∈ s.on (TokenSet.symbolAt i) := by
  simp only [List.mem_flatMap, id, State.on, TokenSet.position_symbolAt]
  constructor
  · rintro ⟨as, has, ha⟩
    obtain ⟨i, hi⟩ := List.mem_iff_getElem?.1 has
    rw [Array.getElem?_toList] at hi
    exact ⟨i, by rw [hi]; exact ha⟩
  · rintro ⟨i, ha⟩
    cases hi : s.actions[i]? with
    | none => simp [hi] at ha
    | some as =>
      rw [hi] at ha
      exact ⟨as, Array.mem_toList_iff.2 (Array.mem_of_getElem? hi), ha⟩

theorem on_symbolAt_position (s : State) (t : Symbol) :
    s.on (TokenSet.symbolAt (TokenSet.position t)) = s.on t := by
  simp [State.on]

theorem isUnit_of_unit? {u : Symbol} (h : unit? g s = some u) : IsUnit g s u := by
  unfold unit? at h
  simp only at h
  split at h
  · rename_i unit hunit
    split at h
    · rename_i hall
      obtain rfl := Option.some.inj h
      obtain ⟨a, ha, hau⟩ := Option.bind_eq_some_iff.1 hunit
      have hmem := List.mem_of_mem_head? ha
      obtain ⟨i, hi⟩ := mem_actions.1 (List.mem_filter.1 hmem).1
      obtain ⟨r, rfl, hr, hru⟩ := unitSymbol?_eq_some hau
      refine ⟨⟨i, r, hi, hr, hru⟩, fun t a ha => ?_⟩
      by_cases hx : a = .shiftExtra
      · exact .inl hx
      · rw [← on_symbolAt_position] at ha
        have hmem' : a ∈ (s.actions.toList.flatMap id).filter (· != .shiftExtra) :=
          List.mem_filter.2 ⟨mem_actions.2 ⟨_, ha⟩, by simpa using hx⟩
        have hunit' := List.all_eq_true.1 hall a hmem'
        exact .inr (unitSymbol?_eq_some (by simpa using hunit'))
    · cases h
  · cases h

theorem IsUnit.of_reduce {u t : Symbol} {r : Reduction} (h : IsUnit g s u)
    (hr : .reduce r ∈ s.on t) : r.Silent g ∧ r.symbol = u := by
  rcases h.all t _ hr with h | ⟨r', h, hsilent, hu⟩
  · cases h
  · cases h
    exact ⟨hsilent, hu⟩

/-- A reduction that a unit state makes. -/
def OfUnit (g : FlatGrammar) (states : Array State) (r : Reduction) : Prop :=
  ∃ (q : Nat) (s : State) (v : Nat) (t : Symbol), states[q]? = some s ∧
    unit? g s = some (.nonterminal v) ∧ .reduce r ∈ s.on t

theorem OfUnit.silent {r : Reduction} (h : OfUnit g states r) : r.Silent g := by
  obtain ⟨q, s, v, t, -, hunit, hr⟩ := h
  exact ((isUnit_of_unit? hunit).of_reduce hr).1

/-- Where a variable leads from the top of a stack. -/
def exposed (states : Array State) (ρ : List Nat) (v : Nat) : Option Nat :=
  (ρ.head?.bind (states[·]?)).bind (·.goto? v)

theorem exposed_cons {p : Nat} (hp : states[p]? = some s) (τ : List Nat) :
    exposed states (p :: τ) = s.goto? := by
  funext v
  simp [exposed, hp]

/-- A unit state, and where the symbol that it makes leads. -/
def Passes (g : FlatGrammar) (states : Array State) (goto : Nat → Option Nat) (u n : Nat) : Prop :=
  ∃ s v, states[u]? = some s ∧ unit? g s = some (.nonterminal v) ∧ goto v = some n

/-- A state is come to through unit states. -/
inductive Chain (g : FlatGrammar) (states : Array State) (goto : Nat → Option Nat) :
    Nat → Nat → Prop
  | refl (u : Nat) : Chain g states goto u u
  | step {u n t : Nat} : Passes g states goto u n → Chain g states goto n t →
      Chain g states goto u t

/-- A chain of a given length comes to an end at a state that makes no variable of one child. -/
inductive Ends (g : FlatGrammar) (states : Array State) (goto : Nat → Option Nat) :
    Nat → Nat → Nat → Prop
  | here {t : Nat} {s : State} : states[t]? = some s → (∀ v, unit? g s ≠ some (.nonterminal v)) →
      Ends g states goto 0 t t
  | step {k u n t : Nat} : Passes g states goto u n → Ends g states goto k n t →
      Ends g states goto (k + 1) u t

variable {goto : Nat → Option Nat} {u n t k : Nat}

theorem Passes.unique {m : Nat} (h : Passes g states goto u n) (h' : Passes g states goto u m) :
    n = m := by
  obtain ⟨s, v, hs, hu, hn⟩ := h
  obtain ⟨s', v', hs', hu', hm⟩ := h'
  rw [hs] at hs'
  cases hs'
  rw [hu] at hu'
  cases hu'
  exact Option.some.inj (hn.symm.trans hm)

namespace Ends

theorem getElem? (h : Ends g states goto k u t) : ∃ s, states[u]? = some s := by
  cases h with
  | here hs _ => exact ⟨_, hs⟩
  | step hp _ =>
    obtain ⟨s, _, hs, _⟩ := hp
    exact ⟨s, hs⟩

theorem length_unique {j t' : Nat} (h : Ends g states goto k u t) (h' : Ends g states goto j u t') :
    k = j := by
  induction h generalizing j with
  | here hs hne =>
    cases h' with
    | here _ _ => rfl
    | step hp _ =>
      obtain ⟨s', v, hs', hu, -⟩ := hp
      rw [hs] at hs'
      cases hs'
      exact absurd hu (hne v)
  | step hp _ ih =>
    cases h' with
    | here hs hne =>
      obtain ⟨s', v, hs', hu, -⟩ := hp
      rw [hs] at hs'
      cases hs'
      exact absurd hu (hne v)
    | step hp' h' =>
      cases hp.unique hp'
      rw [ih h']

/-- The states on a chain that ends are different from each other. -/
theorem exists_states (h : Ends g states goto k u t) : ∃ l : List Nat, l.length = k + 1 ∧ l.Nodup ∧
    ∀ x ∈ l, ∃ j ≤ k, Ends g states goto j x t := by
  induction h with
  | here hs hne => exact ⟨[_], rfl, List.nodup_singleton _, by simpa using .here hs hne⟩
  | @step k u n t hp h ih =>
    obtain ⟨l, hl, hnd, hall⟩ := ih
    refine ⟨u :: l, by simp [hl], List.nodup_cons.2 ⟨fun hmem => ?_, hnd⟩, fun x hx => ?_⟩
    · obtain ⟨j, hj, hu⟩ := hall u hmem
      have := (Ends.step hp h).length_unique hu
      omega
    · rcases List.mem_cons.1 hx with rfl | hx
      · exact ⟨k + 1, Nat.le_refl _, .step hp h⟩
      · obtain ⟨j, hj, hx⟩ := hall x hx
        exact ⟨j, by omega, hx⟩

theorem lt_size (h : Ends g states goto k u t) : k < states.size := by
  obtain ⟨l, hl, hnd, hall⟩ := h.exists_states
  have hsub : l ⊆ List.range states.size := by
    intro x hx
    obtain ⟨j, -, hx⟩ := hall x hx
    obtain ⟨s, hs⟩ := hx.getElem?
    exact List.mem_range.2 (Array.getElem?_eq_some_iff.1 hs).1
  have hle := (hnd.subperm hsub).length_le
  rw [List.length_range, hl] at hle
  exact hle

end Ends

theorem join_units {u : Nat} {x : Option Symbol} :
    ((states.map (unit? g))[u]?).join = x ↔ (states[u]?.bind (unit? g)) = x := by
  rw [Array.getElem?_map]
  cases states[u]? <;> rfl

/-- Following a target goes along a chain. -/
theorem chain_follow (fuel : Nat) (u : Nat) :
    Chain g states s.goto? u (follow (states.map (unit? g)) s fuel u) := by
  induction fuel generalizing u with
  | zero => exact .refl u
  | succ fuel ih =>
    rw [follow]
    split
    · rename_i v hv
      obtain ⟨x, hx, hunit⟩ := Option.bind_eq_some_iff.1 (join_units.1 hv)
      split
      · rename_i n hn
        split
        · exact .refl u
        · exact .step ⟨x, v, hx, hunit, hn⟩ (ih n)
      · exact .refl u
    · exact .refl u

/-- Following a target comes to the end of the chain. -/
theorem follow_eq (h : Ends g states s.goto? k u t) {fuel : Nat} (hfuel : k ≤ fuel) :
    follow (states.map (unit? g)) s fuel u = t := by
  induction h generalizing fuel with
  | @here t x hx hne =>
    cases fuel with
    | zero => rfl
    | succ fuel =>
      rw [follow]
      split
      · rename_i v hv
        obtain ⟨x', hx', hunit⟩ := Option.bind_eq_some_iff.1 (join_units.1 hv)
        rw [hx] at hx'
        cases hx'
        exact absurd hunit (hne v)
      · rfl
  | @step k u n t hp h ih =>
    cases fuel with
    | zero => omega
    | succ fuel =>
      obtain ⟨x, v, hx, hunit, hn⟩ := hp
      have hjoin : ((states.map (unit? g))[u]?).join = some (.nonterminal v) :=
        join_units.2 (by simp [hx, hunit])
      have hne : n ≠ u := by
        rintro rfl
        have := (Ends.step ⟨x, v, hx, hunit, hn⟩ h).length_unique h
        omega
      rw [follow, hjoin]
      simp only [hn, hne, if_false]
      exact ih (by omega)

/-- Where a target of a state is redirected to. -/
def redirected (g : FlatGrammar) (states : Array State) (s : State) : Nat → Nat :=
  follow (states.map (unit? g)) s states.size

theorem getElem?_redirect (q : Nat) : (redirect g states)[q]? =
    states[q]?.map fun s => s.mapTargets (redirected g states s) := by
  simp only [redirect, Array.getElem?_map, Array.size_map]
  rfl

theorem redirect_state {q : Nat} (hs : states[q]? = some s) :
    (redirect g states)[q]? = some (s.mapTargets (redirected g states s)) := by
  rw [getElem?_redirect, hs]
  rfl

theorem exists_of_redirect {q : Nat} {s' : State} (hs' : (redirect g states)[q]? = some s') :
    ∃ s, states[q]? = some s ∧ s' = s.mapTargets (redirected g states s) := by
  rw [getElem?_redirect] at hs'
  obtain ⟨s, hs, heq⟩ := Option.map_eq_some_iff.1 hs'
  exact ⟨s, hs, heq.symm⟩

theorem chain_redirected (u : Nat) : Chain g states s.goto? u (redirected g states s u) :=
  chain_follow _ u

/-- A table has the states of another, with targets that are further along chains. -/
def Detours (g : FlatGrammar) (states states' : Array State) : Prop :=
  ∀ ⦃q : Nat⦄ ⦃s' : State⦄, states'[q]? = some s' → ∃ (s : State) (f : Nat → Nat),
    states[q]? = some s ∧ s' = s.mapTargets f ∧ ∀ u, Chain g states s.goto? u (f u)

theorem detours_self (g : FlatGrammar) (states : Array State) : Detours g states states := by
  intro q s hs
  exact ⟨s, fun u => u, hs, s.mapTargets_id.symm, .refl⟩

theorem detours_redirect (g : FlatGrammar) (states : Array State) :
    Detours g states (redirect g states) := by
  intro q s' hs'
  obtain ⟨s, hs, rfl⟩ := exists_of_redirect hs'
  exact ⟨s, _, hs, rfl, chain_redirected⟩

theorem redirected_eq (h : Ends g states s.goto? k u t) : redirected g states s u = t :=
  follow_eq h (Nat.le_of_lt h.lt_size)

end Bypass

end GrammarTables
