import GrammarTables.Proofs.Kernel
import GrammarTables.Proofs.Numbering
import GrammarTables.Proofs.Validity

/-!
# The automaton is complete

Exploring ends with a state for every kernel that was met: a symbol after a dot in a state's closure
leads to the state whose kernel has the dots moved past it. States with the same kernel are the
same. Hence the items that are valid for symbols are in the closure of the state that the symbols
lead to.
-/

namespace GrammarTables.Automaton

variable {g : FlatGrammar}

/-- What holds of the states so far and the kernels met so far. -/
structure Explored (g : FlatGrammar) (done : Array State) (kernels : Numbering ItemSet) :
    Prop where
  valid : kernels.Valid
  kernel : ∀ k ∈ kernels.members, ItemSet.Kernel g k
  size_le : done.size ≤ kernels.members.size
  state : ∀ {i : Nat} {s : State}, done[i]? = some s →
    kernels.members[i]? = some s.kernel ∧
    s.closure = (Analysis.ofGrammar g).closure s.kernel ∧
    List.Forall₂ (fun x y => x.1 = y.1 ∧ kernels.members[y.2]? = some x.2)
      (s.closure.successors g) s.successors

theorem Explored.size_members_lt (wf : g.WellFormed) {done : Array State}
    {kernels : Numbering ItemSet}
    (h : Explored g done kernels) :
    kernels.members.size < 2 ^ (itemCount g * (g.tokenCount + 1)) := by
  rw [← Array.length_toList]
  exact ItemSet.length_kernels_lt wf h.valid.nodup fun k hk => h.kernel k (by simpa using hk)

theorem explored_initial : Explored g #[] initialKernels := by
  have h₀ := Numbering.valid_empty.number ([] : ItemSet)
  have h₁ := h₀.1.number [(Item.initial, .singleton .eof)]
  refine ⟨h₁.1, fun k hk => ?_, Nat.zero_le _, fun hs => by simp at hs⟩
  rcases h₁.2.2.2 k hk with hk | rfl
  · rcases h₀.2.2.2 k hk with hk | rfl
    · simp at hk
    · exact ItemSet.kernel_nil
  · exact ItemSet.kernel_initial

/-- One more state is known, and the kernels that it leads to are met. -/
theorem Explored.step {done : Array State} {kernels : Numbering ItemSet}
    (h : Explored g done kernels) {kernel : ItemSet}
    (hk : kernels.members[done.size]? = some kernel) :
    let closure := (Analysis.ofGrammar g).closure kernel
    let next := Numbering.numberAll (closure.successors g) kernels
    Explored g (done.push { kernel, closure, successors := next.1 }) next.2 ∧
      kernels.Extends next.2 := by
  intro closure next
  have hkernel : ItemSet.Kernel g kernel := h.kernel kernel (Array.mem_of_getElem? hk)
  obtain ⟨hv, he, hf, hb⟩ := h.valid.numberAll (closure.successors g)
  refine ⟨⟨hv, fun k hk => ?_, ?_, fun {i s} hs => ?_⟩, he⟩
  · rcases hb k hk with hk | ⟨x, hx, rfl⟩
    · exact h.kernel k hk
    · rw [ItemSet.successors_eq] at hx
      obtain ⟨s, -, rfl⟩ := List.mem_map.1 hx
      exact hkernel.goto s
  · have hlt := (Array.getElem?_eq_some_iff.1 (he _ _ hk)).1
    rw [Array.size_push]
    exact hlt
  · rw [Array.getElem?_push] at hs
    split at hs
    · rename_i hi
      obtain rfl := Option.some.inj hs
      exact ⟨hi ▸ he _ _ hk, rfl, hf⟩
    · obtain ⟨hm, hc, hsucc⟩ := h.state hs
      exact ⟨he _ _ hm, hc, hsucc.imp fun _ _ hxy => ⟨hxy.1, he _ _ hxy.2⟩⟩

/-- With enough fuel exploring ends when the state of each kernel is known. -/
theorem explore_explored (wf : g.WellFormed) (fuel : Nat) {done : Array State}
    {kernels : Numbering ItemSet} (h : Explored g done kernels)
    (hfuel : 2 ^ (itemCount g * (g.tokenCount + 1)) < fuel + done.size) :
    ∃ kernels', Explored g (explore (Analysis.ofGrammar g) fuel done kernels) kernels' ∧
      (explore (Analysis.ofGrammar g) fuel done kernels).size = kernels'.members.size ∧
      kernels.Extends kernels' := by
  induction fuel generalizing done kernels with
  | zero =>
    have := h.size_members_lt wf
    have := h.size_le
    omega
  | succ fuel ih =>
    unfold explore
    split
    · rename_i hnone
      have hge := Array.getElem?_eq_none_iff.1 hnone
      exact ⟨kernels, h, Nat.le_antisymm h.size_le hge, .refl kernels⟩
    · rename_i kernel hk
      obtain ⟨hstep, he⟩ := h.step hk
      obtain ⟨kernels', h', hsize, he'⟩ := ih hstep (by rw [Array.size_push]; omega)
      exact ⟨kernels', h', hsize, he.trans he'⟩

/-- The states of a grammar: every kernel is there once, with the states that symbols lead to. -/
structure Complete (g : FlatGrammar) (states : Array State) : Prop where
  error : ∃ s, states[0]? = some s ∧ s.kernel = []
  start : ∃ s, states[1]? = some s ∧ s.kernel = [(.initial, .singleton .eof)]
  kernel : ∀ {i : Nat} {s : State}, states[i]? = some s → ItemSet.Kernel g s.kernel
  closure : ∀ {i : Nat} {s : State}, states[i]? = some s →
    s.closure = (Analysis.ofGrammar g).closure s.kernel
  successors : ∀ {i : Nat} {s : State}, states[i]? = some s →
    List.Forall₂ (fun x y => x.1 = y.1 ∧ ∃ t, states[y.2]? = some t ∧ t.kernel = x.2)
      (s.closure.successors g) s.successors
  inj : ∀ {i j : Nat} {s t : State}, states[i]? = some s → states[j]? = some t →
    s.kernel = t.kernel → i = j

theorem exists_explored (wf : g.WellFormed) : ∃ kernels,
    Explored g (states (Analysis.ofGrammar g)) kernels ∧
      (states (Analysis.ofGrammar g)).size = kernels.members.size ∧
      initialKernels.Extends kernels :=
  explore_explored wf (2 ^ (itemCount g * (g.tokenCount + 1)) + 2) explored_initial
    (show _ < _ + 0 by omega)

theorem size_states_lt (wf : g.WellFormed) :
    (states (Analysis.ofGrammar g)).size < 2 ^ (itemCount g * (g.tokenCount + 1)) := by
  obtain ⟨kernels, h, hsize, -⟩ := exists_explored wf
  rw [hsize]
  exact h.size_members_lt wf

theorem complete_states (wf : g.WellFormed) : Complete g (states (Analysis.ofGrammar g)) := by
  have hinit : (initialKernels.members[0]? = some [] ∧
      initialKernels.members[1]? = some [(Item.initial, .singleton .eof)]) := by
    simp [initialKernels, Numbering.number]
  obtain ⟨kernels, h, hsize, he⟩ := exists_explored wf
  have hall : ∀ {i : Nat} {k : ItemSet}, kernels.members[i]? = some k →
      ∃ s, (states (Analysis.ofGrammar g))[i]? = some s ∧ s.kernel = k := by
    intro i k hk
    have hlt := (Array.getElem?_eq_some_iff.1 hk).1
    have hs := Array.getElem?_eq_getElem (hsize.symm ▸ hlt)
    exact ⟨_, hs, Option.some.inj ((h.state hs).1.symm.trans hk)⟩
  refine ⟨hall (he _ _ hinit.1), hall (he _ _ hinit.2), fun hs => ?_, fun hs => (h.state hs).2.1,
    fun hs => ?_, fun hs ht hst => ?_⟩
  · exact h.kernel _ (Array.mem_of_getElem? (h.state hs).1)
  · exact (h.state hs).2.2.imp fun x y hxy => ⟨hxy.1, hall hxy.2⟩
  · exact h.valid.inj (h.state hs).1 (hst ▸ (h.state ht).1)

theorem lookup_map_self {α β : Type} [BEq α] [LawfulBEq α] [DecidableEq α] (l : List α) (f : α → β)
    (k : α) : (l.map fun a => (a, f a)).lookup k = if k ∈ l then some (f k) else none := by
  induction l with
  | nil => rfl
  | cons a l ih =>
    rw [List.map_cons, List.lookup_cons]
    by_cases h : k = a
    · simp [h]
    · simp [h, beq_false_of_ne h, ih]

theorem lookup_forall₂ {α β γ : Type} [BEq α] {R : β → γ → Prop} {xs : List (α × β)}
    {ys : List (α × γ)} (h : List.Forall₂ (fun x y => x.1 = y.1 ∧ R x.2 y.2) xs ys) (k : α) :
    Option.Rel R (xs.lookup k) (ys.lookup k) := by
  induction h with
  | nil => exact .none
  | @cons x y xs ys hxy _ ih =>
    obtain ⟨a, b⟩ := x
    obtain ⟨a', c⟩ := y
    obtain ⟨rfl, hbc⟩ := hxy
    simp only [List.lookup_cons]
    split
    · exact .some hbc
    · exact ih

/-- A symbol leads from a state to another. -/
def Leads (states : Array State) (q : Nat) (x : Symbol) (n : Nat) : Prop :=
  ∃ s, states[q]? = some s ∧ s.successors.lookup x = some n

namespace Complete

variable {states : Array State} {q n : Nat} {s : State} {x : Symbol}

theorem lookup_rel (h : Complete g states) (hs : states[q]? = some s) (x : Symbol) :
    Option.Rel (fun k n => ∃ t, states[n]? = some t ∧ t.kernel = k)
      (if x ∈ (ItemSet.moves g s.closure).map (·.1) then some (ItemSet.goto g s.closure x)
        else none)
      (s.successors.lookup x) := by
  have hrel : Option.Rel (fun k n => ∃ t, states[n]? = some t ∧ t.kernel = k)
      ((s.closure.successors g).lookup x) (s.successors.lookup x) :=
    lookup_forall₂ (h.successors hs) x
  rw [ItemSet.successors_eq, lookup_map_self] at hrel
  simpa only [Ordered.mem_ofList] using hrel

theorem mem_moves {items : ItemSet} : x ∈ (ItemSet.moves g items).map (·.1) ↔
    ∃ y ∈ items, y.1.next? g = some x := by
  simp only [ItemSet.moves, List.mem_map, List.mem_filterMap]
  constructor
  · rintro ⟨z, ⟨y, hy, hz⟩, rfl⟩
    obtain ⟨t, ht, rfl⟩ := Option.map_eq_some_iff.1 hz
    exact ⟨y, hy, ht⟩
  · rintro ⟨y, hy, hx⟩
    exact ⟨(x, y.1.advance, y.2), ⟨y, hy, by simp [hx]⟩, rfl⟩

/-- Where a symbol leads the dots have been moved past it. -/
theorem of_lookup (h : Complete g states) (hs : states[q]? = some s)
    (hl : s.successors.lookup x = some n) :
    (∃ y ∈ s.closure, y.1.next? g = some x) ∧
      ∃ t, states[n]? = some t ∧ t.kernel = ItemSet.goto g s.closure x := by
  have hrel := h.lookup_rel hs x
  rw [hl] at hrel
  split at hrel
  · rename_i hx
    cases hrel with
    | some ht => exact ⟨mem_moves.1 hx, ht⟩
  · cases hrel

/-- A symbol after a dot leads somewhere. -/
theorem exists_lookup (h : Complete g states) (hs : states[q]? = some s) {y : Item × TokenSet}
    (hy : y ∈ s.closure) (hx : y.1.next? g = some x) : ∃ n, s.successors.lookup x = some n := by
  have hrel := h.lookup_rel hs x
  rw [if_pos (mem_moves.2 ⟨y, hy, hx⟩)] at hrel
  cases hl : s.successors.lookup x with
  | none =>
    rw [hl] at hrel
    cases hrel
  | some n => exact ⟨n, rfl⟩

end Complete

/-- A stack of states, the top first, that symbols lead to from the start state. -/
inductive Spells (leads : Nat → Symbol → Nat → Prop) : List Symbol → List Nat → Prop
  | start : Spells leads [] [1]
  | push {α : List Symbol} {q n : Nat} {σ : List Nat} {x : Symbol} :
      Spells leads α (q :: σ) → leads q x n → Spells leads (α ++ [x]) (n :: q :: σ)

namespace Spells

variable {leads : Nat → Symbol → Nat → Prop} {α β : List Symbol} {σ τ : List Nat}

theorem push_inv {x : Symbol} (h : Spells leads (α ++ [x]) σ) :
    ∃ q n τ, σ = n :: q :: τ ∧ Spells leads α (q :: τ) ∧ leads q x n := by
  generalize hβ : α ++ [x] = β at h
  cases h with
  | start => simp at hβ
  | push h hl =>
    obtain ⟨rfl, hx⟩ := List.append_inj' hβ rfl
    obtain rfl : x = _ := by simpa using hx
    exact ⟨_, _, _, rfl, h, hl⟩

theorem nil_inv (h : Spells leads [] σ) : σ = [1] := by
  generalize hβ : ([] : List Symbol) = β at h
  cases h with
  | start => rfl
  | push => simp at hβ

/-- Without the last symbols the topmost states are not there. -/
theorem drop (h : Spells leads (α ++ β) σ) : Spells leads α (σ.drop β.length) := by
  induction β using List.reverseRecOn generalizing σ with
  | nil => simpa using h
  | append_singleton β x ih =>
    rw [← List.append_assoc] at h
    obtain ⟨q, n, τ, rfl, h, -⟩ := h.push_inv
    simpa using ih h

/-- Where a symbol leads from a state to one other, symbols lead to one stack of states. -/
theorem eq_of_functional (h : Spells leads α σ) (h' : Spells leads α τ)
    (hleads : ∀ {q x n m}, leads q x n → leads q x m → n = m) : σ = τ := by
  induction h generalizing τ with
  | start => exact h'.nil_inv.symm
  | push h hx ih =>
    obtain ⟨q, n, ρ, rfl, h', hx'⟩ := h'.push_inv
    cases ih h'
    rw [hleads hx hx']

end Spells

theorem Leads.unique {states : Array State} {q n m : Nat} {x : Symbol} (h : Leads states q x n)
    (h' : Leads states q x m) : n = m := by
  obtain ⟨s, hs, hx⟩ := h
  obtain ⟨t, ht, hx'⟩ := h'
  rw [hs] at ht
  cases ht
  exact Option.some.inj (hx.symm.trans hx')

/-- Symbols lead to one stack of states. -/
theorem Spells.unique {states : Array State} {α : List Symbol} {σ τ : List Nat}
    (h : Spells (Leads states) α σ) (h' : Spells (Leads states) α τ) : σ = τ :=
  h.eq_of_functional h' Leads.unique

/-- A valid item is in the closure of the state that the symbols lead to. -/
theorem Complete.allows_of_valid {states : Array State} (wf : g.WellFormed) (h : Complete g states)
    {α : List Symbol} {i : Item} {u : Symbol} (hv : g.Valid α i u) :
    ∃ q σ s, Spells (Leads states) α (q :: σ) ∧ states[q]? = some s ∧
      ItemSet.Allows g s.kernel i u := by
  induction hv with
  | initial =>
    obtain ⟨s, hs, hk⟩ := h.start
    refine ⟨1, [], s, .start, hs, .given (hk ▸ List.mem_singleton_self _) rfl ?_⟩
    simp [TokenSet.contains_singleton]
  | opened _ hss hn ht ih =>
    obtain ⟨q, σ, s, hsp, hs, ha⟩ := ih
    exact ⟨q, σ, s, hsp, hs, ha.opened hss hn ht.ahead⟩
  | @moved α i u x ss _ hss ih =>
    obtain ⟨q, σ, s, hsp, hs, ha⟩ := ih
    have hx : i.next? g = some x := Item.next?_eq_some.2 ⟨ss, hss⟩
    obtain ⟨L, hL, hu⟩ := Analysis.mem_closure_of_allows wf ((h.kernel hs).within wf) ha
    rw [← h.closure hs] at hL
    obtain ⟨n, hn⟩ := h.exists_lookup hs hL hx
    obtain ⟨-, t, ht, hk⟩ := h.of_lookup hs hn
    refine ⟨n, q :: σ, t, hsp.push ⟨s, hs, hn⟩, ht, .given ?_ ha.isTerminal hu⟩
    rw [hk]
    exact ItemSet.mem_goto.2 ⟨i, hL, hx, rfl⟩

theorem Complete.mem_closure_of_valid {states : Array State} (wf : g.WellFormed)
    (h : Complete g states) {α : List Symbol} {i : Item} {u : Symbol} (hv : g.Valid α i u) {q : Nat}
    {σ : List Nat} (hsp : Spells (Leads states) α (q :: σ)) {s : State} (hs : states[q]? = some s) :
    ∃ L, (i, L) ∈ s.closure ∧ L.contains u = true := by
  obtain ⟨q', σ', s', hsp', hs', ha⟩ := h.allows_of_valid wf hv
  have hσ := hsp.unique hsp'
  obtain ⟨rfl, rfl⟩ := List.cons.inj hσ
  rw [hs] at hs'
  cases hs'
  rw [h.closure hs]
  exact Analysis.mem_closure_of_allows wf ((h.kernel hs).within wf) ha

/-- A symbol that can come onto the stack leads on. -/
theorem Complete.spells_of_viable {states : Array State} (wf : g.WellFormed) (h : Complete g states)
    {α : List Symbol} {x y : Symbol} (hv : g.Viable (α ++ [x]) y) {q : Nat} {σ : List Nat}
    (hsp : Spells (Leads states) α (q :: σ)) {s : State} (hs : states[q]? = some s) :
    ∃ n, s.successors.lookup x = some n ∧ Spells (Leads states) (α ++ [x]) (n :: q :: σ) := by
  obtain ⟨i, u, ss, hi, hss, -⟩ := hv.back
  obtain ⟨L, hL, -⟩ := h.mem_closure_of_valid wf hi hsp hs
  obtain ⟨n, hn⟩ := h.exists_lookup hs hL (Item.next?_eq_some.2 ⟨ss, hss⟩)
  exact ⟨n, hn, hsp.push ⟨s, hs, hn⟩⟩

end GrammarTables.Automaton
