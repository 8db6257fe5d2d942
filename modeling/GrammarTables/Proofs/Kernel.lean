import GrammarTables.Item.Automaton
import GrammarTables.Proofs.Closure
import GrammarTables.Proofs.Comparison
import GrammarTables.Proofs.Listing
import Mathlib.Data.List.Nodup
import Mathlib.Data.List.Sort
import Mathlib.Data.Finset.Prod
import Mathlib.Data.Finset.Powerset

/-!
# Kernels

A kernel lists items of the grammar in ascending order, each once. Moving the dots of a closure past
a symbol gives a kernel again, so all states of the automaton have kernels. A grammar has only
finitely many kernels, which is what bounds the automaton.
-/

namespace GrammarTables

open Std

namespace Item

/-- An item of a production that the grammar has. -/
def Belongs (g : FlatGrammar) (i : Item) : Prop :=
  match i.head with
  | .start => i.production = 0 ∧ i.dot ≤ 1
  | .nonterminal v => ∃ h : i.production < (g.productionsOf (.nonterminal v)).length,
      i.dot ≤ (g.productionsOf (.nonterminal v))[i.production].steps.length

variable {g : FlatGrammar} {i : Item}

theorem belongs_initial : initial.Belongs g := ⟨rfl, Nat.zero_le 1⟩

theorem rest_advance (g : FlatGrammar) (i : Item) : i.advance.rest g = (i.rest g).tail := by
  rw [rest, rest, ← List.drop_add_one_eq_tail_drop]
  rfl

/-- The symbol after the dot is the first of the symbols after the dot. -/
theorem next?_eq_some {s : Symbol} : i.next? g = some s ↔ ∃ ss, i.after g = s :: ss := by
  unfold next? after
  cases i.rest g with
  | nil => simp
  | cons step rest => simp

theorem next?_eq_none : i.next? g = none ↔ i.after g = [] := by
  unfold next? after
  cases i.rest g <;> simp

theorem after_advance {s : Symbol} {ss : List Symbol} (h : i.after g = s :: ss) :
    i.advance.after g = ss := by
  have h' := congrArg List.tail h
  rwa [after, ← List.map_tail, ← rest_advance] at h'

theorem Belongs.advance (h : i.Belongs g) {s : Symbol} (hs : i.next? g = some s) :
    i.advance.Belongs g := by
  have hlt : i.dot < (i.productionIn g).steps.length := by
    by_contra hge
    simp [next?, rest, List.drop_eq_nil_of_le (Nat.le_of_not_lt hge)] at hs
  obtain ⟨head, n, dot⟩ := i
  cases head with
  | start =>
    obtain ⟨rfl, -⟩ := h
    simp only [productionIn, Production.start, List.length_singleton] at hlt
    exact ⟨rfl, hlt⟩
  | nonterminal v =>
    obtain ⟨hn, -⟩ := h
    rw [productionIn_nonterminal hn] at hlt
    exact ⟨hn, hlt⟩

theorem advance_injective {i j : Item} (h : i.advance = j.advance) : i = j := by
  obtain ⟨head, n, dot⟩ := i
  obtain ⟨head', n', dot'⟩ := j
  simp only [Item.advance, Item.mk.injEq, Nat.add_right_cancel_iff] at h
  simp [h]

theorem belongs_start_of {v n : Nat} (hn : n < (g.productionsOf (.nonterminal v)).length) :
    Belongs g ⟨.nonterminal v, n, 0⟩ := ⟨hn, Nat.zero_le _⟩

end Item

namespace FlatGrammar

/-- The items of the variables' productions. -/
def productionItems (g : FlatGrammar) : List Item :=
  g.vars.toList.zipIdx.flatMap fun (var, v) =>
    var.productions.zipIdx.flatMap fun (p, n) =>
      (List.range (p.steps.length + 1)).map fun d => ⟨.nonterminal v, n, d⟩

/-- All items of the grammar. -/
def items (g : FlatGrammar) : List Item := .initial :: Item.initial.advance :: g.productionItems

theorem length_items (g : FlatGrammar) : g.items.length = Automaton.itemCount g := by
  have hsum : ∀ (ps : List Production) (k : Nat),
      ps.foldl (fun n p => n + p.steps.length + 1) k =
        k + (ps.map fun p => p.steps.length + 1).sum := by
    intro ps
    induction ps with
    | nil => simp
    | cons p ps ih =>
      intro k
      rw [List.foldl_cons, ih, List.map_cons, List.sum_cons]
      omega
  have hzip : ∀ {α : Type} (f : α → Nat) (l : List α) (k : Nat),
      ((l.zipIdx k).map fun x => f x.1).sum = (l.map f).sum := by
    intro α f l
    induction l with
    | nil => simp
    | cons a l ih => intro k; simp [ih]
  have hvar : ∀ var : Variable, ∀ v : Nat, (var.productions.zipIdx.flatMap fun (p, n) =>
      (List.range (p.steps.length + 1)).map fun d =>
        (⟨.nonterminal v, n, d⟩ : Item)).length =
      (var.productions.map fun p => p.steps.length + 1).sum := by
    intro var v
    simp only [List.length_flatMap, List.length_map, List.length_range]
    exact hzip (fun p : Production => p.steps.length + 1) _ 0
  have hflat : ∀ vars : List Variable,
      ((vars.flatMap (·.productions)).map fun p => p.steps.length + 1).sum =
        (vars.map fun var => (var.productions.map fun p => p.steps.length + 1).sum).sum := by
    intro vars
    induction vars with
    | nil => rfl
    | cons var vars ih =>
      rw [List.flatMap_cons, List.map_append, List.sum_append, ih, List.map_cons, List.sum_cons]
  simp only [items, productionItems, List.length_cons, List.length_flatMap, hvar,
    Automaton.itemCount, hsum, hflat, hzip fun var : Variable =>
      (var.productions.map fun p => p.steps.length + 1).sum]
  omega

theorem mem_items_of_belongs {g : FlatGrammar} {i : Item} (h : i.Belongs g) : i ∈ g.items := by
  obtain ⟨head, n, dot⟩ := i
  cases head with
  | start =>
    obtain ⟨rfl, hd⟩ := h
    simp only at hd
    obtain rfl | rfl : dot = 0 ∨ dot = 1 := by omega
    · exact List.mem_cons_self
    · exact List.mem_cons_of_mem _ List.mem_cons_self
  | nonterminal v =>
    obtain ⟨hn, hd⟩ := h
    refine List.mem_cons_of_mem _ (List.mem_cons_of_mem _ ?_)
    obtain ⟨var, hvar⟩ : ∃ var, g.vars[v]? = some var := by
      exact ⟨_, Array.getElem?_eq_getElem (lt_of_productionsOf hn)⟩
    have heq := productionsOf_of_getElem? hvar
    simp only [heq] at hn hd
    simp only [productionItems, List.mem_flatMap, Prod.exists, List.mem_zipIdx_iff_getElem?,
      Array.getElem?_toList, List.mem_map, List.mem_range]
    exact ⟨var, v, hvar, _, n, List.getElem?_eq_getElem hn, dot, by omega, rfl⟩

end FlatGrammar

namespace ItemSet

/-- Items of the grammar in ascending order, each once. Only the initial item has its dot at the
start. The lookaheads have what lookaheads inherit. -/
structure Kernel (g : FlatGrammar) (items : ItemSet) : Prop where
  belongs : ∀ x ∈ items, x.1.Belongs g
  inherits : ∀ {P}, Lookaheads.Inherits g P → ∀ x ∈ items, P x.2
  ascending : items.Pairwise fun x y => compare x.1 y.1 = .lt
  moved : ∀ x ∈ items, x.1 = .initial ∨ 0 < x.1.dot

variable {g : FlatGrammar} {items : ItemSet}

theorem kernel_nil : Kernel g [] := by constructor <;> simp

theorem kernel_initial : Kernel g [(.initial, .singleton .eof)] := by
  refine ⟨?_, fun hP => ?_, List.pairwise_singleton _ _, ?_⟩
  · simpa using Item.belongs_initial
  · simpa using hP.eof
  · simp

theorem Kernel.within (wf : g.WellFormed) (h : Kernel g items) : items.Within g :=
  h.inherits (Analysis.inherits_within wf)

theorem Kernel.nodup (h : Kernel g items) : (items.map (·.1)).Nodup := by
  refine List.pairwise_map.2 (h.ascending.imp fun hxy heq => ?_)
  rw [heq] at hxy
  simp at hxy

end ItemSet

/-- The items that the variables' lookaheads give are different from each other. -/
theorem Lookaheads.nodup_items (known : Lookaheads) (g : FlatGrammar) :
    ((known.items g).map (·.1)).Nodup := by
  rw [Lookaheads.items, List.map_flatMap, List.nodup_flatMap]
  refine ⟨?_, ?_⟩
  · rintro ⟨⟨given, var⟩, v⟩ -
    cases given with
    | none => simp
    | some L =>
      simp only [List.map_map]
      refine List.Nodup.map (fun n m h => ?_) List.nodup_range
      simpa using h
  · have hidx : ((known.toList.zip g.vars.toList).zipIdx.map Prod.snd).Nodup := by
      rw [List.zipIdx_map_snd]
      exact List.nodup_range'
    refine (List.pairwise_map.1 hidx).imp ?_
    rintro ⟨⟨given, var⟩, v⟩ ⟨⟨given', var'⟩, v'⟩ hne i hi hi'
    cases given <;> cases given' <;> simp at hi hi'
    obtain ⟨n, -, rfl⟩ := hi
    obtain ⟨m, -, hm⟩ := hi'
    simp only [Item.mk.injEq, Head.nonterminal.injEq] at hm
    exact hne hm.1.symm

namespace ItemSet

variable {g : FlatGrammar} {kernel : ItemSet}

theorem Kernel.nodup_closure (h : Kernel g kernel) :
    (((Analysis.ofGrammar g).closure kernel).map (·.1)).Nodup := by
  rw [Analysis.closure_eq, List.map_append, List.nodup_append]
  refine ⟨h.nodup, Lookaheads.nodup_items _ g, ?_⟩
  intro i hi j hj hij
  subst hij
  obtain ⟨⟨_, L⟩, hx, rfl⟩ := List.mem_map.1 hi
  obtain ⟨⟨_, L'⟩, hy, hij⟩ := List.mem_map.1 hj
  subst hij
  obtain ⟨v, n, rfl, -, -⟩ := (Lookaheads.mem_items Analysis.size_lookaheads).1 hy
  rcases h.moved _ hx with hinit | hdot
  · cases hinit
  · exact absurd hdot (Nat.lt_irrefl 0)

theorem Kernel.belongs_closure (h : Kernel g kernel) {x : Item × TokenSet}
    (hx : x ∈ (Analysis.ofGrammar g).closure kernel) : x.1.Belongs g := by
  rcases Analysis.mem_closure.1 hx with hx | ⟨v, n, hi, hn, -⟩
  · exact h.belongs x hx
  · rw [hi]
    exact Item.belongs_start_of hn

/-- The kernel that a symbol leads to. -/
def goto (g : FlatGrammar) (items : ItemSet) (s : Symbol) : ItemSet :=
  sort ((moves g items).filterMap fun (t, moved) => if t = s then some moved else none)

theorem successors_eq (g : FlatGrammar) (items : ItemSet) :
    successors g items =
      (Ordered.ofList ((moves g items).map (·.1))).map fun s => (s, goto g items s) := rfl

theorem mem_goto {items : ItemSet} {s : Symbol} {j : Item} {given : TokenSet} :
    (j, given) ∈ goto g items s ↔ ∃ i, (i, given) ∈ items ∧ i.next? g = some s ∧ j = i.advance := by
  simp only [goto, sort, List.mem_mergeSort, List.mem_filterMap, moves, Prod.exists]
  constructor
  · rintro ⟨t, k, L, ⟨i, L', hi, hmap⟩, hif⟩
    obtain ⟨t', ht', heq⟩ := Option.map_eq_some_iff.1 hmap
    simp only [Prod.mk.injEq] at heq
    obtain ⟨rfl, rfl, rfl⟩ := heq
    split at hif
    · rename_i hts
      simp only [Option.some.injEq, Prod.mk.injEq] at hif
      obtain ⟨rfl, rfl⟩ := hif
      exact ⟨i, hi, hts ▸ ht', rfl⟩
    · cases hif
  · rintro ⟨i, hi, hs, rfl⟩
    exact ⟨s, i.advance, given, ⟨i, given, hi, by simp [hs]⟩, by simp⟩

/-- Sorting puts different items in order. -/
theorem ascending_sort {items : ItemSet} (h : items.Pairwise fun x y => x.1 ≠ y.1) :
    (sort items).Pairwise fun x y => compare x.1 y.1 = .lt := by
  have hle : (sort items).Pairwise fun x y => (compare x.1 y.1).isLE = true :=
    pairwise_mergeSort_isLE compare Prod.fst items
  have hne : (sort items).Pairwise fun x y => x.1 ≠ y.1 :=
    (List.mergeSort_perm _ _).symm.pairwise h Ne.symm
  refine (hle.and hne).imp fun ⟨hle, hne⟩ => ?_
  rcases Ordering.isLE_iff_eq_lt_or_eq_eq.1 hle with hlt | heq
  · exact hlt
  · exact absurd (LawfulEqCmp.eq_of_compare heq) hne

/-- The dots of different items are moved apart. -/
theorem ascending_goto {items : ItemSet} (h : (items.map (·.1)).Nodup) (s : Symbol) :
    (goto g items s).Pairwise fun x y => compare x.1 y.1 = .lt := by
  refine ascending_sort ?_
  rw [moves, List.filterMap_filterMap, List.pairwise_filterMap]
  refine (List.pairwise_map.1 h).imp ?_
  rintro ⟨i, L⟩ ⟨j, M⟩ hij x hx y hy hxy
  obtain ⟨⟨t, moved⟩, ht, hx⟩ := Option.bind_eq_some_iff.1 hx
  obtain ⟨⟨t', moved'⟩, ht', hy⟩ := Option.bind_eq_some_iff.1 hy
  obtain ⟨_, -, heq⟩ := Option.map_eq_some_iff.1 ht
  obtain ⟨_, -, heq'⟩ := Option.map_eq_some_iff.1 ht'
  simp only [Option.ite_none_right_eq_some, Option.some.injEq] at hx hy
  obtain ⟨-, rfl⟩ := hx
  obtain ⟨-, rfl⟩ := hy
  simp only [Prod.mk.injEq] at heq heq'
  obtain ⟨rfl, rfl⟩ := heq
  obtain ⟨rfl, rfl⟩ := heq'
  exact hij (Item.advance_injective hxy)

theorem Kernel.goto (h : Kernel g kernel) (s : Symbol) :
    Kernel g (ItemSet.goto g ((Analysis.ofGrammar g).closure kernel) s) := by
  refine ⟨?_, fun hP => ?_, ?_, ?_⟩
  · rintro ⟨j, L⟩ hj
    obtain ⟨i, hi, hs, rfl⟩ := mem_goto.1 hj
    exact (h.belongs_closure hi).advance hs
  · rintro ⟨j, L⟩ hj
    obtain ⟨i, hi, hs, rfl⟩ := mem_goto.1 hj
    exact Analysis.inherits_closure hP (h.inherits hP) (i, L) hi
  · exact ascending_goto h.nodup_closure s
  · rintro ⟨j, L⟩ hj
    obtain ⟨i, hi, hs, rfl⟩ := mem_goto.1 hj
    exact .inr (Nat.succ_pos _)

/-- Ascending item sets with the same members are the same list. -/
theorem ext_of_ascending {items items' : ItemSet}
    (h : items.Pairwise fun x y => compare x.1 y.1 = .lt)
    (h' : items'.Pairwise fun x y => compare x.1 y.1 = .lt)
    (hmem : ∀ x, x ∈ items ↔ x ∈ items') : items = items' := by
  have hnodup : ∀ {l : ItemSet}, (l.Pairwise fun x y => compare x.1 y.1 = .lt) → l.Nodup := by
    refine fun hl => hl.imp fun hxy heq => ?_
    rw [heq] at hxy
    simp at hxy
  refine List.Perm.eq_of_pairwise ?_ h h'
    ((List.perm_ext_iff_of_nodup (hnodup h) (hnodup h')).2 hmem)
  intro x y _ _ hxy hyx
  have hgt : compare x.1 y.1 = .gt := OrientedCmp.gt_of_lt hyx
  rw [hgt] at hxy
  cases hxy

theorem Kernel.ext {items items' : ItemSet} (h : Kernel g items) (h' : Kernel g items')
    (hmem : ∀ x, x ∈ items ↔ x ∈ items') : items = items' :=
  ext_of_ascending h.ascending h'.ascending hmem

/-- The items of a kernel, and with each the places of its lookaheads. -/
def code (g : FlatGrammar) (items : ItemSet) : Finset (Item × Nat) :=
  ((g.items.toFinset ×ˢ Finset.range (g.tokenCount + 1))).filter fun y =>
    ∃ x ∈ items, x.1 = y.1 ∧ (y.2 = 0 ∨ x.2.mask.testBit (y.2 - 1) = true)

theorem Kernel.mem_of_code_eq (wf : g.WellFormed) {items items' : ItemSet} (h : Kernel g items)
    (h' : Kernel g items')
    (heq : code g items = code g items') {x : Item × TokenSet} (hx : x ∈ items) : x ∈ items' := by
  obtain ⟨i, L⟩ := x
  have hi : i ∈ g.items.toFinset := by simpa using FlatGrammar.mem_items_of_belongs (h.belongs _ hx)
  -- The item itself is in the other kernel, with some lookaheads.
  have h0 : (i, 0) ∈ code g items' := by
    rw [← heq]
    refine Finset.mem_filter.2 ⟨Finset.mem_product.2 ⟨hi, ?_⟩, _, hx, rfl, .inl rfl⟩
    exact Finset.mem_range.2 (Nat.succ_pos _)
  obtain ⟨-, ⟨_, L'⟩, hx', rfl, -⟩ := Finset.mem_filter.1 h0
  have bits : ∀ {items items' : ItemSet} {L L' : TokenSet}, Kernel g items → Kernel g items' →
      code g items = code g items' → ∀ {i}, (i, L) ∈ items → (i, L') ∈ items' →
      i ∈ g.items.toFinset → L ⊆ L' := by
    intro items items' L L' h h' heq i hx hx' hi b hb
    have hlt : b < g.tokenCount := (h.within wf _ hx).lt hb
    have hb' : (i, b + 1) ∈ code g items' := by
      rw [← heq]
      refine Finset.mem_filter.2 ⟨Finset.mem_product.2 ⟨hi, ?_⟩, _, hx, rfl, .inr hb⟩
      exact Finset.mem_range.2 (Nat.succ_lt_succ hlt)
    obtain ⟨-, ⟨_, L''⟩, hx'', hi', hb''⟩ := Finset.mem_filter.1 hb'
    obtain rfl : L'' = L' := by
      have := List.inj_on_of_nodup_map h'.nodup hx'' hx' hi'
      exact congrArg Prod.snd this
    simpa using hb''
  rw [TokenSet.subset_antisymm (bits h h' heq hx hx' hi) (bits h' h heq.symm hx' hx hi)]
  exact hx'

/-- There are fewer kernels than sets of items paired with places: no kernel has lookaheads of an
item that it does not have. -/
theorem length_kernels_lt (wf : g.WellFormed) {kernels : List ItemSet} (hnodup : kernels.Nodup)
    (hk : ∀ k ∈ kernels, Kernel g k) :
    kernels.length < 2 ^ (Automaton.itemCount g * (g.tokenCount + 1)) := by
  have hinj : (kernels.map (code g)).Nodup := by
    refine List.Nodup.map_on (fun k hk₁ k' hk₂ heq => ?_) hnodup
    have h := hk k hk₁
    have h' := hk k' hk₂
    exact h.ext h' fun x => ⟨h.mem_of_code_eq wf h' heq, h'.mem_of_code_eq wf h heq.symm⟩
  let all := g.items.toFinset ×ˢ Finset.range (g.tokenCount + 1)
  have hinitial : Item.initial ∈ g.items.toFinset := by simp [FlatGrammar.items]
  have hssub : (kernels.map (code g)).toFinset ⊂ all.powerset := by
    refine Finset.ssubset_iff_of_subset (fun c hc => ?_) |>.2 ⟨{(.initial, 1)}, ?_, fun hc => ?_⟩
    · obtain ⟨k, -, rfl⟩ := List.mem_map.1 (List.mem_toFinset.1 hc)
      exact Finset.mem_powerset.2 (Finset.filter_subset _ _)
    · refine Finset.mem_powerset.2 (Finset.singleton_subset_iff.2 (Finset.mem_product.2 ⟨?_, ?_⟩))
      · exact hinitial
      · exact Finset.mem_range.2 (by simp [FlatGrammar.tokenCount])
    · obtain ⟨k, -, hcode⟩ := List.mem_map.1 (List.mem_toFinset.1 hc)
      have h1 : (Item.initial, 1) ∈ code g k := hcode ▸ Finset.mem_singleton_self _
      obtain ⟨-, x, hx, hxi, -⟩ := Finset.mem_filter.1 h1
      have h0 : (Item.initial, 0) ∈ code g k := by
        refine Finset.mem_filter.2 ⟨Finset.mem_product.2 ⟨hinitial, ?_⟩, x, hx, hxi, .inl rfl⟩
        exact Finset.mem_range.2 (Nat.succ_pos _)
      rw [hcode, Finset.mem_singleton] at h0
      cases h0
  calc kernels.length
      = (kernels.map (code g)).toFinset.card := by
        rw [List.toFinset_card_of_nodup hinj, List.length_map]
    _ < all.powerset.card := Finset.card_lt_card hssub
    _ = 2 ^ (g.items.toFinset.card * (g.tokenCount + 1)) := by
        rw [Finset.card_powerset, Finset.card_product, Finset.card_range]
    _ ≤ 2 ^ (Automaton.itemCount g * (g.tokenCount + 1)) := by
        rw [← FlatGrammar.length_items]
        exact Nat.pow_le_pow_right (by omega)
          (Nat.mul_le_mul_right _ (List.toFinset_card_le g.items))

end ItemSet

end GrammarTables
