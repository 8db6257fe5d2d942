import GrammarTables.Proofs.Evaluation
import GrammarTables.Proofs.Minimization
import Mathlib.Data.Set.Function

/-!
# Large states first

Putting the larger states first gives every state but the error and the start state a new number,
and no number twice. As the states behind the start state then stand by falling numbers of entries,
the large ones are those at the front.
-/

namespace GrammarTables

/-- The states of `states'` are those of `states` under the numbers that `f` gives. -/
structure Renumbers (states states' : Array State) (f : Nat → Nat) : Prop where
  bijOn : Set.BijOn f (Set.Iio states.size) (Set.Iio states'.size)
  error : f ParseTable.errorState = ParseTable.errorState
  start : f ParseTable.startState = ParseTable.startState
  /-- A state keeps its core and its entries, but for the numbers of their targets. -/
  state : ∀ ⦃q : Nat⦄ ⦃s : State⦄, states[q]? = some s → states'[f q]? = some (s.mapTargets f)
  targeted : Targeted states'

/-- How far a list is taken where no member has the property behind one that has not. -/
theorem lt_length_takeWhile_iff {α : Type} {p : α → Bool} {l : List α} {n : Nat}
    (h : l.Pairwise fun x y => p y = true → p x = true) :
    n < (l.takeWhile p).length ↔ ∃ x, l[n]? = some x ∧ p x = true := by
  induction l generalizing n with
  | nil => simp
  | cons a l ih =>
    obtain ⟨ha, hl⟩ := List.pairwise_cons.1 h
    cases hpa : p a with
    | false =>
      have hnone : ∀ y ∈ l, p y = false := by
        intro y hy
        simpa [hpa] using ha y hy
      cases n with
      | zero => simp [hpa]
      | succ n => simpa [hpa] using fun x hx => hnone x (List.mem_of_getElem? hx)
    | true =>
      rw [List.takeWhile_cons_of_pos hpa]
      cases n with
      | zero => simp [hpa]
      | succ n => simpa using ih hl

@[simp] theorem State.entryCount_mapTargets (s : State) (f : Nat → Nat) :
    (s.mapTargets f).entryCount = s.entryCount := by
  simp only [entryCount, mapTargets, Array.countP_map]
  congr 2
  · funext as
    simp
  · funext target
    simp

namespace StateOrder

variable {states : Array State} {i j q : Nat} {s s' : State}

theorem exists_of_getElem?_states (h : (StateOrder.states states)[i]? = some s') :
    ∃ q s, (order states)[i]? = some q ∧ states[q]? = some s ∧
      s' = s.mapTargets (renumbered states) := by
  have hi : i < (order states).length := by
    simpa using (Array.getElem?_eq_some_iff.1 h).1
  have hq := List.getElem?_eq_getElem hi
  have hs := Array.getElem?_eq_getElem (mem_order.1 (List.getElem_mem hi))
  exact ⟨_, _, hq, hs, Option.some.inj (h.symm.trans (getElem?_states hs hq))⟩

theorem targeted_states (ht : Targeted states) : Targeted (StateOrder.states states) := by
  intro i s' hs' n hn
  obtain ⟨q, s, -, hs, rfl⟩ := exists_of_getElem?_states hs'
  obtain ⟨m, hm, rfl⟩ := State.mem_successors_mapTargets hn
  have hlt := (List.getElem?_eq_some_iff.1 (getElem?_order_renumbered (ht hs m hm))).1
  simpa using hlt

theorem bijOn_renumbered (states : Array State) :
    Set.BijOn (renumbered states) (Set.Iio states.size) (Set.Iio states.size) := by
  refine ⟨fun q hq => ?_, fun q hq q' hq' heq => ?_, fun i hi => ?_⟩
  · simpa using (List.getElem?_eq_some_iff.1 (getElem?_order_renumbered hq)).1
  · have h := getElem?_order_renumbered hq
    rw [heq, getElem?_order_renumbered hq'] at h
    exact (Option.some.inj h).symm
  · have hi' : i < (order states).length := by simpa using hi
    refine ⟨(order states)[i], mem_order.1 (List.getElem_mem hi'), ?_⟩
    exact renumbered_of_order (List.getElem?_eq_getElem hi')

theorem renumbers (hsize : 2 ≤ states.size) (ht : Targeted states) :
    Renumbers states (StateOrder.states states) (renumbered states) where
  bijOn := by simpa using bijOn_renumbered states
  error := renumbered_of_lt hsize (by decide)
  start := renumbered_start hsize
  state q s hs := by
    have hlt := (Array.getElem?_eq_some_iff.1 hs).1
    exact getElem?_states hs (getElem?_order_renumbered hlt)
  targeted := targeted_states ht

/-- Behind the start state the numbers of entries fall. -/
theorem pairwise_order (states : Array State) : ((order states).drop 2).Pairwise fun q q' =>
    ∀ ⦃s s' : State⦄, states[q]? = some s → states[q']? = some s' →
      s'.entryCount ≤ s.entryCount := by
  let counts := (states.toList.zipIdx.map fun x => (x.2, x.1.entryCount)).drop 2
  have hcount : ∀ x ∈ counts, ∀ s, states[x.1]? = some s → x.2 = s.entryCount := by
    intro x hx s hs
    obtain ⟨⟨s', i⟩, hmem, rfl⟩ := List.mem_map.1 (List.mem_of_mem_drop hx)
    have hs' : states[i]? = some s' := by simpa using List.mk_mem_zipIdx_iff_getElem?.1 hmem
    rw [Option.some.inj (hs'.symm.trans hs)]
  have hsorted : (counts.mergeSort fun x y => y.2 ≤ x.2).Pairwise fun x y => y.2 ≤ x.2 := by
    refine (List.pairwise_mergeSort ?_ ?_ counts).imp of_decide_eq_true
    · simp only [decide_eq_true_eq]
      exact fun _ _ _ h h' => h'.trans h
    · intro x y
      simp [Nat.le_total]
  have hdrop : ((order states).drop 2).Sublist
      ((counts.mergeSort fun x y => y.2 ≤ x.2).map (·.1)) := by
    rw [order, List.drop_append, List.drop_eq_nil_of_le (List.length_take_le 2 _), List.nil_append]
    exact List.drop_sublist _ _
  refine List.Pairwise.sublist hdrop (List.pairwise_map.2 (hsorted.imp_of_mem ?_))
  intro x y hx hy hle s s' hs hs'
  rw [← hcount x (List.mem_mergeSort.1 hx) s hs, ← hcount y (List.mem_mergeSort.1 hy) s' hs']
  exact hle

theorem entryCount_le (hi : 2 ≤ i) (hij : i ≤ j) (hs : (StateOrder.states states)[i]? = some s)
    (hs' : (StateOrder.states states)[j]? = some s') : s'.entryCount ≤ s.entryCount := by
  obtain rfl | hlt := hij.eq_or_lt
  · exact (congrArg State.entryCount (Option.some.inj (hs'.symm.trans hs))).le
  · obtain ⟨q, s, hq, hs, rfl⟩ := exists_of_getElem?_states hs
    obtain ⟨q', s', hq', hs', rfl⟩ := exists_of_getElem?_states hs'
    have hdrop : ((order states).drop 2)[i - 2]? = some q := by
      rwa [List.getElem?_drop, Nat.add_sub_cancel' hi]
    have hdrop' : ((order states).drop 2)[j - 2]? = some q' := by
      rwa [List.getElem?_drop, Nat.add_sub_cancel' (hi.trans hij)]
    obtain ⟨hin, rfl⟩ := List.getElem?_eq_some_iff.1 hdrop
    obtain ⟨hjn, rfl⟩ := List.getElem?_eq_some_iff.1 hdrop'
    rw [State.entryCount_mapTargets, State.entryCount_mapTargets]
    exact List.pairwise_iff_getElem.1 (pairwise_order states) _ _ hin hjn (by omega) hs hs'

/-- The states that are counted as large are the large ones, wherever they stand. -/
theorem lt_largeCount_iff {g : FlatGrammar} :
    q < largeCount g (StateOrder.states states) ↔ ∃ s, (StateOrder.states states)[q]? = some s ∧
      (q ≤ ParseTable.startState ∨ threshold g < s.entryCount) := by
  rw [largeCount, lt_length_takeWhile_iff]
  · constructor
    · rintro ⟨⟨s, i⟩, hx, hp⟩
      obtain ⟨hs, rfl⟩ : (StateOrder.states states)[q]? = some s ∧ q = i := by
        simpa [List.getElem?_zipIdx] using hx
      exact ⟨s, hs, by simpa using hp⟩
    · rintro ⟨s, hs, hp⟩
      refine ⟨(s, q), ?_, by simpa using hp⟩
      simpa [List.getElem?_zipIdx] using hs
  · rw [List.pairwise_iff_getElem]
    intro i j hi hj hij hp
    have hin : i < (StateOrder.states states).size := by simpa using hi
    have hjn : j < (StateOrder.states states).size := by simpa using hj
    simp only [List.getElem_zipIdx, Array.getElem_toList, Nat.zero_add, Bool.or_eq_true,
      decide_eq_true_eq] at hp ⊢
    by_cases hstart : i ≤ ParseTable.startState
    · exact .inl hstart
    · have hlarge := hp.resolve_left fun h => hstart (hij.le.trans h)
      exact .inr (hlarge.trans_le (entryCount_le (Nat.lt_of_not_le hstart) hij.le
        (Array.getElem?_eq_getElem hin) (Array.getElem?_eq_getElem hjn)))

end StateOrder

/-- Putting the larger states first renames states, and the large states of a grammar's tables are
those with the lowest numbers. -/
theorem large_states_first {states : Array State} (hsize : 2 ≤ states.size)
    (ht : Targeted states) {g : FlatGrammar} {tables : Tables}
    (h : Tables.ofGrammar g = .ok tables) :
    Renumbers states (StateOrder.states states) (StateOrder.renumbered states) ∧
      ∀ q, q < tables.largeCount ↔ ∃ s, tables.table.states[q]? = some s ∧
        (q ≤ ParseTable.startState ∨ min 64 (g.symbolCount / 2) < s.entryCount) := by
  obtain ⟨⟨canonical, conflicts⟩, -, h⟩ := bind_eq_ok.1 h
  cases h
  exact ⟨StateOrder.renumbers hsize ht, fun q => StateOrder.lt_largeCount_iff⟩

/-- Four states, of which the last has more entries than the one before it. -/
def StateOrder.uneven : Array State :=
  #[{ actions := #[[.recover]], gotos := #[], core := 0 },
    { actions := #[[], [.shift 2 false]], gotos := #[some 3], core := 1 },
    { actions := #[[.reduce ⟨.nonterminal 0, 1, 0, 0⟩]], gotos := #[], core := 2 },
    { actions := #[[.accept], [.shift 2 true]], gotos := #[], core := 3 }]

/-- The last two states change their places, and what leads to them changes with them. -/
theorem large_states_first_uneven : ∃ g tables, FlatGrammar.ofGrammar .single = .ok g ∧
    2 ≤ StateOrder.uneven.size ∧ Targeted StateOrder.uneven ∧ Tables.ofGrammar g = .ok tables ∧
    (Renumbers StateOrder.uneven (StateOrder.states StateOrder.uneven)
        (StateOrder.renumbered StateOrder.uneven) ∧
      ∀ q, q < tables.largeCount ↔ ∃ s, tables.table.states[q]? = some s ∧
        (q ≤ ParseTable.startState ∨ min 64 (g.symbolCount / 2) < s.entryCount)) ∧
    (StateOrder.states StateOrder.uneven).map (·.successors) = #[[], [3, 2], [3], []] := by
  obtain ⟨g, tables, -, h, ht, -⟩ := Encoding.exists_single
  have htargeted : Targeted StateOrder.uneven := by
    intro q s hs n hn
    have hall : ∀ s ∈ StateOrder.uneven.toList, ∀ n ∈ s.successors,
        n < StateOrder.uneven.size := by decide
    exact hall s (Array.mem_toList_iff.2 (Array.mem_of_getElem? hs)) n hn
  have hsuccessors : (StateOrder.states StateOrder.uneven).map (·.successors) =
      #[[], [3, 2], [3], []] := by
    simp only [StateOrder.states, StateOrder.order_eq]
    decide +kernel
  exact ⟨g, tables, h, by decide, htargeted, ht, large_states_first (by decide) htargeted ht,
    hsuccessors⟩

end GrammarTables
