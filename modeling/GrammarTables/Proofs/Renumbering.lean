import GrammarTables.ParseTable.Bypass
import GrammarTables.ParseTable.Order
import GrammarTables.Proofs.Machine
import Mathlib.Data.List.Nodup

/-!
# States with new numbers

Leaving unused states out and putting the larger states first only renames states, and the start
state keeps its number.
-/

namespace GrammarTables

namespace State

variable {s : State} {n : Nat}

/-- The successors are the targets of shifts and the targets of variables. -/
theorem mem_successors : n ∈ s.successors ↔
    (∃ i r, .shift n r ∈ s.on (TokenSet.symbolAt i)) ∨ ∃ v, s.goto? v = some n := by
  constructor
  · intro h
    rcases List.mem_append.1 h with h | h
    · obtain ⟨as, has, hn⟩ := List.mem_flatMap.1 h
      obtain ⟨a, ha, hat⟩ := List.mem_filterMap.1 hn
      obtain ⟨i, hi⟩ := List.mem_iff_getElem?.1 has
      cases a <;> cases hat
      have hon : s.on (TokenSet.symbolAt i) = as := by
        rw [on, TokenSet.position_symbolAt, ← Array.getElem?_toList, hi]
        rfl
      exact .inl ⟨i, _, hon ▸ ha⟩
    · obtain ⟨x, hx, hxn⟩ := List.mem_filterMap.1 h
      obtain rfl : x = some n := hxn
      obtain ⟨v, hv⟩ := List.mem_iff_getElem?.1 hx
      refine .inr ⟨v, ?_⟩
      rw [goto?, ← Array.getElem?_toList, hv]
      rfl
  · rintro (⟨i, r, h⟩ | ⟨v, h⟩)
    · exact mem_successors_of_on h
    · exact mem_successors_of_goto? h

end State

/-- All targets are numbers of states. -/
def Targeted (states : Array State) : Prop :=
  ∀ ⦃q : Nat⦄ ⦃s : State⦄, states[q]? = some s → ∀ n ∈ s.successors, n < states.size

section

variable {ps : List (Nat × Nat)} {table : Array Nat} {i k : Nat}

theorem getElem?_assign_of_not_mem (h : i ∉ ps.map (·.1)) :
    (ps.foldl (fun table p => table.setIfInBounds p.1 p.2) table)[i]? = table[i]? := by
  induction ps generalizing table with
  | nil => rfl
  | cons p ps ih =>
    simp only [List.map_cons, List.mem_cons, not_or] at h
    rw [List.foldl_cons, ih h.2, Array.getElem?_setIfInBounds_ne (Ne.symm h.1)]

/-- A table that is filled in has the values that were put in it. -/
theorem getElem?_assign (hnd : (ps.map (·.1)).Nodup) (h : (i, k) ∈ ps) (hi : i < table.size) :
    (ps.foldl (fun table p => table.setIfInBounds p.1 p.2) table)[i]? = some k := by
  induction ps generalizing table with
  | nil => cases h
  | cons p ps ih =>
    rw [List.map_cons, List.nodup_cons] at hnd
    rw [List.foldl_cons]
    rcases List.mem_cons.1 h with rfl | h
    · rw [getElem?_assign_of_not_mem hnd.1, Array.getElem?_setIfInBounds_self_of_lt hi]
    · exact ih hnd.2 h (by rwa [Array.size_setIfInBounds])

end

namespace StateOrder

variable {states : Array State}

theorem order_perm (states : Array State) : (order states).Perm (List.range states.size) := by
  have hfst : (states.toList.zipIdx.map fun x => (x.2, x.1.entryCount)).map (·.1) =
      List.range states.size := by
    rw [List.map_map]
    change states.toList.zipIdx.map Prod.snd = _
    simp [List.zipIdx_map_snd, List.range_eq_range']
  have hrest : ((((states.toList.zipIdx.map fun x => (x.2, x.1.entryCount)).drop 2).mergeSort
      fun x y => y.2 ≤ x.2).map (·.1)).Perm ((List.range states.size).drop 2) := by
    rw [← hfst, ← List.map_drop (f := Prod.fst)]
    exact (List.mergeSort_perm _ _).map _
  have h := hrest.append_left ((List.range states.size).take 2)
  rwa [List.take_append_drop] at h

theorem nodup_order (states : Array State) : (order states).Nodup :=
  (order_perm states).nodup_iff.2 List.nodup_range

@[simp] theorem length_order (states : Array State) : (order states).length = states.size := by
  simpa using (order_perm states).length_eq

@[simp] theorem mem_order {i : Nat} : i ∈ order states ↔ i < states.size := by
  rw [(order_perm states).mem_iff, List.mem_range]

theorem getElem?_places {order : List Nat} (hnd : order.Nodup) {old new : Nat}
    (hlt : old < order.length) (h : order[new]? = some old) : (places order)[old]? = some new := by
  refine getElem?_assign ?_ (List.mk_mem_zipIdx_iff_getElem?.2 h) (by simpa using hlt)
  rwa [List.zipIdx_map_fst]

/-- The number that a state gets. -/
def renumbered (states : Array State) (q : Nat) : Nat := (places (order states))[q]?.getD 0

theorem renumbered_of_order {old new : Nat} (h : (order states)[new]? = some old) :
    renumbered states old = new := by
  have hlt : old < (order states).length := by
    simpa using mem_order.1 (List.mem_of_getElem? h)
  rw [renumbered, getElem?_places (nodup_order states) hlt h, Option.getD_some]

theorem getElem?_order_renumbered {q : Nat} (hq : q < states.size) :
    (order states)[renumbered states q]? = some q := by
  obtain ⟨new, hnew⟩ := List.mem_iff_getElem?.1 (mem_order.2 hq)
  rwa [renumbered_of_order hnew]

theorem states_eq (states : Array State) : StateOrder.states states =
    ((order states).map fun i =>
      (states[i]?.getD default).mapTargets (renumbered states)).toArray := by
  rw [← List.filterMap_eq_map]
  refine congrArg List.toArray (List.filterMap_congr fun i hi => ?_)
  rw [Function.comp_apply, Array.getElem?_eq_getElem (mem_order.1 hi)]
  rfl

@[simp] theorem size_states (states : Array State) :
    (StateOrder.states states).size = states.size := by
  simp [states_eq]

theorem getElem?_states {q new : Nat} {s : State} (hs : states[q]? = some s)
    (h : (order states)[new]? = some q) :
    (StateOrder.states states)[new]? = some (s.mapTargets (renumbered states)) := by
  rw [states_eq, List.getElem?_toArray, List.getElem?_map, h, Option.map_some, hs, Option.getD_some]

/-- Putting larger states first renames them. -/
theorem renames (ht : Targeted states) :
    Machine.Renames states (StateOrder.states states) (· < states.size) (renumbered states) :=
  fun _ hq =>
    have hs := Array.getElem?_eq_getElem hq
    ⟨_, hs, getElem?_states hs (getElem?_order_renumbered hq), ht hs⟩

/-- What renaming targets keeps holds of all states in their new order. -/
theorem forall_states {P : State → Prop} (hP : ∀ s f, P s → P (s.mapTargets f))
    (h : ∀ s ∈ states, P s) : ∀ s ∈ StateOrder.states states, P s := by
  intro s hs
  rw [StateOrder.states, List.mem_toArray] at hs
  obtain ⟨i, -, hi⟩ := List.mem_filterMap.1 hs
  obtain ⟨s', hs', rfl⟩ := Option.map_eq_some_iff.1 hi
  exact hP s' _ (h s' (Array.mem_of_getElem? hs'))

/-- The first two states stay where they are. -/
theorem renumbered_of_lt (h : 2 ≤ states.size) {i : Nat} (hi : i < 2) :
    renumbered states i = i := by
  apply renumbered_of_order
  rw [order, List.getElem?_append_left (by simp; omega), List.getElem?_take_of_lt hi,
    List.getElem?_range (by omega)]

theorem renumbered_start (h : 2 ≤ states.size) :
    renumbered states ParseTable.startState = ParseTable.startState :=
  renumbered_of_lt h (Nat.lt_succ_self 1)

end StateOrder

namespace Bypass

variable {states : Array State}

/-- A kept member is behind the kept members before it. -/
theorem getElem?_filter_countP {α : Type} {l : List α} {p : α → Bool} {i : Nat} {x : α}
    (h : l[i]? = some x) (hp : p x = true) : (l.filter p)[(l.take i).countP p]? = some x := by
  induction l generalizing i with
  | nil => simp at h
  | cons y l ih =>
    cases i with
    | zero =>
      obtain rfl : y = x := by simpa using h
      simp [hp]
    | succ i =>
      have h' := ih (by simpa using h)
      by_cases hy : p y = true
      · simpa [hy] using h'
      · simpa [hy] using h'

theorem getElem?_renumber (used : List Bool) {i : Nat} (hi : i < used.length) :
    (renumber used)[i]? = some ((used.take i).countP id) := by
  let step := fun (x : Nat × Array Nat) (u : Bool) => (if u then x.1 + 1 else x.1, x.2.push x.1)
  have keep : ∀ (us : List Bool) (x : Nat × Array Nat) (j : Nat), j < x.2.size →
      (us.foldl step x).2[j]? = x.2[j]? := by
    intro us
    induction us with
    | nil => intro x j _; rfl
    | cons u us ih =>
      intro x j hj
      rw [List.foldl_cons, ih _ _ (by simp [step]; omega)]
      simp [step, Array.getElem?_push, Nat.ne_of_lt hj]
  have key : ∀ (us : List Bool) (x : Nat × Array Nat) (j : Nat), j < us.length →
      (us.foldl step x).2[x.2.size + j]? = some (x.1 + (us.take j).countP id) := by
    intro us
    induction us with
    | nil => intro x j hj; cases hj
    | cons u us ih =>
      intro x j hj
      cases j with
      | zero =>
        rw [List.foldl_cons, keep _ _ _ (by simp [step])]
        simp [step]
      | succ j =>
        have h := ih (step x u) j (by simpa using hj)
        simp only [step, Array.size_push] at h
        rw [List.foldl_cons, Nat.add_comm j, ← Nat.add_assoc, h]
        cases u <;> simp [Nat.add_assoc, Nat.add_comm 1]
  have h := key used (0, #[]) i hi
  simpa [renumber, step] using h

/-- A state that is used. -/
def Live (states : Array State) (q : Nat) : Prop := (used states)[q]? = some true

theorem mark_keeps (ns : List Nat) (us : Array Bool) {i : Nat} (h : us[i]? = some true) :
    (ns.foldl (fun us i => us.setIfInBounds i true) us)[i]? = some true := by
  induction ns generalizing us with
  | nil => exact h
  | cons n ns ih =>
    apply ih
    rw [Array.getElem?_setIfInBounds]
    split
    · rename_i hn
      simp [hn, (Array.getElem?_eq_some_iff.1 h).1]
    · exact h

theorem mark_of_mem {ns : List Nat} {us : Array Bool} {i : Nat} (h : i ∈ ns) (hi : i < us.size) :
    (ns.foldl (fun us i => us.setIfInBounds i true) us)[i]? = some true := by
  induction ns generalizing us with
  | nil => cases h
  | cons n ns ih =>
    rw [List.foldl_cons]
    rcases List.mem_cons.1 h with rfl | h
    · exact mark_keeps ns _ (Array.getElem?_setIfInBounds_self_of_lt hi)
    · exact ih h (by rwa [Array.size_setIfInBounds])

@[simp] theorem size_mark (ns : List Nat) (us : Array Bool) :
    (ns.foldl (fun us i => us.setIfInBounds i true) us).size = us.size := by
  induction ns generalizing us with
  | nil => rfl
  | cons n ns ih => rw [List.foldl_cons, ih, Array.size_setIfInBounds]

/-- The marks after the successors of some states are marked. -/
def markAll (ss : List State) (us : Array Bool) : Array Bool :=
  ss.foldl (fun us s => s.successors.foldl (fun us i => us.setIfInBounds i true) us) us

theorem used_eq (states : Array State) : used states =
    markAll states.toList (states.mapIdx fun i _ => i ≤ ParseTable.startState) := by
  rw [used, markAll, Array.foldl_toList]

@[simp] theorem size_markAll (ss : List State) (us : Array Bool) :
    (markAll ss us).size = us.size := by
  induction ss generalizing us with
  | nil => rfl
  | cons s ss ih => exact (ih _).trans (size_mark _ _)

theorem markAll_keeps (ss : List State) (us : Array Bool) {i : Nat} (h : us[i]? = some true) :
    (markAll ss us)[i]? = some true := by
  induction ss generalizing us with
  | nil => exact h
  | cons s ss ih => exact ih _ (mark_keeps _ _ h)

theorem markAll_of_mem {ss : List State} {us : Array Bool} {s : State} (hs : s ∈ ss) {i : Nat}
    (h : i ∈ s.successors) (hi : i < us.size) : (markAll ss us)[i]? = some true := by
  induction ss generalizing us with
  | nil => cases hs
  | cons s' ss ih =>
    rcases List.mem_cons.1 hs with rfl | hs
    · exact markAll_keeps ss _ (mark_of_mem h hi)
    · exact ih hs (by rwa [size_mark])

@[simp] theorem size_used (states : Array State) : (used states).size = states.size := by
  rw [used_eq, size_markAll, Array.size_mapIdx]

theorem live_of_le (h : 2 ≤ states.size) {i : Nat} (hi : i ≤ ParseTable.startState) :
    Live states i := by
  have hlt : i < states.size := by
    simp only [ParseTable.startState] at hi
    omega
  rw [Live, used_eq]
  apply markAll_keeps
  simp [hlt, hi]

theorem live_of_mem_successors (ht : Targeted states) {q : Nat} {s : State}
    (hs : states[q]? = some s) {n : Nat} (hn : n ∈ s.successors) : Live states n := by
  rw [Live, used_eq]
  apply markAll_of_mem (Array.mem_toList_iff.2 (Array.mem_of_getElem? hs)) hn
  simpa using ht hs n hn

/-- The number of a state when the unused ones are left out. -/
def renumbered (states : Array State) (q : Nat) : Nat :=
  (renumber (used states).toList)[q]?.getD 0

theorem renumbered_eq {q : Nat} (hq : q < states.size) :
    renumbered states q = ((used states).toList.take q).countP id := by
  rw [renumbered, getElem?_renumber _ (by simpa using hq), Option.getD_some]

/-- Leaving unused states out renames the others. -/
theorem renames_prune (ht : Targeted states) :
    Machine.Renames states (prune states) (Live states) (renumbered states) := by
  intro q hq
  have hlt : q < states.size := by simpa using (Array.getElem?_eq_some_iff.1 hq).1
  have hs := Array.getElem?_eq_getElem hlt
  refine ⟨states[q], hs, ?_, fun n => live_of_mem_successors ht hs⟩
  have hzip : (states.toList.zip (used states).toList)[q]? = some (states[q], true) := by
    rw [List.getElem?_zip_eq_some]
    exact ⟨by simp [hlt], by simpa [Live] using hq⟩
  have hcount : ((states.toList.zip (used states).toList).take q).countP (·.2) =
      renumbered states q := by
    have hsnd : ((states.toList.take q).zip ((used states).toList.take q)).map Prod.snd =
        (used states).toList.take q := List.map_snd_zip (by simp)
    rw [renumbered_eq hlt, List.zip_eq_zipWith, List.take_zipWith, ← List.zip_eq_zipWith]
    conv_rhs => rw [← hsnd, List.countP_map]
    rfl
  have h := getElem?_filter_countP (p := Prod.snd) hzip rfl
  rw [hcount] at h
  simp only [prune, Array.getElem?_map]
  change Option.map (fun x : State × Bool => x.1.mapTargets (renumbered states)) _ = _
  rw [← Array.getElem?_toList, Array.toList_filter, Array.toList_zip, h]
  rfl

/-- What renaming targets keeps holds of all states that are not passed by. -/
theorem forall_states {g : FlatGrammar} {P : State → Prop} (hP : ∀ s f, P s → P (s.mapTargets f))
    (h : ∀ s ∈ states, P s) : ∀ s ∈ Bypass.states g states, P s := by
  intro s hs
  obtain ⟨⟨s', u⟩, hs', rfl⟩ := Array.mem_map.1 hs
  obtain ⟨s'', hs'', rfl⟩ := Array.mem_map.1 (Array.of_mem_zip (Array.mem_filter.1 hs').1).1
  exact hP _ _ (hP s'' _ (h s'' hs''))

theorem renumbered_start (h : 2 ≤ states.size) :
    renumbered states ParseTable.startState = ParseTable.startState := by
  have h0 : (used states).toList[0]? = some true := by
    rw [Array.getElem?_toList]
    exact live_of_le h (Nat.zero_le _)
  rw [renumbered_eq (by simp [ParseTable.startState]; omega), ParseTable.startState]
  cases hu : (used states).toList with
  | nil => simp [hu] at h0
  | cons u us =>
    obtain rfl : u = true := by simpa [hu] using h0
    rfl

end Bypass

end GrammarTables
