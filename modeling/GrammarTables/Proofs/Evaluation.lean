import GrammarTables.Proofs.Limits
import GrammarTables.Proofs.Listing
import GrammarTables.Proofs.Rows
import Mathlib.Data.List.Sort

/-!
# Evaluating tables

A value's number can be searched for among the members instead of being looked up. Both give the
same numbers, and with the search the tables of a given grammar are computed in the logic.
-/

namespace GrammarTables

namespace Numbering

section

variable {α β : Type} [BEq α]

/-- The number of a value by searching the members for it, and the members with it. -/
def search (members : List α) (a : α) : Nat × List α :=
  match members.idxOf? a with
  | some i => (i, members)
  | none => (members.length, members ++ [a])

def searchAll : List (β × α) → List α → List (β × Nat) × List α
  | [], members => ([], members)
  | (b, a) :: rest, members =>
    let found := search members a
    let all := searchAll rest found.2
    ((b, found.1) :: all.1, all.2)

def searchList (values : List α) : List Nat × List α :=
  values.foldl
    (fun x a =>
      let found := search x.2 a
      (x.1 ++ [found.1], found.2))
    ([], [])

end

variable {α β : Type} [BEq α] [Hashable α] [LawfulBEq α] {n : Numbering α}

theorem Valid.number_eq (h : Valid n) (a : α) :
    search n.members.toList a = ((n.number a).1, (n.number a).2.members.toList) := by
  unfold Numbering.number search
  cases hs : n.members.toList.idxOf? a with
  | some i =>
    obtain ⟨hlt, heq, -⟩ := List.idxOf?_eq_some_iff.1 hs
    have hi : n.numbers[a]? = some i :=
      (h a i).2 (by rw [← Array.getElem?_toList, List.getElem?_eq_getElem hlt, heq])
    simp [hi]
  | none =>
    have hnone : n.numbers[a]? = none := by
      rw [Option.eq_none_iff_forall_ne_some]
      intro i hi
      have hmem := Array.mem_of_getElem? ((h a i).1 hi)
      exact List.idxOf?_eq_none_iff.1 hs (Array.mem_toList_iff.2 hmem)
    simp [hnone]

theorem Valid.numberAll_eq (h : Valid n) (xs : List (β × α)) :
    searchAll xs n.members.toList =
      ((Numbering.numberAll xs n).1, (Numbering.numberAll xs n).2.members.toList) := by
  induction xs generalizing n with
  | nil => rfl
  | cons x xs ih =>
    obtain ⟨b, a⟩ := x
    simp only [searchAll, h.number_eq a, ih (h.number a).1, Numbering.numberAll]

omit [LawfulBEq α] in
/-- Where a step of the search gives what a step of the numbering gives, both give the same for all
values. -/
theorem foldl_eq {γ : Type} (number : Numbering α → β → γ × Numbering α)
    (find : List α → β → γ × List α)
    (hstep : ∀ n b, Valid n → Valid (number n b).2 ∧
      find n.members.toList b = ((number n b).1, (number n b).2.members.toList))
    (bs : List β) (x : Array γ × Numbering α) (hx : x.2.Valid) :
    bs.foldl (fun y b => (y.1 ++ [(find y.2 b).1], (find y.2 b).2))
      (x.1.toList, x.2.members.toList) =
    Prod.map Array.toList (·.members.toList)
      (bs.foldl (fun y b => (y.1.push (number y.2 b).1, (number y.2 b).2)) x) := by
  induction bs generalizing x with
  | nil => rfl
  | cons b bs ih =>
    obtain ⟨hvalid, heq⟩ := hstep x.2 b hx
    simpa [heq] using ih (x.1.push (number x.2 b).1, (number x.2 b).2) hvalid

theorem ofList_eq (values : List α) : ofList values = searchList values :=
  (foldl_eq Numbering.number search (fun _ a h => ⟨(h.number a).1, h.number_eq a⟩) values
    (#[], {}) valid_empty).symm

end Numbering

namespace Encoding

/-- The numbers of entries by searching those that were met before. -/
def searchEntries (states : List (List (Nat × ActionEntry))) :
    List (List (Nat × Nat)) × List ActionEntry :=
  states.foldl
    (fun x entries =>
      let found := Numbering.searchAll entries x.2
      (x.1 ++ [found.1], found.2))
    ([], [])

theorem numberEntries_eq (states : List (List (Nat × ActionEntry))) :
    numberEntries states = searchEntries states :=
  (Numbering.foldl_eq (fun n entries => Numbering.numberAll entries n)
    (fun members entries => Numbering.searchAll entries members)
    (fun _ entries h => ⟨(h.numberAll entries).1, h.numberAll_eq entries⟩) states (#[], {})
    Numbering.valid_empty).symm

end Encoding

namespace Automaton

/-- Visits the kernels of a list in order, and searches it for the kernels that symbols lead to. -/
def searchStates (a : Analysis) : Nat → Array State → List ItemSet → Array State
  | 0, done, _ => done
  | fuel + 1, done, kernels =>
    match kernels[done.size]? with
    | none => done
    | some kernel =>
      let closure := a.closure kernel
      let found := Numbering.searchAll (closure.successors a.grammar) kernels
      searchStates a fuel (done.push { kernel, closure, successors := found.1 }) found.2

theorem explore_eq (a : Analysis) (fuel : Nat) (done : Array State) {kernels : Numbering ItemSet}
    (h : kernels.Valid) :
    explore a fuel done kernels = searchStates a fuel done kernels.members.toList := by
  induction fuel generalizing done kernels with
  | zero => rfl
  | succ fuel ih =>
    simp only [explore, searchStates, Array.getElem?_toList]
    cases kernels.members[done.size]? with
    | none => rfl
    | some kernel =>
      simp only [h.numberAll_eq]
      exact ih _ (h.numberAll _).1

theorem states_eq (a : Analysis) : states a =
    searchStates a (Nat.pow 2 (itemCount a.grammar * (a.grammar.tokenCount + 1)) + 2) #[]
      [[], [(Item.initial, .singleton .eof)]] := by
  have hvalid : initialKernels.Valid :=
    (((Numbering.valid_empty (α := ItemSet)).number []).1.number _).1
  have hmembers : initialKernels.members.toList = [[], [(Item.initial, .singleton .eof)]] := by
    simp [initialKernels, Numbering.number]
  rw [states, explore_eq _ _ _ hvalid, hmembers]

end Automaton

/-- Sorting inserts each member in front of those that it is not above. -/
theorem mergeSort_eq_insertionSort {α : Type} {le : α → α → Bool}
    (trans : ∀ a b c, le a b = true → le b c = true → le a c = true)
    (total : ∀ a b, (le a b || le b a) = true) (l : List α) :
    l.mergeSort le = l.insertionSort fun a b => le a b = true := by
  have hinsert : ∀ (a : α) (l₁ l₂ : List α), (∀ b ∈ l₁, (!le a b) = true) →
      (∀ c ∈ l₂, le a c = true) →
      (l₁ ++ l₂).orderedInsert (fun a b => le a b = true) a = l₁ ++ a :: l₂ := by
    intro a l₁ l₂ h₁ h₂
    induction l₁ with
    | nil =>
      cases l₂ with
      | nil => rfl
      | cons c l₂ => exact List.orderedInsert_cons_of_le _ _ (h₂ c List.mem_cons_self)
    | cons b l₁ ih =>
      obtain ⟨hb, h₁⟩ := List.forall_mem_cons.1 h₁
      rw [List.cons_append, List.orderedInsert_of_not_le _ _ (by simpa using hb), ih h₁]
      rfl
  induction l with
  | nil => simp
  | cons a l ih =>
    obtain ⟨l₁, l₂, hcons, hl, hlt⟩ := List.mergeSort_cons trans total a l
    have hsorted := List.pairwise_mergeSort trans total (a :: l)
    rw [hcons, List.pairwise_append, List.pairwise_cons] at hsorted
    rw [List.insertionSort_cons, ← ih, hcons, hl, hinsert a l₁ l₂ hlt hsorted.2.1.1]

namespace ItemSet

/-- The kernels that symbols lead to, with their items put in order by insertion. -/
def insertedSuccessors (g : FlatGrammar) (items : ItemSet) : List (Symbol × ItemSet) :=
  let moves := moves g items
  (Ordered.ofList (moves.map (·.1))).map fun s =>
    (s, (moves.filterMap fun (t, moved) => if t = s then some moved else none).insertionSort
      fun x y => (compare x.1 y.1).isLE = true)

theorem insertedSuccessors_eq (g : FlatGrammar) (items : ItemSet) :
    insertedSuccessors g items = successors g items := by
  have hsort : ∀ items : ItemSet,
      items.insertionSort (fun x y => (compare x.1 y.1).isLE = true) = sort items := fun items =>
    (mergeSort_eq_insertionSort (fun _ _ _ => Std.TransCmp.isLE_trans)
      (fun x y => by simpa using isLE_total compare x.1 y.1) items).symm
  simp only [insertedSuccessors, successors, hsort]

end ItemSet

namespace Automaton

/-- Visits the kernels of a list in order, given the kernels that symbols lead to. -/
def visitStates (a : Analysis) (next : ItemSet → List (Symbol × ItemSet)) :
    Nat → Array State → List ItemSet → Array State
  | 0, done, _ => done
  | fuel + 1, done, kernels =>
    match kernels[done.size]? with
    | none => done
    | some kernel =>
      let closure := a.closure kernel
      let found := Numbering.searchAll (next closure) kernels
      visitStates a next fuel (done.push { kernel, closure, successors := found.1 }) found.2

theorem visitStates_successors (a : Analysis) (fuel : Nat) (done : Array State)
    (kernels : List ItemSet) : visitStates a (ItemSet.successors a.grammar) fuel done kernels =
      searchStates a fuel done kernels := by
  induction fuel generalizing done kernels with
  | zero => rfl
  | succ fuel ih =>
    simp only [visitStates, searchStates, ih]

/-- The states of a grammar, computed without sorting or looking up. -/
theorem states_eq_visitStates (a : Analysis) : states a =
    visitStates a (ItemSet.insertedSuccessors a.grammar)
      (Nat.pow 2 (itemCount a.grammar * (a.grammar.tokenCount + 1)) + 2) #[]
      [[], [(Item.initial, .singleton .eof)]] := by
  rw [funext (ItemSet.insertedSuccessors_eq a.grammar), visitStates_successors, states_eq]

end Automaton

theorem Merge.groups_eq (g : FlatGrammar) (states : Array State) : groups g states =
    (refine states.size (compatible g.overlaps (states.map (·.tokens)) states) (states.size + 1)
      (byCore states)).insertionSort
        fun a b => decide ((a.head?.getD 0) ≤ (b.head?.getD 0)) = true := by
  refine mergeSort_eq_insertionSort (fun a b c hab hbc => ?_) (fun a b => ?_) _
  · simp only [decide_eq_true_eq] at hab hbc ⊢
    exact hab.trans hbc
  · simpa using Nat.le_total _ _

theorem StateOrder.order_eq (states : Array State) : order states =
    (List.range states.size).take 2 ++
      (((states.toList.zipIdx.map fun (s, i) => (i, s.entryCount)).drop 2).insertionSort
        fun x y => decide (y.2 ≤ x.2) = true).map (·.1) := by
  rw [order, mergeSort_eq_insertionSort (fun a b c hab hbc => ?_) (fun a b => ?_)]
  · simp only [decide_eq_true_eq] at hab hbc ⊢
    exact hbc.trans hab
  · simpa using Nat.le_total _ _

/-- The order of the groups of a small state. -/
def Encoding.groupOrder : Group × Bool → Group × Bool → Ordering :=
  compareLex (compareOn (·.1.symbols.length)) (compareLex (compareOn (·.2)) (compareOn (·.1.value)))

theorem Encoding.smallGroups_eq (actions gotos : List (Nat × Nat)) : smallGroups actions gotos =
    (((groupsOf actions).map (·, false) ++ (groupsOf gotos).map (·, true)).insertionSort
      fun x y => (groupOrder x y).isLE = true).map (·.1) := by
  have htrans : Std.TransCmp groupOrder := by
    unfold groupOrder
    infer_instance
  change (List.mergeSort _ fun x y => (groupOrder x y).isLE).map (·.1) = _
  rw [mergeSort_eq_insertionSort (fun a b c => Std.TransCmp.isLE_trans) (fun a b => ?_)]
  simpa using isLE_total groupOrder a b

/-- Items between brackets, with blanks as extras. An item is a word, which has a state of its own
behind each bracket, or another token. -/
def Grammar.bracketed : Grammar where
  name := "bracketed"
  rules := [
    ⟨"start", .wrap (.dynamic 1) (.choice [.seq [.string "(", .symbol "_item", .string ")"],
      .seq [.string "[", .symbol "_item", .string "]"]])⟩,
    ⟨"_item", .choice [.symbol "word", .string "c"]⟩,
    ⟨"word", .string "a"⟩]
  extras := [.string " "]

/-- The reduction of a word to an item. -/
def Grammar.itemReduction : Reduction := ⟨.nonterminal 1, 1, 0, 0⟩

/-- The run of the canonical table for a word between round brackets, with a blank before it. -/
def Grammar.bracketedRun : List Event :=
  [.shift 0 false, .extra 6, .shift 4 false, .reduce Grammar.itemReduction, .shift 1 false,
    .reduce ⟨.nonterminal 0, 3, 1, 0⟩]

/-- The flat form of the grammar of items between brackets derives the text of the run. -/
theorem FlatGrammar.exists_bracketed : ∃ g, ofGrammar .bracketed = .ok g ∧ g.Neutral ∧
    g.ForeignExtras ∧ g.Derives [start] (g.withoutExtras [0, 6, 4, 1]) := by
  obtain ⟨g, h, hg, hf, hx, hstart, hitem⟩ : ∃ g, ofGrammar .bracketed = .ok g ∧ g.Neutral ∧
      g.ForeignExtras ∧ g.extras = [.terminal 6] ∧
      [.terminal 0, .nonterminal 1, .terminal 1] ∈
        (g.productionsOf start).map Production.symbols ∧
      [.terminal 4] ∈ (g.productionsOf (.nonterminal 1)).map Production.symbols :=
    exists_of_decide (by decide +kernel)
  refine ⟨g, h, hg, hf, ?_⟩
  have hw : g.withoutExtras [0, 6, 4, 1] = [0] ++ ([4] ++ [1]) := by
    simp [withoutExtras, isExtra, hx]
  obtain ⟨p, hp, hsymbols⟩ := List.mem_map.1 hstart
  obtain ⟨q, hq, hword⟩ := List.mem_map.1 hitem
  have hitem : g.Derives [.nonterminal 1] [4] := by
    apply Derives.single hq
    rw [hword]
    exact .token .nil
  rw [hw]
  apply Derives.single hp
  rw [hsymbols]
  exact .token (hitem.append (.token .nil))

theorem exists_of_any {ε α : Type} {x : Except ε α} {p : α → Bool}
    (h : x.toOption.any p = true) : ∃ a, x = .ok a ∧ p a = true := by
  cases x with
  | error e => cases h
  | ok a => exact ⟨a, rfl, h⟩

/-- The canonical table of items between brackets. The states of a word behind the two brackets
have kernels of one core and are merged, and so are those of the other item; no run makes an item of
a word when unit states are passed by. -/
theorem ParseTable.exists_bracketed : ∃ g table, FlatGrammar.ofGrammar .bracketed = .ok g ∧
    canonical g = .ok (table, []) ∧
    Machine.Accepts table.states ⟨[startState], [0, 6, 4, 1]⟩ Grammar.bracketedRun ∧
    (table.states.size = 13 ∧ (Merge.states g table.states).size = 11 ∧
      (Bypass.states g (Merge.states g table.states)).size = 9) ∧
    Merge.group g table.states 5 = Merge.group g table.states 8 ∧
    (∃ a b, (Automaton.states (Analysis.ofGrammar g))[5]? = some a ∧
      (Automaton.states (Analysis.ofGrammar g))[8]? = some b ∧ a.kernel ≠ b.kernel ∧
      a.kernel.core = b.kernel.core) ∧
    ∀ c es, Machine.Accepts (Bypass.states g (Merge.states g table.states)) c es →
      .reduce Grammar.itemReduction ∉ es := by
  have h : ((FlatGrammar.ofGrammar .bracketed).toOption.any fun g =>
      (canonical g).toOption.any fun c =>
        decide (c.2 = [] ∧
          Machine.run? c.1.states 9 ⟨[startState], [0, 6, 4, 1]⟩ = some Grammar.bracketedRun ∧
          (c.1.states.size = 13 ∧ (Merge.states g c.1.states).size = 11 ∧
            (Bypass.states g (Merge.states g c.1.states)).size = 9) ∧
          Merge.group g c.1.states 5 = Merge.group g c.1.states 8 ∧
          (((Automaton.states (Analysis.ofGrammar g))[5]?.any fun a =>
            (Automaton.states (Analysis.ofGrammar g))[8]?.any fun b =>
              a.kernel ≠ b.kernel ∧ a.kernel.core = b.kernel.core) = true) ∧
          ∀ s ∈ Bypass.states g (Merge.states g c.1.states), ∀ as ∈ s.actions,
            .reduce Grammar.itemReduction ∉ as)) = true := by
    simp only [canonical, Automaton.states_eq_visitStates, Automaton.cores, Numbering.ofList_eq,
      Merge.states, Merge.group, Merge.groups_eq]
    decide +kernel
  obtain ⟨g, hg, h⟩ := exists_of_any h
  obtain ⟨⟨table, conflicts⟩, hc, h⟩ := exists_of_any h
  obtain ⟨rfl, hrun, hsizes, hgroup, hkernels, hitem⟩ := of_decide_eq_true h
  obtain ⟨a, ha, hkernels⟩ := (Option.any_eq_true _ _).1 hkernels
  obtain ⟨b, hb, hab⟩ := (Option.any_eq_true _ _).1 hkernels
  refine ⟨g, table, hg, hc, Machine.accepts_of_run? hrun, hsizes, hgroup,
    ⟨a, b, ha, hb, of_decide_eq_true hab⟩, fun c es hes hmem => ?_⟩
  obtain ⟨q, s, t, hs, ht⟩ := hes.exists_of_reduce hmem
  unfold State.on at ht
  cases has : s.actions[TokenSet.position t]? with
  | none => simp [has] at ht
  | some as =>
    rw [has] at ht
    exact hitem s (Array.mem_of_getElem? hs) as (Array.mem_of_getElem? has) ht

/-- What is found by evaluating the tables of a grammar and what they are encoded as. -/
theorem Encoding.exists_evaluated [RegexEngine] {source : Grammar}
    {p : FlatGrammar → Tables → Encoding → Bool}
    (h : ((FlatGrammar.ofGrammar source).toOption.any fun g =>
      (Tables.ofGrammar g).toOption.any fun t =>
        (Encoding.ofTables g t ⟨1, 0, 0⟩).toOption.any fun e => p g t e) = true) :
    ∃ g t e, FlatGrammar.ofGrammar source = .ok g ∧ Tables.ofGrammar g = .ok t ∧
      Encoding.ofTables g t ⟨1, 0, 0⟩ = .ok e ∧ p g t e = true := by
  obtain ⟨g, hg, h⟩ := exists_of_any h
  obtain ⟨t, ht, h⟩ := exists_of_any h
  obtain ⟨e, he, h⟩ := exists_of_any h
  exact ⟨g, t, e, hg, ht, he, h⟩

/-- A grammar of one word, with blanks as extras. -/
def Grammar.single : Grammar where
  name := "single"
  rules := [⟨"start", .seq [.string "a"]⟩]
  extras := [.string " "]

/-- The tables of one word can be encoded, and no state has many actions for a terminal. -/
theorem Encoding.exists_single : ∃ g t e, FlatGrammar.ofGrammar .single = .ok g ∧
    Tables.ofGrammar g = .ok t ∧ Encoding.ofTables g t ⟨1, 0, 0⟩ = .ok e ∧
    ∀ s ∈ t.table.states, ∀ actions ∈ s.actions, actions.length ≤ 1 := by
  have h : ((FlatGrammar.ofGrammar .single).toOption.any fun g =>
      (Tables.ofGrammar g).toOption.any fun t =>
        (Encoding.ofTables g t ⟨1, 0, 0⟩).toOption.any fun _ =>
          t.table.states.all fun s => s.actions.all fun actions => actions.length ≤ 1) = true := by
    simp only [Tables.ofGrammar, ParseTable.canonical, Automaton.states_eq, Automaton.cores,
      Numbering.ofList_eq, Merge.states, Merge.groups_eq, StateOrder.states, StateOrder.order_eq,
      Encoding.ofTables, Encoding.numberEntries_eq, Encoding.smallGroups_eq]
    decide +kernel
  obtain ⟨g, t, e, hg, ht, he, h⟩ := Encoding.exists_evaluated h
  refine ⟨g, t, e, hg, ht, he, fun s hs actions ha => ?_⟩
  have hs := Array.all_eq_true_iff_forall_mem.1 h s hs
  simpa using Array.all_eq_true_iff_forall_mem.1 hs actions ha

/-- The tables of items between brackets are encoded: the rows of small states have several groups,
and the last two states share one. -/
theorem Encoding.exists_bracketed : ∃ g t e, FlatGrammar.ofGrammar .bracketed = .ok g ∧
    Tables.ofGrammar g = .ok t ∧ Encoding.ofTables g t ⟨1, 0, 0⟩ = .ok e ∧
    Machine.Accepts t.table.states ⟨[ParseTable.startState], [0, 6, 4, 1]⟩
      (Grammar.bracketedRun.filter (· ≠ .reduce Grammar.itemReduction)) ∧
    t.largeCount = 2 ∧ e.smallRows.map (·.groups.length) = [3, 3, 2, 2, 2, 2] ∧
    e.smallOffsets = [0, 11, 22, 29, 36, 43, 43] := by
  have h : ((FlatGrammar.ofGrammar .bracketed).toOption.any fun g =>
      (Tables.ofGrammar g).toOption.any fun t =>
        (Encoding.ofTables g t ⟨1, 0, 0⟩).toOption.any fun e =>
          decide (Machine.run? t.table.states 9 ⟨[ParseTable.startState], [0, 6, 4, 1]⟩ =
              some (Grammar.bracketedRun.filter (· ≠ .reduce Grammar.itemReduction)) ∧
            t.largeCount = 2 ∧ e.smallRows.map (·.groups.length) = [3, 3, 2, 2, 2, 2] ∧
            e.smallOffsets = [0, 11, 22, 29, 36, 43, 43])) = true := by
    simp only [Tables.ofGrammar, ParseTable.canonical, Automaton.states_eq_visitStates,
      Automaton.cores, Numbering.ofList_eq, Merge.states, Merge.groups_eq, StateOrder.states,
      StateOrder.order_eq, Encoding.ofTables, Encoding.numberEntries_eq, Encoding.smallGroups_eq]
    decide +kernel
  obtain ⟨g, t, e, hg, ht, he, h⟩ := Encoding.exists_evaluated h
  obtain ⟨hrun, hrows⟩ := of_decide_eq_true h
  exact ⟨g, t, e, hg, ht, he, Machine.accepts_of_run? hrun, hrows⟩

end GrammarTables
