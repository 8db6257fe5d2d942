import GrammarTables.Proofs.FieldsInPlace
import GrammarTables.Proofs.Minimization
import GrammarTables.Proofs.Worklist

/-!
# Table construction ends

The loops that tables are made by are given by their steps: a step gives the next value, or nothing
where the loop is left. Each loop reaches its end, since what it collects grows with each step and
is bounded: the openings and the fields of variables, the lookaheads of items, the kernels, and the
groups of states. So the tables of a grammar exist, or a number in them is above its limit.
-/

namespace GrammarTables

/-- A loop leads from one value to another one, at which it is left. -/
inductive Ends {α : Type} (step : α → Option α) : α → α → Prop
  | leave {a : α} : step a = none → Ends step a a
  | next {a b c : α} : step a = some b → Ends step b c → Ends step a c

/-- The step of a loop that is left when a round changes nothing. -/
def untilSame {α : Type} [DecidableEq α] (round : α → α) (a : α) : Option α :=
  if round a = a then none else some (round a)

/-- A value that settles before the rounds run out is reached by the loop. -/
theorem ends_settle {α : Type} [DecidableEq α] {round : α → α} {n : Nat} {a : α}
    (h : round (settle round n a) = settle round n a) :
    Ends (untilSame round) a (settle round n a) := by
  induction n generalizing a with
  | zero => exact .leave (if_pos h)
  | succ n ih =>
    by_cases ha : round a = a
    · rw [settle_of_eq ha]
      exact .leave (if_pos ha)
    · rw [settle_succ] at h ⊢
      exact .next (if_neg ha) (ih h)

namespace Worklist

/-- Visits the last item that waits. -/
def step (a : Analysis) (w : Worklist) : Option Worklist :=
  match w.waiting with
  | [] => none
  | x :: rest => some (visit a { w with waiting := rest } x)

theorem ends_run {a : Analysis} {n : Nat} {w : Worklist} (h : (run a n w).waiting = []) :
    Ends (step a) w (run a n w) := by
  induction n generalizing w with
  | zero => exact .leave (by rw [step, show w.waiting = [] from h])
  | succ n ih =>
    rw [run] at h ⊢
    split
    · rename_i hw
      exact .leave (by rw [step, hw])
    · rename_i x rest hw
      rw [hw] at h
      exact .next (by rw [step, hw]) (ih h)

end Worklist

namespace Automaton

/-- Finds the state of the first kernel that has none yet, and the kernels that it leads to. -/
def next (a : Analysis) (x : Array State × Numbering ItemSet) :
    Option (Array State × Numbering ItemSet) :=
  match x.2.members[x.1.size]? with
  | none => none
  | some kernel =>
    let closure := a.closure kernel
    let (successors, kernels) := Numbering.numberAll (closure.successors a.grammar) x.2
    some (x.1.push { kernel, closure, successors }, kernels)

theorem ends_explore {g : FlatGrammar} (wf : g.WellFormed) (fuel : Nat) {done : Array State}
    {kernels : Numbering ItemSet} (h : Explored g done kernels)
    (hfuel : 2 ^ (itemCount g * (g.tokenCount + 1)) < fuel + done.size) :
    ∃ kernels', Ends (next (.ofGrammar g)) (done, kernels)
      (explore (.ofGrammar g) fuel done kernels, kernels') := by
  induction fuel generalizing done kernels with
  | zero =>
    have := h.size_members_lt wf
    have := h.size_le
    omega
  | succ fuel ih =>
    unfold explore
    split
    · rename_i hnone
      exact ⟨kernels, .leave (by simp only [next, hnone])⟩
    · rename_i kernel hk
      have hnext := (h.step hk).1
      obtain ⟨kernels', hends⟩ := ih hnext (by rw [Array.size_push]; omega)
      exact ⟨kernels', .next (by simp only [next, hk]; rfl) hends⟩

end Automaton

namespace Merge

/-- Splits the groups, unless that leaves their number as it is. -/
def resplit (count : Nat) (compatible : Array Nat → Nat → Nat → Bool) (groups : List (List Nat)) :
    Option (List (List Nat)) :=
  let next := groups.flatMap (split (compatible (groupOf count groups)))
  if next.length = groups.length then none else some next

theorem ends_refine {n fuel : Nat} {compatible : Array Nat → Nat → Nat → Bool}
    {groups : List (List Nat)} (h : Partition n groups) (hfuel : n < fuel + groups.length) :
    Ends (resplit n compatible) groups (refine n compatible fuel groups) := by
  induction fuel generalizing groups with
  | zero =>
    have := h.length_le
    omega
  | succ fuel ih =>
    simp only [refine]
    split
    · rename_i hlen
      rw [List.flatMap_congr (h.flatMap_split_eq hlen), List.flatMap_singleton']
      exact .leave (if_pos hlen)
    · rename_i hne
      have hle := (Partition.length_flatMap_split (compatible (groupOf n groups)) h.ne_nil).1
      exact .next (if_neg hne) (ih (h.split _) (by omega))

variable {compatible : Nat → Nat → Bool}

/-- Puts states that are compatible with all members of a group into it, one after the other, and
gives the group and what is left over. -/
def absorb (compatible : Nat → Nat → Bool) (group : List Nat) : List Nat → List Nat × List Nat
  | [] => (group, [])
  | i :: rest =>
    if group.all fun j => compatible i j then absorb compatible (group ++ [i]) rest
    else (absorb compatible group rest).map id (i :: ·)

/-- Takes a subgroup from what is left of a group. -/
def peel (compatible : Nat → Nat → Bool) :
    List (List Nat) × List Nat → Option (List (List Nat) × List Nat)
  | (_, []) => none
  | (groups, i :: rest) =>
    let (group, left) := absorb compatible [i] rest
    some (groups ++ [group], left)

theorem length_absorb_le (group is : List Nat) :
    (absorb compatible group is).2.length ≤ is.length := by
  induction is generalizing group with
  | nil => exact Nat.le_refl _
  | cons i is ih =>
    rw [absorb]
    split
    · exact Nat.le_succ_of_le (ih _)
    · exact Nat.succ_le_succ (ih _)

/-- The first group takes what it can, and the other groups share what is left over. -/
theorem foldl_place (group : List Nat) (groups : List (List Nat)) (is : List Nat) :
    is.foldl (fun groups i => place compatible i groups) (group :: groups) =
      (absorb compatible group is).1 :: (absorb compatible group is).2.foldl
        (fun groups i => place compatible i groups) groups := by
  induction is generalizing group groups with
  | nil => rfl
  | cons i is ih =>
    rw [List.foldl_cons, place, absorb]
    split
    · exact ih _ _
    · exact ih _ _

theorem split_cons (i : Nat) (rest : List Nat) : split compatible (i :: rest) =
    (absorb compatible [i] rest).1 :: split compatible (absorb compatible [i] rest).2 :=
  foldl_place [i] [] rest

theorem ends_peel (groups : List (List Nat)) (group : List Nat) :
    Ends (peel compatible) (groups, group) (groups ++ split compatible group, []) := by
  match group with
  | [] =>
    rw [show split compatible [] = [] from rfl, List.append_nil]
    exact .leave rfl
  | i :: rest =>
    have ih := ends_peel (groups ++ [(absorb compatible [i] rest).1])
      (absorb compatible [i] rest).2
    rw [split_cons, List.append_cons]
    exact .next rfl ih
termination_by group.length
decreasing_by exact Nat.lt_succ_of_le (length_absorb_le _ _)

end Merge

theorem checkLimit_cases (what : String) (count limit : Nat) :
    checkLimit what count limit = .ok () ∨ limit < count ∧
      checkLimit what count limit = .error (.tableLimit what count limit) := by
  unfold checkLimit
  split
  · exact .inr ⟨‹_›, rfl⟩
  · exact .inl rfl

/-- There are tables, or one of the two numbers that are checked is above its limit. -/
theorem Tables.ofGrammar_cases (g : FlatGrammar) : (∃ tables, Tables.ofGrammar g = .ok tables) ∨
    ∃ what count limit, limit < count ∧
      Tables.ofGrammar g = .error (.tableLimit what count limit) := by
  unfold Tables.ofGrammar ParseTable.canonical
  dsimp only
  rcases checkLimit_cases "parse states" (Automaton.states (.ofGrammar g)).size 65535 with
    hs | ⟨hlt, hs⟩
  · rcases checkLimit_cases "production ids" _ 65535 with hn | ⟨hlt, hn⟩
    · rw [hs, hn]
      exact .inl ⟨_, rfl⟩
    · rw [hs, hn]
      exact .inr ⟨_, _, _, hlt, rfl⟩
  · rw [hs]
    exact .inr ⟨_, _, _, hlt, rfl⟩

/-- The loops that the tables of a grammar are made by end, at what the tables are made of. -/
structure FlatGrammar.LoopsEnd (g : FlatGrammar) : Prop where
  /-- What the variables can begin with, and which of them can be empty. -/
  openings : Ends (untilSame (Opening.round g)) (Array.replicate g.vars.size .nothing) g.openings
  /-- The items that wait while the closure of a kernel is found. -/
  closure : ∀ (kernel : ItemSet) (h : Ordered.Ascending (kernel.map (·.1))), kernel.Within g →
    Ends (Worklist.step (.ofGrammar g)) (.ofKernel kernel h) (.final h g) ∧
      (ItemSet.Kernel g kernel →
        (Worklist.final h g).known = ((Analysis.ofGrammar g).closure kernel).sort)
  /-- The kernels whose states are not known yet. -/
  states : ∃ kernels, Ends (Automaton.next (.ofGrammar g)) (#[], Automaton.initialKernels)
    (Automaton.states (.ofGrammar g), kernels)
  /-- The groups of states that are merged. -/
  groups : ∀ table conflicts, ParseTable.canonical g = .ok (table, conflicts) → ∃ groups,
    Ends (Merge.resplit table.states.size (Merge.compatible g.overlaps
      (table.states.map (·.tokens)) table.states)) (Merge.byCore table.states) groups ∧
    (Merge.groups g table.states).Perm groups
  /-- The subgroups of a group. -/
  subgroups : ∀ compatible group,
    Ends (Merge.peel compatible) ([], group) (Merge.split compatible group, [])
  /-- The fields that variables expose. -/
  fields : Ends (untilSame (FieldLayout.round g)) (Array.replicate g.vars.size [])
    (FieldLayout.exposed g)

/-- Table construction ends: all of its loops end, and then there are tables, or a number is above
its limit. -/
theorem tables_end [RegexEngine] {source : Grammar} {g : FlatGrammar}
    (h : FlatGrammar.ofGrammar source = .ok g) :
    g.LoopsEnd ∧ ((∃ tables, Tables.ofGrammar g = .ok tables) ∨
      ∃ what count limit, limit < count ∧
        Tables.ofGrammar g = .error (.tableLimit what count limit)) := by
  have wf := FlatGrammar.wellFormed_of_ofGrammar h
  refine ⟨?_, Tables.ofGrammar_cases g⟩
  refine ⟨?openings, fun kernel hkernel hk => ?closure, ?states, fun table conflicts hc => ?groups,
    fun _ group => Merge.ends_peel [] group, ?fields⟩
  case openings =>
    rw [← Opening.inPlace_eq wf]
    exact ends_settle (Opening.round_inPlace wf)
  case closure =>
    exact ⟨Worklist.ends_run (Worklist.waiting_final hkernel wf hk),
      fun hkernel' => Analysis.known_final_eq wf hkernel' hkernel⟩
  case states =>
    exact Automaton.ends_explore wf (2 ^ (Automaton.itemCount g * (g.tokenCount + 1)) + 2)
      Automaton.explored_initial (show _ < _ + 0 by omega)
  case groups =>
    rw [Canonical.states_of_canonical hc]
    have hm := (Canonical.table_states wf).mergeable
    exact ⟨_, Merge.ends_refine (Merge.partition_byCore hm.core_lt) (by omega),
      List.mergeSort_perm _ _⟩
  case fields =>
    rw [← FieldLayout.inPlace_eq]
    exact ends_settle (FieldLayout.round_inPlace g)

/-- The rounds over the entwined grammar end at its openings, though its variables are left
recursive through each other and through an empty start. -/
theorem tables_end_entwined : ∃ g, FlatGrammar.ofGrammar .entwined = .ok g ∧
    Ends (untilSame (Opening.round g)) #[.nothing, .nothing]
      #[⟨.singleton (.terminal 1), true⟩, ⟨.singleton (.terminal 1), false⟩] ∧
    ((∃ tables, Tables.ofGrammar g = .ok tables) ∨ ∃ what count limit, limit < count ∧
      Tables.ofGrammar g = .error (.tableLimit what count limit)) := by
  obtain ⟨g, h, hsize, hopenings⟩ : ∃ g, FlatGrammar.ofGrammar .entwined = .ok g ∧
      g.vars.size = 2 ∧ g.openings =
        #[⟨.singleton (.terminal 1), true⟩, ⟨.singleton (.terminal 1), false⟩] :=
    FlatGrammar.exists_of_decide (by decide +kernel)
  obtain ⟨hloops, htables⟩ := tables_end h
  have hends := hloops.openings
  rw [hsize, hopenings] at hends
  exact ⟨g, h, hends, htables⟩

end GrammarTables
