import GrammarTables.Proofs.NodeTypes
import GrammarTables.Proofs.SummaryFixpoint

/-!
# Summaries found in place

The summaries can be found in one array, where what is found for a variable counts for the next one
at once. Round after round, the variables in whatever order, summaries only come to say more, so in
some round no visit changes anything. What is found then does not depend on the orders: it is the
least family of summaries that the productions confirm, the one that sweeps find.
-/

namespace GrammarTables

namespace Summary

/-- Finds the summary of a variable anew. A variable without productions keeps the one it has. -/
def visit (g : FlatGrammar) (S : Array Summary) (v : Nat) : Array Summary :=
  match g.productionsOf (.nonterminal v) with
  | [] => S
  | ps => S.setIfInBounds v (ofProductions g S ps)

/-- Visits variables in the given order. -/
def round (g : FlatGrammar) (order : List Nat) (S : Array Summary) : Array Summary :=
  order.foldl (visit g) S

/-- The summaries after a number of rounds, each of which has an order of its own. -/
def rounds (g : FlatGrammar) (orders : Nat → List Nat) : Nat → Array Summary
  | 0 => Array.replicate g.vars.size {}
  | n + 1 => round g (orders n) (rounds g orders n)

/-- Of the visits in a round, none changes anything. -/
def Settled (g : FlatGrammar) (orders : Nat → List Nat) (n : Nat) : Prop :=
  ∀ v ∈ orders n, visit g (rounds g orders n) v = rounds g orders n

instance (g : FlatGrammar) (orders : Nat → List Nat) (n : Nat) : Decidable (Settled g orders n) :=
  inferInstanceAs (Decidable (∀ v ∈ orders n, visit g (rounds g orders n) v = rounds g orders n))

/-- Each variable with productions has the summary that they give it. -/
def Confirmed (g : FlatGrammar) (S : Array Summary) : Prop :=
  ∀ v, g.productionsOf (.nonterminal v) ≠ [] →
    get S v = ofProductions g S (g.productionsOf (.nonterminal v))

/-- A summary says at most what another one says, and has no other fields. -/
structure Included (s t : Summary) : Prop where
  le : s ≤ t
  keys : s.keys ⊆ t.keys

variable {g : FlatGrammar} {s t : Summary} {S S' T : Array Summary} {v w : Nat}
  {orders : Nat → List Nat} {n : Nat}

/-- A field that a proper summary has can occur, so one that says more has it too. -/
theorem Proper.included (h : Proper g s) (hle : s ≤ t) : Included s t := by
  refine ⟨hle, fun f hf => ?_⟩
  by_contra hnot
  have hoccurs := (hle.field f).occurs (h.occurs f hf)
  rw [field_of_not_mem hnot] at hoccurs
  cases hoccurs

theorem Growing.antisymm (h : Growing g S) (h' : Growing g S') (hle : AllLe S S')
    (hge : AllLe S' S) : S = S' :=
  h.ext h' fun v _ => (h.proper v).antisymm (h'.proper v) (hle v) (hge v)

/-- A visit gives a variable what a sweep gives it. One without productions has nothing yet. -/
theorem Growing.get_visit (h : Growing g S) (v w : Nat) :
    get (Summary.visit g S v) w = if w = v then get (Summary.sweep g S) v else get S w := by
  unfold Summary.visit
  split
  · rename_i hnil
    have hempty : get (Summary.sweep g S) v = {} := by rw [get_sweep, hnil, ofProductions]
    have heq : get S v = {} :=
      (h.proper v).antisymm proper_empty (hempty ▸ h.le v) (empty_le _)
    split
    · rename_i hwv
      rw [hwv, heq, hempty]
    · rfl
  · rename_i hne
    have hv : v < S.size := by
      rw [h.size]
      by_contra hv
      exact hne (FlatGrammar.productionsOf_eq_nil (Nat.le_of_not_lt hv))
    rw [get_sweep]
    simp only [get, Array.getElem?_setIfInBounds]
    by_cases hwv : w = v
    · simp [hwv, hv]
    · simp [hwv, Ne.symm hwv]

theorem Growing.le_visit (h : Growing g S) (v : Nat) : AllLe S (Summary.visit g S v) := by
  intro w
  rw [h.get_visit]
  split
  · rename_i hwv
    exact hwv ▸ h.le v
  · exact le_refl _

theorem Growing.visit (h : Growing g S) (v : Nat) : Growing g (Summary.visit g S v) := by
  have hproper : ∀ w, Proper g (get (Summary.visit g S v) w) := by
    intro w
    rw [h.get_visit]
    split
    · exact h.sweep.proper v
    · exact h.proper w
  have hmono : AllLe (Summary.sweep g S) (Summary.sweep g (Summary.visit g S v)) :=
    (h.le_visit v).sweep h.allKeyed fun w => (hproper w).keyed
  refine ⟨?_, hproper, fun w => le_trans ?_ (hmono w)⟩
  · unfold Summary.visit
    split
    · exact h.size
    · rw [Array.size_setIfInBounds, h.size]
  · rw [h.get_visit]
    split
    · rename_i hwv
      exact hwv ▸ le_refl _
    · exact h.le w

/-- A visit does not go beyond summaries that sweeps do not make larger. -/
theorem Growing.visit_le (h : Growing g S) (hT : AllKeyed T) (hle : AllLe S T)
    (hsweep : AllLe (Summary.sweep g T) T) (v : Nat) : AllLe (Summary.visit g S v) T := by
  intro w
  rw [h.get_visit]
  split
  · rename_i hwv
    subst hwv
    exact le_trans (hle.sweep h.allKeyed hT w) (hsweep w)
  · exact hle w

theorem Growing.round (h : Growing g S) (order : List Nat) :
    Growing g (Summary.round g order S) ∧ AllLe S (Summary.round g order S) :=
  List.foldlRecOn order _ (motive := fun S' => Growing g S' ∧ AllLe S S')
    ⟨h, fun _ => le_refl _⟩ fun _ h' v _ =>
      ⟨h'.1.visit v, fun w => le_trans (h'.2 w) (h'.1.le_visit v w)⟩

/-- A round in which a visit changes something makes the summaries weigh more. -/
theorem Growing.round_cases (h : Growing g S) (order : List Nat) :
    (∀ v ∈ order, Summary.visit g S v = S) ∨ weight g S < weight g (Summary.round g order S) := by
  induction order with
  | nil => exact .inl nofun
  | cons v order ih =>
    by_cases hv : Summary.visit g S v = S
    · have hround : Summary.round g (v :: order) S = Summary.round g order S :=
        congrArg (Summary.round g order) hv
      rw [List.forall_mem_cons, hround]
      exact ih.imp_left fun hall => ⟨hv, hall⟩
    · have hrest := ((h.visit v).round order).2
      exact .inr ((h.weight_lt (h.visit v) (h.le_visit v) hv).trans_le (weight_mono hrest))

theorem growing_rounds (g : FlatGrammar) (orders : Nat → List Nat) (n : Nat) :
    Growing g (rounds g orders n) := by
  induction n with
  | zero => exact growing_empty g
  | succ n ih => exact (ih.round (orders n)).1

/-- Some round changes nothing: until then each makes the summaries weigh more. -/
theorem exists_settled (g : FlatGrammar) (orders : Nat → List Nat) :
    ∃ n ≤ g.vars.size * height g, Settled g orders n := by
  by_contra hnone
  have hweight : ∀ n ≤ g.vars.size * height g + 1, n ≤ weight g (rounds g orders n) := by
    intro n
    induction n with
    | zero => exact fun _ => Nat.zero_le _
    | succ n ih =>
      intro hn
      have hchange : ¬Settled g orders n := fun h => hnone ⟨n, by omega, h⟩
      have hlt := ((growing_rounds g orders n).round_cases (orders n)).resolve_left hchange
      have hle := ih (by omega)
      rw [rounds]
      omega
  have hle := hweight _ le_rfl
  have hbound := weight_le g (rounds g orders (g.vars.size * height g + 1))
  omega

theorem Confirmed.sweep_le (h : Confirmed g T) : AllLe (sweep g T) T := by
  intro v
  rw [get_sweep]
  by_cases hv : g.productionsOf (.nonterminal v) = []
  · rw [hv]
    exact empty_le _
  · rw [← h v hv]
    exact le_refl _

theorem confirmed_of_sweep_eq (h : sweep g S = S) : Confirmed g S := fun v _ => by
  conv_lhs => rw [← h, get_sweep]

theorem rounds_le (hT : AllKeyed T) (hsweep : AllLe (sweep g T) T) (n : Nat) :
    AllLe (rounds g orders n) T := by
  induction n with
  | zero =>
    intro v
    rw [rounds, get_replicate_empty]
    exact empty_le _
  | succ n ih =>
    have hround := List.foldlRecOn (orders n) (visit g)
      (motive := fun S => Growing g S ∧ AllLe S T) ⟨growing_rounds g orders n, ih⟩
      fun _ h v _ => ⟨h.1.visit v, h.1.visit_le hT h.2 hsweep v⟩
    exact hround.2

/-- The summaries that sweeps find are below all that are confirmed. -/
theorem ofGrammar_le (hT : AllKeyed T) (hsweep : AllLe (sweep g T) T) :
    AllLe (ofGrammar g) T := by
  have hstep : ∀ S, Growing g S ∧ AllLe S T → Growing g (sweep g S) ∧ AllLe (sweep g S) T :=
    fun S h => ⟨h.1.sweep, fun v => le_trans (h.2.sweep h.1.allKeyed hT v) (hsweep v)⟩
  have h := settle_keeps (P := fun S => Growing g S ∧ AllLe S T) hstep (g.vars.size * height g + 1)
    ⟨growing_empty g, fun v => by rw [get_replicate_empty]; exact empty_le _⟩
  exact h.2

theorem Settled.sweep_eq (h : Settled g orders n) (hall : ∀ v < g.vars.size, v ∈ orders n) :
    sweep g (rounds g orders n) = rounds g orders n := by
  have hgrowing := growing_rounds g orders n
  refine (hgrowing.ext hgrowing.sweep fun v hv => ?_).symm
  have hget := congrArg (get · v) (h v (hall v hv))
  simpa [hgrowing.get_visit] using hget.symm

theorem Settled.rounds_eq (h : Settled g orders n) (hall : ∀ v < g.vars.size, v ∈ orders n) :
    rounds g orders n = ofGrammar g := by
  have hgrowing := growing_rounds g orders n
  refine hgrowing.antisymm (growing_ofGrammar g) ?_ ?_
  · refine rounds_le (growing_ofGrammar g).allKeyed ?_ n
    rw [sweep_ofGrammar]
    exact fun _ => le_refl _
  · refine ofGrammar_le hgrowing.allKeyed ?_
    rw [h.sweep_eq hall]
    exact fun _ => le_refl _

end Summary

open Summary

/-- Summaries are found in place, whatever the order in which each round visits the variables: a
round comes in which no visit changes anything, and then the summaries are the least ones that the
productions confirm. -/
theorem summaries_least (g : FlatGrammar) (orders : Nat → List Nat)
    (horders : ∀ n, ∀ v < g.vars.size, v ∈ orders n) :
    (∃ n ≤ g.vars.size * height g, Settled g orders n) ∧
      (∀ n, Settled g orders n → rounds g orders n = Summary.ofGrammar g) ∧
      Confirmed g (Summary.ofGrammar g) ∧
      ∀ T, AllKeyed T → Confirmed g T → ∀ v, Included (get (Summary.ofGrammar g) v) (get T v) :=
  ⟨exists_settled g orders, fun n h => h.rounds_eq (horders n),
    confirmed_of_sweep_eq (sweep_ofGrammar g), fun _ hT h v =>
      ((growing_ofGrammar g).proper v).included (ofGrammar_le hT h.sweep_le v)⟩

/-- From the last variable to the first. -/
def Labelled.backward : Nat → List Nat := fun _ => [2, 1, 0]

/-- From the last variable to the first, one round finds the summaries of the grammar of entries. -/
theorem summaries_least_labelled : ∃ g, FlatGrammar.ofGrammar .labelled = .ok g ∧
    (∀ n, ∀ v < g.vars.size, v ∈ Labelled.backward n) ∧
    rounds g Labelled.backward 1 = Labelled.summaries ∧
    Summary.ofGrammar g = Labelled.summaries := by
  obtain ⟨g, h, hsize, hfound, hsettled⟩ : ∃ g, FlatGrammar.ofGrammar .labelled = .ok g ∧
      g.vars.size = 3 ∧ rounds g Labelled.backward 1 = Labelled.summaries ∧
      Settled g Labelled.backward 1 :=
    FlatGrammar.exists_of_decide (by decide +kernel)
  have horders : ∀ n, ∀ v < g.vars.size, v ∈ Labelled.backward n := by
    intro _ v hv
    simp only [Labelled.backward, List.mem_cons, List.not_mem_nil, or_false]
    omega
  exact ⟨g, h, horders, hfound, ((summaries_least g _ horders).2.1 1 hsettled).symm.trans hfound⟩

end GrammarTables
