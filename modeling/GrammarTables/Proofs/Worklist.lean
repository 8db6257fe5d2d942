import GrammarTables.Proofs.Evaluation
import GrammarTables.Proofs.Kernel
import GrammarTables.Proofs.OpeningsInPlace
import GrammarTables.Proofs.OrderedMap

/-!
# Closures by a list of waiting items

The lookaheads of a closure can be found item by item. A waiting item is visited: the productions of
the variable after its dot get the lookaheads that it demands, and a production's item waits with
them if they are not all known of it. Visits go on until no item waits, which happens because sets
of lookaheads only grow. What is known then is the closure.
-/

namespace GrammarTables

namespace FlatGrammar

/-- The items at the starts of a variable's productions. -/
def starts (g : FlatGrammar) (v : Nat) : List Item :=
  (List.range (g.productionsOf (.nonterminal v)).length).map fun n => ⟨.nonterminal v, n, 0⟩

/-- The items at the starts of all productions. -/
def allStarts (g : FlatGrammar) : List Item := (List.range g.vars.size).flatMap g.starts

variable {g : FlatGrammar} {v : Nat} {i : Item}

theorem mem_starts : i ∈ g.starts v ↔
    ∃ n < (g.productionsOf (.nonterminal v)).length, ⟨.nonterminal v, n, 0⟩ = i := by
  simp [starts]

theorem mem_allStarts (h : i ∈ g.starts v) : i ∈ g.allStarts := by
  obtain ⟨n, hn, -⟩ := mem_starts.1 h
  exact List.mem_flatMap.2 ⟨v, List.mem_range.2 (lt_of_productionsOf hn), h⟩

end FlatGrammar

/-- Items with the lookaheads that are known of them, and the items that wait with new ones. -/
structure Worklist where
  known : ItemSet
  waiting : ItemSet
  ascending : Ordered.Ascending (known.map (·.1))

namespace Worklist

/-- The lookaheads that are known of an item. -/
def lookaheads (w : Worklist) (i : Item) : TokenSet := (Ordered.get? i w.known).getD .empty

/-- The items that are known. -/
def items (w : Worklist) : List Item := w.known.map (·.1)

/-- At first the items of a kernel are known, and they all wait. -/
def ofKernel (kernel : ItemSet) (h : Ordered.Ascending (kernel.map (·.1))) : Worklist where
  known := kernel
  waiting := kernel.reverse
  ascending := h

/-- Gives an item lookaheads. It waits if they are not all known of it. -/
def offer (more : TokenSet) (w : Worklist) (i : Item) : Worklist where
  known := Ordered.update i (fun old => (old.getD .empty).union more) w.known
  waiting :=
    if (w.lookaheads i).union more = w.lookaheads i then w.waiting else (i, more) :: w.waiting
  ascending := by
    rw [Ordered.keys_update]
    exact Ordered.ascending_insert w.ascending

/-- Gives the productions of the variable after an item's dot the lookaheads that it demands. -/
def visit (a : Analysis) (w : Worklist) (x : Item × TokenSet) : Worklist :=
  match Demand.ofSteps a.openings (x.1.rest a.grammar) with
  | none => w
  | some d => (a.grammar.starts d.target).foldl (offer (d.lookaheads x.2)) w

/-- Visits what waits, the last first. -/
def run (a : Analysis) : Nat → Worklist → Worklist
  | 0, w => w
  | fuel + 1, w =>
    match w.waiting with
    | [] => w
    | x :: rest => run a fuel (visit a { w with waiting := rest } x)

/-- How many visits a kernel takes at most: an item that waits again has a lookahead more. -/
def visits (g : FlatGrammar) (kernel : ItemSet) : Nat :=
  kernel.length + g.allStarts.length * g.tokenCount

variable {g : FlatGrammar} {kernel : ItemSet} {w w' w'' : Worklist} {i j : Item} {more : TokenSet}
  {t : Symbol} {x : Item × TokenSet}

theorem lookaheads_offer (more : TokenSet) (w : Worklist) (i j : Item) :
    (w.offer more i).lookaheads j =
      if j = i then (w.lookaheads i).union more else w.lookaheads j := by
  by_cases h : j = i
  · subst h
    rw [if_pos rfl, lookaheads, offer, Ordered.get?_update_self w.ascending]
    rfl
  · rw [if_neg h, lookaheads, offer, Ordered.get?_update_of_ne h]
    rfl

@[simp] theorem mem_items_offer : j ∈ (w.offer more i).items ↔ j = i ∨ j ∈ w.items := by
  rw [items, offer, Ordered.keys_update, Ordered.mem_insert]
  rfl

/-- An item does not wait again for what is known of it. -/
theorem waiting_offer (more : TokenSet) (w : Worklist) (i : Item) :
    (w.lookaheads i).union more = w.lookaheads i ∧ (w.offer more i).waiting = w.waiting ∨
      (w.lookaheads i).union more ≠ w.lookaheads i ∧
        (w.offer more i).waiting = (i, more) :: w.waiting := by
  by_cases h : (w.lookaheads i).union more = w.lookaheads i
  · exact .inl ⟨h, if_pos h⟩
  · exact .inr ⟨h, if_neg h⟩

/-- What is known stays known, what waits goes on waiting, and what is new waits. -/
structure Grows (w w' : Worklist) : Prop where
  items : w.items ⊆ w'.items
  lookaheads : ∀ i, w.lookaheads i ⊆ w'.lookaheads i
  waiting : w.waiting ⊆ w'.waiting
  new : ∀ i t, (w'.lookaheads i).contains t = true → (w.lookaheads i).contains t = true ∨
    ∃ given, (i, given) ∈ w'.waiting ∧ given.contains t = true

namespace Grows

theorem refl (w : Worklist) : Grows w w :=
  ⟨List.Subset.refl _, fun _ => TokenSet.subset_refl _, List.Subset.refl _, fun _ _ h => .inl h⟩

theorem trans (h : Grows w w') (h' : Grows w' w'') : Grows w w'' where
  items := List.Subset.trans h.items h'.items
  lookaheads i := TokenSet.subset_trans (h.lookaheads i) (h'.lookaheads i)
  waiting := List.Subset.trans h.waiting h'.waiting
  new i t ht := by
    rcases h'.new i t ht with ht | ht
    · rcases h.new i t ht with ht | ⟨given, hi, hc⟩
      · exact .inl ht
      · exact .inr ⟨given, h'.waiting hi, hc⟩
    · exact .inr ht

theorem offer (more : TokenSet) (w : Worklist) (i : Item) : Grows w (w.offer more i) where
  items j hj := mem_items_offer.2 (.inr hj)
  lookaheads j := by
    rw [lookaheads_offer]
    split
    · rename_i h
      rw [h]
      exact TokenSet.subset_union_left _ _
    · exact TokenSet.subset_refl _
  waiting := by
    rcases waiting_offer more w i with ⟨-, h⟩ | ⟨-, h⟩ <;> rw [h]
    · exact List.Subset.refl _
    · exact List.subset_cons_self _ _
  new j t ht := by
    rw [lookaheads_offer] at ht
    split at ht
    · rename_i h
      subst h
      rcases waiting_offer more w j with ⟨heq, -⟩ | ⟨-, hw⟩
      · exact .inl (heq ▸ ht)
      · rw [TokenSet.contains_union, Bool.or_eq_true] at ht
        exact ht.imp id fun hc => ⟨more, hw ▸ List.mem_cons_self, hc⟩
    · exact .inl ht

theorem offers (more : TokenSet) (is : List Item) (w : Worklist) :
    Grows w (is.foldl (Worklist.offer more) w) :=
  List.foldlRecOn is _ (.refl w) fun w' h i _ => h.trans (.offer more w' i)

end Grows

/-- The items are known with what they are given. -/
theorem offers_known (more : TokenSet) (is : List Item) (w : Worklist) : ∀ i ∈ is,
    i ∈ (is.foldl (offer more) w).items ∧
      more ⊆ (is.foldl (offer more) w).lookaheads i := by
  induction is generalizing w with
  | nil => exact nofun
  | cons i is ih =>
    intro j hj
    rcases List.mem_cons.1 hj with rfl | hj
    · have hgrows := Grows.offers more is (w.offer more j)
      refine ⟨hgrows.items (mem_items_offer.2 (.inl rfl)), ?_⟩
      refine TokenSet.subset_trans ?_ (hgrows.lookaheads j)
      rw [lookaheads_offer, if_pos rfl]
      exact TokenSet.subset_union_right _ _
    · exact ih _ j hj

theorem Grows.visit (a : Analysis) (w : Worklist) (x : Item × TokenSet) :
    Grows w (w.visit a x) := by
  unfold Worklist.visit
  split
  · exact .refl w
  · exact .offers _ _ w

/-- What an item with the given lookaheads demands is known. -/
def Met (g : FlatGrammar) (w : Worklist) (x : Item × TokenSet) : Prop :=
  ∀ d, Demand.ofSteps g.openings (x.1.rest g) = some d → ∀ i ∈ g.starts d.target,
    i ∈ w.items ∧ d.lookaheads x.2 ⊆ w.lookaheads i

theorem Met.mono (h : Met g w x) (hw : Grows w w') : Met g w' x := by
  intro d hd i hi
  obtain ⟨hitem, hsub⟩ := h d hd i hi
  exact ⟨hw.items hitem, TokenSet.subset_trans hsub (hw.lookaheads i)⟩

theorem met_visit (w : Worklist) (x : Item × TokenSet) :
    Met g (w.visit (.ofGrammar g) x) x := by
  intro d hd i hi
  have hvisit : w.visit (.ofGrammar g) x =
      (g.starts d.target).foldl (offer (d.lookaheads x.2)) w := by
    simp only [visit, Analysis.ofGrammar, hd]
  rw [hvisit]
  exact offers_known _ _ w i hi

/-- The kernel is known. An item of it waits or its demand is met, and so for each lookahead that is
known of an item. -/
structure Covers (g : FlatGrammar) (kernel : ItemSet) (w : Worklist) : Prop where
  known : ∀ x ∈ kernel, x.1 ∈ w.items ∧ x.2 ⊆ w.lookaheads x.1
  kernel : ∀ x ∈ kernel, x ∈ w.waiting ∨ Met g w x
  lookaheads : ∀ i t, (w.lookaheads i).contains t = true →
    ∃ given, given.contains t = true ∧ ((i, given) ∈ w.waiting ∨ Met g w (i, given))

/-- What waited or was met does so when one of the waiting items was visited. -/
theorem seen_visit {rest : ItemSet} {y : Item × TokenSet} (h : y ∈ x :: rest ∨ Met g w y) :
    y ∈ (visit (.ofGrammar g) { w with waiting := rest } x).waiting ∨
      Met g (visit (.ofGrammar g) { w with waiting := rest } x) y := by
  have hgrows := Grows.visit (.ofGrammar g) { w with waiting := rest } x
  rcases h with h | h
  · rcases List.mem_cons.1 h with rfl | h
    · exact .inr (met_visit _ _)
    · exact .inl (hgrows.waiting h)
  · exact .inr (Met.mono (w := { w with waiting := rest }) h hgrows)

theorem Covers.visit (h : Covers g kernel w) {rest : ItemSet} (hw : w.waiting = x :: rest) :
    Covers g kernel (visit (.ofGrammar g) { w with waiting := rest } x) := by
  -- A lookahead that is new was given to an item that now waits with it.
  have hgrows := Grows.visit (.ofGrammar g) { w with waiting := rest } x
  refine ⟨fun y hy => ?_, fun y hy => seen_visit (hw ▸ h.kernel y hy), fun i t ht => ?_⟩
  · obtain ⟨hitem, hsub⟩ := h.known y hy
    exact ⟨hgrows.items hitem, TokenSet.subset_trans hsub (hgrows.lookaheads y.1)⟩
  · rcases hgrows.new i t ht with ht | ⟨given, hi, hc⟩
    · obtain ⟨given, hc, hi⟩ := h.lookaheads i t ht
      exact ⟨given, hc, seen_visit (hw ▸ hi)⟩
    · exact ⟨given, hc, .inl hi⟩

theorem lookaheads_ofKernel (h : Ordered.Ascending (kernel.map (·.1))) (hx : x ∈ kernel) :
    (ofKernel kernel h).lookaheads x.1 = x.2 := by
  rw [lookaheads, ofKernel, Ordered.get?_of_mem h hx, Option.getD_some]

theorem exists_of_lookaheads_ofKernel (h : Ordered.Ascending (kernel.map (·.1)))
    (ht : ((ofKernel kernel h).lookaheads i).contains t = true) :
    ∃ given, (i, given) ∈ kernel ∧ given.contains t = true := by
  cases hi : Ordered.get? i kernel with
  | none => simp [lookaheads, ofKernel, hi] at ht
  | some given =>
    have hmem := Ordered.mem_of_get? hi
    rw [lookaheads_ofKernel h hmem] at ht
    exact ⟨given, hmem, ht⟩

theorem covers_ofKernel (h : Ordered.Ascending (kernel.map (·.1))) :
    Covers g kernel (.ofKernel kernel h) := by
  refine ⟨fun x hx => ⟨List.mem_map_of_mem hx, ?_⟩, fun x hx => .inl (List.mem_reverse.2 hx),
    fun i t ht => ?_⟩
  · rw [lookaheads_ofKernel h hx]
    exact TokenSet.subset_refl _
  · obtain ⟨given, hi, hc⟩ := exists_of_lookaheads_ofKernel h ht
    exact ⟨given, hc, .inl (List.mem_reverse.2 hi)⟩

end Worklist

/-- The items of a closure: those of the kernel and those of the variables after the dots of active
items. -/
def ItemSet.Present (g : FlatGrammar) (kernel : ItemSet) (i : Item) : Prop :=
  (∃ given, (i, given) ∈ kernel) ∨
    ∃ j v ss, ItemSet.Active g kernel j ∧ j.after g = .nonterminal v :: ss ∧ i ∈ g.starts v

namespace Worklist

variable {g : FlatGrammar} {kernel : ItemSet} {w : Worklist} {i : Item} {more : TokenSet}
  {x : Item × TokenSet}

/-- What is known is in the closure, and so is what the waiting items demand. -/
structure Sound (g : FlatGrammar) (kernel : ItemSet) (w : Worklist) : Prop where
  present : ∀ i ∈ w.items, ItemSet.Present g kernel i
  follows : ∀ i (t : Symbol), t.isTerminal = true → (w.lookaheads i).contains t = true →
    ItemSet.Follows g kernel i t
  active : ∀ x ∈ w.waiting, ItemSet.Active g kernel x.1
  waiting : ∀ x ∈ w.waiting, ∀ t : Symbol, t.isTerminal = true → x.2.contains t = true →
    ItemSet.Follows g kernel x.1 t

theorem Sound.offer (h : Sound g kernel w) (hi : ItemSet.Present g kernel i)
    (hm : ∀ t : Symbol, t.isTerminal = true → more.contains t = true →
      ItemSet.Follows g kernel i t) : Sound g kernel (w.offer more i) := by
  have hwaiting : ∀ x ∈ (w.offer more i).waiting, x ∈ w.waiting ∨
      x = (i, more) ∧ ∃ t : Symbol, t.isTerminal = true ∧ more.contains t = true := by
    intro x hx
    rcases waiting_offer more w i with ⟨-, heq⟩ | ⟨hne, heq⟩
    · exact .inl (heq ▸ hx)
    · rw [heq] at hx
      refine (List.mem_cons.1 hx).symm.imp id fun hx => ⟨hx, ?_⟩
      refine TokenSet.exists_contains fun hempty => hne ?_
      rw [TokenSet.isEmpty_iff.1 hempty]
      simp [TokenSet.union, TokenSet.empty]
  refine ⟨fun j hj => ?_, fun j t ht hc => ?_, fun x hx => ?_, fun x hx t ht hc => ?_⟩
  · rcases mem_items_offer.1 hj with rfl | hj
    · exact hi
    · exact h.present j hj
  · rw [lookaheads_offer] at hc
    split at hc
    · rename_i heq
      subst heq
      rw [TokenSet.contains_union, Bool.or_eq_true] at hc
      exact hc.elim (h.follows j t ht) (hm t ht)
    · exact h.follows j t ht hc
  · rcases hwaiting x hx with hx | ⟨rfl, t, ht, hc⟩
    · exact h.active x hx
    · exact .inr ⟨t, hm t ht hc⟩
  · rcases hwaiting x hx with hx | ⟨rfl, -⟩
    · exact h.waiting x hx t ht hc
    · exact hm t ht hc

theorem Sound.offers {is : List Item} (h : Sound g kernel w)
    (hi : ∀ i ∈ is, ItemSet.Present g kernel i)
    (hm : ∀ i ∈ is, ∀ t : Symbol, t.isTerminal = true → more.contains t = true →
      ItemSet.Follows g kernel i t) : Sound g kernel (is.foldl (Worklist.offer more) w) :=
  List.foldlRecOn is _ h fun _ hw i hmem => hw.offer (hi i hmem) (hm i hmem)

theorem Sound.visit (wf : g.WellFormed) (h : Sound g kernel w) {rest : ItemSet}
    (hw : w.waiting = x :: rest) :
    Sound g kernel (visit (.ofGrammar g) { w with waiting := rest } x) := by
  have hx : x ∈ w.waiting := hw ▸ List.mem_cons_self
  have hsub : rest ⊆ w.waiting := hw ▸ List.subset_cons_self x rest
  have hrest : Sound g kernel { w with waiting := rest } :=
    ⟨h.present, h.follows, fun y hy => h.active y (hsub hy), fun y hy => h.waiting y (hsub hy)⟩
  unfold Worklist.visit
  split
  · exact hrest
  · rename_i d hd
    obtain ⟨ss, hss, hf⟩ := Demand.ofSteps_eq_some hd
    obtain ⟨v, follow⟩ := d
    subst hf
    refine hrest.offers (fun i hi => .inr ⟨x.1, v, ss, h.active x hx, hss, hi⟩) ?_
    intro i hi t ht hc
    obtain ⟨n, hn, rfl⟩ := FlatGrammar.mem_starts.1 hi
    rcases (Demand.contains_lookaheads wf ht).1 hc with hb | ⟨hnil, hc⟩
    · exact (h.active x hx).follows hss hn hb
    · exact .opened (h.waiting x hx t ht hc) hss hn (.inr ⟨hnil, rfl⟩)

theorem sound_ofKernel (h : Ordered.Ascending (kernel.map (·.1))) :
    Sound g kernel (.ofKernel kernel h) := by
  refine ⟨fun i hi => ?_, fun i t ht hc => ?_, fun x hx => ?_, fun x hx t ht hc => ?_⟩
  · obtain ⟨⟨_, given⟩, hx, rfl⟩ := List.mem_map.1 hi
    exact .inl ⟨given, hx⟩
  · obtain ⟨given, hi, hc⟩ := exists_of_lookaheads_ofKernel h hc
    exact .given hi ht hc
  · exact .inl ⟨x.2, List.mem_reverse.1 hx⟩
  · exact .given (List.mem_reverse.1 hx) ht hc

/-- What visits keep, a run keeps. -/
theorem run_keeps {a : Analysis} {P : Worklist → Prop}
    (keep : ∀ w x rest, P w → w.waiting = x :: rest → P (visit a { w with waiting := rest } x))
    (fuel : Nat) (h : P w) : P (run a fuel w) := by
  induction fuel generalizing w with
  | zero => exact h
  | succ fuel ih =>
    rw [run]
    split
    · exact h
    · rename_i x rest hw
      exact ih (keep w x rest h hw)

/-- All lookaheads are terminals of the grammar. -/
structure Within (g : FlatGrammar) (w : Worklist) : Prop where
  known : ∀ i, (w.lookaheads i).Within g.tokenCount
  waiting : w.waiting.Within g

theorem Within.offer (h : Within g w) (hm : more.Within g.tokenCount) :
    Within g (w.offer more i) := by
  refine ⟨fun j => ?_, fun x hx => ?_⟩
  · rw [lookaheads_offer]
    split
    · exact (h.known i).union hm
    · exact h.known j
  · rcases waiting_offer more w i with ⟨-, heq⟩ | ⟨-, heq⟩
    · exact h.waiting x (heq ▸ hx)
    · rw [heq] at hx
      rcases List.mem_cons.1 hx with rfl | hx
      · exact hm
      · exact h.waiting x hx

theorem within_ofKernel (hk : kernel.Within g) (h : Ordered.Ascending (kernel.map (·.1))) :
    Within g (.ofKernel kernel h) := by
  refine ⟨fun i => ?_, fun x hx => hk x (List.mem_reverse.1 hx)⟩
  cases hi : Ordered.get? i kernel with
  | none => simp [lookaheads, ofKernel, hi]
  | some given =>
    have hmem := Ordered.mem_of_get? hi
    rw [lookaheads_ofKernel h hmem]
    exact hk _ hmem

/-- How many items wait, and how many lookaheads the items at the starts of productions can still
get. -/
def potential (g : FlatGrammar) (w : Worklist) : Nat :=
  w.waiting.length +
    ∑ i ∈ g.allStarts.toFinset, (g.tokenCount - (w.lookaheads i).weight g.tokenCount)

/-- An item that waits again has got a lookahead that it had not. -/
theorem potential_offer_le (h : Within g w) (hm : more.Within g.tokenCount)
    (hi : i ∈ g.allStarts) : potential g (w.offer more i) ≤ potential g w := by
  rcases waiting_offer more w i with ⟨hsame, heq⟩ | ⟨hne, heq⟩
  · have hknown : ∀ j, (w.offer more i).lookaheads j = w.lookaheads j := by
      intro j
      rw [lookaheads_offer, hsame]
      split
      · rename_i h
        rw [h]
      · rfl
    simp only [potential, heq, hknown, le_refl]
  · have hle : ∀ j, (w.lookaheads j).weight g.tokenCount ≤
        ((w.offer more i).lookaheads j).weight g.tokenCount :=
      fun j => TokenSet.weight_mono ((Grows.offer more w i).lookaheads j)
    have hlt : (w.lookaheads i).weight g.tokenCount <
        ((w.offer more i).lookaheads i).weight g.tokenCount := by
      rw [lookaheads_offer, if_pos rfl]
      exact TokenSet.weight_lt (TokenSet.subset_union_left _ _) ((h.known i).union hm) hne.symm
    have hbound := TokenSet.weight_le g.tokenCount ((w.offer more i).lookaheads i)
    have hsum : ∑ j ∈ g.allStarts.toFinset,
          (g.tokenCount - ((w.offer more i).lookaheads j).weight g.tokenCount) <
        ∑ j ∈ g.allStarts.toFinset, (g.tokenCount - (w.lookaheads j).weight g.tokenCount) :=
      Finset.sum_lt_sum (fun j _ => Nat.sub_le_sub_left (hle j) _)
        ⟨i, List.mem_toFinset.2 hi, by omega⟩
    simp only [potential, heq, List.length_cons]
    omega

theorem potential_offers_le {is : List Item} (h : Within g w) (hm : more.Within g.tokenCount)
    (hi : ∀ i ∈ is, i ∈ g.allStarts) :
    Within g (is.foldl (Worklist.offer more) w) ∧
      potential g (is.foldl (Worklist.offer more) w) ≤ potential g w :=
  List.foldlRecOn is _ (motive := fun w' => Within g w' ∧ potential g w' ≤ potential g w)
    ⟨h, le_rfl⟩ fun _ hw i hmem =>
      ⟨hw.1.offer hm, (potential_offer_le hw.1 hm (hi i hmem)).trans hw.2⟩

/-- A visit takes an item from those that wait, and none comes for nothing. -/
theorem potential_visit_lt (wf : g.WellFormed) (h : Within g w) {rest : ItemSet}
    (hw : w.waiting = x :: rest) :
    Within g (visit (.ofGrammar g) { w with waiting := rest } x) ∧
      potential g (visit (.ofGrammar g) { w with waiting := rest } x) < potential g w := by
  have hrest : Within g { w with waiting := rest } :=
    ⟨h.known, fun y hy => h.waiting y (hw ▸ List.mem_cons_of_mem x hy)⟩
  have hlt : potential g { w with waiting := rest } < potential g w := by
    rw [potential, potential, hw]
    exact Nat.add_lt_add_right (Nat.lt_succ_self _) _
  unfold visit
  split
  · exact ⟨hrest, hlt⟩
  · rename_i d hd
    have hmore := (Analysis.inherits_within wf).demand hd
      (h.waiting x (hw ▸ List.mem_cons_self))
    obtain ⟨hwithin, hle⟩ :=
      potential_offers_le hrest hmore fun i hi => FlatGrammar.mem_allStarts hi
    exact ⟨hwithin, hle.trans_lt hlt⟩

theorem waiting_run (wf : g.WellFormed) {fuel : Nat} (h : Within g w)
    (hfuel : potential g w ≤ fuel) : (run (.ofGrammar g) fuel w).waiting = [] := by
  induction fuel generalizing w with
  | zero =>
    have hlength : w.waiting.length = 0 := by
      simp only [potential] at hfuel
      omega
    exact List.length_eq_zero_iff.1 hlength
  | succ fuel ih =>
    rw [run]
    split
    · assumption
    · rename_i x rest hw
      obtain ⟨hwithin, hlt⟩ := potential_visit_lt wf h hw
      exact ih hwithin (by omega)

theorem potential_ofKernel_le (h : Ordered.Ascending (kernel.map (·.1))) :
    potential g (.ofKernel kernel h) ≤ visits g kernel := by
  have hsum : ∑ i ∈ g.allStarts.toFinset,
        (g.tokenCount - ((ofKernel kernel h).lookaheads i).weight g.tokenCount) ≤
      g.allStarts.toFinset.card * g.tokenCount := by
    simpa using Finset.sum_le_card_nsmul g.allStarts.toFinset _ g.tokenCount
      fun i _ => Nat.sub_le g.tokenCount (((ofKernel kernel h).lookaheads i).weight g.tokenCount)
  have hcard := Nat.mul_le_mul_right g.tokenCount (List.toFinset_card_le g.allStarts)
  rw [potential, visits, ofKernel, List.length_reverse]
  exact Nat.add_le_add_left (hsum.trans hcard) _

section

variable (hkernel : Ordered.Ascending (kernel.map (·.1)))

/-- What a kernel's visits end with. -/
def final (g : FlatGrammar) : Worklist :=
  run (.ofGrammar g) (visits g kernel) (ofKernel kernel hkernel)

theorem waiting_final (wf : g.WellFormed) (hk : kernel.Within g) :
    (final hkernel g).waiting = [] :=
  waiting_run wf (within_ofKernel hk hkernel) (potential_ofKernel_le hkernel)

theorem sound_final (wf : g.WellFormed) : Sound g kernel (final hkernel g) :=
  run_keeps (fun _ _ _ h hw => h.visit wf hw) _ (sound_ofKernel hkernel)

theorem covers_final : Covers g kernel (final hkernel g) :=
  run_keeps (fun _ _ _ h hw => h.visit hw) _ (covers_ofKernel hkernel)

/-- When nothing waits, the known lookaheads are those of the closure. -/
theorem contains_final_iff (wf : g.WellFormed) (hk : kernel.Within g) {t : Symbol}
    (ht : t.isTerminal = true) :
    ((final hkernel g).lookaheads i).contains t = true ↔ ItemSet.Follows g kernel i t := by
  refine ⟨(sound_final hkernel wf).follows i t ht, fun h => ?_⟩
  have hcovers := covers_final (g := g) hkernel
  have hempty := waiting_final hkernel wf hk
  -- As nothing waits, `Covers` says that all demands are met; a lookahead follows by a chain of
  -- them.
  have hkernel' : ∀ x ∈ kernel, Met g (final hkernel g) x := fun x hx =>
    (hcovers.kernel x hx).resolve_left (by simp [hempty])
  induction h with
  | given hi _ hc => exact TokenSet.contains_of_subset (hcovers.known _ hi).2 hc
  | @begun i given t v n ss hi hss hn hb =>
    obtain ⟨-, hsub⟩ := hkernel' _ hi _ (Demand.ofSteps_of_cons hss) ⟨.nonterminal v, n, 0⟩
      (FlatGrammar.mem_starts.2 ⟨n, hn, rfl⟩)
    exact TokenSet.contains_of_subset hsub ((Demand.contains_lookaheads wf ht).2 (.inl hb))
  | @opened i u t v n ss hu hss hn ha ih =>
    obtain ⟨given, hc, hmet⟩ := hcovers.lookaheads i u (ih hu.isTerminal)
    obtain ⟨-, hsub⟩ := hmet.resolve_left (by simp [hempty]) _ (Demand.ofSteps_of_cons hss)
      ⟨.nonterminal v, n, 0⟩ (FlatGrammar.mem_starts.2 ⟨n, hn, rfl⟩)
    refine TokenSet.contains_of_subset hsub ((Demand.contains_lookaheads wf ht).2 ?_)
    exact ha.imp id fun ⟨hnil, heq⟩ => ⟨hnil, heq ▸ hc⟩

theorem mem_items_final_iff (wf : g.WellFormed) (hk : kernel.Within g) :
    i ∈ (final hkernel g).items ↔ ItemSet.Present g kernel i := by
  refine ⟨(sound_final hkernel wf).present i, ?_⟩
  have hcovers := covers_final (g := g) hkernel
  have hempty := waiting_final hkernel wf hk
  rintro (⟨given, hi⟩ | ⟨j, v, ss, hactive, hss, hi⟩)
  · exact (hcovers.known _ hi).1
  · obtain ⟨given, hmet⟩ : ∃ given, Met g (final hkernel g) (j, given) := by
      rcases hactive with ⟨given, hj⟩ | ⟨u, hu⟩
      · exact ⟨given, (hcovers.kernel _ hj).resolve_left (by simp [hempty])⟩
      · have hc := (contains_final_iff hkernel wf hk hu.isTerminal).2 hu
        obtain ⟨given, -, hmet⟩ := hcovers.lookaheads j u hc
        exact ⟨given, hmet.resolve_left (by simp [hempty])⟩
    exact (hmet _ (Demand.ofSteps_of_cons hss) i hi).1

end

theorem mem_known {given : TokenSet} :
    (i, given) ∈ w.known ↔ i ∈ w.items ∧ w.lookaheads i = given := by
  constructor
  · intro h
    refine ⟨List.mem_map_of_mem h, ?_⟩
    rw [lookaheads, Ordered.get?_of_mem w.ascending h, Option.getD_some]
  · rintro ⟨h, rfl⟩
    obtain ⟨⟨_, given⟩, hmem, rfl⟩ := List.mem_map.1 h
    rw [lookaheads, Ordered.get?_of_mem w.ascending hmem, Option.getD_some]
    exact hmem

end Worklist

namespace Analysis

variable {g : FlatGrammar} {kernel : ItemSet} {i : Item}

theorem present_of_mem_closure (wf : g.WellFormed) {given : TokenSet}
    (h : (i, given) ∈ (ofGrammar g).closure kernel) : ItemSet.Present g kernel i := by
  rcases mem_closure.1 h with h | ⟨v, n, rfl, hn, hv⟩
  · exact .inl ⟨given, h⟩
  · obtain ⟨j, ss, hactive, hss⟩ := (sound_lookaheads wf).active v given hv
    exact .inr ⟨j, v, ss, hactive, hss, FlatGrammar.mem_starts.2 ⟨n, hn, rfl⟩⟩

theorem mem_closure_of_present (wf : g.WellFormed) (hk : kernel.Within g)
    (h : ItemSet.Present g kernel i) : ∃ given, (i, given) ∈ (ofGrammar g).closure kernel := by
  rcases h with ⟨given, h⟩ | ⟨j, v, ss, hactive, hss, hi⟩
  · exact ⟨given, mem_closure.2 (.inl h)⟩
  · obtain ⟨n, hn, rfl⟩ := FlatGrammar.mem_starts.1 hi
    obtain ⟨given, hj⟩ : ∃ given, (j, given) ∈ kernel ∨
        (j, given) ∈ (ofGrammar g).closure kernel ∧ ∃ u, given.contains u = true := by
      rcases hactive with ⟨given, hj⟩ | ⟨u, hu⟩
      · exact ⟨given, .inl hj⟩
      · obtain ⟨given, hj, hc⟩ := mem_closure_of_follows wf hk hu
        exact ⟨given, .inr ⟨hj, u, hc⟩⟩
    obtain ⟨L, hL, -⟩ := get_lookaheads wf hk hj hss (FlatGrammar.lt_of_productionsOf hn)
    exact ⟨L, mem_closure.2 (.inr ⟨v, n, rfl, hn, hL⟩)⟩

/-- The closure of a kernel has each item once, with all lookaheads that follow. -/
theorem contains_closure_iff (wf : g.WellFormed) (h : ItemSet.Kernel g kernel) {given : TokenSet}
    (hi : (i, given) ∈ (ofGrammar g).closure kernel) {t : Symbol} (ht : t.isTerminal = true) :
    given.contains t = true ↔ ItemSet.Follows g kernel i t := by
  refine ⟨follows_of_mem_closure wf hi ht, fun hf => ?_⟩
  obtain ⟨L, hL, hc⟩ := mem_closure_of_follows wf (h.within wf) hf
  obtain ⟨-, rfl⟩ := Prod.mk.inj (List.inj_on_of_nodup_map h.nodup_closure hL hi rfl)
  exact hc

/-- Visiting what waits finds the closure of a kernel. -/
theorem known_final_eq (wf : g.WellFormed) (h : ItemSet.Kernel g kernel)
    (hkernel : Ordered.Ascending (kernel.map (·.1))) :
    (Worklist.final hkernel g).known = ((ofGrammar g).closure kernel).sort := by
  have hk := h.within wf
  refine ItemSet.ext_of_ascending (List.pairwise_map.1 (Worklist.ascending _))
    (ItemSet.ascending_sort (List.pairwise_map.1 h.nodup_closure)) ?_
  rintro ⟨i, given⟩
  rw [ItemSet.sort, List.mem_mergeSort, Worklist.mem_known,
    Worklist.mem_items_final_iff hkernel wf hk]
  have hsame {L : TokenSet} (hi : (i, L) ∈ (ofGrammar g).closure kernel) :
      (Worklist.final hkernel g).lookaheads i = L :=
    TokenSet.ext_contains fun t ht => Bool.eq_iff_iff.2 <|
      (Worklist.contains_final_iff hkernel wf hk ht).trans (contains_closure_iff wf h hi ht).symm
  constructor
  · rintro ⟨hpresent, rfl⟩
    obtain ⟨L, hL⟩ := mem_closure_of_present wf hk hpresent
    exact (hsame hL) ▸ hL
  · exact fun hi => ⟨present_of_mem_closure wf hi, hsame hi⟩

end Analysis

/-- Closures are exact. Visiting what waits ends, and what is then known of an item is what follows
it; the closure has the same lookaheads, and for a kernel of the automaton the same items. Where
each item of the kernel has a lookahead, what follows is what the kernel allows. -/
theorem closure_exact [RegexEngine] {source : Grammar} {g : FlatGrammar}
    (h : FlatGrammar.ofGrammar source = .ok g) {kernel : ItemSet}
    (hkernel : Ordered.Ascending (kernel.map (·.1))) (hk : kernel.Within g) :
    (Worklist.final hkernel g).waiting = [] ∧
      (∀ i (t : Symbol), t.isTerminal = true →
        (((Worklist.final hkernel g).lookaheads i).contains t = true ↔
          ItemSet.Follows g kernel i t)) ∧
      (∀ i (t : Symbol), t.isTerminal = true →
        ((∃ given, (i, given) ∈ (Analysis.ofGrammar g).closure kernel ∧ given.contains t = true) ↔
          ItemSet.Follows g kernel i t)) ∧
      (ItemSet.Kernel g kernel →
        (Worklist.final hkernel g).known = ((Analysis.ofGrammar g).closure kernel).sort) ∧
      ((∀ x ∈ kernel, x.2 ≠ .empty) →
        ∀ i t, ItemSet.Follows g kernel i t ↔ ItemSet.Allows g kernel i t) := by
  have wf := FlatGrammar.wellFormed_of_ofGrammar h
  refine ⟨Worklist.waiting_final hkernel wf hk,
    fun i t ht => Worklist.contains_final_iff hkernel wf hk ht, fun i t ht => ⟨?_, ?_⟩,
    fun hkernel' => Analysis.known_final_eq wf hkernel' hkernel,
    fun hne i t => ItemSet.follows_iff_allows hne⟩
  · rintro ⟨given, hi, hc⟩
    exact Analysis.follows_of_mem_closure wf hi ht hc
  · exact Analysis.mem_closure_of_follows wf hk

theorem Item.ascending_initial :
    Ordered.Ascending ([(Item.initial, TokenSet.singleton .eof)].map (·.1)) :=
  List.pairwise_singleton _ _

/-- In the entwined grammar the tail is followed by an `a` and, through itself, by a `c`. -/
theorem closure_exact_entwined : ∃ g, FlatGrammar.ofGrammar .entwined = .ok g ∧
    ItemSet.Within g [(.initial, .singleton .eof)] ∧
    (Worklist.final Item.ascending_initial g).waiting = [] ∧
    (Worklist.final Item.ascending_initial g).known =
      ((Analysis.ofGrammar g).closure [(.initial, .singleton .eof)]).sort ∧
    ∀ t : Symbol, t.isTerminal = true →
      (ItemSet.Allows g [(.initial, .singleton .eof)] ⟨.nonterminal 1, 0, 0⟩ t ↔
        t = .terminal 0 ∨ t = .terminal 2) := by
  obtain ⟨g, h, hlookaheads⟩ : ∃ g, FlatGrammar.ofGrammar .entwined = .ok g ∧
      (Worklist.final Item.ascending_initial g).lookaheads ⟨.nonterminal 1, 0, 0⟩ =
        (TokenSet.singleton (.terminal 0)).union (.singleton (.terminal 2)) :=
    FlatGrammar.exists_of_decide (by decide +kernel)
  have hk := ItemSet.kernel_initial.within (FlatGrammar.wellFormed_of_ofGrammar h)
  obtain ⟨hempty, hknown, -, hsame, hallows⟩ := closure_exact h Item.ascending_initial hk
  refine ⟨g, h, hk, hempty, hsame ItemSet.kernel_initial, fun t ht => ?_⟩
  have hne : ∀ x ∈ [(Item.initial, TokenSet.singleton .eof)], x.2 ≠ .empty := by decide
  rw [← hallows hne, ← hknown _ t ht, hlookaheads, TokenSet.contains_union, Bool.or_eq_true,
    TokenSet.contains_singleton_iff rfl ht, TokenSet.contains_singleton_iff rfl ht,
    eq_comm, @eq_comm _ (Symbol.terminal 2)]

theorem ItemSet.not_allows_of_empty {g : FlatGrammar} {kernel : ItemSet}
    (h : ∀ x ∈ kernel, x.2 = .empty) {i : Item} {t : Symbol} : ¬ ItemSet.Allows g kernel i t := by
  intro ha
  induction ha with
  | given hi _ hc =>
    obtain rfl := h _ hi
    simp at hc
  | opened _ _ _ _ ih => exact ih

/-- A grammar in which no text follows the variable `b`, as `c` derives none. -/
def Grammar.unending : Grammar where
  name := "unending"
  rules := [⟨"start", .seq [.symbol "b", .symbol "c"]⟩,
    ⟨"b", .seq [.string "x", .symbol "d", .string "y"]⟩,
    ⟨"c", .seq [.symbol "c", .string "z"]⟩, ⟨"d", .seq [.string "p", .string "q"]⟩]

/-- The item of `b` with its dot behind the `x`, without lookaheads. -/
def ItemSet.unfollowed : ItemSet := [(⟨.nonterminal 1, 0, 1⟩, .empty)]

/-- Where nothing follows the items of a kernel, the closure has lookaheads that the kernel does not
allow: in the unending grammar a `d` behind the `x` is followed by the `y` of `b`. -/
theorem closure_not_allowed : ∃ g, FlatGrammar.ofGrammar .unending = .ok g ∧
    (∃ a ∈ Automaton.states (.ofGrammar g), a.kernel = .unfollowed) ∧
    (∃ given, (⟨.nonterminal 3, 0, 0⟩, given) ∈ (Analysis.ofGrammar g).closure .unfollowed ∧
      given.contains (.terminal 1) = true) ∧
    ¬ ItemSet.Allows g .unfollowed ⟨.nonterminal 3, 0, 0⟩ (.terminal 1) := by
  obtain ⟨g, h, ⟨a, ha, hkernel⟩, ⟨i, given⟩, hx, rfl, hc⟩ :
      ∃ g, FlatGrammar.ofGrammar .unending = .ok g ∧
        (∃ a ∈ (Automaton.states (.ofGrammar g)).toList, a.kernel = .unfollowed) ∧
        ∃ x ∈ (Analysis.ofGrammar g).closure .unfollowed,
          x.1 = ⟨.nonterminal 3, 0, 0⟩ ∧ x.2.contains (.terminal 1) = true := by
    apply FlatGrammar.exists_of_decide
    simp only [Automaton.states_eq_visitStates]
    decide +kernel
  exact ⟨g, h, ⟨a, Array.mem_toList_iff.1 ha, hkernel⟩, ⟨given, hx, hc⟩,
    ItemSet.not_allows_of_empty (by decide)⟩

end GrammarTables
