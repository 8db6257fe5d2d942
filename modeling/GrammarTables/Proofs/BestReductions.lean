import GrammarTables.Proofs.Conflicts
import GrammarTables.Proofs.Precedence
import GrammarTables.Proofs.ReductionOrder
import GrammarTables.Proofs.TableIndices

/-!
# The best reductions are offered

What the complete items of a state offer for a terminal are the reductions of the items with the
greatest precedence, in their order. They are found in one pass in which a reduction of greater
precedence takes the place of everything before it. It never takes the place of accepting the text,
as the complete item of the start comes last: in a state that has it no dot is further on.
-/

namespace GrammarTables

open Std

/-- The precedence that items share and the associativities among them. -/
structure Rank.IsOf (g : FlatGrammar) (items : List Item) (r : Rank) : Prop where
  precedence : ∀ i ∈ items, i.precedence g = r.precedence
  left : r.left = true ↔ ∃ i ∈ items, i.associativity g = some .left
  right : r.right = true ↔ ∃ i ∈ items, i.associativity g = some .right
  neither : r.neither = true ↔ ∃ i ∈ items, i.associativity g = none

namespace ItemSet

/-- An item of a variable is complete before a terminal. -/
def Completes (g : FlatGrammar) (closure : ItemSet) (t : Symbol) (i : Item) : Prop :=
  i.isStart = false ∧ i.next? g = none ∧ ∃ given, (i, given) ∈ closure ∧ given.contains t = true

/-- No item that is complete before the terminal has a greater precedence. -/
def Best (g : FlatGrammar) (closure : ItemSet) (t : Symbol) (i : Item) : Prop :=
  closure.Completes g t i ∧ ∀ j, closure.Completes g t j → j.precedence g ≤ i.precedence g

/-- For a terminal the reductions of the best items are offered, each once, and before the end of a
text to accept it where the start symbol is complete. -/
structure Offers (g : FlatGrammar) (reductionOf : Item → Action) (closure : ItemSet) (t : Symbol)
    (best : List Item) (o : Offer) : Prop where
  mem_iff : ∀ i, i ∈ best ↔ closure.Best g t i
  ordered : best.Pairwise fun i j => Item.reductionOrder g i j = .lt
  actions : o.actions = (best.map reductionOf).eraseDups ++
    if t = .eof ∧ Item.initial.advance ∈ closure.core then [.accept] else []
  rank : ∀ r, o.rank = some r → r.IsOf g best
  rank_eq_none : o.rank = none ↔ best = []

end ItemSet

namespace Rank

variable {g : FlatGrammar} {items : List Item} {i : Item} {r : Rank}

@[simp] theorem precedence_add (r : Rank) (as : Option Associativity) :
    (r.add as).precedence = r.precedence := by
  obtain _ | _ | _ := as <;> rfl

theorem IsOf.add (h : r.IsOf g items) (hi : i.precedence g = r.precedence) :
    (r.add (i.associativity g)).IsOf g (items ++ [i]) := by
  obtain ⟨hp, hl, hr, hn⟩ := h
  cases has : i.associativity g with
  | none => constructor <;> grind [Rank.add]
  | some as => cases as <;> constructor <;> grind [Rank.add]

theorem isOf_singleton (g : FlatGrammar) (i : Item) :
    IsOf g [i] ({ precedence := i.precedence g : Rank }.add (i.associativity g)) := by
  have hnil : IsOf g [] { precedence := i.precedence g } := by constructor <;> simp
  exact hnil.add rfl

end Rank

/-- The items with a precedence. -/
def Item.ofPrecedence (g : FlatGrammar) (p : Int) (items : List Item) : List Item :=
  items.filter fun i => i.precedence g = p

namespace Offer

/-- What is offered after the items that are complete before a terminal and come first. -/
inductive Collects (g : FlatGrammar) (reductionOf : Item → Action) : List Item → Offer → Prop
  | nothing : Collects g reductionOf [] {}
  | reductions {items best : List Item} {r : Rank} :
      (∀ i ∈ items, i.precedence g ≤ r.precedence) →
      Item.ofPrecedence g r.precedence items = best → best ≠ [] → r.IsOf g best →
      Collects g reductionOf items ⟨(best.map reductionOf).eraseDups, some r⟩

variable {g : FlatGrammar} {reductionOf : Item → Action} {items : List Item} {o : Offer}

theorem ofPrecedence_append (p : Int) (i : Item) : Item.ofPrecedence g p (items ++ [i]) =
    Item.ofPrecedence g p items ++ if i.precedence g = p then [i] else [] := by
  by_cases h : i.precedence g = p <;> simp [Item.ofPrecedence, h]

/-- The items so far, whose precedences are less, give way to one more. -/
theorem Collects.of_lt {i : Item} (h : ∀ j ∈ items, j.precedence g < i.precedence g) :
    Collects g reductionOf (items ++ [i]) ⟨[reductionOf i],
      some ({ precedence := i.precedence g : Rank }.add (i.associativity g))⟩ := by
  have hrank := Rank.isOf_singleton g i
  have hp := Rank.precedence_add { precedence := i.precedence g } (i.associativity g)
  generalize ({ precedence := i.precedence g } : Rank).add (i.associativity g) = r at *
  have hnone : Item.ofPrecedence g r.precedence items = [] :=
    List.filter_eq_nil_iff.2 fun j hj => by simpa [hp] using Int.ne_of_lt (h j hj)
  have hall : Item.ofPrecedence g r.precedence (items ++ [i]) = [i] := by
    rw [ofPrecedence_append, hnone, if_pos hp.symm, List.nil_append]
  have hle : ∀ j ∈ items ++ [i], j.precedence g ≤ r.precedence := by
    grind
  simpa [List.eraseDups_cons] using Collects.reductions hle hall (List.cons_ne_nil _ _) hrank

/-- An item of greater precedence takes the place of those before it, and one of the same precedence
joins them. -/
theorem Collects.addReduction (h : Collects g reductionOf items o) (i : Item) :
    Collects g reductionOf (items ++ [i])
      (o.addReduction (reductionOf i) (i.precedence g) (i.associativity g)) := by
  cases h with
  | nothing => exact .of_lt (by simp)
  | @reductions _ best r hle hbest hne hr =>
    have hle' (hi : i.precedence g ≤ r.precedence) :
        ∀ j ∈ items ++ [i], j.precedence g ≤ r.precedence :=
      List.forall_mem_append.2 ⟨hle, List.forall_mem_singleton.2 hi⟩
    obtain hlt | heq | hgt := Int.lt_trichotomy (i.precedence g) r.precedence
    · have hsame : Item.ofPrecedence g r.precedence (items ++ [i]) = best := by
        simp [ofPrecedence_append, Int.ne_of_lt hlt, hbest]
      simpa [Offer.addReduction, compare_lt_iff_lt.2 hlt] using
        Collects.reductions (hle' (Int.le_of_lt hlt)) hsame hne hr
    · have hmore : Item.ofPrecedence g (r.add (i.associativity g)).precedence (items ++ [i]) =
          best ++ [i] := by
        simp [ofPrecedence_append, heq, hbest]
      have hadd : Collects g reductionOf (items ++ [i]) ⟨((best ++ [i]).map reductionOf).eraseDups,
          some (r.add (i.associativity g))⟩ :=
        .reductions (by simpa using hle' (Int.le_of_eq heq)) hmore (by simp) (hr.add heq)
      rw [List.map_append, List.map_singleton, eraseDups_append_singleton] at hadd
      simpa [Offer.addReduction, heq] using hadd
    · simpa [Offer.addReduction, compare_gt_iff_gt.2 hgt] using
        Collects.of_lt fun j hj => Int.lt_of_le_of_lt (hle j hj) hgt

/-- What is offered in the end are the reductions of the items with the greatest precedence. -/
theorem Collects.exists_best (h : Collects g reductionOf items o) : ∃ best,
    best.Sublist items ∧
    (∀ i, i ∈ best ↔ i ∈ items ∧ ∀ j ∈ items, j.precedence g ≤ i.precedence g) ∧
    o.actions = (best.map reductionOf).eraseDups ∧ (∀ r, o.rank = some r → r.IsOf g best) ∧
    (o.rank = none ↔ best = []) := by
  cases h with
  | nothing => exact ⟨[], .refl [], by simp, rfl, by simp, by simp⟩
  | @reductions _ best r hle hbest hne hr =>
    have hmem : ∀ i, i ∈ best ↔ i ∈ items ∧ i.precedence g = r.precedence := by
      simp [← hbest, Item.ofPrecedence]
    refine ⟨best, hbest ▸ List.filter_sublist, fun i => (hmem i).trans ?_, rfl, ?_, ?_⟩
    · refine and_congr_right fun hi => ⟨fun hp => hp ▸ hle, fun hmax => ?_⟩
      obtain ⟨j, hj⟩ := List.exists_mem_of_ne_nil best hne
      obtain ⟨hj, hp⟩ := (hmem j).1 hj
      exact Int.le_antisymm (hle i hi) (hp ▸ hmax j hj)
    · rintro _ ⟨⟩
      exact hr
    · simpa using hne

end Offer

namespace ItemSet

variable {g : FlatGrammar} {reductionOf : Item → Action} {closure items : ItemSet} {t : Symbol}

/-- The items that have the terminal as a lookahead. -/
def facing (items : ItemSet) (t : Symbol) : List Item :=
  core (items.filter fun x => x.2.contains t)

/-- The offer of items of variables is collected from those that face the terminal. -/
theorem collects_offer (hs : ∀ x ∈ items, x.1.isStart = false) :
    Offer.Collects g reductionOf (facing items t) (offer g reductionOf items t) := by
  induction items using List.reverseRecOn with
  | nil => exact .nothing
  | append_singleton items x ih =>
    have ih := ih fun y hy => hs y (by simp [hy])
    have hx := hs x (by simp)
    have hoffer : offer g reductionOf (items ++ [x]) t =
        offerStep g reductionOf t (offer g reductionOf items t) x := List.foldl_concat ..
    rw [hoffer]
    by_cases hc : x.2.contains t = true
    · simpa [offerStep, facing, core, hx, hc] using ih.addReduction x.1
    · simpa [offerStep, facing, core, hx, hc] using ih

/-- Where a property stays once it is met, a list is cut where it begins. -/
theorem eq_filter_append {α : Type} {p : α → Bool} {l : List α}
    (h : l.Pairwise fun x y => p x = true → p y = true) : l = l.filter (!p ·) ++ l.filter p := by
  induction h with
  | nil => rfl
  | @cons x l hx hl ih =>
    by_cases hp : p x = true
    · have hall : ∀ y ∈ l, p y = true := fun y hy => hx y hy hp
      have hnone : l.filter (!p ·) = [] := List.filter_eq_nil_iff.2 fun y hy => by simp [hall y hy]
      simp [hp, hnone, List.filter_eq_self.2 hall]
    · simp only [hp, List.filter_cons]
      simpa using ih

/-- The items of variables among the complete ones. -/
def ofVariables (g : FlatGrammar) (closure : ItemSet) : ItemSet :=
  (closure.completed g).filter fun x => !x.1.isStart

theorem mem_facing {i : Item} :
    i ∈ facing (closure.ofVariables g) t ↔ closure.Completes g t i := by
  simp only [facing, core, ofVariables, Completes, List.mem_map, List.mem_filter,
    Canonical.mem_completed, Bool.not_eq_true', Item.next?_eq_none]
  constructor
  · rintro ⟨⟨i, given⟩, ⟨⟨⟨hmem, hc⟩, hs⟩, ht⟩, rfl⟩
    exact ⟨hs, hc, given, hmem, ht⟩
  · rintro ⟨hs, hc, given, hmem, ht⟩
    exact ⟨(i, given), ⟨⟨⟨hmem, hc⟩, hs⟩, ht⟩, rfl⟩

section

variable (hnodup : (closure.map (·.1)).Nodup) (hbelongs : ∀ x ∈ closure, x.1.Belongs g)
  (haligned : closure.Aligned g)

section

include hbelongs haligned

/-- Where the start symbol is complete no dot is further on. -/
theorem dot_le_of_isStart {x y : Item × TokenSet} (hx : x ∈ closure.completed g)
    (hy : y ∈ closure.completed g) (hs : x.1.isStart = true) : y.1.dot ≤ x.1.dot := by
  have hlen : ∀ z ∈ closure.completed g, (z.1.before g).length = z.1.dot := by
    intro z hz
    obtain ⟨hz, hc⟩ := Canonical.mem_completed.1 hz
    rcases (hbelongs z hz).complete hc with heq | ⟨v, n, hn, heq⟩ <;> rw [heq]
    · rfl
    · rw [Item.before_end hn, Production.symbols, List.length_map]
  have hsuffix := (haligned x (Canonical.mem_completed.1 hx).1 y
    (Canonical.mem_completed.1 hy).1).2 hs
  have hle := hsuffix.length_le
  rwa [hlen x hx, hlen y hy] at hle

/-- The complete item of the start comes last. -/
theorem completed_eq : closure.completed g =
    closure.ofVariables g ++ (closure.completed g).filter (·.1.isStart) := by
  refine eq_filter_append (List.Pairwise.imp_of_mem ?_ (pairwise_completed g closure))
  intro x y hx hy hle hs
  by_contra hy'
  rw [Item.reductionOrder_of_isStart hs (Bool.eq_false_iff.2 hy')
    (dot_le_of_isStart hbelongs haligned hx hy hs)] at hle
  cases hle

end

include hnodup

/-- No two complete items have the same place in the order of reductions. -/
theorem ordered_completed :
    (closure.completed g).core.Pairwise fun i j => Item.reductionOrder g i j = .lt := by
  have hne := List.pairwise_map.1 (nodup_completed (g := g) hnodup)
  refine List.pairwise_map.2 (((pairwise_completed g closure).and hne).imp ?_)
  rintro x y ⟨hle, hne⟩
  cases hcmp : Item.reductionOrder g x.1 y.1 with
  | lt => rfl
  | eq => exact absurd (LawfulEqCmp.eq_of_compare hcmp) hne
  | gt => simp [hcmp] at hle

include hbelongs

/-- At most one complete item is that of the start. -/
theorem starts_cases : ((closure.completed g).filter (·.1.isStart) = [] ∧
      Item.initial.advance ∉ closure.core) ∨
    ∃ L, (closure.completed g).filter (·.1.isStart) = [(Item.initial.advance, L)] ∧
      Item.initial.advance ∈ closure.core := by
  have hmem : ∀ x ∈ (closure.completed g).filter (·.1.isStart), x.1 = Item.initial.advance := by
    intro x hx
    obtain ⟨hx, hs⟩ := List.mem_filter.1 hx
    obtain ⟨hx, hc⟩ := Canonical.mem_completed.1 hx
    rcases (hbelongs x hx).complete hc with heq | ⟨v, n, hn, heq⟩
    · exact heq
    · rw [heq] at hs
      cases hs
  have hnodup' := (nodup_completed (g := g) hnodup).sublist
    ((List.filter_sublist (p := (·.1.isStart))).map _)
  match hl : (closure.completed g).filter (·.1.isStart) with
  | [] =>
    refine .inl ⟨hl, fun hcore => ?_⟩
    obtain ⟨x, hx, heq⟩ := List.mem_map.1 hcore
    refine List.filter_eq_nil_iff.1 hl x (Canonical.mem_completed.2 ⟨hx, ?_⟩) ?_ <;>
      exact heq ▸ rfl
  | [x] =>
    have hx := hmem x (by simp [hl])
    have hx' := (List.mem_filter.1 (hl ▸ List.mem_singleton_self x)).1
    exact .inr ⟨x.2, by rw [hl, ← hx], hx ▸ List.mem_map_of_mem (Canonical.mem_completed.1 hx').1⟩
  | x :: y :: rest =>
    rw [hl] at hmem hnodup'
    simp [hmem x (by simp), hmem y (by simp)] at hnodup'

include haligned

/-- The offer of a state: accepting the text is added to the reductions of the best items. -/
theorem exists_offers (reductionOf : Item → Action) (t : Symbol) : ∃ best,
    closure.Offers g reductionOf t best (offer g reductionOf (closure.completed g) t) := by
  have hvars : ∀ x ∈ closure.ofVariables g, x.1.isStart = false := fun x hx => by
    simpa using (List.mem_filter.1 hx).2
  have hcollects : Offer.Collects g reductionOf (facing (closure.ofVariables g) t)
      (offer g reductionOf (closure.ofVariables g) t) := collects_offer hvars
  obtain ⟨best, hsub, hmem, hactions, hrank, hnone⟩ := hcollects.exists_best
  have hoffer : offer g reductionOf (closure.completed g) t =
      ((closure.completed g).filter (·.1.isStart)).foldl (offerStep g reductionOf t)
        (offer g reductionOf (closure.ofVariables g) t) := by
    conv_lhs => rw [completed_eq hbelongs haligned]
    exact List.foldl_append ..
  have hordered := (ordered_completed (g := g) hnodup).sublist
    (hsub.trans ((List.filter_sublist.trans List.filter_sublist).map _))
  have hbest : ∀ i, i ∈ best ↔ closure.Best g t i := fun i => by simp only [hmem, mem_facing, Best]
  refine ⟨best, ?_⟩
  rcases starts_cases hnodup hbelongs with ⟨hnil, hcore⟩ | ⟨L, hone, hcore⟩
  · rw [hoffer, hnil]
    exact ⟨hbest, hordered, by simp [hactions, hcore], hrank, hnone⟩
  · rw [hoffer, hone]
    generalize offer g reductionOf (closure.ofVariables g) t = o at *
    have hstep : [(Item.initial.advance, L)].foldl (offerStep g reductionOf t) o =
        if t = .eof then o.addAccept else o := by
      rw [List.foldl_cons, List.foldl_nil, offerStep]
      exact if_pos rfl
    rw [hstep]
    by_cases ht : t = .eof
    · rw [if_pos ht]
      exact ⟨hbest, hordered, by simp [Offer.addAccept, hactions, ht, hcore], hrank, hnone⟩
    · rw [if_neg ht]
      exact ⟨hbest, hordered, by simp [hactions, ht], hrank, hnone⟩

end

end ItemSet

namespace Canonical

variable {g : FlatGrammar} {q : Nat} {a : Automaton.State} {s : State} {t : Symbol}

/-- What the complete items of a state of the automaton offer for a terminal. -/
def offered (g : FlatGrammar) (a : Automaton.State) (t : Symbol) : Offer :=
  (a.closure.completed g).offer g (reductionOf g) t

/-- The actions for a terminal before a shift is settled against reductions. -/
def unsettled (g : FlatGrammar) (a : Automaton.State) (t : Symbol) : List Action :=
  (offered g a t).actions ++ ((a.successors.lookup t).map (Action.shift · false)).toList

/-- An entry is what the contest leaves of the actions before it. -/
theorem Describes.on_of_unsettled (h : Describes g q a s) (ht : t ∈ g.terminals)
    (hne : unsettled g a t ≠ []) : s.on t =
      ((Analysis.ofGrammar g).contest a.closure t (offered g a t).rank (unsettled g a t)).1 := by
  have hset := ItemSet.settled_offer (g := g) (t := t) fun x hx => h.not_shift hx
  refine h.on_of_ne_nil (FlatGrammar.isTerminal_of_mem ht) (FlatGrammar.position_lt_of_mem ht) ?_
  apply Analysis.contest_ne_nil hset.1.1
  by_contra hnil
  obtain ⟨hactions, hshift⟩ := not_or.1 hnil
  refine hne ?_
  unfold unsettled offered
  rw [not_not.1 hactions, Option.not_isSome_iff_eq_none.1 hshift]
  rfl

/-- The items that are complete before a terminal have reductions. -/
theorem Describes.exists_reduces (h : Describes g q a s)
    (ha : (Automaton.states (Analysis.ofGrammar g))[q]? = some a) {i : Item}
    (hi : a.closure.Completes g t i) : ∃ r, reductionOf g i = .reduce r ∧
      i.Reduces g (numbered (layouts g) (allReduced g)) r := by
  obtain ⟨hs, hnext, L, hL, -⟩ := hi
  have hc := Item.next?_eq_none.1 hnext
  rcases (h.belongs _ hL).complete hc with rfl | ⟨v, n, hn, rfl⟩
  · cases hs
  · exact reduces_of_mem (mem_allReduced ha hL hc rfl) hn

end Canonical

/-- In every state the best reductions are offered for a terminal, in their order, and accepting a
text is offered where the start symbol is complete, whatever precedences other items have. The entry
in the table is what the contest between them and the shift leaves. -/
theorem reductions_offered [RegexEngine] {source : Grammar} {g : FlatGrammar}
    (h : FlatGrammar.ofGrammar source = .ok g) {q : Nat} {a : Automaton.State}
    (ha : (Automaton.states (Analysis.ofGrammar g))[q]? = some a) {t : Symbol}
    (ht : t ∈ g.terminals) :
    ∃ best, a.closure.Offers g (Canonical.reductionOf g) t best (Canonical.offered g a t) ∧
      ∀ table conflicts, ParseTable.canonical g = .ok (table, conflicts) →
        (∀ i ∈ best, ∃ r, Canonical.reductionOf g i = .reduce r ∧ i.Reduces g table.layouts r) ∧
        ∃ s, table.states[q]? = some s ∧ (Canonical.unsettled g a t ≠ [] → s.on t =
          ((Analysis.ofGrammar g).contest a.closure t (Canonical.offered g a t).rank
            (Canonical.unsettled g a t)).1) := by
  have wf := FlatGrammar.wellFormed_of_ofGrammar h
  have htable := Canonical.table_states wf
  obtain ⟨s, hs, hdesc⟩ := htable.describes ha
  have hnodup := (htable.complete.kernel ha).nodup_closure
  rw [← htable.complete.closure ha] at hnodup
  obtain ⟨best, hoffers⟩ := ItemSet.exists_offers hnodup hdesc.belongs
    (Automaton.aligned_states wf ha) (Canonical.reductionOf g) t
  refine ⟨best, hoffers, fun table conflicts hc => ?_⟩
  obtain ⟨hstates, hlayouts, -⟩ := Canonical.table_of_canonical hc
  rw [hstates, hlayouts]
  refine ⟨fun i hi => ?_, s, hs, fun hne => hdesc.on_of_unsettled ht hne⟩
  exact hdesc.exists_reduces ha ((hoffers.mem_iff i).1 hi).1

/-- At the end of a text the looping grammar offers to accept it beside a reduction. -/
theorem reductions_offered_looping : ∃ (g : FlatGrammar) (table : ParseTable)
    (conflicts : List Conflict) (q : Nat) (a : Automaton.State) (best : List Item) (r : Reduction),
    FlatGrammar.ofGrammar .looping = .ok g ∧ ParseTable.canonical g = .ok (table, conflicts) ∧
    (Automaton.states (Analysis.ofGrammar g))[q]? = some a ∧
    a.closure.Offers g (Canonical.reductionOf g) .eof best (Canonical.offered g a .eof) ∧
    ⟨.nonterminal 0, 0, 1⟩ ∈ best ∧ Item.Reduces g table.layouts ⟨.nonterminal 0, 0, 1⟩ r ∧
    (Canonical.offered g a .eof).actions = [.reduce r, .accept] := by
  obtain ⟨g, h, hsmall, -, -, hsize, -, -, hp⟩ := FlatGrammar.exists_looping
  have wf := FlatGrammar.wellFormed_of_ofGrammar h
  obtain ⟨⟨table, conflicts⟩, hc⟩ := ParseTable.exists_canonical wf hsmall
  obtain ⟨q, a, L, M, ha, hL, -, hM, hMc, hafter⟩ := Automaton.exists_both wf hp
  obtain ⟨s, -, hdesc⟩ := (Canonical.table_states wf).describes ha
  obtain ⟨best, hoffers, htable⟩ := reductions_offered h ha (List.mem_cons_self ..)
  obtain ⟨hreduces, -⟩ := htable table conflicts hc
  -- All complete items of the variable are the same.
  have hone : ∀ i, a.closure.Completes g .eof i → i = ⟨.nonterminal 0, 0, 1⟩ := by
    rintro i ⟨hstart, hn, L', hL', -⟩
    rcases (hdesc.belongs _ hL').complete (Item.next?_eq_none.1 hn) with rfl | ⟨v, n, hlt, rfl⟩
    · cases hstart
    · obtain rfl : v = 0 := Nat.lt_one_iff.1 (hsize ▸ FlatGrammar.lt_of_productionsOf hlt)
      have hlen := congrArg List.length hp
      simp only [List.length_map, List.length_singleton] at hlen
      obtain rfl : n = 0 := by omega
      obtain heq | ⟨v, n, hlt, heq⟩ := (hdesc.belongs _ hM).complete hafter
      · cases heq
      · simp only [Item.mk.injEq, Head.nonterminal.injEq] at heq
        obtain ⟨rfl, rfl, hdot⟩ := heq
        rw [← hdot]
  have hbest : ⟨.nonterminal 0, 0, 1⟩ ∈ best := by
    refine (hoffers.mem_iff _).2 ⟨⟨rfl, Item.next?_eq_none.2 hafter, M, hM, hMc⟩, fun j hj => ?_⟩
    rw [hone j hj]
  obtain ⟨r, hr, hreduces⟩ := hreduces _ hbest
  have hsingle : best = [⟨.nonterminal 0, 0, 1⟩] := by
    match best, hbest, hoffers with
    | [i], hi, _ => rw [List.mem_singleton.1 hi]
    | i :: j :: rest, _, hoffers =>
      have hlt := (List.pairwise_cons.1 hoffers.ordered).1 j (by simp)
      have hself : Item.reductionOrder g j j = .eq := ReflCmp.compare_self
      rw [hone i ((hoffers.mem_iff i).1 (by simp)).1,
        ← hone j ((hoffers.mem_iff j).1 (by simp)).1, hself] at hlt
      cases hlt
  have haccept : Item.initial.advance ∈ a.closure.core := List.mem_map_of_mem hL
  refine ⟨g, table, conflicts, q, a, best, r, h, hc, ha, hoffers, hbest, hreduces, ?_⟩
  rw [hoffers.actions, hsingle]
  simp [hr, haccept, List.eraseDups_cons]

end GrammarTables
