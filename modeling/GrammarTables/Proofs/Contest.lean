import GrammarTables.ParseTable.Contest
import Mathlib.Data.List.Basic

/-!
# What contests keep

Only offered actions stay in an entry, and some offered action always does. Where no step has a
precedence or an associativity all of them stay.
-/

namespace GrammarTables

namespace Action

/-- The action without the mark of a shift that goes on with a repetition. -/
def plain : Action → Action
  | .shift state _ => .shift state false
  | a => a

end Action

/-- A rank without precedence and associativity. -/
structure Rank.Neutral (r : Rank) : Prop where
  precedence : r.precedence = 0
  left : r.left = false
  right : r.right = false

namespace Offer

/-- What holds of the actions before each complete item: none is a shift, and a rank is that of some
action. -/
def Settled (o : Offer) : Prop :=
  (∀ a ∈ o.actions, a.isShift = false) ∧ (o.rank.isSome = true → o.actions ≠ [])

variable {o : Offer} {a x : Action} {p : Int} {as : Option Associativity}

theorem settled_empty : Settled {} := by simp [Settled]

theorem mem_addReduction (h : x ∈ (o.addReduction a p as).actions) : x ∈ o.actions ∨ x = a := by
  unfold addReduction at h
  split at h
  · simpa using h
  · split at h
    · exact .inr (by simpa using h)
    · simp only at h
      split at h
      · exact .inl h
      · simpa using h
    · exact .inl h

theorem Settled.addReduction (h : o.Settled) (ha : a.isShift = false) :
    (o.addReduction a p as).Settled ∧ (o.addReduction a p as).actions ≠ [] := by
  have hne : (o.addReduction a p as).actions ≠ [] := by
    unfold Offer.addReduction
    split
    · simp
    · rename_i rank hr
      have ho : o.actions ≠ [] := h.2 (by simp [hr])
      split
      · simp
      · simp only
        split
        · exact ho
        · simp
      · exact ho
  refine ⟨⟨fun x hx => ?_, fun _ => hne⟩, hne⟩
  rcases mem_addReduction hx with hx | rfl
  · exact h.1 x hx
  · exact ha

theorem Settled.addAccept (h : o.Settled) : o.addAccept.Settled := by
  refine ⟨fun x hx => ?_, fun _ => by simp [Offer.addAccept]⟩
  obtain hx | rfl : x ∈ o.actions ∨ x = .accept := by simpa [Offer.addAccept] using hx
  · exact h.1 x hx
  · rfl

/-- Without precedences a reduction is added to those before it. -/
theorem mem_addReduction_of_equal (hr : ∀ r, o.rank = some r → r.precedence = p) :
    x ∈ o.actions ∨ x = a → x ∈ (o.addReduction a p as).actions := by
  intro hx
  unfold addReduction
  split
  · simpa using hx
  · rename_i rank hrank
    rw [hr rank hrank, Std.compare_self]
    simp only
    split
    · rename_i hc
      rcases hx with hx | rfl
      · exact hx
      · simpa using hc
    · simpa using hx

theorem neutral_addReduction (ho : ∀ r, o.rank = some r → r.Neutral) {r : Rank}
    (hr : (o.addReduction a 0 none).rank = some r) : r.Neutral := by
  unfold addReduction at hr
  split at hr
  · cases hr
    exact ⟨rfl, rfl, rfl⟩
  · rename_i rank hrank
    have hn := ho rank hrank
    split at hr
    · cases hr
      exact ⟨rfl, rfl, rfl⟩
    · cases hr
      exact ⟨hn.precedence, hn.left, hn.right⟩
    · exact ho r hr

end Offer

namespace ItemSet

variable {g : FlatGrammar} {reductionOf : Item → Action} {items : ItemSet} {t : Symbol}

/-- One complete item's part of the offer. -/
def offerStep (g : FlatGrammar) (reductionOf : Item → Action) (t : Symbol) (o : Offer)
    (x : Item × TokenSet) : Offer :=
  if x.1.isStart then if t = .eof then o.addAccept else o
  else if x.2.contains t then
    o.addReduction (reductionOf x.1) (x.1.precedence g) (x.1.associativity g)
  else o

/-- An item gives an action for a terminal. -/
def Gives (reductionOf : Item → Action) (t : Symbol) (x : Item × TokenSet) (a : Action) : Prop :=
  if x.1.isStart = true then t = .eof ∧ a = .accept
  else x.2.contains t = true ∧ a = reductionOf x.1

theorem mem_offerStep {o : Offer} {x : Item × TokenSet} {a : Action}
    (h : a ∈ (offerStep g reductionOf t o x).actions) :
    a ∈ o.actions ∨ Gives reductionOf t x a := by
  unfold offerStep at h
  unfold Gives
  split at h
  · rename_i hs
    rw [if_pos hs]
    split at h
    · rename_i ht
      obtain h | h : a ∈ o.actions ∨ a = .accept := by simpa [Offer.addAccept] using h
      · exact .inl h
      · exact .inr ⟨ht, h⟩
    · exact .inl h
  · rename_i hs
    rw [if_neg hs]
    split at h
    · rename_i ht
      exact (Offer.mem_addReduction h).imp id fun h => ⟨ht, h⟩
    · exact .inl h

/-- Every offered action is given by an item. -/
theorem mem_offer {a : Action} (h : a ∈ (offer g reductionOf items t).actions) :
    ∃ x ∈ items, Gives reductionOf t x a := by
  have key : ∀ (xs : ItemSet) (o : Offer), a ∈ (xs.foldl (offerStep g reductionOf t) o).actions →
      a ∈ o.actions ∨ ∃ x ∈ xs, Gives reductionOf t x a := by
    intro xs
    induction xs with
    | nil => intro o h; exact .inl h
    | cons y xs ih =>
      intro o h
      rcases ih _ h with h | ⟨x, hx, hg⟩
      · exact (mem_offerStep h).imp id fun hg => ⟨y, by simp, hg⟩
      · exact .inr ⟨x, by simp [hx], hg⟩
  rcases key items {} h with h | h
  · simp at h
  · exact h

theorem Settled.offerStep {o : Offer} (h : o.Settled) {x : Item × TokenSet}
    (hr : x.1.isStart = false → (reductionOf x.1).isShift = false) :
    (ItemSet.offerStep g reductionOf t o x).Settled ∧
      (o.actions ≠ [] ∨ (∃ a, Gives reductionOf t x a) →
        (ItemSet.offerStep g reductionOf t o x).actions ≠ []) := by
  unfold ItemSet.offerStep Gives
  by_cases hs : x.1.isStart = true
  · by_cases ht : t = .eof
    · simp only [hs, ht, if_true]
      exact ⟨h.addAccept, fun _ => by simp [Offer.addAccept]⟩
    · simp only [hs, ht, if_true, if_false]
      exact ⟨h, by simp⟩
  · by_cases ht : x.2.contains t = true
    · simp only [hs, ht, if_true]
      obtain ⟨hset, hne⟩ := h.addReduction (p := x.1.precedence g) (hr (Bool.eq_false_iff.2 hs))
      exact ⟨hset, fun _ => hne⟩
    · simp only [hs, ht]
      exact ⟨h, by simp⟩

/-- No offered action is a shift, and where items give actions some action is offered. -/
theorem settled_offer (hr : ∀ x ∈ items, x.1.isStart = false → (reductionOf x.1).isShift = false) :
    (offer g reductionOf items t).Settled ∧
      ((∃ x ∈ items, ∃ a, Gives reductionOf t x a) →
        (offer g reductionOf items t).actions ≠ []) := by
  have key : ∀ (xs : ItemSet) (o : Offer),
      (∀ x ∈ xs, x.1.isStart = false → (reductionOf x.1).isShift = false) → o.Settled →
      (xs.foldl (offerStep g reductionOf t) o).Settled ∧
        (o.actions ≠ [] ∨ (∃ x ∈ xs, ∃ a, Gives reductionOf t x a) →
          (xs.foldl (offerStep g reductionOf t) o).actions ≠ []) := by
    intro xs
    induction xs with
    | nil => intro o _ ho; exact ⟨ho, by simp⟩
    | cons y xs ih =>
      intro o hr ho
      obtain ⟨hs, hne⟩ := Settled.offerStep (g := g) (t := t) ho (hr y (by simp))
      obtain ⟨hs', hne'⟩ := ih _ (fun x hx => hr x (by simp [hx])) hs
      refine ⟨hs', ?_⟩
      rintro (h | ⟨x, hx, a, ha⟩)
      · exact hne' (.inl (hne (.inl h)))
      · rcases List.mem_cons.1 hx with rfl | hx
        · exact hne' (.inl (hne (.inr ⟨a, ha⟩)))
        · exact hne' (.inr ⟨x, hx, a, ha⟩)
  obtain ⟨h, hne⟩ := key items {} hr Offer.settled_empty
  exact ⟨h, fun hx => hne (.inr hx)⟩

theorem neutral_offerStep {o : Offer} (ho : ∀ r, o.rank = some r → r.Neutral) {x : Item × TokenSet}
    (hp : x.1.precedence g = 0) (ha : x.1.associativity g = none) :
    (∀ r, (offerStep g reductionOf t o x).rank = some r → r.Neutral) ∧
      (∀ a ∈ o.actions, a ∈ (offerStep g reductionOf t o x).actions) ∧
      ∀ a, Gives reductionOf t x a → a ∈ (offerStep g reductionOf t o x).actions := by
  unfold offerStep Gives
  by_cases hs : x.1.isStart = true
  · by_cases ht : t = .eof
    · simp only [hs, ht, if_true]
      exact ⟨ho, fun a h => by simp [Offer.addAccept, h], by simp [Offer.addAccept]⟩
    · simp only [hs, ht, if_true, if_false]
      exact ⟨ho, fun _ h => h, by simp⟩
  · by_cases ht : x.2.contains t = true
    · simp only [hs, ht, if_true, hp, ha]
      have hrank : ∀ r, o.rank = some r → r.precedence = 0 := fun r hr => (ho r hr).precedence
      refine ⟨fun r hr => ?_, fun a h => Offer.mem_addReduction_of_equal hrank (.inl h),
        fun a h => Offer.mem_addReduction_of_equal hrank (.inr h.2)⟩
      exact Offer.neutral_addReduction ho hr
    · simp only [hs, ht]
      exact ⟨ho, fun _ h => h, by simp⟩

/-- Where no item has a precedence or an associativity, all actions that items give are offered, and
they have no rank among each other. -/
theorem mem_offer_of_gives
    (hp : ∀ x ∈ items, x.1.precedence g = 0 ∧ x.1.associativity g = none) :
    (∀ r, (offer g reductionOf items t).rank = some r → r.Neutral) ∧
      ∀ x ∈ items, ∀ a, Gives reductionOf t x a → a ∈ (offer g reductionOf items t).actions := by
  have key : ∀ (xs : ItemSet) (o : Offer),
      (∀ x ∈ xs, x.1.precedence g = 0 ∧ x.1.associativity g = none) →
      (∀ r, o.rank = some r → r.Neutral) →
      (∀ r, (xs.foldl (offerStep g reductionOf t) o).rank = some r → r.Neutral) ∧
        (∀ a ∈ o.actions, a ∈ (xs.foldl (offerStep g reductionOf t) o).actions) ∧
        ∀ x ∈ xs, ∀ a, Gives reductionOf t x a →
          a ∈ (xs.foldl (offerStep g reductionOf t) o).actions := by
    intro xs
    induction xs with
    | nil => intro o _ ho; exact ⟨ho, fun _ h => h, by simp⟩
    | cons y xs ih =>
      intro o hp ho
      obtain ⟨hy, hya⟩ := hp y (by simp)
      obtain ⟨hn, hkeep, hgive⟩ := neutral_offerStep ho hy hya
      obtain ⟨hn', hkeep', hgive'⟩ := ih _ (fun x hx => hp x (by simp [hx])) hn
      refine ⟨hn', fun a ha => hkeep' a (hkeep a ha), fun x hx a ha => ?_⟩
      rcases List.mem_cons.1 hx with rfl | hx
      · exact hkeep' a (hgive a ha)
      · exact hgive' x hx a ha
  obtain ⟨hn, -, hgive⟩ := key items {} hp (by simp)
  exact ⟨hn, hgive⟩

end ItemSet

namespace Analysis

variable {a : Analysis} {closure : ItemSet} {t : Symbol} {rank : Option Rank}
  {actions : List Action} {x : Action}

theorem mem_settleShift {continuing : List Item} (h : x ∈ a.settleShift continuing rank actions) :
    x ∈ actions := by
  unfold settleShift at h
  grind

/-- Every action that stays was there before, but for the mark of a repetition. -/
theorem mem_contest (h : x ∈ (a.contest closure t rank actions).1) :
    ∃ y ∈ actions, x.plain = y.plain := by
  unfold contest at h
  split at h
  · exact ⟨x, h, rfl⟩
  · simp only at h
    split at h
    · obtain ⟨y, hy, rfl⟩ := List.mem_map.1 h
      exact ⟨y, hy, by cases y <;> rfl⟩
    · refine ⟨x, ?_, rfl⟩
      split at h <;> split at h <;> first | exact h | exact mem_settleShift h

/-- Of at least two actions, of which at most one is a shift, some stay. -/
theorem settleShift_ne_nil {continuing : List Item} {n : Nat}
    (hs : ∀ y ∈ actions, y.isShift = false)
    (hne : actions ≠ []) : a.settleShift continuing rank (actions ++ [.shift n false]) ≠ [] := by
  have hshift : (actions ++ [Action.shift n false]).filter Action.isShift ≠ [] := by
    refine List.ne_nil_of_mem (a := .shift n false) ?_
    simp [Action.isShift]
  have hreductions : (actions ++ [Action.shift n false]).filter (fun x => !x.isShift) ≠ [] := by
    obtain ⟨y, hy⟩ := List.exists_mem_of_ne_nil _ hne
    refine List.ne_nil_of_mem (a := y) ?_
    simp [hy, hs y hy]
  unfold settleShift
  grind

theorem contest_ne_nil {shift : Option Nat} (hs : ∀ y ∈ actions, y.isShift = false)
    (hne : actions ≠ [] ∨ shift.isSome = true) :
    (a.contest closure t rank (actions ++ (shift.map (Action.shift · false)).toList)).1 ≠ [] := by
  generalize hall : actions ++ (shift.map (Action.shift · false)).toList = all
  have hall' : all ≠ [] := by
    cases shift <;> simp_all
    simp [← hall]
  unfold contest
  split
  · exact hall'
  · rename_i hlen
    simp only
    split
    · simpa using hall'
    · have hkeep : (if all.any Action.isShift = true then
          a.settleShift ((a.rivals closure t).filter (a.continues t)) rank all else all) ≠ [] := by
        split
        · cases shift with
          | none =>
            rename_i h
            simp only [Option.map_none, Option.toList_none, List.append_nil] at hall
            subst hall
            simp only [List.any_eq_true] at h
            obtain ⟨y, hy, hsy⟩ := h
            rw [hs y hy] at hsy
            cases hsy
          | some n =>
            subst hall
            apply settleShift_ne_nil hs
            rintro rfl
            simp at hlen
        · exact hall'
      rw [apply_ite Prod.fst, ite_self]
      exact hkeep

/-- Without precedences and associativities all actions stay, but for the mark of a repetition. -/
theorem mem_contest_of_neutral (hr : ∀ r, rank = some r → r.Neutral)
    (hp : ∀ y ∈ closure, y.1.precedence a.grammar = 0) (hx : x ∈ actions) :
    ∃ y ∈ (a.contest closure t rank actions).1, y.plain = x.plain := by
  have hsettle : a.settleShift ((a.rivals closure t).filter (a.continues t)) rank actions =
      actions := by
    have hzero : ∀ i ∈ (a.rivals closure t).filter (a.continues t), i.precedence a.grammar = 0 := by
      intro i hi
      obtain ⟨y, hy, rfl⟩ := List.mem_map.1 (List.mem_filter.1 hi).1
      exact hp y (List.mem_filter.1 hy).1
    have hrank : (rank.map (·.precedence)).getD 0 = 0 := by
      cases rank with
      | none => rfl
      | some r => exact (hr r rfl).precedence
    unfold settleShift
    simp only [hrank]
    rw [List.any_eq_false.2 fun i hi => by simp [hzero i hi],
      List.any_eq_false.2 fun i hi => by simp [hzero i hi]]
    cases rank with
    | none => rfl
    | some r => simp [(hr r rfl).left, (hr r rfl).right]
  unfold contest
  split
  · exact ⟨x, hx, rfl⟩
  · simp only [hsettle, ite_self]
    split
    · exact ⟨_, List.mem_map_of_mem hx, by cases x <;> rfl⟩
    · split <;> exact ⟨x, hx, rfl⟩

end Analysis

end GrammarTables
