import GrammarTables.Proofs.Annotation
import GrammarTables.Proofs.Collection

/-!
# Reductions against shifts

The items of a state of the automaton agree on what stands before their dots. Where only one of them
is complete, an entry has at most a reduction and a shift, and the precedences settle which of them
stays.
-/

namespace GrammarTables

namespace ItemSet

variable {g : FlatGrammar} {kernel : ItemSet}

/-- The symbols before the dots are the same from the dots backwards, and those of an item of the
start reach back furthest. -/
def Aligned (g : FlatGrammar) (items : ItemSet) : Prop :=
  ∀ x ∈ items, ∀ y ∈ items,
    (x.1.before g <:+ y.1.before g ∨ y.1.before g <:+ x.1.before g) ∧
      (x.1.isStart = true → y.1.before g <:+ x.1.before g)

/-- The items that a kernel demands have nothing before their dots. -/
theorem Aligned.closure (h : kernel.Aligned g) :
    ((Analysis.ofGrammar g).closure kernel).Aligned g := by
  have hcases : ∀ x ∈ (Analysis.ofGrammar g).closure kernel,
      x ∈ kernel ∨ (x.1.before g = [] ∧ x.1.isStart = false) := by
    rintro ⟨i, L⟩ hx
    obtain hx | ⟨v, n, rfl, -, -⟩ := Analysis.mem_closure.1 hx
    · exact .inl hx
    · exact .inr ⟨Item.before_of_dot_eq_zero rfl, rfl⟩
  intro x hx y hy
  obtain hx | ⟨hbx, hsx⟩ := hcases x hx
  · obtain hy | ⟨hby, -⟩ := hcases y hy
    · exact h x hx y hy
    · rw [hby]
      exact ⟨.inr List.nil_suffix, fun _ => List.nil_suffix⟩
  · rw [hbx]
    exact ⟨.inl List.nil_suffix, fun hs => by simp [hsx] at hs⟩

/-- Moving the dots past a symbol puts it behind what stands before them. -/
theorem Aligned.advances (h : ((Analysis.ofGrammar g).closure kernel).Aligned g) {s : Symbol}
    {next : ItemSet} (hadv : kernel.Advances g s next) : next.Aligned g := by
  rintro ⟨i', L⟩ hi' ⟨j', M⟩ hj'
  obtain ⟨i, hi, his, rfl⟩ := (hadv.2 i' L).1 hi'
  obtain ⟨j, hj, hjs, rfl⟩ := (hadv.2 j' M).1 hj'
  obtain ⟨hcomp, hstart⟩ := h _ hi _ hj
  have hpush : ∀ {l m : List Symbol}, l <:+ m → l ++ [s] <:+ m ++ [s] := by
    rintro l _ ⟨k, rfl⟩
    exact ⟨k, List.append_assoc k l [s] |>.symm⟩
  simp only [Item.before_advance his, Item.before_advance hjs]
  exact ⟨hcomp.imp hpush hpush, fun hs => hpush (hstart hs)⟩

end ItemSet

theorem Automaton.Complete.belongs {g : FlatGrammar} {states : Array State}
    (h : Complete g states) {q : Nat} {s : State} (hs : states[q]? = some s)
    {x : Item × TokenSet} (hx : x ∈ s.closure) : x.1.Belongs g := by
  rw [h.closure hs] at hx
  exact (h.kernel hs).belongs_closure hx

/-- The items of every state are aligned. -/
theorem Automaton.aligned_states {g : FlatGrammar} (wf : g.WellFormed) {q : Nat} {s : State}
    (hs : (states (Analysis.ofGrammar g))[q]? = some s) : s.closure.Aligned g := by
  have hc := complete_states wf
  rw [hc.closure hs]
  induction q using Nat.strong_induction_on generalizing s with
  | _ q ih =>
    refine ItemSet.Aligned.closure ?_
    obtain rfl | rfl | hq : q = 0 ∨ q = 1 ∨ 2 ≤ q := by omega
    · obtain ⟨s', hs', hk⟩ := hc.error
      cases hs.symm.trans hs'
      simp [ItemSet.Aligned, hk]
    · obtain ⟨s', hs', hk⟩ := hc.start
      cases hs.symm.trans hs'
      simp [ItemSet.Aligned, hk]
    · obtain ⟨p, hp, s', x, hs', hx⟩ := met_states _ q hq (Array.getElem?_eq_some_iff.1 hs).1
      obtain ⟨t, ht, hadv⟩ := hc.advances hs' hx
      cases hs.symm.trans ht
      exact (ih p hp hs').advances hadv

theorem ItemSet.nodup_completed {g : FlatGrammar} {closure : ItemSet}
    (hnodup : (closure.map (·.1)).Nodup) : ((closure.completed g).map (·.1)).Nodup := by
  refine ((List.mergeSort_perm _ _).map _).nodup_iff.2 ?_
  exact hnodup.sublist (List.filter_sublist.map _)

/-- Where at most one item is complete, at most one gives a reduction. -/
theorem ItemSet.completed_cases {g : FlatGrammar} {closure : ItemSet}
    (hnodup : (closure.map (·.1)).Nodup)
    (hone : ∀ x ∈ closure, ∀ y ∈ closure, x.1.after g = [] → y.1.after g = [] → x.1 = y.1) :
    closure.completed g = [] ∨ ∃ x ∈ closure, x.1.after g = [] ∧ closure.completed g = [x] := by
  have hmem : ∀ x ∈ closure.completed g, x ∈ closure ∧ x.1.after g = [] :=
    fun x => Canonical.mem_completed.1
  have hnodup' := nodup_completed (g := g) hnodup
  match hl : closure.completed g with
  | [] => exact .inl rfl
  | [x] =>
    obtain ⟨hx, hxc⟩ := hmem x (by simp [hl])
    exact .inr ⟨x, hx, hxc, rfl⟩
  | x :: y :: rest =>
    obtain ⟨hx, hxc⟩ := hmem x (by simp [hl])
    obtain ⟨hy, hyc⟩ := hmem y (by simp [hl])
    simp [hl, hone x hx y hy hxc hyc] at hnodup'

namespace Analysis

variable {a : Analysis} {closure : ItemSet} {t : Symbol} {n : Nat} {r : Action}

/-- A reduction of precedence `p` stays against a shift of precedence `q` if `p` is higher, or if
they are the same and the reduction associates to the left. -/
theorem settleShift_pair {continuing : List Item} (hr : r.isShift = false) {p q : Int}
    (as : Associativity) (hne : continuing ≠ [])
    (hq : ∀ i ∈ continuing, i.precedence a.grammar = q) :
    a.settleShift continuing (some ({ precedence := p : Rank }.add (some as)))
        [r, .shift n false] =
      if q < p ∨ (p = q ∧ as = .left) then [r] else [.shift n false] := by
  obtain ⟨i, hi⟩ := List.exists_mem_of_ne_nil _ hne
  have hany : ∀ f : Int → Bool, (continuing.any fun i => f (i.precedence a.grammar)) = f q := by
    intro f
    rw [Bool.eq_iff_iff, List.any_eq_true]
    constructor
    · rintro ⟨j, hj, hf⟩
      rwa [hq j hj] at hf
    · exact fun hf => ⟨i, hi, by rwa [hq i hi]⟩
  have hprecedence : ({ precedence := p : Rank }.add (some as)).precedence = p := by
    cases as <;> rfl
  have hmore := hany fun x => decide (p < x)
  have hless := hany fun x => decide (x < p)
  simp only [settleShift, Option.map_some, Option.getD_some, hprecedence, hmore, hless]
  have hs : (Action.shift n false).isShift = true := rfl
  have hshift : [r, .shift n false].filter Action.isShift = [.shift n false] := by
    simp [List.filter, hr, hs]
  have hreduce : [r, .shift n false].filter (fun x => !x.isShift) = [r] := by
    simp [List.filter, hr, hs]
  rw [hshift, hreduce]
  obtain hlt | rfl | hlt := Int.lt_trichotomy p q
  · simp [hlt, Int.not_lt.2 (Int.le_of_lt hlt), Int.ne_of_lt hlt]
  · cases as <;> simp [Rank.add]
  · simp [hlt, Int.not_lt.2 (Int.le_of_lt hlt)]

theorem contest_pair (hr : r.isShift = false) {p q : Int} (as : Associativity)
    (hrepeat : a.sameRepetition (a.rivals closure t) = false)
    (hne : (a.rivals closure t).filter (a.continues t) ≠ [])
    (hq : ∀ i ∈ (a.rivals closure t).filter (a.continues t), i.precedence a.grammar = q) :
    a.contest closure t (some ({ precedence := p : Rank }.add (some as))) [r, .shift n false] =
      (if q < p ∨ (p = q ∧ as = .left) then [r] else [.shift n false], none) := by
  have hshift : [r, .shift n false].any Action.isShift = true := by simp [Action.isShift]
  have hlength : ∀ {c : Prop} [Decidable c],
      (if c then [r] else [.shift n false]).length ≤ 1 := by
    intro c _
    split <;> exact Nat.le_refl 1
  simp [contest, hrepeat, hshift, settleShift_pair hr as hne hq, hlength]

end Analysis

namespace Canonical

variable {g : FlatGrammar} {a : Automaton.State} {t : Symbol} {n : Nat}

/-- Where no complete item gives an action, there is only the shift. -/
theorem actionsOf_of_silent (h : ∀ x ∈ a.closure, x.1.after g = [] →
      ∀ z, ¬ ItemSet.Gives (reductionOf g) t x z) :
    actionsOf g a t = ((a.successors.lookup t).map (Action.shift · false)).toList := by
  have hnil : ((a.closure.completed g).offer g (reductionOf g) t).actions = [] := by
    refine List.eq_nil_iff_forall_not_mem.2 fun z hz => ?_
    obtain ⟨x, hx, hgives⟩ := ItemSet.mem_offer hz
    obtain ⟨hx, hxc⟩ := mem_completed.1 hx
    exact h x hx hxc z hgives
  have hlength : ((a.successors.lookup t).map (Action.shift · false)).toList.length ≤ 1 := by
    cases a.successors.lookup t <;> simp
  simp [actionsOf, entry, show (Analysis.ofGrammar g).grammar = g from rfl, hnil, Analysis.contest,
    hlength]

section

variable {x : Item × TokenSet} (hone : a.closure.completed g = [x])
include hone

/-- An action that nothing competes with stays. -/
theorem actionsOf_of_single {z : Action} (hz : ItemSet.Gives (reductionOf g) t x z)
    (hl : a.successors.lookup t = none) : actionsOf g a t = [z] := by
  have hoffer : (ItemSet.offer g (reductionOf g) [x] t).actions = [z] := by
    unfold ItemSet.Gives at hz
    split at hz
    · rename_i hs
      obtain ⟨rfl, rfl⟩ := hz
      simp [ItemSet.offer, hs, Offer.addAccept]
    · rename_i hs
      obtain ⟨hc, rfl⟩ := hz
      simp [ItemSet.offer, hs, hc, Offer.addReduction]
  simp [actionsOf, entry, show (Analysis.ofGrammar g).grammar = g from rfl, hone, hl, hoffer,
    Analysis.contest]

/-- A reduction and a shift are settled by their precedences. -/
theorem actionsOf_of_pair (hs : x.1.isStart = false) (hb : x.1.Belongs g)
    (hc : x.2.contains t = true) (hl : a.successors.lookup t = some n) {as : Associativity}
    (has : x.1.associativity g = some as) {q : Int}
    (hrepeat : (Analysis.ofGrammar g).sameRepetition
      ((Analysis.ofGrammar g).rivals a.closure t) = false)
    (hne : ((Analysis.ofGrammar g).rivals a.closure t).filter
      ((Analysis.ofGrammar g).continues t) ≠ [])
    (hq : ∀ i ∈ ((Analysis.ofGrammar g).rivals a.closure t).filter
      ((Analysis.ofGrammar g).continues t), i.precedence g = q) :
    actionsOf g a t =
      if q < x.1.precedence g ∨ (x.1.precedence g = q ∧ as = .left) then [reductionOf g x.1]
      else [.shift n false] := by
  have hoffer : ItemSet.offer g (reductionOf g) [x] t =
      { actions := [reductionOf g x.1]
        rank := some ({ precedence := x.1.precedence g : Rank }.add (some as)) } := by
    simp [ItemSet.offer, hs, hc, Offer.addReduction, has]
  have hpair := Analysis.contest_pair (n := n) (isShift_reductionOf hb hs)
    (p := x.1.precedence g) as hrepeat hne hq
  simp [actionsOf, entry, show (Analysis.ofGrammar g).grammar = g from rfl, hone, hl, hoffer, hpair]

end

end Canonical

end GrammarTables
