import GrammarTables.Proofs.Validity

/-!
# What lookaheads inherit

A terminal that stands in no production is never a lookahead. Where every variable derives a text,
every item has a lookahead.
-/

namespace GrammarTables

namespace FlatGrammar

/-- A symbol that stands in no production. -/
def Foreign (g : FlatGrammar) (x : Symbol) : Prop :=
  ∀ v, ∀ p ∈ g.productionsOf (.nonterminal v), x ∉ p.symbols

/-- No extra stands in a production. -/
def ForeignExtras (g : FlatGrammar) : Prop := ∀ s ∈ g.extras, g.Foreign s

/-- Every variable derives a text. -/
def Productive (g : FlatGrammar) : Prop :=
  ∀ v < g.vars.size, ∃ w, g.Derives [.nonterminal v] w

variable {g : FlatGrammar}

theorem foreign_iff {x : Symbol} :
    g.Foreign x ↔ ∀ v < g.vars.size, ∀ p ∈ g.productionsOf (.nonterminal v), x ∉ p.symbols := by
  refine ⟨fun h v _ => h v, fun h v p hp => ?_⟩
  obtain ⟨n, hn, -⟩ := List.mem_iff_getElem.1 hp
  exact h v (lt_of_productionsOf hn) p hp

instance (x : Symbol) : Decidable (g.Foreign x) := decidable_of_iff' _ foreign_iff

instance : Decidable g.ForeignExtras := by
  unfold ForeignExtras
  infer_instance

theorem ForeignExtras.foreign (h : g.ForeignExtras) {s : Symbol} (hs : g.isExtra s = true) :
    g.Foreign s :=
  h s (by simpa [isExtra] using hs)

/-- A foreign terminal only begins what is derived from it. -/
theorem Begins.mem_of_foreign {ss : List Symbol} {x : Symbol} (h : g.Begins ss x)
    (hx : g.Foreign x) : x ∈ ss := by
  induction h with
  | here _ => exact List.mem_cons_self
  | inside hp _ ih => exact absurd (ih hx) (hx _ _ hp)
  | past _ _ ih => exact List.mem_cons_of_mem _ (ih hx)

theorem Productive.exists_derives (h : g.Productive) {ss : List Symbol}
    (hss : ∀ x ∈ ss, g.Declares x) : ∃ w, g.Derives ss w := by
  induction ss with
  | nil => exact ⟨[], .nil⟩
  | cons x ss ih =>
    obtain ⟨hx, hss⟩ := List.forall_mem_cons.1 hss
    obtain ⟨w, hw⟩ := ih hss
    cases x with
    | eof => cases hx
    | terminal t => exact ⟨t :: w, .token hw⟩
    | nonterminal v =>
      obtain ⟨u, hu⟩ := h v hx
      exact ⟨u ++ w, hu.append hw⟩

end FlatGrammar

namespace Lookaheads

variable {g : FlatGrammar}

theorem inherits_foreign (wf : g.WellFormed) {t : Nat} (ht : g.Foreign (.terminal t)) :
    Inherits g fun L => L.contains (.terminal t) = false where
  eof := by
    rw [Bool.eq_false_iff]
    intro h
    cases (TokenSet.contains_singleton_iff rfl rfl).1 h
  union {L M} hL hM := by simp [TokenSet.contains_union, hL, hM]
  demand {i d given} hd hg := by
    obtain ⟨ss, hss, hf⟩ := Demand.ofSteps_eq_some hd
    obtain ⟨v, follow⟩ := d
    subst hf
    rw [Bool.eq_false_iff]
    intro h
    rcases (Demand.contains_lookaheads wf rfl).1 h with hb | ⟨-, hc⟩
    · obtain ⟨w, p, hp, hx⟩ := Item.exists_production_of_mem hss (hb.mem_of_foreign ht)
      exact ht w p hp hx
    · rw [hg] at hc
      cases hc

theorem inherits_ne_empty (wf : g.WellFormed) (hg : g.Productive) :
    Inherits g fun L => L ≠ .empty := by
  have key : ∀ {L : TokenSet}, L ≠ .empty ↔ ∃ t, t.isTerminal = true ∧ L.contains t = true := by
    intro L
    constructor
    · intro h
      exact TokenSet.exists_contains fun he => h (TokenSet.isEmpty_iff.1 he)
    · rintro ⟨t, -, ht⟩ rfl
      simp at ht
  constructor
  · exact key.2 ⟨.eof, rfl, (TokenSet.contains_singleton_iff rfl rfl).2 rfl⟩
  · intro L M hL _
    obtain ⟨t, ht, hc⟩ := key.1 hL
    exact key.2 ⟨t, ht, by simp [TokenSet.contains_union, hc]⟩
  · intro i d given hd hgiven
    obtain ⟨ss, hss, hf⟩ := Demand.ofSteps_eq_some hd
    obtain ⟨v, follow⟩ := d
    subst hf
    have hdecl : ∀ x ∈ ss, g.Declares x := by
      intro x hx
      obtain ⟨w, p, hp, hxp⟩ := Item.exists_production_of_mem hss hx
      exact wf.declares hp x hxp
    obtain ⟨w, hw⟩ := hg.exists_derives hdecl
    cases w with
    | nil =>
      obtain ⟨t, ht, hc⟩ := key.1 hgiven
      exact key.2 ⟨t, ht, (Demand.contains_lookaheads wf ht).2 (.inr ⟨hw, hc⟩)⟩
    | cons t w =>
      exact key.2 ⟨.terminal t, rfl, (Demand.contains_lookaheads wf rfl).2 (.inl (hw.begins rfl))⟩

end Lookaheads

end GrammarTables
