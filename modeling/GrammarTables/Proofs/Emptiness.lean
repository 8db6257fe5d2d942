import GrammarTables.Proofs.Preparation

/-!
# Empty texts

No variable of a flat grammar but the start has an empty production and stands in a production. So
wherever a part of a text is empty, it is the start symbol that became empty in the end: another
variable that stands in a production derives the empty text exactly if the start has an empty
production and the variable can be expanded to nothing but start symbols.
-/

namespace GrammarTables

namespace FlatGrammar

variable {g : FlatGrammar}

/-- A symbol stands in a production. -/
def Stands (g : FlatGrammar) (s : Symbol) : Prop :=
  ∃ v, ∃ p ∈ g.productionsOf (.nonterminal v), s ∈ p.symbols

/-- The start has an empty production. -/
def StartMayBeEmpty (g : FlatGrammar) : Prop := ∃ p ∈ g.productionsOf start, p.symbols = []

/-- Symbols can be expanded to nothing but start symbols, and no expansion is empty. -/
inductive Collapses (g : FlatGrammar) : List Symbol → Prop
  | nil : Collapses g []
  | start {ss : List Symbol} : Collapses g ss → Collapses g (start :: ss)
  | expand {v : Nat} {p : Production} {ss : List Symbol} :
      p ∈ g.productionsOf (.nonterminal v) → p.symbols ≠ [] → Collapses g p.symbols →
      Collapses g ss → Collapses g (.nonterminal v :: ss)

/-- A variable other than the start that stands in a production has no empty production. -/
def Solid (g : FlatGrammar) : Prop :=
  ∀ v, v ≠ 0 → g.Stands (.nonterminal v) → ∀ p ∈ g.productionsOf (.nonterminal v), p.symbols ≠ []

theorem isReferenced_of_stands {s : Symbol} (h : g.Stands s) :
    isReferenced g.vars.toList s = true := by
  obtain ⟨v, p, hp, hs⟩ := h
  obtain ⟨step, hstep, rfl⟩ := List.mem_map.1 hs
  obtain ⟨x, hx, hpx⟩ := exists_variable hp
  have hmem : x ∈ g.vars.toList := Array.mem_toList_iff.2 (Array.mem_of_getElem? hx)
  simp only [isReferenced, List.any_eq_true, beq_iff_eq]
  exact ⟨x, hmem, p, hpx, step, hstep, rfl⟩

/-- Grammars with an empty rule that something refers to are refused. -/
theorem solid_of_ofGrammar [RegexEngine] {source : Grammar} (h : ofGrammar source = .ok g) :
    g.Solid := by
  intro v hv hs p hp hnil
  obtain ⟨bodies, l₁, l₂, l₃, l₄, hstages⟩ := exists_stages h
  have hnone := hstages.filled
  simp only [emptyRule?, Option.map_eq_none_iff, List.find?_eq_none] at hnone
  obtain ⟨x, hx, hpx⟩ := exists_variable hp
  have hmem : (v, x) ∈ g.vars.toList.mapIdx fun i x => (i, x) := by
    refine List.mem_of_getElem? (i := v) ?_
    simp [hx]
  have hempty : (x.productions.any (·.isEmpty)) = true :=
    List.any_eq_true.2 ⟨p, hpx, by simpa [Production.symbols, Production.isEmpty] using hnil⟩
  refine hnone _ hmem ?_
  simp [Nat.pos_of_ne_zero hv, hempty, isReferenced_of_stands hs]

/-- Symbols that stand in productions become empty only by way of the start. -/
theorem Solid.collapses (hg : g.Solid) {ss : List Symbol} {w : List Nat} (h : g.Derives ss w)
    (hw : w = []) (hss : ∀ s ∈ ss, g.Stands s) :
    g.Collapses ss ∧ (ss ≠ [] → g.StartMayBeEmpty) := by
  induction h with
  | nil => exact ⟨.nil, fun h => absurd rfl h⟩
  | token => cases hw
  | @expand v p ss u w hp _ _ ihu ihw =>
    obtain ⟨rfl, rfl⟩ := List.append_eq_nil_iff.1 hw
    obtain ⟨hcu, hbu⟩ := ihu rfl fun s hs => ⟨v, p, hp, hs⟩
    obtain ⟨hcw, -⟩ := ihw rfl fun s hs => hss s (List.mem_cons_of_mem _ hs)
    by_cases hv : v = 0
    · subst hv
      refine ⟨.start hcw, fun _ => ?_⟩
      by_cases hnil : p.symbols = []
      · exact ⟨p, hp, hnil⟩
      · exact hbu hnil
    · have hne := hg v hv (hss _ List.mem_cons_self) p hp
      exact ⟨.expand hp hne hcu hcw, fun _ => hbu hne⟩

/-- What can be expanded to start symbols is empty where the start is. -/
theorem Collapses.derives {ss : List Symbol} (h : g.Collapses ss) (hb : g.StartMayBeEmpty) :
    g.Derives ss [] := by
  obtain ⟨p, hp, hnil⟩ := hb
  induction h with
  | nil => exact .nil
  | start _ ih =>
    have hempty : g.Derives p.symbols [] := by
      rw [hnil]
      exact .nil
    exact .expand hp hempty ih
  | expand hq _ _ _ ihq ih => exact .expand hq ihq ih

/-- A variable other than the start that stands in a production derives the empty text exactly if
the start has an empty production and the variable can be expanded to nothing but start symbols. So
only the start may be empty exactly if no such variable stands in a production, or the start has no
empty production. -/
theorem derives_empty_iff [RegexEngine] {source : Grammar} (h : ofGrammar source = .ok g) :
    (∀ v, v ≠ 0 → g.Stands (.nonterminal v) →
      (g.Derives [.nonterminal v] [] ↔ g.StartMayBeEmpty ∧ g.Collapses [.nonterminal v])) ∧
    ((∀ v, v ≠ 0 → g.Stands (.nonterminal v) → ¬ g.Derives [.nonterminal v] []) ↔
      g.StartMayBeEmpty →
        ∀ v, v ≠ 0 → g.Stands (.nonterminal v) → ¬ g.Collapses [.nonterminal v]) := by
  have hiff : ∀ v, v ≠ 0 → g.Stands (.nonterminal v) →
      (g.Derives [.nonterminal v] [] ↔ g.StartMayBeEmpty ∧ g.Collapses [.nonterminal v]) := by
    intro v _ hs
    constructor
    · intro hd
      obtain ⟨hc, hb⟩ := (solid_of_ofGrammar h).collapses hd rfl (by simpa using hs)
      exact ⟨hb (by simp), hc⟩
    · rintro ⟨hb, hc⟩
      exact hc.derives hb
  refine ⟨hiff, fun hall hb v hv hs hc => hall v hv hs ((hiff v hv hs).2 ⟨hb, hc⟩),
    fun hall v hv hs hd => ?_⟩
  obtain ⟨hb, hc⟩ := (hiff v hv hs).1 hd
  exact hall hb v hv hs hc

end FlatGrammar

/-- A grammar whose start may be empty and stands alone in another rule. -/
def Grammar.nested : Grammar where
  name := "nested"
  rules := [⟨"start", .choice [.blank, .seq [.string "a", .symbol "inner"]]⟩,
    ⟨"inner", .symbol "start"⟩]

/-- The rule of the nested grammar that is nothing but the start derives the empty text. -/
theorem FlatGrammar.derives_empty_iff_nested : ∃ g, ofGrammar .nested = .ok g ∧
    g.Stands (.nonterminal 1) ∧ g.Derives [.nonterminal 1] [] := by
  obtain ⟨g, h, hstart, hinner⟩ : ∃ g, ofGrammar .nested = .ok g ∧
      (g.productionsOf (.nonterminal 0)).map Production.symbols =
        [[], [.terminal 0, .nonterminal 1]] ∧
      (g.productionsOf (.nonterminal 1)).map Production.symbols = [[.nonterminal 0]] :=
    exists_of_decide (by decide +kernel)
  have hp : [.terminal 0, .nonterminal 1] ∈
      (g.productionsOf (.nonterminal 0)).map Production.symbols := by simp [hstart]
  have hq : [.nonterminal 0] ∈ (g.productionsOf (.nonterminal 1)).map Production.symbols := by
    simp [hinner]
  obtain ⟨p, hp, hps⟩ := List.mem_map.1 hp
  obtain ⟨q, hq, hqs⟩ := List.mem_map.1 hq
  have hs : g.Stands (.nonterminal 1) := ⟨0, p, hp, by simp [hps]⟩
  refine ⟨g, h, hs, ((derives_empty_iff h).1 1 (by decide) hs).2 ⟨?_, ?_⟩⟩
  · exact List.mem_map.1 (hstart ▸ List.mem_cons_self)
  · have hc : g.Collapses q.symbols := by
      rw [hqs]
      exact .start .nil
    exact .expand hq (by simp [hqs]) hc .nil

end GrammarTables
