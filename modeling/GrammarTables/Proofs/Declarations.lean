import GrammarTables.Proofs.Keywords

/-!
# Symbols are declared

A flat grammar mentions the tokens and the variables that it has. The variables of the syntax rules
come first, in the order of the rules, so what names a syntax rule is a variable. A repetition is
owned by the variable of the rule that it was first met in.
-/

namespace GrammarTables

namespace Repetition

variable {n : Nat} {site : Site} {found found' : Found}

/-- The repetitions found so far are owned by variables below a number. -/
def Found.Owned (n : Nat) (found : Found) : Prop := ∀ r ∈ found.all, r.owner < n

theorem Found.Owned.variableOf (h : found.Owned n) (hsite : site.owner < n) (content : Body) :
    (found.variableOf site content).2.Owned n := by
  unfold Found.variableOf
  split
  · exact h
  · intro r hr
    rcases Array.mem_push.1 hr with hr | rfl
    · exact h r hr
    · exact hsite

mutual

theorem Found.Owned.expand (hsite : site.owner < n) : (b : Body) → {found : Found} →
    found.Owned n → (expand site b found).2.Owned n
  | .blank, _, h | .symbol _, _, h => h
  | .seq members, found, h | .choice members, found, h => by
    rw [Repetition.expand]
    exact Found.Owned.expandAll hsite members h
  | .attr _ content, found, h => by
    rw [Repetition.expand]
    exact Found.Owned.expand hsite content h
  | .repeat1 content, found, h => by
    rw [Repetition.expand]
    exact (Found.Owned.expand hsite content h).variableOf hsite _

theorem Found.Owned.expandAll (hsite : site.owner < n) : (bs : List Body) → {found : Found} →
    found.Owned n → (expandAll site bs found).2.Owned n
  | [], _, h => h
  | b :: bs, found, h => by
    rw [Repetition.expandAll]
    exact Found.Owned.expandAll hsite bs (Found.Owned.expand hsite b h)

end

theorem Found.Owned.expandDefinition (h : found.Owned n) (base : Nat) {owner : Nat}
    (howner : owner < n) (d : Definition) : (expandDefinition base owner d found).2.Owned n ∧
      (expandDefinition base owner d found).1.parent = d.parent := by
  have hsite : ({ base, owner, name := d.name } : Site).owner < n := howner
  unfold Repetition.expandDefinition
  split <;> exact ⟨Found.Owned.expand hsite _ h, rfl⟩

theorem Found.Owned.expandDefinitions (h : found.Owned n) (base : Nat) {owner : Nat}
    {ds : List Definition} (howner : owner + ds.length ≤ n) (hds : ∀ d ∈ ds, d.parent = none) :
    (expandDefinitions base owner ds found).2.Owned n ∧
      ∀ d ∈ (expandDefinitions base owner ds found).1, d.parent = none := by
  induction ds generalizing owner found with
  | nil => exact ⟨h, hds⟩
  | cons d ds ih =>
    rw [List.length_cons] at howner
    obtain ⟨hd, hds⟩ := List.forall_mem_cons.1 hds
    obtain ⟨hfound, hparent⟩ := h.expandDefinition base (by omega : owner < n) d
    obtain ⟨hall, hrest⟩ := ih hfound (by omega : owner + 1 + ds.length ≤ n) hds
    rw [Repetition.expandDefinitions]
    exact ⟨hall, List.forall_mem_cons.2 ⟨hparent.trans hd, hrest⟩⟩

/-- The parent of a repetition is the variable of a rule. -/
theorem parent_of_expandAllDefinitions {ds : List Definition} (hds : ∀ d ∈ ds, d.parent = none) :
    ∀ d ∈ expandAllDefinitions ds, ∀ s ∈ d.parent, ∃ v < ds.length, s = .nonterminal v := by
  have hempty : ({} : Found).Owned ds.length := fun r hr => by simp at hr
  obtain ⟨howned, hparent⟩ :=
    hempty.expandDefinitions ds.length (by omega : 0 + ds.length ≤ ds.length) hds
  intro d hd s hs
  rcases List.mem_append.1 hd with hd | hd
  · rw [hparent d hd] at hs
    cases hs
  · obtain ⟨i, hi, rfl⟩ := List.mem_mapIdx.1 hd
    cases hs
    exact ⟨_, howned _ (by simp), rfl⟩

end Repetition

theorem mem_of_mapM {ε α β : Type} {f : α → Except ε β} {l : List α} {ys : List β}
    (h : l.mapM f = .ok ys) : ∀ y ∈ ys, ∃ x ∈ l, f x = .ok y := by
  induction l generalizing ys with
  | nil =>
    cases h
    simp
  | cons x l ih =>
    rw [List.mapM_cons] at h
    obtain ⟨y, hy, h⟩ := bind_eq_ok.1 h
    obtain ⟨ys, hys, h⟩ := bind_eq_ok.1 h
    cases h
    refine List.forall_mem_cons.2 ⟨⟨x, List.mem_cons_self, hy⟩, fun z hz => ?_⟩
    obtain ⟨x', hx', hz⟩ := ih hys z hz
    exact ⟨x', List.mem_cons_of_mem _ hx', hz⟩

namespace FlatGrammar

variable {source : Grammar} {g : FlatGrammar}

def IsToken (g : FlatGrammar) (s : Symbol) : Prop := ∃ i < g.tokens.size, s = .terminal i

def IsVariable (g : FlatGrammar) (s : Symbol) : Prop := ∃ v < g.vars.size, s = .nonterminal v

/-- All symbols that a flat grammar mentions are ones that it has. -/
structure Declared (g : FlatGrammar) : Prop where
  start : g.IsVariable start
  productions : ∀ v ∈ g.vars, ∀ p ∈ v.productions, ∀ x ∈ p.symbols, g.IsToken x ∨ g.IsVariable x
  extras : ∀ s ∈ g.extras, g.IsToken s
  conflicts : ∀ names ∈ g.conflicts, ∀ s ∈ names, g.IsVariable s
  word : ∀ s ∈ g.word, g.IsToken s
  keywords : ∀ s ∈ g.keywords, g.IsToken s
  parents : ∀ v ∈ g.vars, ∀ s ∈ v.parent, g.IsVariable s

theorem lt_of_word [RegexEngine] {l l' : Lexicon} {word : Option Symbol}
    (h : l.word source = .ok (word, l')) :
    ∀ s ∈ word, ∃ i < l'.tokens.size, s = .terminal i := by
  intro s hs
  unfold Lexicon.word at h
  split at h
  · cases h
    cases hs
  · split at h
    · obtain ⟨⟨s', l₁⟩, hnamed, heq⟩ := map_eq_ok.1 h
      cases heq
      cases hs
      exact (Lexicon.gives_named hnamed).lt (fun _ _ => Lexicon.lt_of_namedToken?) (.refl _)
    · cases h

theorem isToken_word [RegexEngine] (h : ofGrammar source = .ok g) : ∀ s ∈ g.word, g.IsToken s := by
  obtain ⟨bodies, l₁, l₂, l₃, l₄, hs⟩ := exists_stages h
  have hword := lt_of_word hs.word
  rwa [hs.tokens] at hword

theorem variableNamed?_eq_some {name : String} {s : Symbol}
    (h : source.variableNamed? name = some s) :
    ∃ v < source.syntaxRules.length, s = .nonterminal v := by
  obtain ⟨v, hv, rfl⟩ := Option.map_eq_some_iff.1 h
  exact ⟨v, (List.findIdx?_eq_some_iff_getElem.1 hv).1, rfl⟩

theorem mem_of_conflict {names : List String} {symbols : List Symbol}
    (h : conflict source names = .ok symbols) :
    ∀ s ∈ symbols, ∃ v < source.syntaxRules.length, s = .nonterminal v := by
  obtain ⟨found, hfound, h⟩ := bind_eq_ok.1 h
  cases h
  intro s hs
  obtain ⟨name, -, hname⟩ := mem_of_mapM hfound s (Ordered.mem_ofList.1 hs)
  split at hname
  · rename_i hv
    cases hname
    exact variableNamed?_eq_some hv
  · cases hname

theorem isToken_keyword [RegexEngine] (h : ofGrammar source = .ok g) :
    ∀ s ∈ g.keywords, g.IsToken s := by
  intro s hs
  obtain ⟨i, text, rfl, htext⟩ := (keywords_of_ofGrammar h).2 s hs
  obtain ⟨t, ht, -⟩ := Option.bind_eq_some_iff.1 htext
  exact ⟨i, (Array.getElem?_eq_some_iff.1 ht).1, rfl⟩

/-- A grammar that has rules becomes a flat grammar that has all symbols that it mentions. -/
theorem declared_of_ofGrammar [RegexEngine] (h : ofGrammar source = .ok g)
    (hrules : source.rules ≠ []) :
    g.Declared := by
  have wf := wellFormed_of_ofGrammar h
  obtain ⟨bodies, l₁, l₂, l₃, l₄, hs⟩ := exists_stages h
  have hlen : (source.definitions bodies).length = source.syntaxRules.length := by
    have := ((Lexicon.renders_convertRules hs.rules).2 _ (.refl _)).length_eq
    simp [Grammar.definitions, this]
  have hsize : source.syntaxRules.length ≤ g.vars.size := by
    have := Repetition.length_le_expandAllDefinitions (source.definitions bodies)
    simpa [hs.vars, hlen] using this
  have hvariable : ∀ s, (∃ v < source.syntaxRules.length, s = .nonterminal v) → g.IsVariable s :=
    fun s ⟨v, hv, hsv⟩ => ⟨v, Nat.lt_of_lt_of_le hv hsize, hsv⟩
  refine ⟨hvariable _ ⟨0, ?_, rfl⟩, fun v hv p hp x hx => ?_, wf.extras, fun names hn s hsn => ?_,
    isToken_word h, isToken_keyword h, fun v hv s hsv => ?_⟩
  · have hr := List.head?_eq_some_head hrules
    generalize source.rules.head hrules = r at hr
    have hmem : r ∈ source.syntaxRules :=
      List.mem_filter.2 ⟨List.mem_of_head? hr, by simp [hs.start r hr]⟩
    exact List.length_pos_of_mem hmem
  · obtain ⟨i, hi⟩ := Array.mem_iff_getElem?.1 hv
    have hp' : p ∈ g.productionsOf (.nonterminal i) := (productionsOf_of_getElem? hi).symm ▸ hp
    have hdecl := wf.declares hp' x hx
    cases x with
    | eof => cases hdecl
    | terminal t => exact .inl ⟨t, hdecl, rfl⟩
    | nonterminal u => exact .inr ⟨u, hdecl, rfl⟩
  · obtain ⟨found, hfound, heq⟩ := map_eq_ok.1 hs.conflicts
    rw [← heq, Ordered.mem_ofList] at hn
    obtain ⟨_, -, hconflict⟩ := mem_of_mapM hfound names hn
    exact hvariable s (mem_of_conflict hconflict s hsn)
  · rw [hs.vars, List.mem_toArray] at hv
    obtain ⟨d, hd, rfl⟩ := List.mem_map.1 hv
    have hnone : ∀ d ∈ source.definitions bodies, d.parent = none := by
      intro d hd
      obtain ⟨x, -, rfl⟩ := List.mem_map.1 hd
      rfl
    exact hvariable s (hlen ▸ Repetition.parent_of_expandAllDefinitions hnone d hd s hsv)

end FlatGrammar

end GrammarTables
