import GrammarTables.Proofs.Derivation
import GrammarTables.Proofs.Texts

/-!
# Productions spell bodies out

What bodies without repetitions yield is what their productions derive.
-/

namespace GrammarTables

namespace Body

mutual

/-- The symbols of a choice-free body in order. -/
def spelled : Body → List Symbol
  | .symbol s => [s]
  | .seq members => spelledAll members
  | .attr _ content => spelled content
  | .blank => []
  | .choice _ => []
  | .repeat1 _ => []

def spelledAll : List Body → List Symbol
  | [] => []
  | b :: rest => spelled b ++ spelledAll rest

end

theorem map_modifyLast {α β : Type} (f : α → β) (m : α → α) (h : ∀ a, f (m a) = f a) (l : List α) :
    (modifyLast m l).map f = l.map f := by
  induction l using modifyLast.induct with
  | case1 => rfl
  | case2 a => simp [modifyLast, h]
  | case3 a b rest ih => simpa [modifyLast] using ih

mutual

theorem symbols_steps (scope : Scope) (atEnd : Bool) :
    (b : Body) → (steps scope atEnd b).map (·.symbol) = spelled b
  | .symbol _ => rfl
  | .seq members => symbols_stepsAll scope atEnd members
  | .attr attrs content => by
    have ih := symbols_steps (scope.within attrs) atEnd content
    simp only [steps, spelled]
    split
    · exact ih
    · exact (map_modifyLast _ (scope.close attrs) (fun _ => rfl) _).trans ih
  | .blank => rfl
  | .choice _ => rfl
  | .repeat1 _ => rfl

theorem symbols_stepsAll (scope : Scope) (atEnd : Bool) :
    (bs : List Body) → (stepsAll scope atEnd bs).map (·.symbol) = spelledAll bs
  | [] => rfl
  | b :: rest => by
    rw [stepsAll, List.map_append, symbols_steps, symbols_stepsAll scope atEnd rest, spelledAll]

end

@[simp] theorem symbols_production (b : Body) : (production b).symbols = spelled b :=
  symbols_steps {} true b

theorem mem_productions {b : Body} {p : Production} :
    p ∈ b.productions ↔ ∃ a ∈ b.alternatives, production a = p := by
  simp [productions, List.mem_eraseDups]

theorem alternatives_seq (members : List Body) :
    alternatives (.seq members) = (alternativesAll members).map .seq := by
  rw [alternatives]

theorem mem_alternativesAll_cons {b a : Body} {bs as : List Body} :
    a :: as ∈ alternativesAll (b :: bs) ↔ a ∈ alternatives b ∧ as ∈ alternativesAll bs := by
  simp [alternativesAll]

theorem mem_alternativesAny {a : Body} {bs : List Body} :
    a ∈ alternativesAny bs ↔ ∃ b ∈ bs, a ∈ alternatives b := by
  induction bs with
  | nil => simp [alternativesAny]
  | cons b bs ih => simp [alternativesAny, ih]

theorem mem_alternatives_choice {a : Body} {bs : List Body} :
    a ∈ alternatives (.choice bs) ↔ ∃ b ∈ bs, a ∈ alternatives b := by
  rw [alternatives, mem_alternativesAny]

/-- The symbols of an alternative are symbols of the body. -/
theorem Within.of_mem_spelled {P : Symbol → Prop} {repeats : Prop} {b : Body}
    (hb : b.Within P repeats) : ∀ {a : Body}, a ∈ b.alternatives → ∀ s ∈ a.spelled, P s := by
  induction hb with
  | blank =>
    intro a ha
    obtain rfl : a = .blank := by simpa [alternatives] using ha
    simp [spelled]
  | @symbol s hs =>
    intro a ha
    obtain rfl : a = .symbol s := by simpa [alternatives] using ha
    simpa [spelled] using hs
  | seqNil =>
    intro a ha
    obtain rfl : a = .seq [] := by simpa [alternatives_seq, alternativesAll] using ha
    simp [spelled, spelledAll]
  | seqCons _ _ ih ihs =>
    intro a ha
    rw [alternatives_seq, List.mem_map] at ha
    obtain ⟨as, has, rfl⟩ := ha
    cases as with
    | nil => simp [alternativesAll] at has
    | cons a as =>
      obtain ⟨ha, has⟩ := mem_alternativesAll_cons.1 has
      have hrest := @ihs (.seq as) (by rw [alternatives_seq]; exact List.mem_map_of_mem has)
      exact List.forall_mem_append.2 ⟨ih ha, hrest⟩
  | choiceNil =>
    intro a ha
    simp [alternatives, alternativesAny] at ha
  | choiceCons _ _ ih ihs =>
    intro a ha
    rw [alternatives, alternativesAny, List.mem_append] at ha
    rcases ha with ha | ha
    · exact ih ha
    · exact ihs (by rwa [alternatives])
  | @repeat1 c _ _ _ =>
    intro a ha
    obtain rfl : a = .repeat1 c := by simpa [alternatives] using ha
    simp [spelled]
  | attr _ ih =>
    intro a ha
    rw [alternatives, List.mem_map] at ha
    obtain ⟨a', ha', rfl⟩ := ha
    exact @ih a' ha'

end Body

/-- The variables of a flat grammar have the productions of bodies. -/
def FlatGrammar.Flattens (g : FlatGrammar) (ds : List Definition) : Prop :=
  g.vars = (ds.map FlatGrammar.Variable.ofDefinition).toArray

namespace FlatGrammar.Flattens

open Body

variable {g : FlatGrammar} {ds : List Definition} {P : Symbol → Prop}

theorem productionsOf_eq (h : g.Flattens ds) {v : Nat} {d : Definition} (hd : ds[v]? = some d) :
    g.productionsOf (.nonterminal v) = d.body.productions := by
  simp [productionsOf, variableOf?, show g.vars = _ from h, hd, Variable.ofDefinition]

theorem exists_definition (h : g.Flattens ds) {v : Nat} {p : Production}
    (hp : p ∈ g.productionsOf (.nonterminal v)) :
    ∃ d, ds[v]? = some d ∧ ∃ a ∈ d.body.alternatives, production a = p := by
  cases hd : ds[v]? with
  | none =>
    obtain ⟨x, hx, -⟩ := exists_variable hp
    simp [show g.vars = _ from h, hd] at hx
  | some d =>
    rw [h.productionsOf_eq hd] at hp
    exact ⟨d, rfl, mem_productions.1 hp⟩

/-- A variable derives what an alternative of its body spells out to. -/
theorem derives_single (h : g.Flattens ds) {v : Nat} {d : Definition} (hd : ds[v]? = some d)
    {a : Body} (ha : a ∈ d.body.alternatives) {w : List Nat} (hw : g.Derives a.spelled w) :
    g.Derives [.nonterminal v] w := by
  have hp : production a ∈ g.productionsOf (.nonterminal v) := by
    rw [h.productionsOf_eq hd]
    exact mem_productions.2 ⟨a, ha, rfl⟩
  refine .single hp ?_
  rwa [symbols_production]

/-- What a body yields is derived from the symbols of one of its alternatives. -/
theorem derives_of_yields (h : g.Flattens ds) (hplain : ∀ d ∈ ds, d.body.Within P False)
    {b : Body} {w : List Nat} (hy : Yields ds b w) (hb : b.Within P False) :
    ∃ a ∈ b.alternatives, g.Derives a.spelled w := by
  induction hy with
  | blank => exact ⟨.blank, by simp [alternatives], .nil⟩
  | token t => exact ⟨.symbol (.terminal t), by simp [alternatives], .token .nil⟩
  | @reference v d w hd _ ih =>
    obtain ⟨a, ha, hw⟩ := ih (hplain d (List.mem_of_getElem? hd))
    exact ⟨.symbol (.nonterminal v), by simp [alternatives], h.derives_single hd ha hw⟩
  | seqNil => exact ⟨.seq [], by simp [alternatives_seq, alternativesAll], .nil⟩
  | seqCons _ _ ih ihs =>
    cases hb with
    | seqCons hb hbs =>
    obtain ⟨a, ha, hu⟩ := ih hb
    obtain ⟨a', ha', hw⟩ := ihs hbs
    rw [alternatives_seq, List.mem_map] at ha'
    obtain ⟨as, has, rfl⟩ := ha'
    refine ⟨.seq (a :: as), ?_, hu.append hw⟩
    rw [alternatives_seq]
    exact List.mem_map_of_mem (mem_alternativesAll_cons.2 ⟨ha, has⟩)
  | choice hmem _ ih =>
    obtain ⟨a, ha, hw⟩ := ih (hb.member _ hmem)
    exact ⟨a, mem_alternatives_choice.2 ⟨_, hmem, ha⟩, hw⟩
  | once _ _ =>
    cases hb with
    | repeat1 hf _ => exact hf.elim
  | more _ _ _ _ =>
    cases hb with
    | repeat1 hf _ => exact hf.elim
  | @attr attrs b w _ ih =>
    cases hb with
    | attr hb =>
    obtain ⟨a, ha, hw⟩ := ih hb
    exact ⟨.attr attrs a, by simpa [alternatives] using ha, hw⟩

/-- A sequence of symbols yields the texts of its parts one after the other. -/
theorem yields_append {ss ts : List Symbol} {w : List Nat}
    (h : Yields ds (.seq ((ss ++ ts).map .symbol)) w) :
    ∃ u v, w = u ++ v ∧ Yields ds (.seq (ss.map .symbol)) u ∧
      Yields ds (.seq (ts.map .symbol)) v := by
  induction ss generalizing w with
  | nil => exact ⟨[], w, rfl, .seqNil, h⟩
  | cons s ss ih =>
    cases h with
    | seqCons hs hrest =>
      obtain ⟨u, v, rfl, hu, hv⟩ := ih hrest
      exact ⟨_, v, (List.append_assoc ..).symm, .seqCons hs hu, hv⟩

/-- What the symbols of an alternative yield the body yields. -/
theorem yields_of_spelled {b : Body} (hb : b.Within P False) : ∀ {a : Body} {w : List Nat},
    a ∈ b.alternatives → Yields ds (.seq (a.spelled.map .symbol)) w → Yields ds b w := by
  induction hb with
  | blank =>
    intro a w ha h
    obtain rfl : a = .blank := by simpa [alternatives] using ha
    cases h
    exact .blank
  | @symbol s _ =>
    intro a w ha h
    obtain rfl : a = .symbol s := by simpa [alternatives] using ha
    cases h with
    | seqCons hs hnil =>
      cases hnil
      rwa [List.append_nil]
  | seqNil =>
    intro a w ha h
    obtain rfl : a = .seq [] := by simpa [alternatives_seq, alternativesAll] using ha
    exact h
  | seqCons _ _ ih ihs =>
    intro a w ha h
    rw [alternatives_seq, List.mem_map] at ha
    obtain ⟨as, has, rfl⟩ := ha
    cases as with
    | nil => simp [alternativesAll] at has
    | cons a as =>
      obtain ⟨ha, has⟩ := mem_alternativesAll_cons.1 has
      obtain ⟨u, v, rfl, hu, hv⟩ := yields_append h
      refine .seqCons (ih ha hu) (@ihs (.seq as) _ ?_ hv)
      rw [alternatives_seq]
      exact List.mem_map_of_mem has
  | choiceNil =>
    intro a w ha h
    simp [alternatives, alternativesAny] at ha
  | choiceCons _ _ ih ihs =>
    intro a w ha h
    rw [alternatives, alternativesAny, List.mem_append] at ha
    rcases ha with ha | ha
    · exact .choice (by simp) (ih ha h)
    · have hrest := ihs (by rwa [alternatives]) h
      cases hrest with
      | choice hb' hy => exact .choice (by simp [hb']) hy
  | repeat1 hf _ _ => exact hf.elim
  | attr _ ih =>
    intro a w ha h
    rw [alternatives, List.mem_map] at ha
    obtain ⟨a', ha', rfl⟩ := ha
    exact .attr (ih ha' h)

theorem yields_of_derives (h : g.Flattens ds) (hplain : ∀ d ∈ ds, d.body.Within P False)
    {ss : List Symbol} {w : List Nat} (hd : g.Derives ss w) :
    Yields ds (.seq (ss.map .symbol)) w := by
  induction hd with
  | nil => exact .seqNil
  | token _ ih => exact .seqCons (.token _) ih
  | expand hp _ _ ihu ihw =>
    obtain ⟨d, hd, a, ha, rfl⟩ := h.exists_definition hp
    rw [symbols_production] at ihu
    have hbody := yields_of_spelled (hplain d (List.mem_of_getElem? hd)) ha ihu
    exact .seqCons (.reference hd hbody) ihw

/-- A variable derives what its body yields. -/
theorem derives_iff_yields (h : g.Flattens ds) (hplain : ∀ d ∈ ds, d.body.Within P False) {v : Nat}
    {w : List Nat} :
    g.Derives [.nonterminal v] w ↔ Yields ds (.symbol (.nonterminal v)) w := by
  constructor
  · intro hd
    cases h.yields_of_derives hplain hd with
    | seqCons hv hnil =>
      cases hnil
      rwa [List.append_nil]
  · intro hy
    cases hy with
    | @reference _ d _ hd hy =>
      obtain ⟨a, ha, hw⟩ := h.derives_of_yields hplain hy (hplain d (List.mem_of_getElem? hd))
      exact h.derives_single hd ha hw

end FlatGrammar.Flattens

end GrammarTables
