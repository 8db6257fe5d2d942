import GrammarTables.Proofs.Flattening
import GrammarTables.Proofs.Lexicon
import GrammarTables.Proofs.Opening
import GrammarTables.Proofs.Repetition
import GrammarTables.Regex.Default

/-!
# Preparation preserves texts

The flat form of a grammar is well formed, and its variables derive the texts of their rules. Rules
and bodies have the same texts by their shape, bodies with and without repetitions by the trees that
repetitions become, and bodies and productions by spelling bodies out.
-/

namespace GrammarTables

namespace Grammar

open Body

variable {g : Grammar} {tokens : Array Token} {ds : List Definition} {P : Symbol → Prop}

/-- The definitions stand for the syntax rules one by one. -/
def Defines (g : Grammar) (tokens : Array Token) (ds : List Definition) : Prop :=
  List.Forall₂ (fun r d => g.Renders tokens r.rule d.body) g.syntaxRules ds

theorem defines_definitions {bodies : List Body}
    (h : List.Forall₂ (fun r b => g.Renders tokens r.rule b) g.syntaxRules bodies) :
    g.Defines tokens (g.definitions bodies) := by
  unfold Defines definitions
  generalize g.syntaxRules = rs at h
  induction h with
  | nil => exact .nil
  | cons hb _ ih => exact .cons hb ih

theorem Defines.exists_definition (h : g.Defines tokens ds) {v : Nat} {r : NamedRule}
    (hr : g.syntaxRules[v]? = some r) : ∃ d, ds[v]? = some d ∧ g.Renders tokens r.rule d.body := by
  obtain ⟨hv, rfl⟩ := List.getElem?_eq_some_iff.1 hr
  have hv' : v < ds.length := h.length_eq ▸ hv
  exact ⟨ds[v], List.getElem?_eq_getElem hv', h.get hv hv'⟩

theorem Defines.exists_rule (h : g.Defines tokens ds) {v : Nat} {d : Definition}
    (hd : ds[v]? = some d) :
    ∃ r, g.syntaxRules[v]? = some r ∧ g.Renders tokens r.rule d.body := by
  obtain ⟨hv, rfl⟩ := List.getElem?_eq_some_iff.1 hd
  have hv' : v < g.syntaxRules.length := h.length_eq ▸ hv
  exact ⟨g.syntaxRules[v], List.getElem?_eq_getElem hv', h.get hv' hv⟩

/-! ## Bodies stand for rules -/

theorem Renders.within {r : Rule} {b : Body} (h : g.Renders tokens r b)
    (hterminal : ∀ i < tokens.size, P (.terminal i))
    (hnonterminal : ∀ v < g.syntaxRules.length, P (.nonterminal v)) : b.Within P True := by
  induction h with
  | blank => exact .blank
  | inline _ hi => exact .symbol (hterminal _ (Lexicon.lt_of_inlineToken? hi))
  | token _ hi => exact .symbol (hterminal _ (Lexicon.lt_of_namedToken? hi))
  | reference _ hv =>
    exact .symbol (hnonterminal _ (List.findIdx?_eq_some_iff_getElem.1 hv).1)
  | seqNil => exact .seqNil
  | seqCons _ _ ih ihs => exact .seqCons ih ihs
  | choiceNil => exact .choiceNil
  | choiceCons _ _ ih ihs => exact .choiceCons ih ihs
  | repeat0 _ ih => exact .choiceCons (.repeat1 trivial ih) (.choiceCons .blank .choiceNil)
  | repeat1 _ ih => exact .repeat1 trivial ih
  | transparent _ _ ih => exact .attr ih

/-- The members of a choice are rendered one by one. -/
theorem Renders.choice_left {rs : List Rule} {b : Body} (h : g.Renders tokens (.choice rs) b) :
    ∃ bs, b = .choice bs ∧ ∀ r ∈ rs, ∃ b ∈ bs, g.Renders tokens r b := by
  induction rs generalizing b with
  | nil =>
    cases h with
    | inline hr _ => cases hr
    | choiceNil => exact ⟨[], rfl, by simp⟩
  | cons r rs ih =>
    cases h with
    | inline hr _ => cases hr
    | @choiceCons _ _ b bs hb hbs =>
      obtain ⟨_, heq, hall⟩ := ih hbs
      cases heq
      refine ⟨b :: bs, rfl, List.forall_mem_cons.2 ⟨⟨b, by simp, hb⟩, fun s hs => ?_⟩⟩
      obtain ⟨c, hc, hsc⟩ := hall s hs
      exact ⟨c, by simp [hc], hsc⟩

/-- A choice comes from a choice or from a repetition that may be left out. -/
theorem Renders.choice_right {bs : List Body} {r : Rule} (h : g.Renders tokens r (.choice bs)) :
    (∃ rs, r = .choice rs ∧ ∀ b ∈ bs, ∃ r ∈ rs, g.Renders tokens r b) ∨
      ∃ s c, r = .wrap .repeat0 s ∧ bs = [.repeat1 c, .blank] ∧ g.Renders tokens s c := by
  generalize hb : Body.choice bs = b at h
  induction h generalizing bs with
  | choiceNil =>
    cases hb
    exact .inl ⟨[], rfl, by simp⟩
  | @choiceCons r rs b bs' hr hrs _ ihs =>
    cases hb
    refine .inl ⟨r :: rs, rfl, List.forall_mem_cons.2 ⟨⟨r, by simp, hr⟩, fun c hc => ?_⟩⟩
    rcases ihs rfl with ⟨_, heq, hall⟩ | ⟨_, _, heq, _⟩
    · cases heq
      obtain ⟨s, hs, hsc⟩ := hall c hc
      exact ⟨s, by simp [hs], hsc⟩
    · cases heq
  | @repeat0 s c hs _ =>
    cases hb
    exact .inr ⟨s, c, rfl, rfl, hs⟩
  | _ => cases hb

theorem Generates.repeat0_of_repeat1 {r : Rule} {w : List Nat}
    (h : g.Generates tokens (.wrap .repeat1 r) w) : g.Generates tokens (.wrap .repeat0 r) w := by
  generalize hs : Rule.wrap .repeat1 r = s at h
  induction h with
  | once hw =>
    cases hs
    simpa using Generates.repeatMore hw .repeatNone
  | more hu _ _ ih =>
    cases hs
    exact .repeatMore hu (ih rfl)
  | inline hr _ =>
    subst hs
    cases hr
  | transparent hw _ _ =>
    cases hs
    cases hw
  | _ => cases hs

/-- A token is rendered as its number. -/
theorem Renders.token_left {r : Rule} {b : Body} (h : g.Renders tokens r b)
    (hr : r.isToken = true) : ∃ i, inlineToken? tokens r = some i ∧ b = .symbol (.terminal i) := by
  cases h with
  | @inline _ i _ hi => exact ⟨i, hi, rfl⟩
  | @transparent w _ _ _ hw _ => cases w <;> contradiction
  | _ => cases hr

theorem Renders.repeat0_left {r : Rule} {b : Body} (h : g.Renders tokens (.wrap .repeat0 r) b) :
    ∃ c, b = c.repeat0 ∧ g.Renders tokens r c := by
  cases h with
  | inline hr _ => cases hr
  | repeat0 hc => exact ⟨_, rfl, hc⟩
  | transparent hw _ => cases hw

theorem Renders.repeat1_left {r : Rule} {b : Body} (h : g.Renders tokens (.wrap .repeat1 r) b) :
    ∃ c, b = .repeat1 c ∧ g.Renders tokens r c := by
  cases h with
  | inline hr _ => cases hr
  | repeat1 hc => exact ⟨_, rfl, hc⟩
  | transparent hw _ => cases hw

theorem Renders.transparent_left {wrapper : Wrapper} {r : Rule} {b : Body}
    (h : g.Renders tokens (.wrap wrapper r) b) (hw : wrapper.isTransparent = true) :
    ∃ attrs c, b = .attr attrs c ∧ g.Renders tokens r c := by
  cases h with
  | inline hr _ => cases wrapper <;> contradiction
  | transparent _ hc => exact ⟨_, _, rfl, hc⟩
  | _ => cases hw

/-- A rule generates only what its body yields. -/
theorem Defines.yields (h : g.Defines tokens ds) {r : Rule} {b : Body} {w : List Nat}
    (hw : g.Generates tokens r w) (hb : g.Renders tokens r b) : Yields ds b w := by
  induction hw generalizing b with
  | blank =>
    cases hb with
    | blank => exact .blank
    | inline hr _ => cases hr
  | inline hr hi =>
    obtain ⟨j, hj, rfl⟩ := hb.token_left hr
    cases hi.symm.trans hj
    exact .token _
  | token hrule hi =>
    cases hb with
    | inline hr _ => cases hr
    | token _ hj =>
      cases hi.symm.trans hj
      exact .token _
    | reference hnone _ => cases hrule.symm.trans hnone
  | reference hnone hr _ ih =>
    cases hb with
    | inline hr _ => cases hr
    | token hrule _ => cases hrule.symm.trans hnone
    | reference _ hv =>
      rw [List.find?_eq_bind_findIdx?_getElem?, hv] at hr
      obtain ⟨d, hd, hdr⟩ := h.exists_definition hr
      exact .reference hd (ih hdr)
  | seqNil =>
    cases hb with
    | inline hr _ => cases hr
    | seqNil => exact .seqNil
  | seqCons _ _ ih ihs =>
    cases hb with
    | inline hr _ => cases hr
    | seqCons hb hbs => exact .seqCons (ih hb) (ihs hbs)
  | choice hmem _ ih =>
    obtain ⟨bs, rfl, hall⟩ := hb.choice_left
    obtain ⟨c, hc, hrc⟩ := hall _ hmem
    exact .choice hc (ih hrc)
  | repeatNone =>
    obtain ⟨c, rfl, -⟩ := hb.repeat0_left
    exact .choice (by simp) .blank
  | repeatMore _ _ ih ihs =>
    obtain ⟨c, rfl, hc⟩ := hb.repeat0_left
    cases ihs hb with
    | choice hmem hy =>
      rcases List.mem_cons.1 hmem with rfl | hmem
      · exact .choice (by simp) (.more (ih hc) hy)
      · obtain rfl := List.mem_singleton.1 hmem
        cases hy
        rw [List.append_nil]
        exact .choice (by simp) (.once (ih hc))
  | once _ ih =>
    obtain ⟨c, rfl, hc⟩ := hb.repeat1_left
    exact .once (ih hc)
  | more _ _ ih ihs =>
    obtain ⟨c, rfl, hc⟩ := hb.repeat1_left
    exact .more (ih hc) (ihs hb)
  | transparent hw _ ih =>
    obtain ⟨attrs, c, rfl, hc⟩ := hb.transparent_left hw
    exact .attr (ih hc)

/-- A body yields only what its rule generates. -/
theorem Defines.of_yields (h : g.Defines tokens ds) {r : Rule} {b : Body} {w : List Nat}
    (hy : Yields ds b w) (hr : g.Renders tokens r b) : g.Generates tokens r w := by
  induction hy generalizing r with
  | blank =>
    cases hr
    exact .blank
  | token t =>
    cases hr with
    | inline hr hi => exact .inline hr hi
    | token hrule hi => exact .token hrule hi
  | reference hd _ ih =>
    cases hr with
    | reference hnone hv =>
      obtain ⟨r, hr, hrd⟩ := h.exists_rule hd
      refine .reference hnone ?_ (ih hrd)
      rw [List.find?_eq_bind_findIdx?_getElem?, hv]
      exact hr
  | seqNil =>
    cases hr
    exact .seqNil
  | seqCons _ _ ih ihs =>
    cases hr with
    | seqCons hr hrs => exact .seqCons (ih hr) (ihs hrs)
  | choice hmem hy ih =>
    rcases hr.choice_right with ⟨rs, rfl, hall⟩ | ⟨s, c, rfl, rfl, hs⟩
    · obtain ⟨s, hs, hsb⟩ := hall _ hmem
      exact .choice hs (ih hsb)
    · rcases List.mem_cons.1 hmem with rfl | hmem
      · exact (ih (.repeat1 hs)).repeat0_of_repeat1
      · obtain rfl := List.mem_singleton.1 hmem
        cases hy
        exact .repeatNone
  | once _ ih =>
    cases hr with
    | repeat1 hr => exact .once (ih hr)
  | more _ _ ih ihs =>
    cases hr with
    | repeat1 hr => exact .more (ih hr) (ihs (.repeat1 hr))
  | attr _ ih =>
    cases hr with
    | transparent hw hr => exact .transparent hw (ih hr)

/-- The variable of a rule yields what the rule generates. -/
theorem Defines.yields_iff (h : g.Defines tokens ds) {v : Nat} {r : NamedRule}
    (hr : g.syntaxRules[v]? = some r) {w : List Nat} :
    Yields ds (.symbol (.nonterminal v)) w ↔ g.Generates tokens r.rule w := by
  obtain ⟨d, hd, hrd⟩ := h.exists_definition hr
  constructor
  · intro hy
    cases hy with
    | reference hd' hy =>
      cases hd.symm.trans hd'
      exact h.of_yields hy hrd
  · intro hw
    exact .reference hd (h.yields hw hrd)

end Grammar

namespace FlatGrammar

variable {source : Grammar} {g : FlatGrammar}

theorem within_declares {ds : List Definition} (hds : source.Defines g.tokens ds)
    (hg : g.Flattens (Repetition.expandAllDefinitions ds)) :
    ∀ d ∈ Repetition.expandAllDefinitions ds, d.body.Within g.Declares False := by
  have hsize : g.vars.size = (Repetition.expandAllDefinitions ds).length := by
    simp [show g.vars = _ from hg]
  have hle := Repetition.length_le_expandAllDefinitions ds
  have hlen := hds.length_eq
  refine Repetition.within_expandAllDefinitions (fun d hd => ?_) fun x hx => ?_
  · obtain ⟨v, hv⟩ := List.mem_iff_getElem?.1 hd
    obtain ⟨r, -, hr⟩ := hds.exists_rule hv
    exact hr.within (fun i hi => hi) fun v hv => show v < g.vars.size by omega
  · exact show x < g.vars.size by omega

variable [RegexEngine]

/-- What is decided of the flat form of a given grammar. -/
theorem exists_of_decide {P : FlatGrammar → Prop} [DecidablePred P]
    (h : (ofGrammar source).toOption.any fun g => decide (P g)) :
    ∃ g, ofGrammar source = .ok g ∧ P g := by
  cases hg : ofGrammar source with
  | error e =>
    rw [hg] at h
    cases h
  | ok g =>
    rw [hg] at h
    exact ⟨g, rfl, of_decide_eq_true h⟩

/-- A flat grammar comes from definitions of the rules. -/
theorem exists_defines (h : ofGrammar source = .ok g) : ∃ ds, source.Defines g.tokens ds ∧
    g.Flattens (Repetition.expandAllDefinitions ds) ∧
      ∀ s ∈ g.extras, ∃ i < g.tokens.size, s = .terminal i := by
  obtain ⟨bodies, hbodies, hvars, hextras, -⟩ := ofGrammar_eq_ok h
  exact ⟨_, Grammar.defines_definitions hbodies, hvars, hextras⟩

/-- The flat form of a grammar has the symbols that it mentions. -/
theorem wellFormed_of_ofGrammar (h : ofGrammar source = .ok g) : g.WellFormed := by
  obtain ⟨ds, hds, hg, hextras⟩ := exists_defines h
  refine ⟨fun {s p} hp x hx => ?_, hextras⟩
  cases s with
  | eof | terminal => simp at hp
  | nonterminal v =>
    obtain ⟨d, hd, a, ha, rfl⟩ := hg.exists_definition hp
    rw [Body.symbols_production] at hx
    exact (within_declares hds hg d (List.mem_of_getElem? hd)).of_mem_spelled ha x hx

/-- Preparation preserves texts: the variable of a syntax rule derives what the rule generates. -/
theorem derives_iff_generates (h : ofGrammar source = .ok g) {v : Nat} {r : NamedRule}
    (hr : source.syntaxRules[v]? = some r) {w : List Nat} :
    g.Derives [.nonterminal v] w ↔ source.Generates g.tokens r.rule w := by
  obtain ⟨ds, hds, hg, -⟩ := exists_defines h
  have hlen := hds.length_eq
  have hv : v < ds.length := hlen ▸ (List.getElem?_eq_some_iff.1 hr).1
  have hwithin :
      ∀ d ∈ ds, d.body.Within (fun s => ∀ v, s = .nonterminal v → v < ds.length) True := by
    intro d hd
    obtain ⟨v, hv⟩ := List.mem_iff_getElem?.1 hd
    obtain ⟨r, -, hr⟩ := hds.exists_rule hv
    refine hr.within (fun i _ v hv => nomatch hv) fun v hv u hu => ?_
    cases hu
    omega
  calc g.Derives [.nonterminal v] w
    _ ↔ Body.Yields (Repetition.expandAllDefinitions ds) (.symbol (.nonterminal v)) w :=
      hg.derives_iff_yields (within_declares hds hg)
    _ ↔ Body.Yields ds (.symbol (.nonterminal v)) w :=
      Repetition.yields_expandAllDefinitions (by simp) hwithin hv
    _ ↔ source.Generates g.tokens r.rule w := hds.yields_iff hr

end FlatGrammar

/-- A grammar of one or more words. -/
def Grammar.words : Grammar where
  name := "words"
  rules := [⟨"start", .wrap .repeat1 (.choice [.string "a", .string "b"])⟩]

theorem FlatGrammar.derives_iff_generates_words : ∃ g, ofGrammar .words = .ok g ∧
    Grammar.words.syntaxRules[0]? =
      some ⟨"start", .wrap .repeat1 (.choice [.string "a", .string "b"])⟩ ∧
    g.Derives [.nonterminal 0] [0, 1] := by
  obtain ⟨g, h, ha, hb⟩ : ∃ g, ofGrammar .words = .ok g ∧
      inlineToken? g.tokens (.string "a") = some 0 ∧
      inlineToken? g.tokens (.string "b") = some 1 := exists_of_decide (by decide +kernel)
  refine ⟨g, h, rfl, (derives_iff_generates h rfl).2 ?_⟩
  exact .more (.choice (by simp) (.inline rfl ha)) (.once (.choice (by simp) (.inline rfl hb)))

end GrammarTables
