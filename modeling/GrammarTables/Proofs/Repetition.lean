import GrammarTables.Proofs.Texts

/-!
# Repetitions are trees

A body with variables for its repetitions yields what the body yields. The variable of a repetition
is a tree whose leaves are the repeated content, so its texts are one or more texts of the content
in a row, however the tree is shaped.
-/

namespace GrammarTables.Repetition

open Body

/-- A body is another one with variables for its repetitions, where `tree` says which variable is a
tree of what content. -/
inductive Expands (tree : Nat → Body → Prop) : Body → Body → Prop
  | blank : Expands tree .blank .blank
  | symbol (s : Symbol) : Expands tree (.symbol s) (.symbol s)
  | seqNil : Expands tree (.seq []) (.seq [])
  | seqCons {b b' : Body} {bs bs' : List Body} : Expands tree b b' →
      Expands tree (.seq bs) (.seq bs') → Expands tree (.seq (b :: bs)) (.seq (b' :: bs'))
  | choiceNil : Expands tree (.choice []) (.choice [])
  | choiceCons {b b' : Body} {bs bs' : List Body} : Expands tree b b' →
      Expands tree (.choice bs) (.choice bs') →
      Expands tree (.choice (b :: bs)) (.choice (b' :: bs'))
  | repeat1 {c c' : Body} {x : Nat} : Expands tree c c' → tree x c' →
      Expands tree (.repeat1 c) (.symbol (.nonterminal x))
  | attr {attrs : Attributes} {b b' : Body} : Expands tree b b' →
      Expands tree (.attr attrs b) (.attr attrs b')

/-- The body of a variable is that of the variable before, expanded, or the tree of a repetition
that the body before is as a whole. -/
def Replaces (tree : Nat → Body → Prop) (v : Nat) (b b' : Body) : Prop :=
  Expands tree b b' ∨
    ∃ c c', b = .repeat1 c ∧ b' = .tree (.nonterminal v) c' ∧ Expands tree c c'

variable {tree : Nat → Body → Prop} {P : Symbol → Prop} {site : Site}

/-- A body is within the declared symbols once its repetitions are variables. -/
theorem Expands.within {b b' : Body} (h : Expands tree b b') {repeats : Prop}
    (htree : ∀ {x c}, tree x c → P (.nonterminal x)) (hb : b.Within P repeats) :
    b'.Within P False := by
  induction h with
  | blank => exact .blank
  | symbol s =>
    cases hb with
    | symbol hs => exact .symbol hs
  | seqNil => exact .seqNil
  | seqCons _ _ ih ihs =>
    cases hb with
    | seqCons hb hbs => exact .seqCons (ih hb) (ihs hbs)
  | choiceNil => exact .choiceNil
  | choiceCons _ _ ih ihs =>
    cases hb with
    | choiceCons hb hbs => exact .choiceCons (ih hb) (ihs hbs)
  | repeat1 _ hx _ => exact .symbol (htree hx)
  | attr _ ih =>
    cases hb with
    | attr hb => exact .attr (ih hb)

theorem within_tree {x : Nat} {c : Body} (hx : P (.nonterminal x)) (hc : c.Within P False) :
    (Body.tree (.nonterminal x) c).Within P False :=
  .choiceCons (.seqCons (.symbol hx) (.seqCons (.symbol hx) .seqNil)) (.choiceCons hc .choiceNil)

theorem Replaces.within {v : Nat} {b b' : Body} (h : Replaces tree v b b')
    (htree : ∀ {x c}, tree x c → P (.nonterminal x)) (hv : P (.nonterminal v))
    (hb : b.Within P True) : b'.Within P False := by
  rcases h with he | ⟨c, c', rfl, rfl, he⟩
  · exact he.within htree hb
  · cases hb with
    | repeat1 _ hb => exact within_tree hv (he.within htree hb)

theorem Expands.choice_left {bs : List Body} {x : Body} (h : Expands tree (.choice bs) x) :
    ∃ bs', x = .choice bs' ∧ ∀ b ∈ bs, ∃ b' ∈ bs', Expands tree b b' := by
  induction bs generalizing x with
  | nil =>
    cases h
    exact ⟨[], rfl, by simp⟩
  | cons b bs ih =>
    cases h with
    | @choiceCons _ b' _ bs' hb hbs =>
      obtain ⟨_, heq, hall⟩ := ih hbs
      cases heq
      refine ⟨b' :: bs', rfl, List.forall_mem_cons.2 ⟨⟨b', by simp, hb⟩, fun c hc => ?_⟩⟩
      obtain ⟨c', hc', he⟩ := hall c hc
      exact ⟨c', by simp [hc'], he⟩

theorem Expands.choice_right {bs' : List Body} {x : Body} (h : Expands tree x (.choice bs')) :
    ∃ bs, x = .choice bs ∧ ∀ b' ∈ bs', ∃ b ∈ bs, Expands tree b b' := by
  induction bs' generalizing x with
  | nil =>
    cases h
    exact ⟨[], rfl, by simp⟩
  | cons b' bs' ih =>
    cases h with
    | @choiceCons b _ bs _ hb hbs =>
      obtain ⟨_, heq, hall⟩ := ih hbs
      cases heq
      refine ⟨b :: bs, rfl, List.forall_mem_cons.2 ⟨⟨b, by simp, hb⟩, fun c' hc' => ?_⟩⟩
      obtain ⟨c, hc, he⟩ := hall c' hc'
      exact ⟨c, by simp [hc], he⟩

/-! ## What is found along the way -/

/-- The repetitions found so far are trees of their contents. -/
def Found.Trees (base : Nat) (tree : Nat → Body → Prop) (found : Found) : Prop :=
  ∀ ⦃i : Nat⦄ ⦃r : Repetition⦄, found.all[i]? = some r → tree (base + i) r.content

/-- The repetitions found so far are expanded bodies within the given symbols. -/
def Found.Known (P : Symbol → Prop) (tree : Nat → Body → Prop) (found : Found) : Prop :=
  ∀ r ∈ found.all, ∃ b : Body, b.Within P True ∧ Expands tree b r.content

/-- What is found stays found in its place. -/
def Found.Grows (found found' : Found) : Prop :=
  ∀ ⦃i : Nat⦄ ⦃r : Repetition⦄, found.all[i]? = some r → found'.all[i]? = some r

theorem Found.Grows.trans {a b c : Found} (h : a.Grows b) (k : b.Grows c) : a.Grows c :=
  fun _ _ hi => k (h hi)

theorem Found.Trees.of_grows {found found' : Found} {base : Nat} (ht : found'.Trees base tree)
    (h : found.Grows found') : found.Trees base tree :=
  fun _ _ hi => ht (h hi)

theorem variableOf_spec {found found' : Found} {c : Body} {s : Symbol}
    (h : found.variableOf site c = (s, found')) :
    found.Grows found' ∧ (found'.Trees site.base tree → ∃ x, s = .nonterminal x ∧ tree x c) ∧
      ∀ b : Body, b.Within P True → Expands tree b c → found.Known P tree →
        found'.Known P tree := by
  unfold Found.variableOf at h
  split at h
  · rename_i i hi
    cases h
    obtain ⟨hlt, hc, -⟩ := Array.findIdx?_eq_some_iff_getElem.1 hi
    refine ⟨fun _ _ h => h, fun ht => ⟨_, rfl, ?_⟩, fun _ _ _ h => h⟩
    have hx := ht (Array.getElem?_eq_getElem hlt)
    rwa [beq_iff_eq.1 hc] at hx
  · cases h
    refine ⟨fun i r hi => ?_, fun ht => ⟨_, rfl, ?_⟩, fun b hb he hknown r hr => ?_⟩
    · have hlt := (Array.getElem?_eq_some_iff.1 hi).1
      rw [Array.getElem?_push, if_neg (by omega)]
      exact hi
    · exact ht Array.getElem?_push_size
    · rcases Array.mem_push.1 hr with hr | rfl
      · exact hknown r hr
      · exact ⟨b, hb, he⟩

mutual

theorem expand_spec : (b : Body) → {found found' : Found} → {b' : Body} →
    expand site b found = (b', found') →
    found.Grows found' ∧ (found'.Trees site.base tree → Expands tree b b') ∧
      (found'.Trees site.base tree → b.Within P True → found.Known P tree → found'.Known P tree)
  | .blank, found, found', b', h => by
    cases h
    exact ⟨fun _ _ h => h, fun _ => .blank, fun _ _ h => h⟩
  | .symbol s, found, found', b', h => by
    cases h
    exact ⟨fun _ _ h => h, fun _ => .symbol s, fun _ _ h => h⟩
  | .seq members, found, found', b', h => by
    rw [expand] at h
    cases hm : expandAll site members found with
    | mk bs found₁ =>
      rw [hm] at h
      cases h
      obtain ⟨hg, he, hk⟩ := expandAll_spec members hm
      exact ⟨hg, fun ht => (he ht).1, fun ht hb => hk ht (.inl hb)⟩
  | .choice members, found, found', b', h => by
    rw [expand] at h
    cases hm : expandAll site members found with
    | mk bs found₁ =>
      rw [hm] at h
      cases h
      obtain ⟨hg, he, hk⟩ := expandAll_spec members hm
      exact ⟨hg, fun ht => (he ht).2, fun ht hb => hk ht (.inr hb)⟩
  | .attr attrs content, found, found', b', h => by
    rw [expand] at h
    cases hc : expand site content found with
    | mk c found₁ =>
      rw [hc] at h
      cases h
      obtain ⟨hg, he, hk⟩ := expand_spec content hc
      refine ⟨hg, fun ht => .attr (he ht), fun ht hb => ?_⟩
      cases hb with
      | attr hb => exact hk ht hb
  | .repeat1 content, found, found', b', h => by
    rw [expand] at h
    cases hc : expand site content found with
    | mk c found₁ =>
      cases hv : found₁.variableOf site c with
      | mk s found₂ =>
        simp only [hc, hv] at h
        cases h
        obtain ⟨hg, he, hk⟩ := expand_spec content hc
        obtain ⟨hg', hs, hk'⟩ := variableOf_spec hv
        refine ⟨hg.trans hg', fun ht => ?_, fun ht hb hknown => ?_⟩
        · obtain ⟨x, rfl, hx⟩ := hs ht
          exact .repeat1 (he (ht.of_grows hg')) hx
        · cases hb with
          | repeat1 _ hb =>
            have ht' := ht.of_grows hg'
            exact hk' content hb (he ht') (hk ht' hb hknown)

theorem expandAll_spec : (bs : List Body) → {found found' : Found} → {bs' : List Body} →
    expandAll site bs found = (bs', found') →
    found.Grows found' ∧
      (found'.Trees site.base tree →
        Expands tree (.seq bs) (.seq bs') ∧ Expands tree (.choice bs) (.choice bs')) ∧
      (found'.Trees site.base tree →
        (Body.seq bs).Within P True ∨ (Body.choice bs).Within P True →
        found.Known P tree → found'.Known P tree)
  | [], found, found', bs', h => by
    cases h
    exact ⟨fun _ _ h => h, fun _ => ⟨.seqNil, .choiceNil⟩, fun _ _ h => h⟩
  | b :: bs, found, found', bs', h => by
    rw [expandAll] at h
    cases hb : expand site b found with
    | mk b' found₁ =>
      cases hbs : expandAll site bs found₁ with
      | mk bs' found₂ =>
        simp only [hb, hbs] at h
        cases h
        obtain ⟨hg, he, hk⟩ := expand_spec b hb
        obtain ⟨hg', he', hk'⟩ := expandAll_spec bs hbs
        refine ⟨hg.trans hg', fun ht => ?_, fun ht hw hknown => ?_⟩
        · have hb := he (ht.of_grows hg')
          exact ⟨.seqCons hb (he' ht).1, .choiceCons hb (he' ht).2⟩
        · have hw' : b.Within P True ∧
              ((Body.seq bs).Within P True ∨ (Body.choice bs).Within P True) := by
            rcases hw with hw | hw
            · cases hw with
              | seqCons hb hbs => exact ⟨hb, .inl hbs⟩
            · cases hw with
              | choiceCons hb hbs => exact ⟨hb, .inr hbs⟩
          exact hk' ht hw'.2 (hk (ht.of_grows hg') hw'.1 hknown)

end

theorem expandDefinition_spec {base owner : Nat} {d d' : Definition} {found found' : Found}
    (h : expandDefinition base owner d found = (d', found')) :
    found.Grows found' ∧ (found'.Trees base tree → Replaces tree owner d.body d'.body) ∧
      (found'.Trees base tree → d.body.Within P True → found.Known P tree →
        found'.Known P tree) := by
  unfold expandDefinition at h
  split at h
  · rename_i content _ hbody
    cases hc : expand { base, owner, name := d.name } content { found with here := 0 } with
    | mk c found₁ =>
      simp only [hc] at h
      cases h
      obtain ⟨hg, he, hk⟩ := expand_spec content hc
      refine ⟨hg, fun ht => ?_, fun ht hb => ?_⟩
      · exact .inr ⟨content, c, hbody, rfl, he ht⟩
      · rw [hbody] at hb
        cases hb with
        | repeat1 _ hb => exact hk ht hb
  · cases hc : expand { base, owner, name := d.name } d.body { found with here := 0 } with
    | mk c found₁ =>
      simp only [hc] at h
      cases h
      obtain ⟨hg, he, hk⟩ := expand_spec d.body hc
      exact ⟨hg, fun ht => .inl (he ht), hk⟩

theorem expandDefinitions_spec {base owner : Nat} {ds ds' : List Definition}
    {found found' : Found} (h : expandDefinitions base owner ds found = (ds', found')) :
    ds'.length = ds.length ∧ found.Grows found' ∧
      (found'.Trees base tree → ∀ {v : Nat} {d : Definition}, ds[v]? = some d →
        ∃ d', ds'[v]? = some d' ∧ Replaces tree (owner + v) d.body d'.body) ∧
      (found'.Trees base tree → (∀ d ∈ ds, d.body.Within P True) → found.Known P tree →
        found'.Known P tree) := by
  induction ds generalizing owner ds' found with
  | nil =>
    cases h
    exact ⟨rfl, fun _ _ h => h, fun _ {_ _} hd => by simp at hd, fun _ _ h => h⟩
  | cons d ds ih =>
    rw [expandDefinitions] at h
    cases hd : expandDefinition base owner d found with
    | mk d' found₁ =>
      cases hds : expandDefinitions base (owner + 1) ds found₁ with
      | mk ds' found₂ =>
        simp only [hd, hds] at h
        cases h
        obtain ⟨hg, hr, hk⟩ := expandDefinition_spec hd
        obtain ⟨hlen, hg', hr', hk'⟩ := ih hds
        refine ⟨by simp [hlen], hg.trans hg', fun ht {v e} he => ?_, fun ht hw hknown => ?_⟩
        · cases v with
          | zero =>
            cases he
            exact ⟨d', rfl, hr (ht.of_grows hg')⟩
          | succ v =>
            obtain ⟨e', he', hre⟩ := hr' ht he
            exact ⟨e', he', by rwa [Nat.add_right_comm] at hre⟩
        · obtain ⟨hwd, hwds⟩ := List.forall_mem_cons.1 hw
          exact hk' ht hwds (hk (ht.of_grows hg') hwd hknown)

/-- A definition keeps its name, and its kind unless it is nothing but a repetition. -/
theorem expandDefinition_shows (base owner : Nat) (d : Definition) (found : Found) :
    (expandDefinition base owner d found).1.name = d.name ∧
      ((expandDefinition base owner d found).1.kind = .auxiliary ∨
        (expandDefinition base owner d found).1.kind = d.kind) := by
  unfold expandDefinition
  dsimp only
  split
  · exact ⟨rfl, .inl rfl⟩
  · exact ⟨rfl, .inr rfl⟩

theorem expandDefinitions_shows {base owner : Nat} {ds : List Definition} {found : Found} {v : Nat}
    {d' : Definition} (h : (expandDefinitions base owner ds found).1[v]? = some d') :
    ∃ d, ds[v]? = some d ∧ d'.name = d.name ∧ (d'.kind = .auxiliary ∨ d'.kind = d.kind) := by
  induction ds generalizing owner found v with
  | nil => cases h
  | cons d ds ih =>
    cases v with
    | zero =>
      obtain rfl := Option.some.inj h
      exact ⟨d, rfl, expandDefinition_shows base owner d found⟩
    | succ v => exact ih h

/-! ## All definitions -/

/-- A variable is a tree of the given content. -/
def IsTree (ds : List Definition) (x : Nat) (c : Body) : Prop :=
  ∃ d, ds[x]? = some d ∧ d.body = .tree (.nonterminal x) c

theorem IsTree.lt {ds : List Definition} {x : Nat} {c : Body} (h : IsTree ds x c) :
    x < ds.length := by
  obtain ⟨d, hd, -⟩ := h
  exact (List.getElem?_eq_some_iff.1 hd).1

/-- The definitions come first, then the trees of the repetitions found in them. -/
theorem expandAllDefinitions_eq (ds : List Definition) : ∃ ds' found,
    expandDefinitions ds.length 0 ds {} = (ds', found) ∧
      expandAllDefinitions ds =
        ds' ++ found.all.toList.mapIdx fun i r => r.definition (ds.length + i) :=
  ⟨_, _, rfl, rfl⟩

theorem trees_append {ds : List Definition} (found : Found) :
    found.Trees ds.length
      (IsTree (ds ++ found.all.toList.mapIdx fun i r => r.definition (ds.length + i))) := by
  intro i r hr
  refine ⟨r.definition (ds.length + i), ?_, rfl⟩
  rw [List.getElem?_append_right (Nat.le_add_right ..)]
  simp [hr]

theorem length_le_expandAllDefinitions (ds : List Definition) :
    ds.length ≤ (expandAllDefinitions ds).length := by
  obtain ⟨ds', found, h, heq⟩ := expandAllDefinitions_eq ds
  have hlen := (@expandDefinitions_spec (fun _ _ => True) (fun _ => True) _ _ _ _ _ _ h).1
  rw [heq, List.length_append, hlen]
  exact Nat.le_add_right ..

/-- A variable that is not auxiliary has the name and the kind that are defined at its place. -/
theorem expandAllDefinitions_shows {ds : List Definition} {v : Nat} {d' : Definition}
    (h : (expandAllDefinitions ds)[v]? = some d') (hk : d'.kind ≠ .auxiliary) :
    ∃ d, ds[v]? = some d ∧ d'.name = d.name ∧ d'.kind = d.kind := by
  obtain ⟨ds', found, hds', heq⟩ := expandAllDefinitions_eq ds
  rw [heq, List.getElem?_append] at h
  split at h
  · rw [show ds' = (expandDefinitions ds.length 0 ds {}).1 by rw [hds']] at h
    obtain ⟨d, hd, hname, hkind⟩ := expandDefinitions_shows h
    exact ⟨d, hd, hname, hkind.resolve_left hk⟩
  · -- What comes after the definitions are the variables of repetitions.
    obtain ⟨i, hi, hr⟩ := List.mem_mapIdx.1 (List.mem_of_getElem? h)
    exact absurd (hr ▸ rfl) hk

/-- Every variable keeps its place and its body, expanded. -/
theorem replaces_expandAllDefinitions (ds : List Definition) {v : Nat} {d : Definition}
    (hd : ds[v]? = some d) : ∃ d', (expandAllDefinitions ds)[v]? = some d' ∧
      Replaces (IsTree (expandAllDefinitions ds)) v d.body d'.body := by
  obtain ⟨ds', found, h, heq⟩ := expandAllDefinitions_eq ds
  obtain ⟨hlen, -, hr, -⟩ := expandDefinitions_spec (P := fun _ => True) h
  rw [← hlen] at heq hr
  obtain ⟨d', hd', hrep⟩ := hr (heq ▸ trees_append found) hd
  rw [Nat.zero_add] at hrep
  refine ⟨d', ?_, hrep⟩
  rw [heq, List.getElem?_append_left (List.getElem?_eq_some_iff.1 hd').1]
  exact hd'

/-- Bodies within declared symbols stay within them, and no repetition is left. -/
theorem within_expandAllDefinitions {ds : List Definition}
    (hds : ∀ d ∈ ds, d.body.Within P True)
    (hP : ∀ x < (expandAllDefinitions ds).length, P (.nonterminal x)) :
    ∀ d ∈ expandAllDefinitions ds, d.body.Within P False := by
  have hx : ∀ {x c}, IsTree (expandAllDefinitions ds) x c → P (.nonterminal x) :=
    fun h => hP _ h.lt
  obtain ⟨ds', found, h, heq⟩ := expandAllDefinitions_eq ds
  obtain ⟨hlen, -, -, hknown⟩ := expandDefinitions_spec h
  rw [← hlen] at heq hknown
  have htrees : found.Trees ds'.length (IsTree (expandAllDefinitions ds)) :=
    heq ▸ trees_append found
  intro d hd
  rw [heq] at hd
  rcases List.mem_append.1 hd with hd | hd
  · obtain ⟨v, hv⟩ := List.mem_iff_getElem?.1 hd
    have hlt : v < ds.length := hlen ▸ (List.getElem?_eq_some_iff.1 hv).1
    obtain ⟨d', hd', hrep⟩ := replaces_expandAllDefinitions ds (List.getElem?_eq_getElem hlt)
    obtain rfl : d = d' := by
      rw [heq, List.getElem?_append_left (hlen ▸ hlt), hv] at hd'
      exact Option.some.inj hd'
    exact hrep.within hx (hP v (List.getElem?_eq_some_iff.1 hd').1) (hds _ (List.getElem_mem hlt))
  · obtain ⟨i, hi, rfl⟩ := List.mem_mapIdx.1 hd
    have hr : found.all[i]? = some found.all.toList[i] := by simp
    obtain ⟨b, hb, he⟩ := hknown htrees hds (fun r hr => by simp at hr) _ (Array.mem_of_getElem? hr)
    exact within_tree (hx (htrees hr)) (he.within hx hb)

/-! ## Texts -/

variable {ds ds' : List Definition}

theorem IsTree.leaf {x : Nat} {c : Body} (h : IsTree ds x c) {w : List Nat}
    (hw : Yields ds c w) : Yields ds (.symbol (.nonterminal x)) w := by
  obtain ⟨d, hd, hbody⟩ := h
  refine .reference hd ?_
  rw [hbody]
  exact .choice (by simp) hw

theorem IsTree.node {x : Nat} {c : Body} (h : IsTree ds x c) {u w : List Nat}
    (hu : Yields ds (.symbol (.nonterminal x)) u) (hw : Yields ds (.symbol (.nonterminal x)) w) :
    Yields ds (.symbol (.nonterminal x)) (u ++ w) := by
  obtain ⟨d, hd, hbody⟩ := h
  refine .reference hd ?_
  rw [hbody]
  refine .choice (List.mem_cons_self ..) (.seqCons hu ?_)
  simpa using Yields.seqCons hw .seqNil

/-- The definitions keep their places and their bodies, expanded. -/
def Expanded (ds ds' : List Definition) : Prop :=
  ∀ ⦃v : Nat⦄ ⦃d : Definition⦄, ds[v]? = some d →
    ∃ d', ds'[v]? = some d' ∧ Replaces (IsTree ds') v d.body d'.body

/-- What a body yields its expanded form yields: one or more parts are a tree that grows to the
right. -/
theorem Expanded.yields (h : Expanded ds ds') {b b' : Body} {w : List Nat} (hy : Yields ds b w)
    (he : Expands (IsTree ds') b b') : Yields ds' b' w := by
  induction hy generalizing b' with
  | blank =>
    cases he
    exact .blank
  | token t =>
    cases he
    exact .token t
  | reference hd _ ih =>
    cases he
    obtain ⟨d', hd', he | ⟨c, c', hb, hb', he⟩⟩ := h hd
    · exact .reference hd' (ih he)
    · apply ih
      rw [hb]
      exact .repeat1 he ⟨d', hd', hb'⟩
  | seqNil =>
    cases he
    exact .seqNil
  | seqCons _ _ ih ihs =>
    cases he with
    | seqCons hb hbs => exact .seqCons (ih hb) (ihs hbs)
  | choice hmem _ ih =>
    obtain ⟨bs', rfl, hall⟩ := he.choice_left
    obtain ⟨c, hc, he⟩ := hall _ hmem
    exact .choice hc (ih he)
  | once _ ih =>
    cases he with
    | repeat1 he hx => exact hx.leaf (ih he)
  | more _ _ ih ihs =>
    cases he with
    | repeat1 he hx => exact hx.node (hx.leaf (ih he)) (ihs (.repeat1 he hx))
  | attr _ ih =>
    cases he with
    | attr he => exact .attr (ih he)

/-- The bodies that the texts of a tree come from: the tree, two of it, and one of it. -/
inductive Part (x : Nat) (c : Body) : Body → Prop
  | tree : Part x c (.tree (.nonterminal x) c)
  | both : Part x c (.seq [.symbol (.nonterminal x), .symbol (.nonterminal x)])
  | right : Part x c (.seq [.symbol (.nonterminal x)])

/-- What an expanded body yields the body yields, and every part of a tree yields one or more of its
content. -/
theorem Expanded.of_yields (h : Expanded ds ds') (hP : ∀ {v}, P (.nonterminal v) → v < ds.length)
    (hds : ∀ d ∈ ds, d.body.Within P True) {b' : Body} {w : List Nat} (hy : Yields ds' b' w) :
    (∀ {b : Body}, Expands (IsTree ds') b b' → b.Within P True → Yields ds b w) ∧
      ∀ {x : Nat} {c c' : Body}, IsTree ds' x c' → Expands (IsTree ds') c c' →
        c.Within P True → Part x c' b' → Yields ds (.repeat1 c) w := by
  induction hy with
  | blank =>
    refine ⟨fun he _ => ?_, fun _ _ _ hp => nomatch hp⟩
    cases he
    exact .blank
  | token t =>
    refine ⟨fun he _ => ?_, fun _ _ _ hp => nomatch hp⟩
    cases he
    exact .token t
  | @reference v d' w hd' _ ih =>
    refine ⟨fun he hb => ?_, fun _ _ _ hp => nomatch hp⟩
    cases he with
    | symbol _ =>
      cases hb with
      | symbol hv =>
        obtain ⟨d, hd⟩ : ∃ d, ds[v]? = some d := ⟨_, List.getElem?_eq_getElem (hP hv)⟩
        have hw := hds d (List.mem_of_getElem? hd)
        obtain ⟨d'', hd'', hr⟩ := h hd
        obtain rfl : d' = d'' := Option.some.inj (hd'.symm.trans hd'')
        refine .reference hd ?_
        rcases hr with he | ⟨c, c', hb, hb', he⟩
        · exact ih.1 he hw
        · rw [hb] at hw ⊢
          cases hw with
          | repeat1 _ hw => exact ih.2 ⟨d', hd', hb'⟩ he hw (hb' ▸ .tree)
    | repeat1 he hx =>
      cases hb with
      | repeat1 _ hb =>
        obtain ⟨d'', hd'', hbody⟩ := hx
        obtain rfl : d' = d'' := Option.some.inj (hd'.symm.trans hd'')
        exact ih.2 ⟨d', hd', hbody⟩ he hb (hbody ▸ .tree)
  | seqNil =>
    refine ⟨fun he _ => ?_, fun _ _ _ hp => nomatch hp⟩
    cases he
    exact .seqNil
  | seqCons _ hrest ih ihs =>
    refine ⟨fun he hb => ?_, fun hx he hc hp => ?_⟩
    · cases he with
      | seqCons he hes =>
        cases hb with
        | seqCons hb hbs => exact .seqCons (ih.1 he hb) (ihs.1 hes hbs)
    · cases hp with
      | both =>
        have hu := ih.1 (.repeat1 he hx) (.repeat1 trivial hc)
        exact hu.append (ihs.2 hx he hc .right)
      | right =>
        have hu := ih.1 (.repeat1 he hx) (.repeat1 trivial hc)
        cases hrest
        rwa [List.append_nil]
  | choice hmem _ ih =>
    refine ⟨fun he hb => ?_, fun hx he hc hp => ?_⟩
    · obtain ⟨bs, rfl, hall⟩ := he.choice_right
      obtain ⟨c, hc, he⟩ := hall _ hmem
      exact .choice hc (ih.1 he (hb.member c hc))
    · cases hp with
      | tree =>
        rcases List.mem_cons.1 hmem with rfl | hmem
        · exact ih.2 hx he hc .both
        · obtain rfl := List.mem_singleton.1 hmem
          exact .once (ih.1 he hc)
  | once _ _ => exact ⟨fun he _ => (nomatch he), fun _ _ _ hp => (nomatch hp)⟩
  | more _ _ _ _ => exact ⟨fun he _ => (nomatch he), fun _ _ _ hp => (nomatch hp)⟩
  | attr _ ih =>
    refine ⟨fun he hb => ?_, fun _ _ _ hp => nomatch hp⟩
    cases he with
    | attr he =>
      cases hb with
      | attr hb => exact .attr (ih.1 he hb)

/-- Variables for repetitions leave the texts of the variables that were there as they were. -/
theorem yields_expandAllDefinitions (hP : ∀ {v}, P (.nonterminal v) ↔ v < ds.length)
    (hds : ∀ d ∈ ds, d.body.Within P True) {v : Nat} (hv : v < ds.length) {w : List Nat} :
    Yields (expandAllDefinitions ds) (.symbol (.nonterminal v)) w ↔
      Yields ds (.symbol (.nonterminal v)) w := by
  have h : Expanded ds (expandAllDefinitions ds) := fun _ _ => replaces_expandAllDefinitions ds
  constructor
  · intro hy
    exact (h.of_yields hP.1 hds hy).1 (.symbol _) (.symbol (hP.2 hv))
  · intro hy
    exact h.yields hy (.symbol _)

end GrammarTables.Repetition
