import GrammarTables.Proofs.Listing
import GrammarTables.Proofs.NodeTypes
import GrammarTables.Proofs.Unsupported

/-!
# The entries of node types

Which entries there are is found by a search from the start and by leaving tokens out that look like
earlier ones. Which types the entries mention is found by sweeps through the variables that do not
show. Both see the symbols that the start leads to, so what is mentioned has an entry. No two
entries have the same type, since rules have different names, and so their order is strict.
-/

namespace GrammarTables

open Std FlatGrammar

namespace Summary

variable {g : FlatGrammar} {P : NodeType → Prop} {s t r : Summary} {S : Array Summary} {step : Step}

/-- The types that a summary mentions have a property. -/
structure Mentions (P : NodeType → Prop) (s : Summary) : Prop where
  field : ∀ f, ∀ x ∈ (s.field f).types, P x
  children : ∀ x ∈ s.children.types, P x
  types : ∀ x ∈ s.types, P x

theorem mentions_empty : Mentions P {} := ⟨nofun, nofun, nofun⟩

theorem forall_mem_union {a b : List NodeType} (ha : ∀ x ∈ a, P x) (hb : ∀ x ∈ b, P x) :
    ∀ x ∈ Ordered.union a b, P x :=
  fun x hx => (Ordered.mem_union.1 hx).elim (ha x) (hb x)

theorem Mentions.union (h : Mentions P s) (k : Mentions P t) : Mentions P (s.union t) where
  field f := by
    rw [field_union]
    exact forall_mem_union (h.field f) (k.field f)
  children := forall_mem_union h.children k.children
  types := forall_mem_union h.types k.types

/-- What a step leaves outside of fields comes from under its symbol, or is the symbol itself. -/
theorem mem_types_unfielded {x : NodeType} (h : x ∈ (unfielded g S step).types) :
    x ∈ (passed g S step.symbol).children.types ∨ x ∈ typesOf g S step.symbol := by
  unfold unfielded at h
  split at h
  · cases h
  · rename_i inner _ hinner
    exact .inl (by simpa [passed, hinner] using h)
  · split at h
    · exact .inr h
    · cases h

theorem Mentions.addStep (h : Mentions P r) (hr : r.Keyed) (hS : AllKeyed S)
    (hpassed : Mentions P (passed g S step.symbol)) (htypes : ∀ x ∈ typesOf g S step.symbol, P x) :
    Mentions P (addStep g S r step) where
  field f := by
    rw [hr.field_addStep (hS.passed g _)]
    refine forall_mem_union (forall_mem_union (h.field f) (hpassed.field f)) ?_
    unfold ownField
    dsimp only
    split
    · exact htypes
    · simp
  children := by
    rw [children_addStep]
    refine forall_mem_union h.children fun x hx => ?_
    exact (mem_types_unfielded hx).elim (hpassed.children x) (htypes x)
  types := by
    rw [types_addStep]
    exact forall_mem_union h.types htypes

/-- The start leads to a visible symbol of the given type. -/
def Occurs (g : FlatGrammar) (x : NodeType) : Prop :=
  ∃ s, g.Reaches s ∧ (g.symbolKind s).isVisible = true ∧ x = .ofSymbol g s

/-- The summaries of variables that the start leads to mention types that occur. -/
structure Closed (g : FlatGrammar) (S : Array Summary) : Prop where
  keyed : AllKeyed S
  mentions : ∀ v, g.Reaches (.nonterminal v) → Mentions (Occurs g) (get S v)

theorem Closed.passed (h : Closed g S) {x : Symbol} (hx : g.Reaches x) :
    Mentions (Occurs g) (passed g S x) := by
  rcases hidden?_cases g x with ⟨-, hn⟩ | ⟨v, rfl, -, hv⟩
  · simpa [Summary.passed, hn] using mentions_empty
  · simpa [Summary.passed, hv] using h.mentions v hx

theorem Closed.typesOf (h : Closed g S) {x : Symbol} (hx : g.Reaches x) :
    ∀ y ∈ typesOf g S x, Occurs g y := by
  rcases hidden?_cases g x with ⟨-, hn⟩ | ⟨v, rfl, -, hv⟩
  · simp only [Summary.typesOf, hn]
    split
    · rename_i hvisible
      exact List.forall_mem_singleton.2 ⟨x, hx, hvisible, rfl⟩
    · simp
  · simpa [Summary.typesOf, hv] using (h.mentions v hx).types

theorem Closed.ofProduction (h : Closed g S) {v : Nat} (hv : g.Reaches (.nonterminal v))
    {p : Production} (hp : p ∈ g.productionsOf (.nonterminal v)) :
    Mentions (Occurs g) (ofProduction g S p) := by
  have key := List.foldlRecOn p.steps (Summary.addStep g S)
    (motive := fun r => r.Keyed ∧ Mentions (Occurs g) r) ⟨keyed_empty, mentions_empty⟩
    fun r hr step hstep => by
      have hreach : g.Reaches step.symbol := .part hv hp (List.mem_map_of_mem hstep)
      exact ⟨hr.1.addStep, hr.2.addStep hr.1 h.keyed (h.passed hreach) (h.typesOf hreach)⟩
  exact key.2

theorem Closed.sweep (h : Closed g S) : Closed g (sweep g S) where
  keyed v := by
    rw [get_sweep]
    exact keyed_ofProductions _
  mentions v hv := by
    rw [get_sweep]
    exact ofProductions_keeps mentions_empty (fun h k => h.union k) fun p hp =>
      h.ofProduction hv hp

theorem closed_ofGrammar (g : FlatGrammar) : Closed g (ofGrammar g) := by
  refine settle_keeps (fun _ h => h.sweep) _ ⟨fun v => ?_, fun v _ => ?_⟩
  · rw [get_replicate_empty]
    exact keyed_empty
  · rw [get_replicate_empty]
    exact mentions_empty

end Summary

namespace NodeInfo

variable {a b : NodeInfo}

/-- The types that an entry mentions in its fields and outside of them. -/
def mentions (n : NodeInfo) : List NodeType :=
  (n.fields.getD []).flatMap (·.2.types) ++ (n.children.map (·.types)).getD []

/-- An entry comes before another one: those with nodes under them come before leaves, names ascend,
and named nodes come before others. -/
def Precedes (a b : NodeInfo) : Prop :=
  a.isLeaf = false ∧ b.isLeaf = true ∨
    a.isLeaf = b.isLeaf ∧ (a.type.name < b.type.name ∨
      a.type.name = b.type.name ∧ a.type.named = true ∧ b.type.named = false)

theorem compare_eq_lex : compare = compareLex (compareOn (·.isLeaf))
    (compareLex (compareOn (·.type.name)) (compareOn (!·.type.named))) := by
  funext a b
  simp only [compare, compareLex, compareOn]
  cases a.type.named <;> cases b.type.named <;> rfl

instance : TransCmp compare := by
  rw [compare_eq_lex]
  infer_instance

theorem type_eq_of_compare (h : compare a b = .eq) : a.type = b.type := by
  rw [compare_eq_lex] at h
  simp only [compareLex, compareOn, Ordering.then_eq_eq] at h
  have hname : a.type.name = b.type.name := LawfulEqCmp.eq_of_compare h.2.1
  have hnamed := LawfulEqCmp.eq_of_compare h.2.2
  rw [NodeType.mk.injEq]
  exact ⟨hname, by simpa using hnamed⟩

theorem precedes_of_compare (h : compare a b = .lt) : a.Precedes b := by
  have hbool : ∀ {x y : Bool}, Ord.compare x y = .lt → x = false ∧ y = true := by decide
  rw [compare_eq_lex] at h
  simp only [compareLex, compareOn, Ordering.then_eq_lt] at h
  rcases h with hleaf | ⟨hleaf, hname | ⟨hname, hnamed⟩⟩
  · exact .inl (hbool hleaf)
  · exact .inr ⟨LawfulEqCmp.eq_of_compare hleaf, .inl (compareOfLessAndEq_eq_lt.1 hname)⟩
  · have hnamed := hbool hnamed
    exact .inr ⟨LawfulEqCmp.eq_of_compare hleaf, .inr ⟨LawfulEqCmp.eq_of_compare hname,
      by simpa using hnamed⟩⟩

end NodeInfo

namespace FlatGrammar

variable {source : Grammar} {g : FlatGrammar} {reachable : List Symbol} {n : NodeInfo} {i : Nat}
  {v : Variable} {s : Symbol} {x : NodeType}

/-- A named variable or a visible token shows as a node of some type. -/
inductive Shows (g : FlatGrammar) : Symbol → NodeType → Prop
  | ofVariable {i : Nat} {v : Variable} : g.vars[i]? = some v → v.kind = .named →
      Shows g (.nonterminal i) ⟨v.name, true⟩
  | ofToken {i : Nat} {t : Token} : g.tokens[i]? = some t → t.kind.isVisible = true →
      Shows g (.terminal i) ⟨t.name, t.kind.isNamed⟩

theorem Shows.ofSymbol_eq (h : g.Shows s x) : NodeType.ofSymbol g s = x := by
  cases h with
  | ofVariable hv hk => simp [NodeType.ofSymbol, symbolName, symbolKind, hv, hk, SymbolKind.isNamed]
  | ofToken ht hk => simp [NodeType.ofSymbol, symbolName, symbolKind, ht]

theorem mem_variableNodes : n ∈ g.variableNodes reachable ↔ ∃ i v, g.vars[i]? = some v ∧
    v.kind = .named ∧ .nonterminal i ∈ reachable ∧ n = variableNode (Summary.ofGrammar g) i v := by
  simp only [variableNodes, List.mem_filterMap, Prod.exists, List.mk_mem_zipIdx_iff_getElem?,
    Array.getElem?_toList, Bool.and_eq_true, decide_eq_true_eq, List.contains_iff_mem,
    Option.ite_none_right_eq_some, Option.some.injEq]
  constructor
  · rintro ⟨v, i, hv, ⟨hk, hr⟩, rfl⟩
    exact ⟨i, v, hv, hk, hr, rfl⟩
  · rintro ⟨i, v, hv, hk, hr, rfl⟩
    exact ⟨v, i, hv, ⟨hk, hr⟩, rfl⟩

theorem shows_of_mem_tokenNodes (h : n ∈ g.tokenNodes reachable) :
    (∃ i, .terminal i ∈ reachable ∧ g.Shows (.terminal i) n.type) ∧ n.mentions = [] := by
  have hmem := mem_of_mem_eraseDupsBy h
  simp only [List.mem_filterMap, Prod.exists, List.mk_mem_zipIdx_iff_getElem?,
    Array.getElem?_toList, Bool.and_eq_true, List.contains_iff_mem,
    Option.ite_none_right_eq_some, Option.some.injEq] at hmem
  obtain ⟨t, i, ht, ⟨hk, hr⟩, rfl⟩ := hmem
  have hshows := Shows.ofToken ht hk
  exact ⟨⟨i, hr, hshows.ofSymbol_eq.symm ▸ hshows⟩, rfl⟩

theorem exists_mem_tokenNodes (hr : .terminal i ∈ reachable) (h : g.Shows (.terminal i) x) :
    ∃ n ∈ g.tokenNodes reachable, n.type = x := by
  obtain ⟨t, ht, hk⟩ : ∃ t, g.tokens[i]? = some t ∧ t.kind.isVisible = true := by
    cases h with
    | ofToken ht hk => exact ⟨_, ht, hk⟩
  have hmem : (t, i) ∈ g.tokens.toList.zipIdx := by
    rw [List.mk_mem_zipIdx_iff_getElem?, Array.getElem?_toList]
    exact ht
  have hcontains : (t.kind.isVisible && reachable.contains (.terminal i)) = true := by
    rw [hk, List.contains_iff_mem.2 hr, Bool.and_self]
  let node : NodeInfo := { type := .ofSymbol g (.terminal i), extra := g.isExtra (.terminal i) }
  obtain ⟨n, hn, htype⟩ : ∃ n ∈ g.tokenNodes reachable, (node.type == n.type) = true := by
    unfold tokenNodes
    refine @exists_mem_eraseDupsBy _ (fun a b => a.type == b.type) node _
      (fun _ => beq_self_eq_true _) (List.mem_filterMap.2 ?_)
    exact ⟨(t, i), hmem, if_pos hcontains⟩
  exact ⟨n, hn, (beq_iff_eq.1 htype).symm.trans h.ofSymbol_eq⟩

theorem nodup_tokenNodes (g : FlatGrammar) (reachable : List Symbol) :
    ((g.tokenNodes reachable).map (·.type)).Nodup :=
  List.pairwise_map.2 ((pairwise_eraseDupsBy _).imp fun h => (ne_of_beq_false h).symm)

theorem mem_nodeTypes : n ∈ g.nodeTypes ↔
    n ∈ g.variableNodes g.reachable ∨ n ∈ g.tokenNodes g.reachable := by
  rw [nodeTypes, List.mem_mergeSort, List.mem_append]

/-- A variable that is not auxiliary goes by the rule at its place. -/
theorem rule_of_variable [RegexEngine] (h : ofGrammar source = .ok g) (hv : g.vars[i]? = some v)
    (hk : v.kind ≠ .auxiliary) :
    ∃ r, source.syntaxRules[i]? = some r ∧ v.name = r.name ∧ v.kind = .ofRuleName r.name := by
  obtain ⟨bodies, l₁, l₂, l₃, l₄, hs⟩ := exists_stages h
  rw [hs.vars, List.getElem?_toArray, List.getElem?_map] at hv
  obtain ⟨d', hd', rfl⟩ := Option.map_eq_some_iff.1 hv
  obtain ⟨d, hd, hname, hkind⟩ := Repetition.expandAllDefinitions_shows hd' hk
  rw [Grammar.definitions, List.getElem?_map] at hd
  obtain ⟨⟨r, b⟩, hr, rfl⟩ := Option.map_eq_some_iff.1 hd
  exact ⟨r, (List.getElem?_zip_eq_some.1 hr).1, hname, hkind⟩

/-- What is visible shows as a node. -/
theorem shows_ofSymbol [RegexEngine] (h : ofGrammar source = .ok g)
    (hs : (g.symbolKind s).isVisible = true) :
    g.Shows s (.ofSymbol g s) := by
  have key : ∀ {x}, g.Shows s x → g.Shows s (.ofSymbol g s) := fun hx => hx.ofSymbol_eq.symm ▸ hx
  cases s with
  | eof => cases hs
  | terminal i =>
    cases ht : g.tokens[i]? with
    | none => simp [symbolKind, ht, SymbolKind.isVisible] at hs
    | some t => exact key (.ofToken ht (by simpa [symbolKind, ht] using hs))
  | nonterminal i =>
    cases hv : g.vars[i]? with
    | none => simp [symbolKind, hv, SymbolKind.isVisible] at hs
    | some v =>
      have hvisible : v.kind.isVisible = true := by simpa [symbolKind, hv] using hs
      have hne : v.kind ≠ .auxiliary := fun hk => by simp [hk, SymbolKind.isVisible] at hvisible
      obtain ⟨r, -, -, hkind⟩ := rule_of_variable h hv hne
      refine key (.ofVariable hv ?_)
      rw [hkind] at hvisible ⊢
      unfold SymbolKind.ofRuleName at hvisible ⊢
      split at hvisible
      · cases hvisible
      · exact if_neg ‹_›

/-- An entry stands for a symbol that can occur in a tree. -/
theorem shows_of_mem_nodeTypes (wf : g.WellFormed) (h : n ∈ g.nodeTypes) :
    ∃ s, (g.Reaches s ∨ s ∈ g.extras) ∧ g.Shows s n.type := by
  rcases mem_nodeTypes.1 h with h | h
  · obtain ⟨i, v, hv, hk, hr, rfl⟩ := mem_variableNodes.1 h
    exact ⟨_, (mem_reachable wf).1 hr, .ofVariable hv hk⟩
  · obtain ⟨⟨i, hr, hshows⟩, -⟩ := shows_of_mem_tokenNodes h
    exact ⟨_, (mem_reachable wf).1 hr, hshows⟩

/-- A symbol that can occur in a tree and shows there has an entry. -/
theorem exists_mem_nodeTypes (wf : g.WellFormed) (hs : g.Reaches s ∨ s ∈ g.extras)
    (h : g.Shows s x) : ∃ n ∈ g.nodeTypes, n.type = x := by
  have hr := (mem_reachable wf).2 hs
  cases h with
  | ofVariable hv hk =>
    exact ⟨_, mem_nodeTypes.2 (.inl (mem_variableNodes.2 ⟨_, _, hv, hk, hr, rfl⟩)), rfl⟩
  | ofToken ht hk =>
    obtain ⟨n, hn, htype⟩ := exists_mem_tokenNodes hr (.ofToken ht hk)
    exact ⟨n, mem_nodeTypes.2 (.inr hn), htype⟩

section

variable [RegexEngine] (hnames : (source.rules.map (·.name)).Nodup) (h : ofGrammar source = .ok g)

include hnames h

/-- Named variables have different names, as their rules do. -/
theorem index_eq_of_name {j : Nat} {w : Variable} (hv : g.vars[i]? = some v)
    (hw : g.vars[j]? = some w) (hvk : v.kind = .named) (hwk : w.kind = .named)
    (hname : v.name = w.name) : i = j := by
  obtain ⟨r, hr, hvr, -⟩ := rule_of_variable h hv (by simp [hvk])
  obtain ⟨r', hr', hwr, -⟩ := rule_of_variable h hw (by simp [hwk])
  have hrules : (source.syntaxRules.map (·.name)).Nodup :=
    hnames.sublist (List.filter_sublist.map _)
  have hget : (source.syntaxRules.map (·.name))[i]? = (source.syntaxRules.map (·.name))[j]? := by
    rw [List.getElem?_map, List.getElem?_map, hr, hr', Option.map_some, Option.map_some, ← hvr,
      ← hwr, hname]
  have hlt : i < (source.syntaxRules.map (·.name)).length := by
    rw [List.length_map]
    exact (List.getElem?_eq_some_iff.1 hr).1
  exact (List.getElem?_inj hlt hrules).1 hget

theorem nodup_variableNodes (reachable : List Symbol) :
    ((g.variableNodes reachable).map (·.type)).Nodup := by
  have hget : ∀ {i : Nat} (hi : i < g.vars.toList.length), g.vars[i]? = some g.vars.toList[i] :=
    fun hi => by rw [← Array.getElem?_toList, List.getElem?_eq_getElem hi]
  refine List.pairwise_map.2 (List.pairwise_filterMap.2 (List.pairwise_iff_getElem.2 ?_))
  intro i j hi hj hij n hn m hm htype
  simp only [List.getElem_zipIdx, Nat.zero_add, Bool.and_eq_true, decide_eq_true_eq,
    Option.ite_none_right_eq_some, Option.some.injEq] at hn hm
  obtain ⟨⟨hvk, -⟩, rfl⟩ := hn
  obtain ⟨⟨hwk, -⟩, rfl⟩ := hm
  rw [List.length_zipIdx] at hi hj
  have hname := congrArg NodeType.name htype
  exact hij.ne (index_eq_of_name hnames h (hget hi) (hget hj) hvk hwk hname)

/-- A named token goes by a token rule, so no named variable looks the same. -/
theorem type_ne_of_shows {j : Nat} {y : NodeType} (hx : g.Shows (.nonterminal i) x)
    (hy : g.Shows (.terminal j) y) : x ≠ y := by
  intro heq
  cases hx with
  | ofVariable hv hk =>
    cases hy with
    | ofToken ht _ =>
      obtain ⟨hname, hnamed⟩ := NodeType.mk.inj heq
      obtain ⟨r, hr, hvr, -⟩ := rule_of_variable h hv (by simp [hk])
      have hstands := (stands_of_ofGrammar hnames h).2 _ (Array.mem_of_getElem? ht)
      obtain ⟨_, htr, -⟩ := hstands.rule hnamed.symm
      obtain ⟨r', hr', -⟩ := Option.map_eq_some_iff.1 htr
      have hfound := List.find?_some hr'
      rw [Bool.and_eq_true, beq_iff_eq] at hfound
      obtain ⟨hmem, hsyntax⟩ := List.mem_filter.1 (List.mem_of_getElem? hr)
      -- Both go by the rule of their name, which is a token or not.
      obtain rfl : r = r' := List.inj_on_of_nodup_map hnames hmem (List.mem_of_find?_eq_some hr')
        (by rw [← hvr, hname, hfound.2])
      simp [hfound.1] at hsyntax

theorem nodup_nodeTypes : (g.nodeTypes.map (·.type)).Nodup := by
  have hperm := (List.mergeSort_perm (g.variableNodes g.reachable ++ g.tokenNodes g.reachable)
    fun a b => (NodeInfo.compare a b).isLE).map (·.type)
  refine hperm.nodup_iff.2 ?_
  rw [List.map_append]
  refine List.nodup_append.2
    ⟨nodup_variableNodes hnames h _, nodup_tokenNodes g _, fun x hx y hy => ?_⟩
  obtain ⟨n, hn, rfl⟩ := List.mem_map.1 hx
  obtain ⟨m, hm, rfl⟩ := List.mem_map.1 hy
  obtain ⟨i, v, hv, hk, -, rfl⟩ := mem_variableNodes.1 hn
  obtain ⟨⟨j, -, hshows⟩, -⟩ := shows_of_mem_tokenNodes hm
  exact type_ne_of_shows hnames h (.ofVariable hv hk) hshows

theorem pairwise_nodeTypes : g.nodeTypes.Pairwise NodeInfo.Precedes := by
  have hle := pairwise_mergeSort_isLE NodeInfo.compare id
    (g.variableNodes g.reachable ++ g.tokenNodes g.reachable)
  have hne : g.nodeTypes.Pairwise fun a b => a.type ≠ b.type :=
    List.pairwise_map.1 (nodup_nodeTypes hnames h)
  refine (hle.and hne).imp fun ⟨hle, hne⟩ => NodeInfo.precedes_of_compare ?_
  rcases Ordering.isLE_iff_eq_lt_or_eq_eq.1 hle with hlt | heq
  · exact hlt
  · exact absurd (NodeInfo.type_eq_of_compare heq) hne

end

/-- What a variable's entry mentions is in the summary of the variable. -/
theorem mem_mentions_variableNode {S : Array Summary}
    (h : x ∈ (variableNode S i v).mentions) :
    (∃ c ∈ (Summary.get S i).fields, x ∈ c.2.types) ∨ x ∈ (Summary.get S i).children.types := by
  rcases List.mem_append.1 h with h | h
  · exact .inl (List.mem_flatMap.1 h)
  · refine .inr ?_
    simp only [variableNode] at h
    split at h
    · cases h
    · exact h

/-- Entries mention types of symbols that the start leads to. -/
theorem occurs_of_mem_mentions (wf : g.WellFormed) (hn : n ∈ g.nodeTypes) (hx : x ∈ n.mentions) :
    Summary.Occurs g x := by
  rcases mem_nodeTypes.1 hn with hn | hn
  · obtain ⟨i, v, hv, hk, hr, rfl⟩ := mem_variableNodes.1 hn
    have hreach : g.Reaches (.nonterminal i) := by
      refine ((mem_reachable wf).1 hr).resolve_right fun hextra => ?_
      obtain ⟨j, -, hj⟩ := wf.extras _ hextra
      cases hj
    have hmentions := (Summary.closed_ofGrammar g).mentions i hreach
    have hkeyed := (Summary.closed_ofGrammar g).keyed i
    rcases mem_mentions_variableNode hx with ⟨⟨f, c⟩, hc, hx⟩ | hx
    · exact hmentions.field f x (by rwa [hkeyed.field_of_mem hc])
    · exact hmentions.children x hx
  · rw [(shows_of_mem_tokenNodes hn).2] at hx
    cases hx

end FlatGrammar

variable {source : Grammar} {g : FlatGrammar}

/-- Node types are closed and free of duplicates. Rules have different names in every grammar that
was read (`Grammar.nodup_names_of_parse`). Then no two entries have the same type; there are entries
for the named variables and visible tokens that the start leads to and for the visible extras, and
for nothing else; every type that an entry mentions has an entry; and each entry comes before the
later ones. -/
theorem nodeTypes_closed [RegexEngine] (hnames : (source.rules.map (·.name)).Nodup)
    (h : ofGrammar source = .ok g) :
    (g.nodeTypes.map (·.type)).Nodup ∧
      (∀ x, x ∈ g.nodeTypes.map (·.type) ↔
        ∃ s, (g.Reaches s ∨ s ∈ g.extras) ∧ g.Shows s x) ∧
      (∀ n ∈ g.nodeTypes, ∀ x ∈ n.mentions, x ∈ g.nodeTypes.map (·.type)) ∧
      g.nodeTypes.Pairwise NodeInfo.Precedes := by
  have wf := wellFormed_of_ofGrammar h
  have hmem : ∀ x, x ∈ g.nodeTypes.map (·.type) ↔
      ∃ s, (g.Reaches s ∨ s ∈ g.extras) ∧ g.Shows s x := by
    intro x
    rw [List.mem_map]
    constructor
    · rintro ⟨n, hn, rfl⟩
      exact shows_of_mem_nodeTypes wf hn
    · rintro ⟨s, hs, hshows⟩
      exact exists_mem_nodeTypes wf hs hshows
  refine ⟨nodup_nodeTypes hnames h, hmem, fun n hn x hx => ?_, pairwise_nodeTypes hnames h⟩
  obtain ⟨s, hs, hvisible, rfl⟩ := occurs_of_mem_mentions wf hn hx
  exact (hmem _).2 ⟨s, .inl hs, shows_ofSymbol h hvisible⟩

open Labelled in
/-- Names stand in entries only through variables that do not show, and have an entry. -/
theorem nodeTypes_closed_labelled : (Grammar.labelled.rules.map (·.name)).Nodup ∧
    ∃ g, ofGrammar .labelled = .ok g ∧ (g.nodeTypes.map (·.type)).Nodup ∧
      ⟨"name", true⟩ ∈ g.nodeTypes.map (·.type) := by
  have hnames : (Grammar.labelled.rules.map (·.name)).Nodup := by decide
  obtain ⟨g, h, htype, hvisible, hentry, hname⟩ : ∃ g, ofGrammar .labelled = .ok g ∧
      NodeType.ofSymbol g (.terminal 0) = ⟨"name", true⟩ ∧
      (g.symbolKind (.terminal 0)).isVisible = true ∧
      entryProduction ∈ g.productionsOf (.nonterminal 0) ∧
      nameProduction ∈ g.productionsOf (.nonterminal 1) := exists_of_decide (by decide +kernel)
  obtain ⟨hnodup, hmem, -⟩ := nodeTypes_closed hnames h
  have hkey : g.Reaches (.nonterminal 1) := .part .start hentry (by decide)
  have hreach : g.Reaches (.terminal 0) := .part hkey hname (by decide)
  exact ⟨hnames, g, h, hnodup, (hmem _).2 ⟨_, .inl hreach, htype ▸ shows_ofSymbol h hvisible⟩⟩

end GrammarTables
