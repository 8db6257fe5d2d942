import GrammarTables.NodeType.Basic
import GrammarTables.Proofs.Preparation
import GrammarTables.Proofs.SummaryFixpoint
import GrammarTables.Proofs.Tree

/-!
# Node types describe trees

What is said of a variable's node holds of every tree of the variable. A step adds to a summary what
it adds to the nodes of a tree, and the summary of all productions allows what the summary of one of
them allows. So summaries that a sweep confirms describe every tree, by induction over the tree.
-/

namespace GrammarTables

open FlatGrammar

namespace Children

variable {a b c d : Children} {g : FlatGrammar} {atMost atLeast : Prop} {ns ms : List Exposed}

/-- Nodes allow whatever others allow. -/
structure Covers (a b : Children) : Prop where
  occurs : b.quantity.occurs = true → a.quantity.occurs = true
  required : a.quantity.required = true → b.quantity.required = true
  multiple : a.quantity.multiple = false → b.quantity.multiple = false
  types : b.types ⊆ a.types

theorem Covers.refl (a : Children) : a.Covers a := ⟨id, id, id, List.Subset.refl _⟩

theorem Covers.trans (h : a.Covers b) (k : b.Covers c) : a.Covers c :=
  ⟨h.occurs ∘ k.occurs, k.required ∘ h.required, k.multiple ∘ h.multiple,
    List.Subset.trans k.types h.types⟩

theorem covers_union_left (a b : Children) : (a.union b).Covers a := by
  refine ⟨?_, ?_, ?_, fun _ hx => Ordered.mem_union.2 (.inl hx)⟩
  all_goals simp only [union, Quantity.union, Bool.or_eq_true, Bool.and_eq_true,
    Bool.or_eq_false_iff]
  · exact .inl
  · exact And.left
  · exact And.left

theorem covers_union_right (a b : Children) : (a.union b).Covers b := by
  refine ⟨?_, ?_, ?_, fun _ hx => Ordered.mem_union.2 (.inr hx)⟩
  all_goals simp only [union, Quantity.union, Bool.or_eq_true, Bool.and_eq_true,
    Bool.or_eq_false_iff]
  · exact .inr
  · exact And.right
  · exact And.right

/-- Nodes are as described, where `atMost` and `atLeast` are what has to hold for their number to be
bounded as it is said to be. -/
structure Fits (g : FlatGrammar) (atMost atLeast : Prop) (c : Children) (nodes : List Exposed) :
    Prop where
  types : ∀ n ∈ nodes, NodeType.ofSymbol g n.symbol ∈ c.types
  occurs : nodes ≠ [] → c.quantity.occurs = true
  multiple : atMost → c.quantity.multiple = false → nodes.length ≤ 1
  required : atLeast → c.quantity.required = true → nodes ≠ []

theorem fits_nil : Fits g atMost atLeast {} [] := ⟨nofun, nofun, fun _ _ => by simp, nofun⟩

theorem fits_oneOf (n : Exposed) : Fits g atMost atLeast (oneOf [.ofSymbol g n.symbol]) [n] :=
  ⟨by simp [oneOf], fun _ => rfl, fun _ _ => by simp, fun _ _ => by simp⟩

theorem Fits.imp {atMost' atLeast' : Prop} (h : Fits g atMost atLeast c ns)
    (hmost : atMost' → atMost) (hleast : atLeast' → atLeast) : Fits g atMost' atLeast' c ns :=
  ⟨h.types, h.occurs, h.multiple ∘ hmost, h.required ∘ hleast⟩

theorem Fits.append {atMost' atLeast' : Prop} (h : Fits g atMost atLeast c ns)
    (k : Fits g atMost' atLeast' d ms) :
    Fits g (atMost ∧ atMost') (atLeast ∧ atLeast') (c.append d) (ns ++ ms) where
  types n hn := by
    rw [Children.append, Ordered.mem_union]
    exact (List.mem_append.1 hn).imp (h.types n) (k.types n)
  occurs hne := by
    simp only [Children.append, Quantity.append, Bool.or_eq_true]
    rw [ne_eq, List.append_eq_nil_iff, not_and_or] at hne
    exact hne.imp h.occurs k.occurs
  multiple hmost hm := by
    simp only [Children.append, Quantity.append, Bool.or_eq_false_iff, Bool.and_eq_false_iff] at hm
    obtain ⟨⟨hmc, hmd⟩, hone⟩ := hm
    have hns := h.multiple hmost.1 hmc
    have hms := k.multiple hmost.2 hmd
    -- One of the two sides has no nodes at all.
    rcases hone with hone | hone
    · obtain rfl : ns = [] := by
        by_contra hne
        simp [h.occurs hne] at hone
      simpa using hms
    · obtain rfl : ms = [] := by
        by_contra hne
        simp [k.occurs hne] at hone
      simpa using hns
  required hleast hr := by
    simp only [Children.append, Quantity.append, Bool.or_eq_true] at hr
    rw [ne_eq, List.append_eq_nil_iff, not_and_or]
    exact hr.imp (h.required hleast.1) (k.required hleast.2)

theorem Fits.empty_append (h : Fits g atMost atLeast c ns) :
    Fits g atMost atLeast (({} : Children).append c) ns := by
  have hnil : Fits g atMost atLeast {} [] := fits_nil
  exact (hnil.append h).imp (fun hb => ⟨hb, hb⟩) fun hb => ⟨hb, hb⟩

theorem quantity_append_assoc (a b c : Children) :
    ((a.append b).append c).quantity = (a.append (b.append c)).quantity := by
  simp only [append, Quantity.append, Quantity.mk.injEq, Bool.or_assoc, true_and]
  grind

theorem Fits.append_assoc (h : Fits g atMost atLeast (a.append (b.append c)) ns) :
    Fits g atMost atLeast ((a.append b).append c) ns := by
  have hq := quantity_append_assoc a b c
  refine ⟨fun n hn => ?_, hq ▸ h.occurs, hq ▸ h.multiple, hq ▸ h.required⟩
  simpa only [Children.append, Ordered.mem_union, or_assoc] using h.types n hn

theorem Fits.of_covers (h : Fits g atMost atLeast c ns) (hd : d.Covers c) :
    Fits g atMost atLeast d ns where
  types n hn := hd.types (h.types n hn)
  occurs hne := hd.occurs (h.occurs hne)
  multiple hmost hm := h.multiple hmost (hd.multiple hm)
  required hleast hr := h.required hleast (hd.required hr)

theorem Fits.through (h : Fits g atMost atLeast c ns) (field : Option String) :
    Fits g atMost atLeast c (ns.map (·.through field)) where
  types := by simpa using h.types
  occurs hne := h.occurs (by simpa using hne)
  multiple := by simpa using h.multiple
  required := by simpa using h.required

end Children

namespace Summary

variable {g : FlatGrammar} {s t r : Summary} {S : Array Summary} {step : Step} {f : String}
  {nodes under : List Exposed} {bundles inside : String → List (List Exposed)}

/-- A summary allows whatever another allows. -/
structure Covers (s t : Summary) : Prop where
  field : ∀ f, (s.field f).Covers (t.field f)
  children : s.children.Covers t.children
  types : t.types ⊆ s.types

theorem Covers.refl (s : Summary) : s.Covers s :=
  ⟨fun _ => .refl _, .refl _, List.Subset.refl _⟩

theorem Covers.trans {u : Summary} (h : s.Covers t) (k : t.Covers u) : s.Covers u :=
  ⟨fun f => (h.field f).trans (k.field f), h.children.trans k.children,
    List.Subset.trans k.types h.types⟩

theorem covers_union_left (s t : Summary) : (s.union t).Covers s where
  field _ := field_union ▸ Children.covers_union_left _ _
  children := Children.covers_union_left _ _
  types _ hx := Ordered.mem_union.2 (.inl hx)

theorem covers_union_right (s t : Summary) : (s.union t).Covers t where
  field _ := field_union ▸ Children.covers_union_right _ _
  children := Children.covers_union_right _ _
  types _ hx := Ordered.mem_union.2 (.inr hx)

/-- The summary of all productions allows what that of each of them allows. -/
theorem covers_ofProductions {ps : List Production} {p : Production} (hp : p ∈ ps) :
    (ofProductions g S ps).Covers (ofProduction g S p) := by
  have key : ∀ (ps : List Production) (s : Summary),
      (ps.foldl (fun s q => s.union (ofProduction g S q)) s).Covers s ∧
        ∀ p ∈ ps, (ps.foldl (fun s q => s.union (ofProduction g S q)) s).Covers
          (ofProduction g S p) := by
    intro ps
    induction ps with
    | nil => exact fun s => ⟨.refl s, nofun⟩
    | cons q ps ih =>
      intro s
      obtain ⟨hs, hps⟩ := ih (s.union (ofProduction g S q))
      exact ⟨hs.trans (covers_union_left _ _),
        List.forall_mem_cons.2 ⟨hs.trans (covers_union_right _ _), hps⟩⟩
  cases ps with
  | nil => cases hp
  | cons q ps =>
    obtain ⟨hq, hps⟩ := key ps (ofProduction g S q)
    rcases List.mem_cons.1 hp with rfl | hp
    · exact hq
    · exact hps p hp

/-- A summary describes nodes, where the given bundles come into each field together. A step in a
field is taken to bring one node: how often the field's nodes occur is said rightly where no bundle
has more, or has none. -/
structure Describes (g : FlatGrammar) (s : Summary) (nodes : List Exposed)
    (bundles : String → List (List Exposed)) : Prop where
  field : ∀ f, Children.Fits g (∀ b ∈ bundles f, b.length ≤ 1) (∀ b ∈ bundles f, b ≠ [])
    (s.field f) (nodes.filter (·.isIn f))
  children : Children.Fits g True True s.children (nodes.filter (·.isUnfielded g))
  types : ∀ n ∈ nodes, NodeType.ofSymbol g n.symbol ∈ s.types

theorem describes_nil : Describes g {} [] fun _ => [] where
  field _ := Children.fits_nil
  children := Children.fits_nil
  types := nofun

theorem Describes.of_covers (h : Describes g t nodes bundles) (hs : s.Covers t) :
    Describes g s nodes bundles where
  field f := (h.field f).of_covers (hs.field f)
  children := h.children.of_covers hs.children
  types n hn := hs.types (h.types n hn)

/-- What is under a symbol is described by the summary of the variable, if it shows through. -/
structure Under (g : FlatGrammar) (S : Array Summary) (s : Symbol) (under : List Exposed)
    (inside : String → List (List Exposed)) : Prop where
  describes : ∀ {v}, s = .nonterminal v → g.isInvisible s = true →
    Describes g (get S v) under inside
  token : s.isTerminal = true → under = []

theorem Under.cases {x : Symbol} (h : Under g S x under inside) :
    (hidden? g S x = none ∧ g.isInvisible x = false ∧
        ((g.symbolKind x).isVisible = true ∧ g.shown x under = [⟨x, []⟩] ∨
          (g.symbolKind x).isVisible = false ∧ g.shown x under = [])) ∨
      ∃ v, hidden? g S x = some (get S v) ∧ g.isInvisible x = true ∧ g.shown x under = under ∧
        Describes g (get S v) under inside := by
  rcases hidden?_cases g x with ⟨hx, hn⟩ | ⟨v, rfl, hx, hv⟩
  · refine .inl ⟨hn S, hx, ?_⟩
    by_cases hvis : (g.symbolKind x).isVisible = true
    · exact .inl ⟨hvis, if_pos hvis⟩
    · have ht : x.isTerminal = true := by
        simpa [isInvisible, hvis, Symbol.isTerminal] using hx
      exact .inr ⟨by simpa using hvis, (if_neg hvis).trans (h.token ht)⟩
  · exact .inr ⟨v, hv S, hx, shown_of_isInvisible hx _, h.describes rfl hx⟩

theorem Under.types {x : Symbol} (h : Under g S x under inside) :
    ∀ n ∈ g.shown x under, NodeType.ofSymbol g n.symbol ∈ typesOf g S x := by
  rcases h.cases with ⟨hn, -, ⟨hvis, hs⟩ | ⟨-, hs⟩⟩ | ⟨v, hv, -, hs, hd⟩
  · simp [hs, typesOf, hn, hvis]
  · simp [hs]
  · simpa [hs, typesOf, hv] using hd.types

theorem Under.fits_unfielded (h : Under g S step.symbol under inside) :
    Children.Fits g True True (unfielded g S step)
      ((g.brought step under).filter (·.isUnfielded g)) := by
  unfold unfielded brought
  cases step.field with
  | some name =>
    have hnil : ∀ ns : List Exposed,
        (ns.map (·.through (some name))).filter (·.isUnfielded g) = [] := by
      simp [Exposed.through, Exposed.isUnfielded]
    rw [hnil]
    exact Children.fits_nil
  | none =>
    have hid : ∀ ns : List Exposed, ns.map (·.through none) = ns := by simp [Exposed.through]
    rw [hid]
    rcases h.cases with ⟨hn, -, ⟨hvis, hs⟩ | ⟨hvis, hs⟩⟩ | ⟨v, hv, -, hs, hd⟩
    · simp only [hn, hs, typesOf, hvis, if_true]
      split
      · rename_i hnamed
        simpa [Exposed.isUnfielded, hnamed] using Children.fits_oneOf ⟨step.symbol, []⟩
      · rename_i hnamed
        simpa [Exposed.isUnfielded, hnamed] using Children.fits_nil
    · have hnamed : g.symbolKind step.symbol ≠ .named := by
        intro hnamed
        simp [hnamed, SymbolKind.isVisible] at hvis
      simpa [hn, hs, hnamed] using Children.fits_nil
    · simpa [hv, hs] using hd.children

/-- Nodes that come into a field as one bundle fit where there is one of them. -/
theorem fits_bundle {types : List NodeType} (c : Children)
    (h : ∀ n ∈ under, NodeType.ofSymbol g n.symbol ∈ types) :
    Children.Fits g (under.length ≤ 1) (under ≠ [])
      (c.append (if types ≠ [] then .oneOf types else {})) under := by
  refine ⟨fun n hn => ?_, fun hne => ?_, fun hmost _ => hmost, fun hleast _ => hleast⟩
  · rw [if_pos (List.ne_nil_of_mem (h n hn))]
    exact Ordered.mem_union.2 (.inr (h n hn))
  · obtain ⟨n, hn⟩ := List.exists_mem_of_ne_nil _ hne
    rw [if_pos (List.ne_nil_of_mem (h n hn))]
    simp [Children.append, Quantity.append, Children.oneOf, Quantity.one]

theorem Under.fits_field (h : Under g S step.symbol under inside) (f : String) :
    let bundled := g.bundled f step under (inside f)
    Children.Fits g (∀ b ∈ bundled, b.length ≤ 1) (∀ b ∈ bundled, b ≠ [])
      (((passed g S step.symbol).field f).append (ownField g S step f))
      ((g.brought step under).filter (·.isIn f)) := by
  have htypes := h.types
  unfold passed ownField bundled brought
  rcases h.cases with ⟨hn, hx, hshown⟩ | ⟨v, hv, hx, hs, hd⟩
  · -- The symbol passes nothing on, so the field has what the step puts there.
    simp only [hn, hx, Option.getD_none, field_empty]
    refine Children.Fits.empty_append ?_
    rcases hshown with ⟨hvis, hs⟩ | ⟨hvis, hs⟩
    · by_cases hf : step.field = some f
      · simpa [hs, hf, typesOf, hn, hvis]
          using Children.fits_oneOf (Exposed.through (some f) ⟨step.symbol, []⟩)
      · have hout : Exposed.isIn f ⟨step.symbol, []⟩ = false := rfl
        simpa [hs, hf, hout] using Children.fits_nil
    · simpa [hs, typesOf, hn, hvis] using Children.fits_nil
  · simp only [hv, hx, hs, if_true, Option.getD_some] at htypes ⊢
    by_cases hf : step.field = some f
    · have hall : (under.map (·.through step.field)).filter (·.isIn f) =
          under.map (·.through step.field) := by
        simp [List.filter_eq_self, hf]
      rw [hall]
      simp only [hf, if_true, true_and, List.cons_append, List.nil_append, List.forall_mem_cons]
      exact ((fits_bundle _ htypes).through _).imp And.left And.left
    · have hin : (under.map (·.through step.field)).filter (·.isIn f) =
          (under.filter (·.isIn f)).map (·.through step.field) := by
        simp [List.filter_map, Function.comp_def, hf]
      rw [hin]
      simpa [hf] using (hd.field f).through step.field

/-- A step adds to a summary what its tree adds to the nodes that the summary describes. -/
theorem Describes.addStep (h : Describes g r nodes bundles) (hr : r.Keyed) (hS : AllKeyed S)
    (hu : Under g S step.symbol under inside) :
    Describes g (addStep g S r step) (nodes ++ g.brought step under)
      (fun f => bundles f ++ g.bundled f step under (inside f)) where
  field f := by
    rw [hr.field_addStep (hS.passed g _), List.filter_append]
    refine (((h.field f).append (hu.fits_field f)).append_assoc).imp ?_ ?_
    · exact List.forall_mem_append.1
    · exact List.forall_mem_append.1
  children := by
    rw [children_addStep, List.filter_append]
    exact (h.children.append hu.fits_unfielded).imp (fun _ => ⟨trivial, trivial⟩)
      fun _ => ⟨trivial, trivial⟩
  types n hn := by
    rw [types_addStep, Ordered.mem_union]
    rcases List.mem_append.1 hn with hn | hn
    · exact .inl (h.types n hn)
    · obtain ⟨m, hm, rfl⟩ := List.mem_map.1 hn
      exact .inr (hu.types m hm)

/-- Summaries that a sweep confirms describe the nodes that trees expose. -/
theorem Describes.forest (hS : AllKeyed S) (fixed : sweep g S = S) {steps : List Step}
    (forest : Forest g steps) : ∀ {r : Summary} {nodes : List Exposed}
      {bundles : String → List (List Exposed)}, r.Keyed → Describes g r nodes bundles →
      Describes g (steps.foldl (Summary.addStep g S) r) (nodes ++ forest.exposed)
        (fun f => bundles f ++ forest.bundles f) := by
  induction forest with
  | nil =>
    intro r nodes bundles _ h
    simpa [Forest.exposed, Forest.bundles] using h
  | @token t step steps ht rest ih =>
    intro r nodes bundles hr h
    have hu : Under g S step.symbol [] fun _ => [] := ⟨fun hv => by simp [ht] at hv, fun _ => rfl⟩
    have hout : g.isInvisible step.symbol = false := by simp [ht, isInvisible, Symbol.isNonterminal]
    have hstep := h.addStep hr hS hu
    simp only [bundled, hout] at hstep
    simpa [Forest.exposed, Forest.bundles] using ih hr.addStep hstep
  | @node p step steps hp children rest ihc ihr =>
    intro r nodes bundles hr h
    have hu : Under g S step.symbol children.exposed (children.bundles ·) := by
      refine ⟨fun {v} hv _ => ?_, fun ht => ?_⟩
      · rw [hv] at hp
        rw [← fixed, get_sweep]
        exact (ihc keyed_empty describes_nil).of_covers (covers_ofProductions hp)
      · cases hs : step.symbol <;> simp [hs] at hp ht
    simpa [Forest.exposed, Forest.bundles] using ihr hr.addStep (h.addStep hr hS hu)

/-- The summary of a variable describes each of its trees. -/
theorem describes_tree {v : Nat} (t : Tree g v) :
    Describes g (get (ofGrammar g) v) t.forest.exposed (t.forest.bundles ·) := by
  have h := Describes.forest (growing_ofGrammar g).allKeyed (sweep_ofGrammar g) t.forest
    keyed_empty describes_nil
  rw [← sweep_ofGrammar, get_sweep]
  exact h.of_covers (covers_ofProductions t.mem)

end Summary

namespace FlatGrammar

variable {g : FlatGrammar} {source : Grammar} {i : Nat} {v : Variable} {f : String}

/-- Productions lead from the start to a symbol. -/
inductive Reaches (g : FlatGrammar) : Symbol → Prop
  | start : Reaches g start
  | part {s x : Symbol} {p : Production} :
      Reaches g s → p ∈ g.productionsOf s → x ∈ p.symbols → Reaches g x

theorem mem_parts {s x : Symbol} : x ∈ g.parts s ↔ ∃ p ∈ g.productionsOf s, x ∈ p.symbols :=
  List.mem_flatMap

theorem Declares.mem_symbols {s : Symbol} (h : g.Declares s) : s ∈ g.symbols := by
  cases s with
  | eof => exact h.elim
  | terminal i => exact terminal_mem_symbols.2 h
  | nonterminal v => exact nonterminal_mem_symbols.2 h

/-- What holds of the symbols that were found after each step of the search. -/
structure Searched (g : FlatGrammar) (found : List Symbol) : Prop where
  ascending : Ordered.Ascending found
  known : found ⊆ start :: g.symbols
  starts : ∀ s ∈ start :: g.extras, s ∈ found
  sound : ∀ s ∈ found, g.Reaches s ∨ s ∈ g.extras

theorem searched_ofList (wf : g.WellFormed) :
    Searched g (Ordered.ofList (start :: g.extras)) where
  ascending := Ordered.ascending_ofList _
  known s hs := by
    rcases List.mem_cons.1 (Ordered.mem_ofList.1 hs) with rfl | hs
    · exact List.mem_cons_self
    · obtain ⟨i, hi, rfl⟩ := wf.extras s hs
      exact List.mem_cons_of_mem _ (Declares.mem_symbols hi)
  starts _ hs := Ordered.mem_ofList.2 hs
  sound s hs := by
    rcases List.mem_cons.1 (Ordered.mem_ofList.1 hs) with rfl | hs
    · exact .inl .start
    · exact .inr hs

theorem Searched.step (wf : g.WellFormed) {found : List Symbol} (h : Searched g found) :
    Searched g (Ordered.union found (found.flatMap g.parts)) where
  ascending := Ordered.ascending_union h.ascending _
  known s hs := by
    rcases Ordered.mem_union.1 hs with hs | hs
    · exact h.known hs
    · obtain ⟨x, -, hs⟩ := List.mem_flatMap.1 hs
      obtain ⟨p, hp, hs⟩ := mem_parts.1 hs
      exact List.mem_cons_of_mem _ (wf.declares hp s hs).mem_symbols
  starts s hs := Ordered.mem_union.2 (.inl (h.starts s hs))
  sound s hs := by
    rcases Ordered.mem_union.1 hs with hs | hs
    · exact h.sound s hs
    · obtain ⟨x, hx, hs⟩ := List.mem_flatMap.1 hs
      obtain ⟨p, hp, hs⟩ := mem_parts.1 hs
      rcases h.sound x hx with hx | hx
      · exact .inl (.part hx hp hs)
      · -- An extra is a token and has no parts.
        obtain ⟨i, -, rfl⟩ := wf.extras x hx
        simp at hp

theorem searched_reachable (wf : g.WellFormed) : Searched g g.reachable :=
  settle_keeps (fun _ h => h.step wf) _ (searched_ofList wf)

/-- The search did not run out: parts of what was found were found. -/
theorem union_reachable (wf : g.WellFormed) :
    Ordered.union g.reachable (g.reachable.flatMap g.parts) = g.reachable := by
  have hgrow : ∀ found, Searched g found → Ordered.union found (found.flatMap g.parts) ≠ found →
      found.length < (Ordered.union found (found.flatMap g.parts)).length := by
    intro found h hne
    have hsub : found ⊆ Ordered.union found (found.flatMap g.parts) := fun _ hs =>
      Ordered.mem_union.2 (.inl hs)
    by_contra hlen
    exact hne (h.ascending.eq_of_subset (h.step wf).ascending hsub (Nat.le_of_not_lt hlen)).symm
  have hle : ∀ found, Searched g found → found.length ≤ g.symbolCount + 1 := by
    intro found h
    have hlen := (List.subperm_of_subset h.ascending.nodup h.known).length_le
    rwa [List.length_cons, length_symbols] at hlen
  have hstart := searched_ofList wf
  have hpos := List.length_pos_of_mem (hstart.starts start List.mem_cons_self)
  exact settle_fixed (fun _ h => h.step wf) List.length hgrow hle hstart (by omega)

/-- The symbols that can occur in a tree are those that the start leads to, and the extras. -/
theorem mem_reachable (wf : g.WellFormed) {s : Symbol} :
    s ∈ g.reachable ↔ g.Reaches s ∨ s ∈ g.extras := by
  have hsearched := searched_reachable wf
  constructor
  · exact hsearched.sound s
  · rintro (hs | hs)
    · induction hs with
      | start => exact hsearched.starts _ List.mem_cons_self
      | part _ hp hx ih =>
        rw [← union_reachable wf]
        exact Ordered.mem_union.2 (.inr (List.mem_flatMap.2 ⟨_, ih, mem_parts.2 ⟨_, hp, hx⟩⟩))
    · exact hsearched.starts s (List.mem_cons_of_mem _ hs)

/-- A named variable that the start leads to has a node type. -/
theorem variableNode_mem (wf : g.WellFormed) (hv : g.vars[i]? = some v) (hk : v.kind = .named)
    (hr : g.Reaches (.nonterminal i)) : variableNode (Summary.ofGrammar g) i v ∈ g.nodeTypes := by
  have hmem : (v, i) ∈ g.vars.toList.zipIdx := by
    rw [List.mk_mem_zipIdx_iff_getElem?, Array.getElem?_toList]
    exact hv
  have hcontains : g.reachable.contains (.nonterminal i) = true :=
    List.contains_iff_mem.2 ((mem_reachable wf).2 (.inl hr))
  rw [nodeTypes, List.mem_mergeSort, List.mem_append]
  refine .inl (List.mem_filterMap.2 ⟨(v, i), hmem, ?_⟩)
  simp only [hk, hcontains, decide_true, Bool.and_self, if_true]

theorem children_variableNode {S : Array Summary} {c : Children} :
    (variableNode S i v).children = some c ↔
      (Summary.get S i).children = c ∧ c.types ≠ [] := by
  simp only [variableNode, Summary.get]
  split <;> grind

end FlatGrammar

variable {g : FlatGrammar} {source : Grammar} {i : Nat} {v : Variable}

/-- The node type of a named variable that the start leads to describes the nodes outside of fields
in every tree of the variable. -/
theorem nodeTypes_describe_children [RegexEngine] (h : ofGrammar source = .ok g)
    (hv : g.vars[i]? = some v) (hk : v.kind = .named) (hr : g.Reaches (.nonterminal i)) :
    let entry := variableNode (Summary.ofGrammar g) i v
    entry ∈ g.nodeTypes ∧ ∀ t : Tree g i,
      (∀ n ∈ t.unfielded, ∃ c, entry.children = some c ∧ NodeType.ofSymbol g n.symbol ∈ c.types) ∧
      ∀ c, entry.children = some c →
        (c.quantity.multiple = false → t.unfielded.length ≤ 1) ∧
        (c.quantity.required = true → 1 ≤ t.unfielded.length) := by
  refine ⟨variableNode_mem (wellFormed_of_ofGrammar h) hv hk hr, fun t => ?_⟩
  have hfits := (Summary.describes_tree t).children
  refine ⟨fun n hn => ⟨_, children_variableNode.2 ⟨rfl, ?_⟩, hfits.types n hn⟩, fun c hc => ?_⟩
  · exact List.ne_nil_of_mem (hfits.types n hn)
  · obtain ⟨rfl, -⟩ := children_variableNode.1 hc
    exact ⟨hfits.multiple trivial, fun hrequired =>
      List.length_pos_of_ne_nil (hfits.required trivial hrequired)⟩

/-- A grammar of entries with a key and a value, which are given by variables that are not
visible. -/
def Grammar.labelled : Grammar where
  name := "labelled"
  rules := [⟨"start", .seq [.wrap (.field "key") (.symbol "_key"), .symbol "_value"]⟩,
    ⟨"_key", .symbol "name"⟩, ⟨"_value", .symbol "name"⟩, ⟨"name", .pattern "[a-z]+" none⟩]

namespace Labelled

/-- One name. -/
def oneName : Children := .oneOf [{ name := "name", named := true }]

/-- The summaries of entries, of keys and of values. -/
def summaries : Array Summary :=
  let inner : Summary := { children := oneName, types := oneName.types }
  #[{ inner with fields := [("key", oneName)] }, inner, inner]

/-- The production of entries. -/
def entryProduction : Production where
  steps := [⟨.nonterminal 1, 0, none, some "key"⟩, ⟨.nonterminal 2, 0, none, none⟩]
  dynamic := 0

/-- The production of keys and of values. -/
def nameProduction : Production where
  steps := [⟨.terminal 0, 0, none, none⟩]
  dynamic := 0

/-- The flat form of the grammar. The second sweep finds its summaries, and the third confirms
them. -/
theorem exists_flat : ∃ g, ofGrammar .labelled = .ok g ∧
    g.vars[0]?.map (·.kind) = some .named ∧
    (g.symbolKind (.terminal 0)).isVisible = true ∧ g.isInvisible (.nonterminal 1) = true ∧
    entryProduction ∈ g.productionsOf (.nonterminal 0) ∧
    nameProduction ∈ g.productionsOf (.nonterminal 1) ∧
    nameProduction ∈ g.productionsOf (.nonterminal 2) ∧
    2 ≤ g.vars.size * Summary.height g + 1 ∧
    Summary.sweep g (Summary.sweep g (Array.replicate g.vars.size {})) = summaries ∧
    Summary.sweep g summaries = summaries :=
  exists_of_decide (by decide +kernel)

end Labelled

open Labelled

/-- Each entry has one child outside of fields, its value. -/
theorem nodeTypes_describe_children_labelled : ∃ g, ofGrammar .labelled = .ok g ∧
    ∀ t : Tree g 0, t.unfielded.length = 1 := by
  obtain ⟨g, h, hkind, -, -, -, -, -, hbound, hsweep, hfixed⟩ := Labelled.exists_flat
  obtain ⟨v, hv, hk⟩ := Option.map_eq_some_iff.1 hkind
  have hentry : (variableNode (Summary.ofGrammar g) 0 v).children = some oneName := by
    rw [Summary.ofGrammar_eq hbound hsweep hfixed]
    rfl
  refine ⟨g, h, fun t => ?_⟩
  obtain ⟨hmost, hleast⟩ := ((nodeTypes_describe_children h hv hk .start).2 t).2 oneName hentry
  exact Nat.le_antisymm (hmost rfl) (hleast rfl)

/-- The node type of a named variable that the start leads to describes each field in every tree of
the variable. There are no more nodes than it says exactly where no step of the field brings several
nodes together, and no fewer where every step of the field brings one. -/
theorem nodeTypes_describe_fields [RegexEngine] (h : ofGrammar source = .ok g)
    (hv : g.vars[i]? = some v) (hk : v.kind = .named) (hr : g.Reaches (.nonterminal i)) :
    let entry := variableNode (Summary.ofGrammar g) i v
    entry ∈ g.nodeTypes ∧ ∃ fields, entry.fields = some fields ∧ ∀ (t : Tree g i) (f : String),
      (∀ n ∈ t.inField f, ∃ c, (f, c) ∈ fields ∧ NodeType.ofSymbol g n.symbol ∈ c.types) ∧
      ∀ c, (f, c) ∈ fields →
        (c.quantity.multiple = false →
          ((t.inField f).length ≤ 1 ↔ ∀ b ∈ t.forest.bundles f, b.length ≤ 1)) ∧
        (c.quantity.required = true → (∀ b ∈ t.forest.bundles f, b ≠ []) →
          1 ≤ (t.inField f).length) := by
  refine ⟨variableNode_mem (wellFormed_of_ofGrammar h) hv hk hr, _, rfl, fun t f => ?_⟩
  have hfits := (Summary.describes_tree t).field f
  have hkeyed : (Summary.get (Summary.ofGrammar g) i).Keyed :=
    (Summary.growing_ofGrammar g).allKeyed i
  refine ⟨fun n hn => ⟨_, ?_, hfits.types n hn⟩, fun c hc => ?_⟩
  · refine Summary.mem_fields_of_ne (s := Summary.get _ i) fun hnone => ?_
    have htype := hfits.types n hn
    rw [hnone] at htype
    cases htype
  · obtain rfl := hkeyed.field_of_mem hc
    refine ⟨fun hm => ⟨fun hone b hb => ?_, fun hb => hfits.multiple hb hm⟩, fun hr hb => ?_⟩
    · exact (t.forest.length_le_of_mem_bundles hb).trans hone
    · exact List.length_pos_of_ne_nil (hfits.required hb hr)

/-- An entry has one node in the field of its key. -/
theorem nodeTypes_describe_fields_labelled : ∃ (g : FlatGrammar) (t : Tree g 0),
    ofGrammar .labelled = .ok g ∧ (t.inField "key").length = 1 := by
  obtain ⟨g, h, hkind, hvis, hx, hentry, hkey, hvalue, hbound, hsweep, hfixed⟩ :=
    Labelled.exists_flat
  obtain ⟨v, hv, hk⟩ := Option.map_eq_some_iff.1 hkind
  let leaf : Forest g nameProduction.steps := .token rfl .nil
  let t : Tree g 0 := ⟨entryProduction, hentry, .node hkey leaf (.node hvalue leaf .nil)⟩
  have hone : ∀ b ∈ t.forest.bundles "key", b.length = 1 := by
    simp [t, leaf, Forest.bundles, Forest.exposed, bundled, brought, shown, hx, hvis]
  obtain ⟨-, fields, hsome, hdescribe⟩ := nodeTypes_describe_fields h hv hk .start
  have hmem : ("key", oneName) ∈ fields := by
    rw [← Option.some.inj hsome, Summary.ofGrammar_eq hbound hsweep hfixed]
    exact List.mem_cons_self
  obtain ⟨hmost, hleast⟩ := (hdescribe t "key").2 oneName hmem
  refine ⟨g, t, h, Nat.le_antisymm ((hmost rfl).2 fun b hb => (hone b hb).le) (hleast rfl ?_)⟩
  exact fun b hb => List.ne_nil_of_length_pos (hone b hb).ge

end GrammarTables
