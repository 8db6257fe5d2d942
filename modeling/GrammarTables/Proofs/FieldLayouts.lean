import GrammarTables.Proofs.FieldExposure
import GrammarTables.Proofs.TableIndices

/-!
# Layouts tell where fields are found

The layout of a production has for each field the steps that carry it and the children that do not
show and expose it, in the order of the steps. Each reduction of the canonical table has the number
of its production's layout, and different numbers stand for different layouts.
-/

namespace GrammarTables

/-- A field is found at a place of a production: its step carries the field, or has a child that
does not show and exposes the field. -/
def Production.HasAt (g : FlatGrammar) (p : Production) (field : String) (place : FieldPlace) :
    Prop :=
  ∃ step, p.steps[place.index]? = some step ∧
    if place.inherited then ∃ w, step.symbol = .nonterminal w ∧
      g.isInvisible (.nonterminal w) = true ∧ g.Exposes w field
    else step.field = some field

/-- Places are in the order of the steps, and what a step carries comes before what its child
exposes. -/
def FieldPlace.Precedes (a b : FieldPlace) : Prop :=
  a.index < b.index ∨ a.index = b.index ∧ a.inherited = false ∧ b.inherited = true

namespace FieldLayout

/-- The places of a field. -/
def placesOf (layout : FieldLayout) (field : String) : List FieldPlace :=
  (Ordered.get? field layout).getD []

/-- The fields are in ascending order, and each has places. -/
structure Keyed (layout : FieldLayout) : Prop where
  ascending : Ordered.Ascending (layout.map (·.1))
  ne_nil : ∀ x ∈ layout, x.2 ≠ []

/-- A layout has exactly the places at which a production has fields. -/
structure Describes (g : FlatGrammar) (p : Production) (layout : FieldLayout) : Prop where
  keyed : layout.Keyed
  mem_iff : ∀ field place, place ∈ layout.placesOf field ↔ p.HasAt g field place
  ordered : ∀ field, (layout.placesOf field).Pairwise FieldPlace.Precedes

variable {g : FlatGrammar} {exposed : Array (List String)} {layout other : FieldLayout}
  {field k : String} {place : FieldPlace} {p : Production}

theorem keyed_nil : Keyed [] := ⟨.nil, nofun⟩

/-- Layouts with the same places are the same. -/
theorem Keyed.ext (h : layout.Keyed) (h' : other.Keyed)
    (hplaces : ∀ field, layout.placesOf field = other.placesOf field) : layout = other := by
  refine Ordered.ext_get? h.ascending h'.ascending fun field => ?_
  have hsome : ∀ {l : FieldLayout}, l.Keyed → Ordered.get? field l ≠ some [] := fun hl hnil =>
    hl.ne_nil _ (Ordered.mem_of_get? hnil) rfl
  have heq : (Ordered.get? field layout).getD [] = (Ordered.get? field other).getD [] :=
    hplaces field
  have hne := hsome h
  have hne' := hsome h'
  cases hl : Ordered.get? field layout <;> cases ho : Ordered.get? field other <;> simp_all

theorem Keyed.add (h : layout.Keyed) (field : String) (place : FieldPlace) :
    (layout.add field place).Keyed := by
  have hasc : Ordered.Ascending ((layout.add field place).map (·.1)) := by
    rw [FieldLayout.add, Ordered.keys_update]
    exact Ordered.ascending_insert h.ascending
  refine ⟨hasc, fun ⟨k, places⟩ hx => ?_⟩
  have hget := Ordered.get?_of_mem hasc hx
  by_cases hk : k = field
  · subst hk
    rw [FieldLayout.add, Ordered.get?_update_self h.ascending] at hget
    cases hget
    exact List.append_ne_nil_of_right_ne_nil _ (List.cons_ne_nil _ _)
  · rw [FieldLayout.add, Ordered.get?_update_of_ne hk] at hget
    exact h.ne_nil _ (Ordered.mem_of_get? hget)

theorem placesOf_add (h : layout.Keyed) (field : String) (place : FieldPlace) (k : String) :
    (layout.add field place).placesOf k =
      layout.placesOf k ++ if k = field then [place] else [] := by
  by_cases hk : k = field
  · subst hk
    simp [placesOf, FieldLayout.add, Ordered.get?_update_self h.ascending]
  · simp [placesOf, FieldLayout.add, Ordered.get?_update_of_ne hk, hk]

/-- One place is added to different fields. -/
theorem placesOf_addAll (h : layout.Keyed) {fields : List String} (hn : fields.Nodup)
    (place : FieldPlace) :
    (fields.foldl (fun layout field => layout.add field place) layout).Keyed ∧
      ∀ k, (fields.foldl (fun layout field => layout.add field place) layout).placesOf k =
        layout.placesOf k ++ if k ∈ fields then [place] else [] := by
  induction fields generalizing layout with
  | nil => exact ⟨h, by simp⟩
  | cons field fields ih =>
    obtain ⟨hfield, hn⟩ := List.nodup_cons.1 hn
    obtain ⟨hkeyed, hplaces⟩ := ih (h.add field place) hn
    refine ⟨hkeyed, fun k => ?_⟩
    rw [List.foldl_cons, hplaces, placesOf_add h]
    by_cases hk : k = field
    · subst hk
      simp [hfield]
    · simp [hk]

/-- The places of a field at a step. -/
def placesAt (g : FlatGrammar) (exposed : Array (List String)) (field : String)
    (x : Step × Nat) : List FieldPlace :=
  (if x.1.field = some field then [⟨x.2, false⟩] else []) ++
    if field ∈ exposedBy g exposed x.1.symbol then [⟨x.2, true⟩] else []

/-- A step adds its places to those before it. -/
theorem placesOf_addStep (h : layout.Keyed) {x : Step × Nat}
    (hn : (exposedBy g exposed x.1.symbol).Nodup) :
    (addStep g exposed layout x).Keyed ∧ ∀ k, (addStep g exposed layout x).placesOf k =
      layout.placesOf k ++ placesAt g exposed k x := by
  obtain ⟨⟨symbol, precedence, associativity, own⟩, index⟩ := x
  cases own with
  | none =>
    obtain ⟨hkeyed, hplaces⟩ := placesOf_addAll h hn ⟨index, true⟩
    exact ⟨hkeyed, fun k => (hplaces k).trans (by simp [placesAt])⟩
  | some own =>
    obtain ⟨hkeyed, hplaces⟩ := placesOf_addAll (h.add own ⟨index, false⟩) hn ⟨index, true⟩
    refine ⟨hkeyed, fun k => (hplaces k).trans ?_⟩
    rw [placesOf_add h, List.append_assoc, placesAt]
    simp [eq_comm]

/-- The places of a production are those of its steps. -/
theorem placesOf_ofProduction (hn : ∀ s, (exposedBy g exposed s).Nodup) (p : Production) :
    (ofProduction g exposed p).Keyed ∧ ∀ k, (ofProduction g exposed p).placesOf k =
      p.steps.zipIdx.flatMap (placesAt g exposed k) := by
  have key : ∀ (steps : List (Step × Nat)) {layout : FieldLayout}, layout.Keyed →
      (steps.foldl (addStep g exposed) layout).Keyed ∧
        ∀ k, (steps.foldl (addStep g exposed) layout).placesOf k =
          layout.placesOf k ++ steps.flatMap (placesAt g exposed k) := by
    intro steps
    induction steps with
    | nil => exact fun h => ⟨h, by simp⟩
    | cons x steps ih =>
      intro layout h
      obtain ⟨hkeyed, hplaces⟩ := placesOf_addStep h (hn x.1.symbol)
      obtain ⟨hkeyed', hplaces'⟩ := ih hkeyed
      exact ⟨hkeyed', fun k => by rw [List.foldl_cons, hplaces', hplaces]; simp⟩
  exact key p.steps.zipIdx keyed_nil

theorem nodup_exposedBy (g : FlatGrammar) (s : Symbol) :
    (exposedBy g (FieldLayout.exposed g) s).Nodup := by
  cases s with
  | eof | terminal => exact .nil
  | nonterminal v =>
    rw [exposedBy]
    split
    · exact ((growing_exposed g).ascending v).nodup
    · exact .nil

theorem mem_placesAt {x : Step × Nat} : place ∈ placesAt g (FieldLayout.exposed g) field x ↔
    place.index = x.2 ∧ if place.inherited then ∃ w, x.1.symbol = .nonterminal w ∧
      g.isInvisible (.nonterminal w) = true ∧ g.Exposes w field else x.1.field = some field := by
  obtain ⟨index, inherited⟩ := place
  cases inherited <;> simp [placesAt, mem_exposedBy, mem_exposed_iff, and_comm]

/-- The layout of a production describes it. -/
theorem describes_ofProduction (g : FlatGrammar) (p : Production) :
    (ofProduction g (FieldLayout.exposed g) p).Describes g p := by
  obtain ⟨hkeyed, hplaces⟩ := placesOf_ofProduction (nodup_exposedBy g) p
  refine ⟨hkeyed, fun field place => ?_, fun field => ?_⟩
  · simp only [hplaces, List.mem_flatMap, mem_placesAt, List.mem_zipIdx_iff_getElem?,
      Production.HasAt]
    constructor
    · rintro ⟨⟨step, index⟩, hstep, rfl, hhas⟩
      exact ⟨step, hstep, hhas⟩
    · rintro ⟨step, hstep, hhas⟩
      exact ⟨(step, place.index), hstep, rfl, hhas⟩
  · rw [hplaces, List.pairwise_flatMap]
    constructor
    · rintro ⟨step, index⟩ -
      unfold placesAt
      split <;> split <;> simp [FieldPlace.Precedes]
    · have hlt : (p.steps.zipIdx.map Prod.snd).Pairwise (· < ·) := by
        rw [List.zipIdx_map_snd]
        exact List.pairwise_lt_range'
      refine (List.pairwise_map.1 hlt).imp fun hxy place hplace place' hplace' => .inl ?_
      rwa [(mem_placesAt.1 hplace).1, (mem_placesAt.1 hplace').1]

end FieldLayout

namespace ParseTable

/-- The numbers of a table stand for the layouts of the productions that are reduced. -/
structure LaysOut (g : FlatGrammar) (t : ParseTable) : Prop where
  /-- Number 0 is that of productions without fields. -/
  unfielded : t.layouts[0]? = some []
  distinct : ∀ {m n : Nat} {a b : FieldLayout}, t.layouts[m]? = some a → t.layouts[n]? = some b →
    (∀ field, a.placesOf field = b.placesOf field) → m = n
  /-- A complete item is reduced with the number of its production's layout. -/
  items : ∀ {q : Nat} {a : Automaton.State} {i : Item} {given : TokenSet},
    (Automaton.states (Analysis.ofGrammar g))[q]? = some a → (i, given) ∈ a.closure →
    i.next? g = none → i.isStart = false → ∃ r layout,
      Canonical.reductionOf g i = .reduce r ∧ i.Reduces g t.layouts r ∧
      t.layouts[r.production]? = some layout ∧ layout.Describes g (i.productionIn g)
  entries : ∀ s ∈ t.states, ∀ {x : Symbol} {r : Reduction}, .reduce r ∈ s.on x → ∃ v p layout,
    p ∈ g.productionsOf (.nonterminal v) ∧ r.symbol = .nonterminal v ∧
    r.children = p.steps.length ∧ r.dynamic = p.dynamic ∧
    t.layouts[r.production]? = some layout ∧ layout.Describes g p

end ParseTable

namespace Canonical

variable {g : FlatGrammar}

theorem keyed_of_mem_numbered {layout : FieldLayout}
    (h : layout ∈ numbered (layouts g) (allReduced g)) : layout.Keyed := by
  obtain rfl | ⟨i, -, rfl⟩ := mem_numbered h
  · exact FieldLayout.keyed_nil
  · exact (FieldLayout.describes_ofProduction g _).keyed

/-- Different numbers stand for layouts with different places. -/
theorem numbered_inj {m n : Nat} {a b : FieldLayout}
    (ha : (numbered (layouts g) (allReduced g))[m]? = some a)
    (hb : (numbered (layouts g) (allReduced g))[n]? = some b)
    (h : ∀ field, a.placesOf field = b.placesOf field) : m = n := by
  obtain rfl := (keyed_of_mem_numbered (List.mem_of_getElem? ha)).ext
    (keyed_of_mem_numbered (List.mem_of_getElem? hb)) h
  have hlt := (List.getElem?_eq_some_iff.1 ha).1
  exact (List.getElem?_inj hlt (nodup_eraseDups _)).1 (ha.trans hb.symm)

end Canonical

/-- The number of a reduction tells where the fields of its production are found. Variables expose
what chains of children that do not show lead to, layouts have the places of what steps carry and
what such children expose, and no two numbers stand for the same places. -/
theorem layouts_numbered [RegexEngine] {source : Grammar} {g : FlatGrammar}
    (h : FlatGrammar.ofGrammar source = .ok g) {table : ParseTable} {conflicts : List Conflict}
    (hc : ParseTable.canonical g = .ok (table, conflicts)) :
    (∀ v field, field ∈ FieldLayout.fieldsOf (FieldLayout.exposed g) v ↔ g.Exposes v field) ∧
      table.LaysOut g := by
  have wf := FlatGrammar.wellFormed_of_ofGrammar h
  obtain ⟨hstates, hlayouts, -⟩ := Canonical.table_of_canonical hc
  refine ⟨fun v field => FieldLayout.mem_exposed_iff, ?_, ?_, ?_, ?_⟩
  · simp [hlayouts, Canonical.numbered, List.eraseDups_cons]
  · rw [hlayouts]
    exact Canonical.numbered_inj
  · intro q a i given ha hi hnext hs
    obtain ⟨s, -, hd⟩ := (Canonical.table_states wf).describes ha
    have hend := Item.next?_eq_none.1 hnext
    rcases (hd.belongs _ hi).complete hend with rfl | ⟨v, n, hn, rfl⟩
    · cases hs
    · obtain ⟨r, hr, hreduces⟩ :=
        Canonical.reduces_of_mem (Canonical.mem_allReduced ha hi hend rfl) hn
      rw [← hlayouts] at hreduces
      exact ⟨r, _, hr, hreduces, hreduces.layout, FieldLayout.describes_ofProduction g _⟩
  · intro s hs x r hr
    obtain ⟨⟨v, -, p, hp, hsymbol, hchildren, hdynamic, hlayout⟩, -⟩ :=
      (Canonical.indexed wf hc).reductions s hs x r hr
    exact ⟨v, p, _, hp, hsymbol, hchildren, hdynamic, hlayout,
      FieldLayout.describes_ofProduction g p⟩

/-- A grammar of pairs, whose sides do not show and have a field. -/
def Grammar.paired : Grammar where
  name := "paired"
  rules := [⟨"start", .seq [.wrap (.field "left") (.symbol "_side"), .symbol "_side"]⟩,
    ⟨"_side", .wrap (.field "name") (.symbol "_side")⟩]

/-- The fields of pairs. -/
def FieldLayout.ofPairs : FieldLayout :=
  [("left", [⟨0, false⟩]), ("name", [⟨0, true⟩, ⟨1, true⟩])]

/-- The flat form of the grammar of pairs. -/
theorem FlatGrammar.exists_paired : ∃ g, ofGrammar .paired = .ok g ∧ g.Small ∧
    ((g.productionsOf (.nonterminal 0)).map fun p =>
      (p.symbols, FieldLayout.ofProduction g (FieldLayout.exposed g) p)) =
        [([.nonterminal 1, .nonterminal 1], FieldLayout.ofPairs)] :=
  exists_of_decide (by decide +kernel)

/-- The reduction of a pair has the number of its fields. -/
theorem layouts_numbered_paired : ∃ (g : FlatGrammar) (table : ParseTable)
    (conflicts : List Conflict) (r : Reduction), FlatGrammar.ofGrammar .paired = .ok g ∧
    ParseTable.canonical g = .ok (table, conflicts) ∧ table.LaysOut g ∧
    Canonical.reductionOf g ⟨.nonterminal 0, 0, 2⟩ = .reduce r ∧
    table.layouts[r.production]? = some FieldLayout.ofPairs := by
  obtain ⟨g, h, hsmall, hp⟩ := FlatGrammar.exists_paired
  have wf := FlatGrammar.wellFormed_of_ofGrammar h
  obtain ⟨⟨table, conflicts⟩, hc⟩ := ParseTable.exists_canonical wf hsmall
  obtain ⟨p, hps, heq⟩ := List.map_eq_singleton_iff.1 hp
  obtain ⟨hsymbols, hlayout⟩ := Prod.mk.inj heq
  have hn : 0 < (g.productionsOf (.nonterminal 0)).length := by simp [hps]
  have hget : (g.productionsOf (.nonterminal 0))[0] = p := by simp [hps]
  -- The dot is moved past both sides of a pair.
  have hstart : Item.after g ⟨.nonterminal 0, 0, 0⟩ = [.nonterminal 1, .nonterminal 1] := by
    rw [Item.after_start hn, hget, hsymbols]
  have hleft : Item.after g ⟨.nonterminal 0, 0, 1⟩ = [.nonterminal 1] := Item.after_advance hstart
  have hend : Item.after g ⟨.nonterminal 0, 0, 2⟩ = [] := Item.after_advance hleft
  have hvalid : g.Valid [.nonterminal 1, .nonterminal 1] ⟨.nonterminal 0, 0, 2⟩ .eof :=
    .moved (.moved (.opened .initial rfl hn FlatGrammar.next_nil) hstart) hleft
  have hcomplete := Automaton.complete_states wf
  obtain ⟨q, σ, a, hsp, ha, -⟩ := hcomplete.allows_of_valid wf hvalid
  obtain ⟨L, hL, -⟩ := hcomplete.mem_closure_of_valid wf hvalid hsp ha
  obtain ⟨-, hlays⟩ := layouts_numbered h hc
  obtain ⟨r, -, hr, hreduces, -⟩ := hlays.items ha hL (Item.next?_eq_none.2 hend) rfl
  refine ⟨g, table, conflicts, r, h, hc, hlays, hr, ?_⟩
  rw [hreduces.layout, Item.productionIn_nonterminal hn, hget, hlayout]

end GrammarTables
