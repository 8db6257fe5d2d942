import GrammarTables.Item.Closure
import GrammarTables.Proofs.Opening

/-!
# Closures are exact

`ItemSet.Allows` is the closure of a kernel as a relation between items and their lookaheads, and
`ItemSet.Follows` the same with what a kernel's items without lookaheads demand. The computed
closure of a kernel pairs exactly what follows: a sweep over the variables adds only lookaheads of
the relation, and a sweep that changes nothing has found them all. Where each item of the kernel has
a lookahead, the two relations are one.
-/

namespace GrammarTables

namespace FlatGrammar

/-- Where symbols stand before the terminal `u`, the terminal `x` can come next. -/
def Ahead (g : FlatGrammar) (ss : List Symbol) (u x : Symbol) : Prop :=
  g.Begins ss x ∨ (g.Derives ss [] ∧ x = u)

variable {g : FlatGrammar}

@[simp] theorem ahead_nil {u x : Symbol} : g.Ahead [] u x ↔ x = u := by
  constructor
  · rintro (h | h)
    · cases h
    · exact h.2
  · intro h
    exact .inr ⟨.nil, h⟩

theorem Ahead.isTerminal {ss : List Symbol} {u x : Symbol} (h : g.Ahead ss u x)
    (hu : u.isTerminal = true) : x.isTerminal = true := by
  rcases h with h | ⟨-, rfl⟩
  · exact h.isTerminal
  · exact hu

/-- What comes next before a variable's production comes next before the variable. -/
theorem Ahead.expand {v : Nat} {p : Production} (hp : p ∈ g.productionsOf (.nonterminal v))
    {ss : List Symbol} {u t x : Symbol} (ht : g.Ahead ss u t) (hx : g.Ahead p.symbols t x) :
    g.Ahead (.nonterminal v :: ss) u x := by
  rcases hx with hx | ⟨hp', rfl⟩
  · exact .inl (.inside hp hx)
  · have hv : g.Derives [.nonterminal v] [] := .single hp hp'
    rcases ht with ht | ⟨hss, rfl⟩
    · exact .inl (.past hv ht)
    · exact .inr ⟨hv.append hss, rfl⟩

end FlatGrammar

/-- The symbols after the dot. -/
def Item.after (g : FlatGrammar) (i : Item) : List Symbol := (i.rest g).map (·.symbol)

namespace Item

variable {g : FlatGrammar} {i : Item} {s x : Symbol} {ss : List Symbol}

/-- A symbol after the dot is the start symbol of the start item or stands in a production. -/
theorem mem_after (hx : x ∈ i.after g) : i.after g = [FlatGrammar.start] ∨
    ∃ v, ∃ p ∈ g.productionsOf (.nonterminal v), x ∈ p.symbols := by
  obtain ⟨step, hstep, rfl⟩ := List.mem_map.1 hx
  have hmem : step ∈ (i.productionIn g).steps := List.mem_of_mem_drop hstep
  obtain ⟨head, n, dot⟩ := i
  cases head with
  | start =>
    cases dot with
    | zero => exact .inl rfl
    | succ dot => simp [rest, productionIn, Production.start] at hstep
  | nonterminal w =>
    simp only [productionIn] at hmem
    cases hp : (g.productionsOf (.nonterminal w))[n]? with
    | none => simp [hp] at hmem
    | some p =>
      rw [hp, Option.getD_some] at hmem
      exact .inr ⟨w, p, List.mem_of_getElem? hp, List.mem_map_of_mem hmem⟩

/-- What stands behind the symbol after the dot stands in a production. -/
theorem exists_production_of_mem (hss : i.after g = s :: ss) (hx : x ∈ ss) :
    ∃ v, ∃ p ∈ g.productionsOf (.nonterminal v), x ∈ p.symbols := by
  obtain h | h := mem_after (hss ▸ List.mem_cons_of_mem s hx : x ∈ i.after g)
  · rw [hss] at h
    obtain ⟨-, rfl⟩ := List.cons.inj h
    cases hx
  · exact h

/-- A terminal after the dot stands in a production. -/
theorem exists_production_of_terminal (hss : i.after g = x :: ss) (hx : x.isTerminal = true) :
    ∃ v, ∃ p ∈ g.productionsOf (.nonterminal v), x ∈ p.symbols := by
  obtain h | h := mem_after (hss ▸ List.mem_cons_self : x ∈ i.after g)
  · rw [hss] at h
    obtain ⟨rfl, -⟩ := List.cons.inj h
    cases hx
  · exact h

end Item

/-- The closure of a kernel: a terminal is a lookahead of an item. -/
inductive ItemSet.Allows (g : FlatGrammar) (kernel : ItemSet) : Item → Symbol → Prop
  | given {i : Item} {given : TokenSet} {t : Symbol} : (i, given) ∈ kernel →
      t.isTerminal = true → given.contains t = true → Allows g kernel i t
  | opened {i : Item} {u t : Symbol} {v n : Nat} {ss : List Symbol} : Allows g kernel i u →
      i.after g = .nonterminal v :: ss → n < (g.productionsOf (.nonterminal v)).length →
      g.Ahead ss u t → Allows g kernel ⟨.nonterminal v, n, 0⟩ t

/-- The closure of a kernel whose items may be without lookaheads: what begins behind a variable
follows it in an item of the kernel, whatever the item's lookaheads are. -/
inductive ItemSet.Follows (g : FlatGrammar) (kernel : ItemSet) : Item → Symbol → Prop
  | given {i : Item} {given : TokenSet} {t : Symbol} : (i, given) ∈ kernel →
      t.isTerminal = true → given.contains t = true → Follows g kernel i t
  | begun {i : Item} {given : TokenSet} {t : Symbol} {v n : Nat} {ss : List Symbol} :
      (i, given) ∈ kernel → i.after g = .nonterminal v :: ss →
      n < (g.productionsOf (.nonterminal v)).length → g.Begins ss t →
      Follows g kernel ⟨.nonterminal v, n, 0⟩ t
  | opened {i : Item} {u t : Symbol} {v n : Nat} {ss : List Symbol} : Follows g kernel i u →
      i.after g = .nonterminal v :: ss → n < (g.productionsOf (.nonterminal v)).length →
      g.Ahead ss u t → Follows g kernel ⟨.nonterminal v, n, 0⟩ t

/-- The items whose demands are met: those of the kernel and those that have lookaheads. -/
def ItemSet.Active (g : FlatGrammar) (kernel : ItemSet) (i : Item) : Prop :=
  (∃ given, (i, given) ∈ kernel) ∨ ∃ u, ItemSet.Follows g kernel i u

namespace ItemSet

variable {g : FlatGrammar} {kernel : ItemSet} {i : Item} {t : Symbol}

theorem Follows.isTerminal (h : Follows g kernel i t) : t.isTerminal = true := by
  induction h with
  | given _ ht _ => exact ht
  | begun _ _ _ hb => exact hb.isTerminal
  | opened _ _ _ ha ih => exact ha.isTerminal ih

theorem Allows.follows (h : Allows g kernel i t) : Follows g kernel i t := by
  induction h with
  | given hi ht hc => exact .given hi ht hc
  | opened _ hss hn ha ih => exact .opened ih hss hn ha

theorem Allows.isTerminal (h : Allows g kernel i t) : t.isTerminal = true := h.follows.isTerminal

/-- Where each item of the kernel has a lookahead, what follows is what is allowed. -/
theorem follows_iff_allows (hne : ∀ x ∈ kernel, x.2 ≠ .empty) :
    Follows g kernel i t ↔ Allows g kernel i t := by
  refine ⟨fun h => ?_, Allows.follows⟩
  induction h with
  | given hi ht hc => exact .given hi ht hc
  | begun hi hss hn hb =>
    obtain ⟨u, hu, hc⟩ := TokenSet.exists_contains fun he => hne _ hi (TokenSet.isEmpty_iff.1 he)
    exact .opened (.given hi hu hc) hss hn (.inl hb)
  | opened _ hss hn ha ih => exact .opened ih hss hn ha

/-- What begins behind a variable after a dot follows it. -/
theorem Active.follows (h : Active g kernel i) {v n : Nat} {ss : List Symbol}
    (hss : i.after g = .nonterminal v :: ss) (hn : n < (g.productionsOf (.nonterminal v)).length)
    (hb : g.Begins ss t) : Follows g kernel ⟨.nonterminal v, n, 0⟩ t := by
  rcases h with ⟨given, hi⟩ | ⟨u, hu⟩
  · exact .begun hi hss hn hb
  · exact .opened hu hss hn (.inl hb)

end ItemSet

namespace Demand

variable {g : FlatGrammar}

theorem ofSteps_eq_some {o : Array Opening} {steps : List Step} {d : Demand}
    (h : ofSteps o steps = some d) :
    ∃ ss, steps.map (·.symbol) = .nonterminal d.target :: ss ∧ d.follow = .ofSymbols o ss := by
  cases steps with
  | nil => simp [ofSteps] at h
  | cons s rest =>
    simp only [ofSteps] at h
    split at h
    · rename_i v hv
      simp only [Option.some.injEq] at h
      subst h
      exact ⟨rest.map (·.symbol), by simp [hv], rfl⟩
    · simp at h

theorem ofSteps_of_cons {o : Array Opening} {steps : List Step} {v : Nat} {ss : List Symbol}
    (h : steps.map (·.symbol) = .nonterminal v :: ss) :
    ofSteps o steps = some ⟨v, .ofSymbols o ss⟩ := by
  cases steps with
  | nil => simp at h
  | cons s rest =>
    simp only [List.map_cons, List.cons.injEq] at h
    simp [ofSteps, h.1, h.2]

theorem contains_lookaheads (wf : g.WellFormed) {ss : List Symbol} {v : Nat} {given : TokenSet}
    {t : Symbol} (ht : t.isTerminal = true) :
    (lookaheads ⟨v, .ofSymbols g.openings ss⟩ given).contains t = true ↔
      g.Begins ss t ∨ (g.Derives ss [] ∧ given.contains t = true) := by
  rw [lookaheads, Opening.contains_andThen, FlatGrammar.contains_ofSymbols_iff wf ht,
    FlatGrammar.nullable_ofSymbols_iff wf]

/-- A demand gives lookaheads among the tokens of the grammar. -/
theorem within_lookaheads {o : Array Opening}
    (ho : ∀ v, (Opening.get o v).first.Within g.tokenCount)
    {ss : List Symbol} (hss : ∀ x ∈ ss, g.Declares x) {v : Nat} {given : TokenSet}
    (hg : given.Within g.tokenCount) :
    (lookaheads ⟨v, .ofSymbols o ss⟩ given).Within g.tokenCount := by
  have h := Opening.within_ofSymbols ho hss
  simp only [lookaheads, Opening.andThen]
  split
  · exact h.union hg
  · exact h

end Demand

namespace Lookaheads

variable {known known' : Lookaheads}

/-- The lookaheads of a variable. -/
def get (known : Lookaheads) (v : Nat) : Option TokenSet := (known[v]?).join

/-- Every variable has at least its lookaheads of the first. -/
def Le (known known' : Lookaheads) : Prop :=
  ∀ v L, known.get v = some L → ∃ L', known'.get v = some L' ∧ L ⊆ L'

theorem Le.refl (known : Lookaheads) : Le known known :=
  fun _ L h => ⟨L, h, TokenSet.subset_refl L⟩

theorem Le.trans {known'' : Lookaheads} (h : Le known known') (k : Le known' known'') :
    Le known known'' := by
  intro v L hv
  obtain ⟨L', hv', hL⟩ := h v L hv
  obtain ⟨L'', hv'', hL'⟩ := k v L' hv'
  exact ⟨L'', hv'', TokenSet.subset_trans hL hL'⟩

theorem ext_get (hs : known.size = known'.size) (h : ∀ v, known.get v = known'.get v) :
    known = known' := by
  refine Array.ext hs fun v hv hv' => ?_
  simpa [get, hv, hv'] using h v

theorem Le.antisymm (hs : known.size = known'.size) (h : Le known known') (k : Le known' known) :
    known = known' := by
  refine ext_get hs fun v => ?_
  cases hv : known.get v with
  | some L =>
    obtain ⟨L', hv', hL⟩ := h v L hv
    obtain ⟨L'', hv'', hL'⟩ := k v L' hv'
    obtain rfl : L = L'' := Option.some.inj (hv.symm.trans hv'')
    rw [hv', TokenSet.subset_antisymm hL hL']
  | none =>
    cases hv' : known'.get v with
    | none => rfl
    | some L' =>
      obtain ⟨L, hv'', -⟩ := k v L' hv'
      rw [hv] at hv''
      cases hv''

@[simp] theorem size_add (v : Nat) (more : TokenSet) : (known.add v more).size = known.size := by
  simp [add]

theorem get_add (v w : Nat) (more : TokenSet) :
    (known.add v more).get w =
      if v = w ∧ v < known.size then some (((known.get v).getD .empty).union more)
      else known.get w := by
  simp only [get, add, Array.getElem?_modify]
  by_cases h : v = w
  · subst h
    by_cases hv : v < known.size <;> simp [hv]
  · simp [h]

theorem le_add (v : Nat) (more : TokenSet) : Le known (known.add v more) := by
  intro w L hw
  rw [get_add]
  split
  · rename_i h
    obtain ⟨rfl, -⟩ := h
    exact ⟨_, rfl, by simpa [hw] using TokenSet.subset_union_left L more⟩
  · exact ⟨L, hw, TokenSet.subset_refl L⟩

theorem meet_cons (d : Demand) (ds : List Demand) (given : TokenSet) :
    known.meet (d :: ds) given = (known.add d.target (d.lookaheads given)).meet ds given := rfl

@[simp] theorem size_meet (ds : List Demand) (given : TokenSet) :
    (known.meet ds given).size = known.size := by
  induction ds generalizing known with
  | nil => rfl
  | cons d ds ih => rw [meet_cons, ih, size_add]

theorem le_meet (ds : List Demand) (given : TokenSet) : Le known (known.meet ds given) := by
  induction ds generalizing known with
  | nil => exact .refl _
  | cons d ds ih => exact (le_add _ _).trans ih

/-- Every demand is met. -/
theorem get_meet {ds : List Demand} {given : TokenSet} {d : Demand} (hd : d ∈ ds)
    (hv : d.target < known.size) :
    ∃ L, (known.meet ds given).get d.target = some L ∧ d.lookaheads given ⊆ L := by
  induction ds generalizing known with
  | nil => cases hd
  | cons e ds ih =>
    rw [meet_cons]
    rcases List.mem_cons.1 hd with rfl | hd
    · obtain ⟨L, hL, hsub⟩ := le_meet ds given d.target _
        ((get_add d.target d.target (d.lookaheads given)).trans (if_pos ⟨rfl, hv⟩))
      exact ⟨L, hL, TokenSet.subset_trans (TokenSet.subset_union_right _ _) hsub⟩
    · exact ih hd (by simpa using hv)

/-- What holds of lookaheads that the demands add holds of them all. -/
theorem meet_keeps {P : Lookaheads → Prop} {ds : List Demand} {given : TokenSet}
    (keep : ∀ known, ∀ d ∈ ds, P known → P (known.add d.target (d.lookaheads given)))
    (h : P known) : P (known.meet ds given) :=
  List.foldlRecOn _ _ h fun known hk d hd => keep known d hd hk

variable {a : Analysis}

@[simp] theorem size_visit (v : Nat) : (visit a known v).size = known.size := by
  unfold visit
  split
  · split <;> simp
  · rfl

theorem le_visit (v : Nat) : Le known (visit a known v) := by
  unfold visit
  split
  · split
    · exact .refl _
    · exact le_meet _ _
  · exact .refl _

theorem visit_eq (v : Nat) {given : TokenSet} (hv : known.get v = some given)
    (hne : given.isEmpty = false) : visit a known v = known.meet (a.demands[v]?.getD []) given := by
  have hv' : known[v]? = some (some given) := by simpa [get, Option.join_eq_some_iff] using hv
  simp [visit, hv', hne]

/-- A sweep that changes nothing leaves each visit without effect. -/
theorem visit_of_sweep_eq (h : sweep a known = known) {v : Nat} (hv : v < known.size) :
    visit a known v = known :=
  @foldl_fixed _ _ (fun k k' : Lookaheads => k.size = k'.size ∧ Le k k')
    (fun k => ⟨rfl, .refl k⟩) (fun h k => ⟨h.1.trans k.1, h.2.trans k.2⟩)
    (fun h k => Le.antisymm h.1 h.2 k.2) _ (fun _ v => ⟨(size_visit v).symm, le_visit v⟩) _ _ h v
    (List.mem_range.2 hv)

/-- What a visit keeps, a sweep keeps. -/
theorem sweep_keeps {P : Lookaheads → Prop} (keep : ∀ known v, P known → P (visit a known v))
    (h : P known) : P (sweep a known) :=
  List.foldlRecOn _ _ h fun known hk v _ => keep known v hk

@[simp] theorem get_replicate_none (n v : Nat) : get (Array.replicate n none) v = none := by
  simp only [get, Array.getElem?_replicate]
  split <;> rfl

/-- What holds of no lookaheads and is kept by what each item of the kernel demands. -/
theorem ofKernel_keeps {P : Lookaheads → Prop} {kernel : ItemSet}
    (base : P (Array.replicate a.grammar.vars.size none))
    (keep : ∀ known, ∀ x ∈ kernel, P known →
      P (known.meet (Demand.ofSteps a.openings (x.1.rest a.grammar)).toList x.2)) :
    P (ofKernel a kernel) :=
  List.foldlRecOn _ _ base fun known hk x hx => keep known x hx hk

@[simp] theorem size_ofKernel (kernel : ItemSet) :
    (ofKernel a kernel).size = a.grammar.vars.size := by
  refine ofKernel_keeps (P := fun k : Lookaheads => k.size = a.grammar.vars.size) (by simp)
    fun k x _ h => ?_
  simpa using h

variable {g : FlatGrammar} {kernel : ItemSet}

theorem mem_items {i : Item} {given : TokenSet} (hs : known.size = g.vars.size) :
    (i, given) ∈ known.items g ↔
      ∃ v n, i = ⟨.nonterminal v, n, 0⟩ ∧ n < (g.productionsOf (.nonterminal v)).length ∧
        known.get v = some given := by
  simp only [items, List.mem_flatMap, Prod.exists, List.mem_zipIdx_iff_getElem?,
    List.getElem?_zip_eq_some, Array.getElem?_toList]
  constructor
  · rintro ⟨o, var, v, ⟨ho, hvar⟩, hmem⟩
    cases o with
    | none => simp at hmem
    | some L =>
      simp only [List.mem_map, List.mem_range, Prod.mk.injEq] at hmem
      obtain ⟨n, hn, rfl, rfl⟩ := hmem
      refine ⟨v, n, rfl, ?_, by simp [get, ho]⟩
      simpa [FlatGrammar.productionsOf_of_getElem? hvar] using hn
  · rintro ⟨v, n, rfl, hn, hv⟩
    have hv' : known[v]? = some (some given) := by simpa [get, Option.join_eq_some_iff] using hv
    obtain ⟨hlt, -⟩ := Array.getElem?_eq_some_iff.1 hv'
    have hvar : g.vars[v]? = some g.vars[v] := Array.getElem?_eq_getElem (hs ▸ hlt)
    refine ⟨some given, g.vars[v], v, ⟨hv', hvar⟩, ?_⟩
    simp only [List.mem_map, List.mem_range]
    refine ⟨n, ?_, rfl⟩
    simpa [FlatGrammar.productionsOf_of_getElem? hvar] using hn

/-- The demands of a variable are those of its productions at their starts. -/
theorem mem_demands {v : Nat} {d : Demand}
    (h : d ∈ (Analysis.ofGrammar g).demands[v]?.getD []) :
    ∃ n, ∃ hn : n < (g.productionsOf (.nonterminal v)).length,
      Demand.ofSteps g.openings (g.productionsOf (.nonterminal v))[n].steps = some d := by
  simp only [Analysis.ofGrammar, Array.getElem?_map] at h
  cases hv : g.vars[v]? with
  | none => simp [hv] at h
  | some var =>
    simp only [hv, Option.map_some, Option.getD_some, List.mem_eraseDups, List.mem_filterMap] at h
    obtain ⟨p, hp, hd⟩ := h
    obtain ⟨n, hn, rfl⟩ := List.mem_iff_getElem.1 hp
    have heq := FlatGrammar.productionsOf_of_getElem? hv
    exact ⟨n, heq ▸ hn, by simpa only [heq] using hd⟩

theorem demand_mem {v n : Nat} {d : Demand} (hn : n < (g.productionsOf (.nonterminal v)).length)
    (hd : Demand.ofSteps g.openings (g.productionsOf (.nonterminal v))[n].steps = some d) :
    d ∈ (Analysis.ofGrammar g).demands[v]?.getD [] := by
  simp only [Analysis.ofGrammar, Array.getElem?_map]
  cases hv : g.vars[v]? with
  | none => simp [FlatGrammar.productionsOf_eq_nil (Array.getElem?_eq_none_iff.1 hv)] at hn
  | some var =>
    have heq := FlatGrammar.productionsOf_of_getElem? hv
    simp only [Option.map_some, Option.getD_some, List.mem_eraseDups, List.mem_filterMap]
    exact ⟨_, heq ▸ List.getElem_mem hn, hd⟩

end Lookaheads

/-- The production of an item at the start of a variable's production. -/
theorem Item.productionIn_nonterminal {g : FlatGrammar} {v n d : Nat}
    (hn : n < (g.productionsOf (.nonterminal v)).length) :
    Item.productionIn g ⟨.nonterminal v, n, d⟩ = (g.productionsOf (.nonterminal v))[n] := by
  simp [Item.productionIn, hn]

theorem Item.after_start {g : FlatGrammar} {v n : Nat}
    (hn : n < (g.productionsOf (.nonterminal v)).length) :
    Item.after g ⟨.nonterminal v, n, 0⟩ = (g.productionsOf (.nonterminal v))[n].symbols := by
  simp [Item.after, Item.rest, Item.productionIn_nonterminal hn, Production.symbols]

namespace Lookaheads

variable {known : Lookaheads} {g : FlatGrammar} {kernel : ItemSet}

/-- A variable with lookaheads stands after the dot of an item, and what its productions' items get
follows there. -/
structure Sound (g : FlatGrammar) (kernel : ItemSet) (known : Lookaheads) : Prop where
  active : ∀ v L, known.get v = some L →
    ∃ i ss, ItemSet.Active g kernel i ∧ i.after g = .nonterminal v :: ss
  follows : ∀ v L, known.get v = some L → ∀ t : Symbol, t.isTerminal = true →
    L.contains t = true → ∀ n < (g.productionsOf (.nonterminal v)).length,
      ItemSet.Follows g kernel ⟨.nonterminal v, n, 0⟩ t

/-- What an active item demands follows. -/
theorem Sound.demand (wf : g.WellFormed) (h : Sound g kernel known) {i : Item} {given : TokenSet}
    (hi : ∀ t : Symbol, t.isTerminal = true → given.contains t = true →
      ItemSet.Follows g kernel i t) (hact : ItemSet.Active g kernel i) {d : Demand}
    (hd : Demand.ofSteps g.openings (i.rest g) = some d) :
    Sound g kernel (known.add d.target (d.lookaheads given)) := by
  obtain ⟨ss, hss, hf⟩ := Demand.ofSteps_eq_some hd
  obtain ⟨v, follow⟩ := d
  subst hf
  constructor
  · intro w L hw
    rw [get_add] at hw
    split at hw
    · rename_i hvw
      exact ⟨i, ss, hact, hvw.1 ▸ hss⟩
    · exact h.active w L hw
  · intro w L hw t ht hc n hn
    rw [get_add] at hw
    split at hw
    · rename_i hvw
      obtain ⟨rfl, -⟩ := hvw
      obtain rfl := Option.some.inj hw
      rw [TokenSet.contains_union, Bool.or_eq_true] at hc
      rcases hc with hc | hc
      · cases hv : known.get v with
        | none => simp [hv] at hc
        | some L => exact h.follows v L hv t ht (by simpa [hv] using hc) n hn
      · rcases (Demand.contains_lookaheads wf ht).1 hc with hc | ⟨hnil, hc⟩
        · exact hact.follows hss hn hc
        · exact .opened (hi t ht hc) hss hn (.inr ⟨hnil, rfl⟩)
    · exact h.follows w L hw t ht hc n hn

/-- A property of sets that the lookahead behind the text has and that lookaheads keep when they
join others and when more are demanded. -/
structure Inherits (g : FlatGrammar) (P : TokenSet → Prop) : Prop where
  eof : P (.singleton .eof)
  union : ∀ {t u}, P t → P u → P (t.union u)
  demand : ∀ {i d given}, Demand.ofSteps g.openings (Item.rest g i) = some d → P given →
    P (d.lookaheads given)

/-- The set of each variable has a property. -/
def Each (P : TokenSet → Prop) (known : Lookaheads) : Prop :=
  ∀ v L, known.get v = some L → P L

variable {P : TokenSet → Prop}

theorem Each.add (hP : Inherits g P) (h : Each P known) {v : Nat} {more : TokenSet} (hm : P more) :
    Each P (known.add v more) := by
  intro w L hw
  rw [get_add] at hw
  split at hw
  · obtain rfl := Option.some.inj hw
    cases hv : known.get v with
    | none =>
      have he : TokenSet.empty.union more = more := by simp [TokenSet.union, TokenSet.empty]
      simpa [he] using hm
    | some L => exact hP.union (h v L hv) hm
  · exact h w L hw

theorem Each.sweep (hP : Inherits g P) (h : Each P known) :
    Each P (Lookaheads.sweep (Analysis.ofGrammar g) known) := by
  refine sweep_keeps (fun known v h => ?_) h
  unfold visit
  split
  · rename_i given hv
    split
    · exact h
    · have hg : P given := h v given (by simp [get, hv])
      refine meet_keeps (fun k d hd h => h.add hP ?_) h
      obtain ⟨m, hm, hd⟩ := mem_demands hd
      have hd' : Demand.ofSteps g.openings (Item.rest g ⟨.nonterminal v, m, 0⟩) = some d := by
        simpa [Item.rest, Item.productionIn_nonterminal hm] using hd
      exact hP.demand hd' hg
  · exact h

theorem Each.ofKernel (hP : Inherits g P) (hk : ∀ x ∈ kernel, P x.2) :
    Each P (Lookaheads.ofKernel (Analysis.ofGrammar g) kernel) := by
  refine ofKernel_keeps ?_ fun known x hx h => ?_
  · intro v L hv
    simp at hv
  · refine meet_keeps (fun k d hd h => h.add hP ?_) h
    exact hP.demand (Option.mem_toList.1 hd) (hk x hx)

end Lookaheads

namespace ItemSet

/-- All lookaheads are terminals of the grammar. -/
def Within (g : FlatGrammar) (items : ItemSet) : Prop :=
  ∀ x ∈ items, x.2.Within g.tokenCount

end ItemSet

namespace Analysis

variable {g : FlatGrammar} {kernel : ItemSet}

/-- The lookaheads of the variables that a closure is made of. -/
def lookaheads (a : Analysis) (kernel : ItemSet) : Lookaheads :=
  settle (Lookaheads.sweep a) (a.grammar.vars.size * (a.grammar.tokenCount + 1) + 1)
    (.ofKernel a kernel)

theorem closure_eq (a : Analysis) (kernel : ItemSet) :
    a.closure kernel = kernel ++ (a.lookaheads kernel).items a.grammar := rfl

@[simp] theorem size_lookaheads :
    ((ofGrammar g).lookaheads kernel).size = g.vars.size := by
  refine settle_keeps (P := fun k : Lookaheads => k.size = g.vars.size) (fun k hk => ?_) _ ?_
  · exact Lookaheads.sweep_keeps (P := fun k : Lookaheads => k.size = g.vars.size)
      (fun k v hk => by simpa using hk) hk
  · exact Lookaheads.size_ofKernel kernel

theorem mem_closure {i : Item} {given : TokenSet} :
    (i, given) ∈ (ofGrammar g).closure kernel ↔ (i, given) ∈ kernel ∨
      ∃ v n, i = ⟨.nonterminal v, n, 0⟩ ∧ n < (g.productionsOf (.nonterminal v)).length ∧
        ((ofGrammar g).lookaheads kernel).get v = some given := by
  rw [closure_eq, List.mem_append]
  exact or_congr Iff.rfl (Lookaheads.mem_items size_lookaheads)

theorem inherits_within (wf : g.WellFormed) : Lookaheads.Inherits g (·.Within g.tokenCount) where
  eof := TokenSet.within_singleton (by simp [TokenSet.position, FlatGrammar.tokenCount])
  union := .union
  demand {i d given} hd hg := by
    obtain ⟨ss, hss, hf⟩ := Demand.ofSteps_eq_some hd
    obtain ⟨v, follow⟩ := d
    subst hf
    refine Demand.within_lookaheads (FlatGrammar.within_openings wf) (fun x hx => ?_) hg
    obtain ⟨w, p, hp, hxp⟩ := Item.exists_production_of_mem hss hx
    exact wf.declares hp x hxp

/-- The lookaheads in a closure have what those in the kernel have. -/
theorem inherits_closure {P : TokenSet → Prop} (hP : Lookaheads.Inherits g P)
    (hk : ∀ x ∈ kernel, P x.2) : ∀ x ∈ (ofGrammar g).closure kernel, P x.2 := by
  have hl : Lookaheads.Each P ((ofGrammar g).lookaheads kernel) :=
    settle_keeps (fun known h => h.sweep hP) _ (.ofKernel hP hk)
  rintro ⟨i, L⟩ hx
  rcases mem_closure.1 hx with hx | ⟨v, n, -, -, hv⟩
  · exact hk _ hx
  · exact hl v L hv

end Analysis

namespace Lookaheads

/-- How much the lookaheads of the variables hold. -/
def weight (g : FlatGrammar) (known : Lookaheads) : Nat :=
  ∑ v ∈ Finset.range g.vars.size,
    match known.get v with
    | none => 0
    | some L => L.weight g.tokenCount + 1

theorem weight_le (g : FlatGrammar) (known : Lookaheads) :
    weight g known ≤ g.vars.size * (g.tokenCount + 1) := by
  have h := Finset.sum_le_card_nsmul (Finset.range g.vars.size)
    (fun v => match known.get v with
      | none => 0
      | some L => L.weight g.tokenCount + 1) (g.tokenCount + 1) fun v _ => by
    cases known.get v with
    | none => exact Nat.zero_le _
    | some L => exact Nat.add_le_add_right (TokenSet.weight_le _ L) 1
  simpa [weight] using h

theorem weight_lt {g : FlatGrammar} {known known' : Lookaheads} (hs : known.size = g.vars.size)
    (hs' : known'.size = g.vars.size) (hw : Each (·.Within g.tokenCount) known')
    (h : Le known known') (hne : known' ≠ known) : weight g known < weight g known' := by
  have hle : ∀ v, (match known.get v with
      | none => 0
      | some L => L.weight g.tokenCount + 1) ≤ (match known'.get v with
      | none => 0
      | some L => L.weight g.tokenCount + 1) := by
    intro v
    cases hv : known.get v with
    | none => exact Nat.zero_le _
    | some L =>
      obtain ⟨L', hv', hL⟩ := h v L hv
      simpa [hv'] using TokenSet.weight_mono hL
  obtain ⟨v, hv⟩ : ∃ v, known.get v ≠ known'.get v := by
    by_contra hall
    push Not at hall
    exact hne (ext_get (hs.trans hs'.symm) hall).symm
  have hlt : v < g.vars.size := by
    by_contra hge
    simp [get, Array.getElem?_eq_none (show known.size ≤ v by omega),
      Array.getElem?_eq_none (show known'.size ≤ v by omega)] at hv
  refine Finset.sum_lt_sum (fun v _ => hle v) ⟨v, Finset.mem_range.2 hlt, ?_⟩
  cases hL : known.get v with
  | none =>
    cases hL' : known'.get v with
    | none => exact absurd (hL.trans hL'.symm) hv
    | some L' => exact Nat.succ_pos _
  | some L =>
    obtain ⟨L', hL', hsub⟩ := h v L hL
    have hne' : L ≠ L' := by
      rintro rfl
      exact hv (hL.trans hL'.symm)
    simpa [hL'] using TokenSet.weight_lt hsub (hw v L' hL') hne'

theorem le_sweep (a : Analysis) (known : Lookaheads) : Le known (sweep a known) :=
  sweep_keeps (P := Le known) (fun _ v h => h.trans (le_visit v)) (.refl known)

end Lookaheads

namespace Analysis

variable {g : FlatGrammar} {kernel : ItemSet}

/-- The lookaheads are a fixed point: the sweeps did not run out. -/
theorem sweep_lookaheads (wf : g.WellFormed) (hk : kernel.Within g) :
    Lookaheads.sweep (ofGrammar g) ((ofGrammar g).lookaheads kernel) =
      (ofGrammar g).lookaheads kernel := by
  let P : Lookaheads → Prop := fun known =>
    known.size = g.vars.size ∧ Lookaheads.Each (·.Within g.tokenCount) known
  have keep : ∀ known, P known → P (Lookaheads.sweep (ofGrammar g) known) := by
    intro known h
    refine ⟨?_, h.2.sweep (inherits_within wf)⟩
    exact Lookaheads.sweep_keeps (P := fun k : Lookaheads => k.size = g.vars.size)
      (fun k v hk => by simpa using hk) h.1
  refine settle_fixed keep (Lookaheads.weight g)
    (fun known h hne => ?_) (fun known _ => Lookaheads.weight_le g known) ?_ ?_
  · exact Lookaheads.weight_lt h.1 (keep known h).1 (keep known h).2 (Lookaheads.le_sweep _ known)
      hne
  · exact ⟨Lookaheads.size_ofKernel kernel,
      .ofKernel (inherits_within wf) hk⟩
  · exact Nat.lt_of_lt_of_le (Nat.lt_succ_self _) (Nat.le_add_right _ _)

theorem le_lookaheads : Lookaheads.Le (.ofKernel (ofGrammar g) kernel)
    ((ofGrammar g).lookaheads kernel) :=
  settle_keeps (P := Lookaheads.Le (.ofKernel (ofGrammar g) kernel))
    (fun known h => h.trans (Lookaheads.le_sweep _ known)) _ (.refl _)

theorem get_ofKernel {i : Item} {given : TokenSet} (hi : (i, given) ∈ kernel) {d : Demand}
    (hd : Demand.ofSteps g.openings (i.rest g) = some d) (hv : d.target < g.vars.size) :
    ∃ L, (Lookaheads.ofKernel (ofGrammar g) kernel).get d.target = some L ∧
      d.lookaheads given ⊆ L := by
  -- The item's demand is met when the fold comes to it, and nothing is lost after that.
  have key : ∀ (xs : ItemSet) (k : Lookaheads), k.size = g.vars.size → (i, given) ∈ xs →
      ∃ L, (xs.foldl (fun (known : Lookaheads) (x : Item × TokenSet) =>
        known.meet (Demand.ofSteps g.openings (x.1.rest g)).toList x.2) k).get d.target = some L ∧
        d.lookaheads given ⊆ L := by
    have later : ∀ (xs : ItemSet) (k : Lookaheads),
        k.Le (xs.foldl (fun (known : Lookaheads) (x : Item × TokenSet) =>
          known.meet (Demand.ofSteps g.openings (x.1.rest g)).toList x.2) k) := by
      intro xs
      induction xs with
      | nil => intro k; exact .refl k
      | cons x xs ih => intro k; exact (Lookaheads.le_meet _ _).trans (ih _)
    intro xs
    induction xs with
    | nil => intro k _ h; cases h
    | cons x xs ih =>
      intro k hs hmem
      rcases List.mem_cons.1 hmem with rfl | hmem
      · have hdm : d ∈ (Demand.ofSteps g.openings (i.rest g)).toList := Option.mem_toList.2 hd
        obtain ⟨L, hL, hsub⟩ := Lookaheads.get_meet hdm (show d.target < k.size by omega)
        obtain ⟨L', hL', hsub'⟩ := later xs _ _ _ hL
        exact ⟨L', hL', TokenSet.subset_trans hsub hsub'⟩
      · exact ih _ (by simpa using hs) hmem
  exact key kernel _ (by simp [ofGrammar]) hi

/-- A variable after the dot of an item of the closure has the lookaheads that the item demands, if
the item is one of the kernel or has a lookahead. -/
theorem get_lookaheads (wf : g.WellFormed) (hk : kernel.Within g) {i : Item} {given : TokenSet}
    (hi : (i, given) ∈ kernel ∨
      (i, given) ∈ (ofGrammar g).closure kernel ∧ ∃ u, given.contains u = true)
    {v : Nat} {ss : List Symbol} (hss : i.after g = .nonterminal v :: ss) (hv : v < g.vars.size) :
    ∃ L, ((ofGrammar g).lookaheads kernel).get v = some L ∧
      Demand.lookaheads ⟨v, .ofSymbols g.openings ss⟩ given ⊆ L := by
  have hd : Demand.ofSteps g.openings (i.rest g) = some ⟨v, .ofSymbols g.openings ss⟩ :=
    Demand.ofSteps_of_cons hss
  have hkernel (hi : (i, given) ∈ kernel) : ∃ L, ((ofGrammar g).lookaheads kernel).get v = some L ∧
      Demand.lookaheads ⟨v, .ofSymbols g.openings ss⟩ given ⊆ L := by
    obtain ⟨L, hL, hsub⟩ := get_ofKernel hi hd hv
    obtain ⟨L', hL', hsub'⟩ := le_lookaheads v L hL
    exact ⟨L', hL', TokenSet.subset_trans hsub hsub'⟩
  rcases hi with hi | ⟨hi, u, hu⟩
  · exact hkernel hi
  · rcases mem_closure.1 hi with hi | ⟨w, n, rfl, hn, hw⟩
    · exact hkernel hi
    · have hne : given.isEmpty = false := by
        rw [Bool.eq_false_iff]
        intro he
        rw [TokenSet.isEmpty_iff.1 he] at hu
        simp at hu
      have hw' := FlatGrammar.lt_of_productionsOf hn
      have hvisit :=
        Lookaheads.visit_of_sweep_eq (sweep_lookaheads wf hk) (v := w) (by simpa using hw')
      rw [Lookaheads.visit_eq w hw hne] at hvisit
      have hmem : (⟨v, .ofSymbols g.openings ss⟩ : Demand) ∈
          (ofGrammar g).demands[w]?.getD [] := by
        apply Lookaheads.demand_mem hn
        simpa [Item.rest, Item.productionIn_nonterminal hn] using hd
      rw [← hvisit]
      exact Lookaheads.get_meet hmem (by simpa using hv)

/-- The closure holds every item with every lookahead that follows. -/
theorem mem_closure_of_follows (wf : g.WellFormed) (hk : kernel.Within g) {i : Item} {t : Symbol}
    (h : ItemSet.Follows g kernel i t) :
    ∃ given, (i, given) ∈ (ofGrammar g).closure kernel ∧ given.contains t = true := by
  induction h with
  | given hi _ hc => exact ⟨_, mem_closure.2 (.inl hi), hc⟩
  | @begun i given t v n ss hi hss hn hb =>
    obtain ⟨L, hL, hsub⟩ :=
      get_lookaheads wf hk (.inl hi) hss (FlatGrammar.lt_of_productionsOf hn)
    refine ⟨L, mem_closure.2 (.inr ⟨v, n, rfl, hn, hL⟩), TokenSet.contains_of_subset hsub ?_⟩
    exact (Demand.contains_lookaheads wf hb.isTerminal).2 (.inl hb)
  | @opened i u t v n ss ha hss hn ht ih =>
    obtain ⟨given, hi, hu⟩ := ih
    obtain ⟨L, hL, hsub⟩ :=
      get_lookaheads wf hk (.inr ⟨hi, u, hu⟩) hss (FlatGrammar.lt_of_productionsOf hn)
    refine ⟨L, mem_closure.2 (.inr ⟨v, n, rfl, hn, hL⟩), ?_⟩
    apply TokenSet.contains_of_subset hsub
    rw [Demand.contains_lookaheads wf (ht.isTerminal ha.isTerminal)]
    rcases ht with hb | ⟨hnil, rfl⟩
    · exact .inl hb
    · exact .inr ⟨hnil, hu⟩

/-- The closure holds every item with every lookahead that it allows. -/
theorem mem_closure_of_allows (wf : g.WellFormed) (hk : kernel.Within g) {i : Item} {t : Symbol}
    (h : ItemSet.Allows g kernel i t) :
    ∃ given, (i, given) ∈ (ofGrammar g).closure kernel ∧ given.contains t = true :=
  mem_closure_of_follows wf hk h.follows

/-- The sweeps find no lookahead that does not follow. -/
theorem sound_lookaheads (wf : g.WellFormed) :
    Lookaheads.Sound g kernel ((ofGrammar g).lookaheads kernel) := by
  refine settle_keeps (fun known h => Lookaheads.sweep_keeps (fun known v h => ?_) h) _ ?_
  · unfold Lookaheads.visit
    split
    · rename_i given hv
      split
      · exact h
      · rename_i he
        obtain ⟨x, hx, hxc⟩ := TokenSet.exists_contains he
        have hget : known.get v = some given := by simp [Lookaheads.get, hv]
        refine Lookaheads.meet_keeps (fun k d hd hk => ?_) h
        obtain ⟨m, hm, hd⟩ := Lookaheads.mem_demands hd
        have hd' : Demand.ofSteps g.openings (Item.rest g ⟨.nonterminal v, m, 0⟩) = some d := by
          simpa [Item.rest, Item.productionIn_nonterminal hm] using hd
        exact hk.demand wf (fun t ht hc => h.follows v given hget t ht hc m hm)
          (.inr ⟨x, h.follows v given hget x hx hxc m hm⟩) hd'
    · exact h
  · refine Lookaheads.ofKernel_keeps ⟨fun v L hv => by simp at hv, fun v L hv => by simp at hv⟩
      fun known x hx h => ?_
    exact Lookaheads.meet_keeps (fun k d hd hk => hk.demand wf
      (fun t ht hc => .given hx ht hc) (.inl ⟨x.2, hx⟩) (Option.mem_toList.1 hd)) h

/-- The closure holds no lookahead that does not follow. -/
theorem follows_of_mem_closure (wf : g.WellFormed) {i : Item} {given : TokenSet}
    (hi : (i, given) ∈ (ofGrammar g).closure kernel) {t : Symbol} (ht : t.isTerminal = true)
    (hc : given.contains t = true) : ItemSet.Follows g kernel i t := by
  rcases mem_closure.1 hi with hi | ⟨v, n, rfl, hn, hv⟩
  · exact .given hi ht hc
  · exact (sound_lookaheads wf).follows v given hv t ht hc n hn

/-- Where every item of the kernel has a lookahead, the closure holds no more than it allows. -/
theorem allows_of_mem_closure (wf : g.WellFormed) (hne : ∀ x ∈ kernel, x.2 ≠ .empty) {i : Item}
    {given : TokenSet} (hi : (i, given) ∈ (ofGrammar g).closure kernel) {t : Symbol}
    (ht : t.isTerminal = true) (hc : given.contains t = true) : ItemSet.Allows g kernel i t :=
  (ItemSet.follows_iff_allows hne).1 (follows_of_mem_closure wf hi ht hc)

end Analysis

end GrammarTables
