import GrammarTables.Proofs.Preparation
import GrammarTables.Proofs.SententialForms

/-!
# Openings found in place

The openings can be found in one array, where what is added to a variable counts for the next one at
once. A production is gone through only up to its first symbol that cannot be empty as far as is
known then, and a variable is not added to itself. In the end nothing is missed: the openings are
those that sweeps over all variables find, and they say what the variables derive.
-/

namespace GrammarTables

namespace Opening

/-- Adds terminals to those that a variable can begin with. -/
def addFirst (o : Array Opening) (v : Nat) (more : TokenSet) : Array Opening :=
  o.modify v fun a => { a with first := a.first.union more }

/-- Adds to a variable what another one can begin with. -/
def addVariable (o : Array Opening) (v w : Nat) : Array Opening :=
  if w = v then o else addFirst o v (get o w).first

/-- Notes that a variable can be empty. -/
def addEmpty (o : Array Opening) (v : Nat) : Array Opening :=
  o.modify v fun a => { a with nullable := true }

/-- Adds to a variable what symbols begin with that it derives, up to the first one that cannot be
empty. -/
def scan (v : Nat) : List Symbol → Array Opening → Array Opening
  | [], o => addEmpty o v
  | .nonterminal w :: rest, o =>
    let o := addVariable o v w
    if (get o w).nullable then scan v rest o else o
  | t :: _, o => addFirst o v (.singleton t)

/-- Adds to a variable what its productions begin with. -/
def visit (g : FlatGrammar) (o : Array Opening) (v : Nat) : Array Opening :=
  (g.productionsOf (.nonterminal v)).foldl (fun o p => scan v p.symbols o) o

/-- Visits all variables. -/
def round (g : FlatGrammar) (o : Array Opening) : Array Opening :=
  (List.range g.vars.size).foldl (visit g) o

/-- The openings of the variables, found by visiting them until that adds nothing. -/
def inPlace (g : FlatGrammar) : Array Opening :=
  settle (round g) (g.vars.size * (g.tokenCount + 1) + 1) (Array.replicate g.vars.size .nothing)

variable {g : FlatGrammar} {o o' o'' : Array Opening} {v w : Nat}

/-- Openings of the same variables, of which the second say at least what the first say. -/
structure Le (o o' : Array Opening) : Prop where
  size_eq : o.size = o'.size
  get_le : ∀ v, get o v ≤ get o' v

theorem Le.refl (o : Array Opening) : Le o o := ⟨rfl, fun _ => le_refl _⟩

theorem le_trans {a b c : Opening} (h : a ≤ b) (k : b ≤ c) : a ≤ c :=
  ⟨TokenSet.subset_trans h.1 k.1, fun hn => k.2 (h.2 hn)⟩

theorem Le.trans (h : Le o o') (k : Le o' o'') : Le o o'' :=
  ⟨h.size_eq.trans k.size_eq, fun v => le_trans (h.get_le v) (k.get_le v)⟩

theorem Le.antisymm (h : Le o o') (k : Le o' o) : o = o' :=
  ext_get h.size_eq fun v _ => le_antisymm (h.get_le v) (k.get_le v)

theorem get_modify (f : Opening → Opening) :
    get (o.modify v f) w = if v = w ∧ v < o.size then f (get o v) else get o w := by
  simp only [get, Array.getElem?_modify]
  by_cases h : v = w
  · subst h
    by_cases hv : v < o.size <;> simp [hv]
  · simp [h]

theorem le_modify {f : Opening → Opening} (hf : ∀ a, a ≤ f a) : Le o (o.modify v f) := by
  refine ⟨by simp, fun w => ?_⟩
  rw [get_modify]
  split
  · rename_i h
    rw [← h.1]
    exact hf _
  · exact le_refl _

theorem le_addFirst (more : TokenSet) : Le o (addFirst o v more) :=
  le_modify fun a => ⟨TokenSet.subset_union_left a.first more, id⟩

theorem le_addVariable : Le o (addVariable o v w) := by
  unfold addVariable
  split
  · exact .refl o
  · exact le_addFirst _

theorem le_addEmpty : Le o (addEmpty o v) :=
  le_modify fun a => ⟨TokenSet.subset_refl a.first, fun _ => rfl⟩

theorem le_scan (ss : List Symbol) : Le o (scan v ss o) := by
  induction ss generalizing o with
  | nil => exact le_addEmpty
  | cons s ss ih =>
    cases s with
    | eof | terminal => exact le_addFirst _
    | nonterminal w =>
      rw [scan]
      split
      · exact le_addVariable.trans ih
      · exact le_addVariable

theorem le_visit (v : Nat) : Le o (visit g o v) :=
  List.foldlRecOn _ _ (.refl o) fun _ h p _ => h.trans (le_scan p.symbols)

theorem le_round : Le o (round g o) :=
  List.foldlRecOn _ _ (.refl o) fun _ h v _ => h.trans (le_visit v)

theorem Sound.addFirst (h : Sound g o) {more : TokenSet}
    (hm : ∀ t : Symbol, t.isTerminal = true → more.contains t = true →
      g.Begins [.nonterminal v] t) : Sound g (Opening.addFirst o v more) := by
  intro w
  rw [Opening.addFirst, get_modify]
  split
  · rename_i hvw
    obtain ⟨rfl, -⟩ := hvw
    refine ⟨(h v).1, fun t ht hc => ?_⟩
    rw [TokenSet.contains_union, Bool.or_eq_true] at hc
    exact hc.elim ((h v).2 t ht) (hm t ht)
  · exact h w

theorem Sound.addVariable (h : Sound g o) (hm : ∀ t, g.Begins [.nonterminal w] t →
    g.Begins [.nonterminal v] t) : Sound g (Opening.addVariable o v w) := by
  unfold Opening.addVariable
  split
  · exact h
  · exact h.addFirst fun t ht hc => hm t ((h w).2 t ht hc)

theorem Sound.addEmpty (h : Sound g o) (hv : g.Derives [.nonterminal v] []) :
    Sound g (Opening.addEmpty o v) := by
  intro w
  rw [Opening.addEmpty, get_modify]
  split
  · rename_i hvw
    obtain ⟨rfl, -⟩ := hvw
    exact ⟨fun _ => hv, (h v).2⟩
  · exact h w

/-- A variable is given only what it derives, if it derives what the symbols derive. -/
theorem Sound.scan (h : Sound g o) {ss : List Symbol}
    (hbegin : ∀ t, g.Begins ss t → g.Begins [.nonterminal v] t)
    (hempty : g.Derives ss [] → g.Derives [.nonterminal v] []) :
    Sound g (Opening.scan v ss o) := by
  induction ss generalizing o with
  | nil => exact h.addEmpty (hempty .nil)
  | cons s ss ih =>
    cases s with
    | eof | terminal =>
      refine h.addFirst fun t ht hc => hbegin t ?_
      rw [TokenSet.contains_singleton_iff rfl ht] at hc
      exact hc ▸ .here rfl
    | nonterminal w =>
      have hadd : Sound g (Opening.addVariable o v w) :=
        h.addVariable fun t hb => hbegin t (hb.append_right ss)
      rw [Opening.scan]
      split
      · rename_i hn
        have hw := (hadd w).1 hn
        exact ih hadd (fun t ht => hbegin t (.past hw ht)) fun hd => hempty (hw.append hd)
      · exact hadd

theorem Sound.visit (h : Sound g o) (v : Nat) : Sound g (Opening.visit g o v) :=
  List.foldlRecOn _ _ h fun _ h _ hp => h.scan (fun _ hb => .inside hp hb) (.single hp)

theorem Sound.round (h : Sound g o) : Sound g (Opening.round g o) :=
  List.foldlRecOn _ _ h fun _ h v _ => h.visit v

theorem subset_of_addFirst_eq (hv : v < o.size) {more : TokenSet} (h : addFirst o v more = o) :
    more ⊆ (get o v).first := by
  have hget := congrArg (get · v) h
  simp only [addFirst, get_modify, hv, and_self, if_true] at hget
  rw [← hget]
  intro i hi
  simp [TokenSet.union, hi]

theorem nullable_of_addEmpty_eq (hv : v < o.size) (h : addEmpty o v = o) :
    (get o v).nullable = true := by
  have hget := congrArg (get · v) h
  simp only [addEmpty, get_modify, hv, and_self, if_true] at hget
  rw [← hget]

/-- Symbols that add nothing to a variable open with nothing that it does not have. -/
theorem ofSymbols_le_of_scan_eq (hv : v < o.size) {ss : List Symbol} (h : scan v ss o = o) :
    ofSymbols o ss ≤ get o v := by
  induction ss with
  | nil => exact ⟨TokenSet.empty_subset _, fun _ => nullable_of_addEmpty_eq hv h⟩
  | cons s ss ih =>
    cases s with
    | eof | terminal => exact ⟨subset_of_addFirst_eq hv h, nofun⟩
    | nonterminal w =>
      -- What is added for the variable lies between the openings before and after, which are equal.
      have hadd : addVariable o v w = o := by
        refine Le.antisymm ?_ le_addVariable
        conv_rhs => rw [← h, scan]
        split
        · exact le_scan ss
        · exact .refl _
      have hfirst : (get o w).first ⊆ (get o v).first := by
        unfold addVariable at hadd
        split at hadd
        · rename_i hwv
          rw [hwv]
          exact TokenSet.subset_refl _
        · exact subset_of_addFirst_eq hv hadd
      rw [scan, hadd] at h
      change (get o w).andThen (ofSymbols o ss) ≤ get o v
      unfold andThen
      split
      · rename_i hn
        rw [if_pos hn] at h
        exact ⟨TokenSet.union_subset hfirst (ih h).1, (ih h).2⟩
      · rename_i hn
        exact ⟨hfirst, fun hn' => absurd hn' hn⟩

theorem closed_of_round_eq (hs : o.size = g.vars.size) (h : round g o = o) : Closed g o := by
  intro v p hp
  have hv : v < g.vars.size := FlatGrammar.lt_of_productionsOf (List.length_pos_of_mem hp)
  have hvisit : visit g o v = o :=
    foldl_fixed Le.refl Le.trans Le.antisymm (fun _ => le_visit) h v (List.mem_range.2 hv)
  have hscan : scan v p.symbols o = o :=
    foldl_fixed (f := fun o (p : Production) => scan v p.symbols o) Le.refl Le.trans Le.antisymm
      (fun _ p => le_scan p.symbols) hvisit p hp
  exact ofSymbols_le_of_scan_eq (hs ▸ hv) hscan

/-- Openings of the variables of a grammar, all of its terminals. -/
structure Fits (g : FlatGrammar) (o : Array Opening) : Prop where
  size_eq : o.size = g.vars.size
  within : ∀ v, (get o v).first.Within g.tokenCount

theorem Fits.addFirst (h : Fits g o) {more : TokenSet} (hm : more.Within g.tokenCount) :
    Fits g (Opening.addFirst o v more) := by
  refine ⟨by simpa [Opening.addFirst] using h.size_eq, fun w => ?_⟩
  rw [Opening.addFirst, get_modify]
  split
  · exact (h.within v).union hm
  · exact h.within w

theorem Fits.addVariable (h : Fits g o) : Fits g (Opening.addVariable o v w) := by
  unfold Opening.addVariable
  split
  · exact h
  · exact h.addFirst (h.within w)

theorem Fits.addEmpty (h : Fits g o) : Fits g (Opening.addEmpty o v) := by
  refine ⟨by simpa [Opening.addEmpty] using h.size_eq, fun w => ?_⟩
  rw [Opening.addEmpty, get_modify]
  split
  · exact h.within v
  · exact h.within w

theorem Fits.scan (h : Fits g o) {ss : List Symbol} (hss : ∀ x ∈ ss, g.Declares x) :
    Fits g (Opening.scan v ss o) := by
  induction ss generalizing o with
  | nil => exact h.addEmpty
  | cons s ss ih =>
    cases s with
    | eof => exact (hss .eof List.mem_cons_self).elim
    | terminal i =>
      have hi : i < g.tokens.size := hss (.terminal i) List.mem_cons_self
      refine h.addFirst (TokenSet.within_singleton ?_)
      simp only [TokenSet.position, FlatGrammar.tokenCount]
      omega
    | nonterminal w =>
      rw [Opening.scan]
      split
      · exact ih h.addVariable fun x hx => hss x (List.mem_cons_of_mem _ hx)
      · exact h.addVariable

theorem Fits.round (wf : g.WellFormed) (h : Fits g o) : Fits g (Opening.round g o) :=
  List.foldlRecOn _ _ h fun _ h _ _ =>
    List.foldlRecOn _ _ h fun _ h _ hp => h.scan (wf.declares hp)

@[simp] theorem andThen_blank (a : Opening) : a.andThen blank = a := by
  obtain ⟨first, nullable⟩ := a
  cases nullable <;> simp [andThen, blank, TokenSet.union, TokenSet.empty]

/-- Openings that say only what can be derived say no more than closed ones. -/
theorem Sound.get_le (h : Sound g o) (h' : Closed g o') (v : Nat) : get o v ≤ get o' v := by
  have hsymbols : Opening.ofSymbols o' [.nonterminal v] = get o' v := andThen_blank _
  refine ⟨fun i hi => ?_, fun hn => ?_⟩
  · rw [TokenSet.testBit_eq_contains] at hi ⊢
    rw [← hsymbols]
    exact h'.contains_of_begins ((h v).2 _ (TokenSet.isTerminal_symbolAt i) hi)
  · rw [← hsymbols]
    exact h'.nullable_of_derives ((h v).1 hn) rfl

theorem sound_nothing (g : FlatGrammar) : Sound g (Array.replicate g.vars.size nothing) := by
  intro v
  rw [get_replicate_nothing]
  simp [nothing]

theorem fits_nothing (g : FlatGrammar) : Fits g (Array.replicate g.vars.size nothing) :=
  ⟨by simp, fun v => by rw [get_replicate_nothing]; exact TokenSet.within_empty⟩

theorem sound_inPlace (g : FlatGrammar) : Sound g (inPlace g) :=
  settle_keeps (fun _ h => h.round) _ (sound_nothing g)

theorem fits_inPlace (wf : g.WellFormed) : Fits g (inPlace g) :=
  settle_keeps (fun _ h => h.round wf) _ (fits_nothing g)

/-- The rounds did not run out: another one adds nothing. -/
theorem round_inPlace (wf : g.WellFormed) : round g (inPlace g) = inPlace g :=
  settle_fixed (fun _ h => h.round wf) (weight g)
    (fun o h hne => weight_lt h.size_eq (h.round wf).size_eq (le_round (g := g) (o := o)).get_le
      (h.round wf).within hne)
    (fun o _ => weight_le g o) (fits_nothing g) (by omega)

/-- In place the same openings are found as by sweeps. -/
theorem inPlace_eq (wf : g.WellFormed) : inPlace g = g.openings := by
  have hsize : (inPlace g).size = g.vars.size := (fits_inPlace wf).size_eq
  have hclosed := closed_of_round_eq hsize (round_inPlace wf)
  refine ext_get (hsize.trans (g.size_openings).symm) fun v _ => ?_
  exact le_antisymm ((sound_inPlace g).get_le (FlatGrammar.closed_openings wf) v)
    (g.openings_sound.get_le hclosed v)

end Opening

/-- The openings of a grammar's variables are exact, whether they are found by sweeps or in place: a
variable can be empty exactly if it is rewritten to the empty sentential form, and it can begin with
exactly the terminals that stand first in its sentential forms. -/
theorem openings_exact [RegexEngine] {source : Grammar} {g : FlatGrammar}
    (h : FlatGrammar.ofGrammar source = .ok g) :
    Opening.round g (Opening.inPlace g) = Opening.inPlace g ∧ Opening.inPlace g = g.openings ∧
      ∀ v < g.vars.size, ∃ o, g.openings[v]? = some o ∧
        (o.nullable = true ↔ g.Yields [.nonterminal v] []) ∧
        ∀ t : Symbol, t.isTerminal = true →
          (o.first.contains t = true ↔ ∃ rest, g.Yields [.nonterminal v] (t :: rest)) := by
  have wf := FlatGrammar.wellFormed_of_ofGrammar h
  refine ⟨Opening.round_inPlace wf, Opening.inPlace_eq wf, fun v hv => ?_⟩
  have hlt : v < g.openings.size := g.size_openings.symm ▸ hv
  have hsymbols : Opening.ofSymbols g.openings [.nonterminal v] = g.openings[v] := by
    rw [Opening.ofSymbols_cons, Opening.ofSymbols_nil, Opening.andThen_blank]
    exact (congrArg (·.getD Opening.nothing) (Array.getElem?_eq_getElem hlt))
  refine ⟨_, Array.getElem?_eq_getElem hlt, ?_, fun t ht => ?_⟩
  · rw [← hsymbols, FlatGrammar.nullable_ofSymbols_iff wf, FlatGrammar.derives_nil_iff]
  · rw [← hsymbols, FlatGrammar.contains_ofSymbols_iff wf ht, FlatGrammar.begins_iff_yields ht]

/-- A grammar whose start may be empty and whose variables are left recursive through each other. -/
def Grammar.entwined : Grammar where
  name := "entwined"
  rules := [⟨"start", .choice [.blank, .seq [.symbol "tail", .string "a"]]⟩,
    ⟨"tail", .choice [.seq [.symbol "start", .string "b"], .seq [.symbol "tail", .string "c"]]⟩]

/-- The tail of the entwined grammar begins with a `b` behind an empty start, and not with a `c`. -/
theorem openings_exact_entwined : ∃ g, FlatGrammar.ofGrammar .entwined = .ok g ∧
    Opening.inPlace g = #[⟨.singleton (.terminal 1), true⟩, ⟨.singleton (.terminal 1), false⟩] ∧
    g.Yields [.nonterminal 0] [] ∧ (∃ rest, g.Yields [.nonterminal 1] (.terminal 1 :: rest)) ∧
    ¬ ∃ rest, g.Yields [.nonterminal 1] (.terminal 2 :: rest) := by
  obtain ⟨g, h, hsize, hopenings⟩ : ∃ g, FlatGrammar.ofGrammar .entwined = .ok g ∧
      g.vars.size = 2 ∧ g.openings =
        #[⟨.singleton (.terminal 1), true⟩, ⟨.singleton (.terminal 1), false⟩] :=
    FlatGrammar.exists_of_decide (by decide +kernel)
  obtain ⟨-, heq, hexact⟩ := openings_exact h
  obtain ⟨start, hstart, hempty, -⟩ := hexact 0 (by omega)
  obtain ⟨tail, htail, -, hfirst⟩ := hexact 1 (by omega)
  rw [hopenings] at heq hstart htail
  cases hstart
  cases htail
  exact ⟨g, h, heq, hempty.1 rfl, (hfirst (.terminal 1) rfl).1 (by decide),
    fun hc => absurd ((hfirst (.terminal 2) rfl).2 hc) (by decide)⟩

end GrammarTables
