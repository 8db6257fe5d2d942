import GrammarTables.Opening
import GrammarTables.Proofs.Derivation
import GrammarTables.Proofs.TokenSet
import Mathlib.Algebra.BigOperators.Group.Finset.Basic
import Mathlib.Algebra.Order.BigOperators.Group.Finset

/-!
# Openings are exact

The computed opening of a list of symbols says exactly whether the symbols derive the empty text and
which terminals a sentential form derived from them can begin with. Each sweep only adds what is
derivable; a sweep that changes nothing has found all of it, and the weight of the openings bounds
how many sweeps there can be before that.
-/

namespace GrammarTables

namespace FlatGrammar

/-- What a symbol of a production may be: a token or a variable that the grammar has. -/
def Declares (g : FlatGrammar) : Symbol → Prop
  | .eof => False
  | .terminal i => i < g.tokens.size
  | .nonterminal v => v < g.vars.size

/-- All symbols that a grammar mentions are its own, and its extras are tokens. -/
structure WellFormed (g : FlatGrammar) : Prop where
  declares : ∀ {s : Symbol} {p : Production}, p ∈ g.productionsOf s → ∀ x ∈ p.symbols, g.Declares x
  extras : ∀ s ∈ g.extras, ∃ i < g.tokens.size, s = .terminal i

/-- Symbols derive a sentential form that begins with a terminal. -/
inductive Begins (g : FlatGrammar) : List Symbol → Symbol → Prop
  | here {t : Symbol} {ss : List Symbol} : t.isTerminal = true → Begins g (t :: ss) t
  | inside {v : Nat} {p : Production} {ss : List Symbol} {t : Symbol} :
      p ∈ g.productionsOf (.nonterminal v) → Begins g p.symbols t →
      Begins g (.nonterminal v :: ss) t
  | past {v : Nat} {ss : List Symbol} {t : Symbol} :
      g.Derives [.nonterminal v] [] → Begins g ss t → Begins g (.nonterminal v :: ss) t

variable {g : FlatGrammar}

theorem lt_of_productionsOf {v n : Nat} (hn : n < (g.productionsOf (.nonterminal v)).length) :
    v < g.vars.size := by
  by_contra hge
  simp [productionsOf_eq_nil (Nat.le_of_not_lt hge)] at hn

theorem Begins.isTerminal {ss : List Symbol} {t : Symbol} (h : g.Begins ss t) :
    t.isTerminal = true := by
  induction h with
  | here h => exact h
  | inside _ _ ih => exact ih
  | past _ _ ih => exact ih

theorem Begins.append_right {ss : List Symbol} {t : Symbol} (h : g.Begins ss t)
    (ts : List Symbol) : g.Begins (ss ++ ts) t := by
  induction h with
  | here h => exact .here h
  | inside hp h _ => exact .inside hp h
  | past hv _ ih => exact .past hv ih

end FlatGrammar

namespace Opening

variable {o o' : Array Opening}

/-- The opening of a variable. -/
def get (o : Array Opening) (v : Nat) : Opening := o[v]?.getD nothing

instance : LE Opening := ⟨fun a b => a.first ⊆ b.first ∧ (a.nullable = true → b.nullable = true)⟩

theorem le_refl (a : Opening) : a ≤ a := ⟨TokenSet.subset_refl _, id⟩

theorem le_antisymm {a b : Opening} (h : a ≤ b) (k : b ≤ a) : a = b := by
  have hf := TokenSet.subset_antisymm h.1 k.1
  have hn : a.nullable = b.nullable := Bool.eq_iff_iff.2 ⟨h.2, k.2⟩
  cases a
  cases b
  grind

theorem nothing_le (a : Opening) : nothing ≤ a := ⟨TokenSet.empty_subset _, by simp [nothing]⟩

@[simp] theorem first_orElse (a b : Opening) : (a.orElse b).first = a.first.union b.first := rfl

@[simp] theorem nullable_orElse (a b : Opening) :
    (a.orElse b).nullable = (a.nullable || b.nullable) := rfl

theorem ofSymbols_cons (s : Symbol) (ss : List Symbol) :
    ofSymbols o (s :: ss) = (ofSymbol o s).andThen (ofSymbols o ss) := rfl

@[simp] theorem ofSymbols_nil : ofSymbols o [] = blank := rfl

theorem contains_andThen {a b : Opening} {t : Symbol} :
    (a.andThen b).first.contains t = true ↔
      a.first.contains t = true ∨ (a.nullable = true ∧ b.first.contains t = true) := by
  unfold andThen
  split <;> simp_all

theorem nullable_andThen {a b : Opening} :
    (a.andThen b).nullable = true ↔ a.nullable = true ∧ b.nullable = true := by
  unfold andThen
  split <;> grind

theorem andThen_mono {a b a' b' : Opening} (h : a ≤ a') (k : b ≤ b') :
    a.andThen b ≤ a'.andThen b' := by
  refine ⟨fun i hi => ?_, fun hn => ?_⟩
  · rw [TokenSet.testBit_eq_contains, contains_andThen] at hi ⊢
    exact hi.imp (TokenSet.contains_of_subset h.1) (And.imp h.2 (TokenSet.contains_of_subset k.1))
  · rw [nullable_andThen] at hn ⊢
    exact hn.imp h.2 k.2

theorem contains_ofProductions {ps : List Production} {t : Symbol} :
    (ofProductions o ps).first.contains t = true ↔
      ∃ p ∈ ps, (ofSymbols o p.symbols).first.contains t = true := by
  have key : ∀ (ps : List Production) (a : Opening),
      (ps.foldl (fun a p => a.orElse (ofSymbols o p.symbols)) a).first.contains t = true ↔
        a.first.contains t = true ∨ ∃ p ∈ ps, (ofSymbols o p.symbols).first.contains t = true := by
    intro ps
    induction ps with
    | nil => simp
    | cons p ps ih => intro a; simp [ih, or_assoc]
  simp [ofProductions, key, nothing]

theorem nullable_ofProductions {ps : List Production} :
    (ofProductions o ps).nullable = true ↔ ∃ p ∈ ps, (ofSymbols o p.symbols).nullable = true := by
  have key : ∀ (ps : List Production) (a : Opening),
      (ps.foldl (fun a p => a.orElse (ofSymbols o p.symbols)) a).nullable = true ↔
        a.nullable = true ∨ ∃ p ∈ ps, (ofSymbols o p.symbols).nullable = true := by
    intro ps
    induction ps with
    | nil => simp
    | cons p ps ih => intro a; simp [ih, or_assoc]
  simp [ofProductions, key, nothing]

theorem get_sweep (g : FlatGrammar) (v : Nat) :
    get (sweep g o) v = ofProductions o (g.productionsOf (.nonterminal v)) := by
  simp only [get, sweep, Array.getElem?_map, FlatGrammar.productionsOf, FlatGrammar.variableOf?]
  cases g.vars[v]? <;> rfl

@[simp] theorem size_sweep (g : FlatGrammar) : (sweep g o).size = g.vars.size := by simp [sweep]

/-- Every opening says only what can be derived. -/
def Sound (g : FlatGrammar) (o : Array Opening) : Prop :=
  ∀ v, ((get o v).nullable = true → g.Derives [.nonterminal v] []) ∧
    ∀ t : Symbol, t.isTerminal = true → (get o v).first.contains t = true →
      g.Begins [.nonterminal v] t

variable {g : FlatGrammar}

theorem contains_ofSymbol_terminal {s t : Symbol} (hs : s.isTerminal = true)
    (ht : t.isTerminal = true) : (ofSymbol o s).first.contains t = true ↔ s = t := by
  cases s with
  | nonterminal => simp at hs
  | eof => exact TokenSet.contains_singleton_iff hs ht
  | terminal => exact TokenSet.contains_singleton_iff hs ht

theorem nullable_ofSymbol_terminal {s : Symbol} (hs : s.isTerminal = true) :
    (ofSymbol o s).nullable = false := by
  cases s with
  | nonterminal => simp at hs
  | eof => rfl
  | terminal => rfl

theorem Sound.ofSymbols (h : Sound g o) (ss : List Symbol) :
    ((Opening.ofSymbols o ss).nullable = true → g.Derives ss []) ∧
      ∀ t : Symbol, t.isTerminal = true → (Opening.ofSymbols o ss).first.contains t = true →
        g.Begins ss t := by
  induction ss with
  | nil => exact ⟨fun _ => .nil, fun t _ ht => by simp [blank] at ht⟩
  | cons s ss ih =>
    simp only [ofSymbols_cons, nullable_andThen, contains_andThen]
    by_cases hs : s.isTerminal = true
    · refine ⟨fun hn => ?_, fun t ht hc => ?_⟩
      · simp [nullable_ofSymbol_terminal hs] at hn
      · rw [contains_ofSymbol_terminal hs ht, nullable_ofSymbol_terminal hs] at hc
        obtain rfl : s = t := by simpa using hc
        exact .here hs
    · obtain ⟨v, rfl⟩ : ∃ v, s = .nonterminal v := by cases s <;> simp_all
      refine ⟨fun hn => ?_, fun t ht hc => ?_⟩
      · exact ((h v).1 hn.1).append (ih.1 hn.2)
      · rcases hc with hc | ⟨hn, hc⟩
        · exact ((h v).2 t ht hc).append_right ss
        · exact .past ((h v).1 hn) (ih.2 t ht hc)

theorem Sound.sweep (h : Sound g o) : Sound g (Opening.sweep g o) := by
  intro v
  rw [get_sweep, nullable_ofProductions]
  refine ⟨?_, fun t ht hc => ?_⟩
  · rintro ⟨p, hp, hn⟩
    exact .single hp ((h.ofSymbols _).1 hn)
  · obtain ⟨p, hp, hc⟩ := contains_ofProductions.1 hc
    exact .inside hp ((h.ofSymbols _).2 t ht hc)

/-- Nothing can be added: every variable has what its productions open with. -/
def Closed (g : FlatGrammar) (o : Array Opening) : Prop :=
  ∀ v, ∀ p ∈ g.productionsOf (.nonterminal v), Opening.ofSymbols o p.symbols ≤ get o v

theorem le_ofProductions {ps : List Production} {p : Production} (hp : p ∈ ps) :
    Opening.ofSymbols o p.symbols ≤ ofProductions o ps := by
  refine ⟨fun i hi => ?_, fun hn => nullable_ofProductions.2 ⟨p, hp, hn⟩⟩
  rw [TokenSet.testBit_eq_contains] at hi ⊢
  exact contains_ofProductions.2 ⟨p, hp, hi⟩

theorem closed_of_sweep_eq (fixed : sweep g o = o) : Closed g o := by
  intro v p hp
  rw [← fixed, get_sweep, fixed]
  exact le_ofProductions hp

/-- Closed openings say that symbols can be empty if they derive the empty text. -/
theorem Closed.nullable_of_derives (h : Closed g o) {ss : List Symbol} {w : List Nat}
    (hd : g.Derives ss w) (hw : w = []) : (Opening.ofSymbols o ss).nullable = true := by
  induction hd with
  | nil => rfl
  | token => simp at hw
  | @expand v p ss u w hp _ _ ihu ihw =>
    obtain ⟨rfl, rfl⟩ := List.append_eq_nil_iff.1 hw
    rw [ofSymbols_cons, nullable_andThen]
    exact ⟨(h v p hp).2 (ihu rfl), ihw rfl⟩

/-- Closed openings have the terminals that symbols begin with. -/
theorem Closed.contains_of_begins (h : Closed g o) {ss : List Symbol} {t : Symbol}
    (hb : g.Begins ss t) : (Opening.ofSymbols o ss).first.contains t = true := by
  induction hb with
  | here ht =>
    rw [ofSymbols_cons, contains_andThen, contains_ofSymbol_terminal ht ht]
    exact .inl rfl
  | @inside v p ss t hp _ ih =>
    rw [ofSymbols_cons, contains_andThen]
    exact .inl (TokenSet.contains_of_subset (h v p hp).1 ih)
  | past hv _ ih =>
    rw [ofSymbols_cons, contains_andThen]
    have hn := h.nullable_of_derives hv rfl
    rw [ofSymbols_cons, nullable_andThen] at hn
    exact .inr ⟨hn.1, ih⟩

/-- A later sweep says of each variable at least what an earlier one says. -/
theorem sweep_mono (h : ∀ v, get o v ≤ get o' v) (v : Nat) :
    get (sweep g o) v ≤ get (sweep g o') v := by
  have hss : ∀ ss, ofSymbols o ss ≤ ofSymbols o' ss := by
    intro ss
    induction ss with
    | nil => exact le_refl _
    | cons s ss ih =>
      refine andThen_mono ?_ ih
      cases s with
      | nonterminal v => exact h v
      | eof => exact le_refl _
      | terminal => exact le_refl _
  rw [get_sweep, get_sweep]
  refine ⟨fun i hi => ?_, fun hn => ?_⟩
  · rw [TokenSet.testBit_eq_contains, contains_ofProductions] at hi ⊢
    obtain ⟨p, hp, hc⟩ := hi
    exact ⟨p, hp, TokenSet.contains_of_subset (hss _).1 hc⟩
  · rw [nullable_ofProductions] at hn ⊢
    obtain ⟨p, hp, hn⟩ := hn
    exact ⟨p, hp, (hss _).2 hn⟩

/-- How much the openings of the variables say. -/
def weight (g : FlatGrammar) (o : Array Opening) : Nat :=
  ∑ v ∈ Finset.range g.vars.size,
    ((get o v).first.weight g.tokenCount + (get o v).nullable.toNat)

/-- What holds of the openings after each sweep. -/
structure Growing (g : FlatGrammar) (o : Array Opening) : Prop where
  size : o.size = g.vars.size
  within : ∀ v, (get o v).first.Within g.tokenCount
  le : ∀ v, get o v ≤ get (sweep g o) v

theorem within_ofSymbols (h : ∀ v, (get o v).first.Within g.tokenCount) {ss : List Symbol}
    (hss : ∀ x ∈ ss, g.Declares x) : (ofSymbols o ss).first.Within g.tokenCount := by
  induction ss with
  | nil => exact TokenSet.within_empty
  | cons s ss ih =>
    have hs : (ofSymbol o s).first.Within g.tokenCount := by
      have hd := hss s (by simp)
      cases s with
      | eof => exact hd.elim
      | nonterminal v => exact h v
      | terminal i =>
        apply TokenSet.within_singleton
        simp only [FlatGrammar.Declares, TokenSet.position, FlatGrammar.tokenCount] at hd ⊢
        omega
    rw [ofSymbols_cons, andThen]
    split
    · exact hs.union (ih fun x hx => hss x (by simp [hx]))
    · exact hs

theorem Growing.sweep (wf : g.WellFormed) (h : Growing g o) : Growing g (Opening.sweep g o) := by
  refine ⟨size_sweep g, fun v => ?_, sweep_mono h.le⟩
  have key : ∀ (ps : List Production) (a : Opening), a.first.Within g.tokenCount →
      (∀ p ∈ ps, ∀ x ∈ p.symbols, g.Declares x) →
      (ps.foldl (fun a p => a.orElse (ofSymbols o p.symbols)) a).first.Within g.tokenCount := by
    intro ps
    induction ps with
    | nil => intro a ha _; exact ha
    | cons p ps ih =>
      intro a ha hps
      have hp := within_ofSymbols h.within (hps p (by simp))
      exact ih _ (ha.union hp) fun q hq => hps q (by simp [hq])
  rw [get_sweep]
  exact key _ _ TokenSet.within_empty fun p hp => wf.declares hp

theorem ext_get (hs : o.size = o'.size) (h : ∀ v < o.size, get o v = get o' v) : o = o' := by
  refine Array.ext hs fun v hv hv' => ?_
  simpa [get, hv, hv'] using h v hv

/-- Openings that say more weigh more. -/
theorem weight_lt (hs : o.size = g.vars.size) (hs' : o'.size = g.vars.size)
    (hle : ∀ v, get o v ≤ get o' v) (hw : ∀ v, (get o' v).first.Within g.tokenCount)
    (hne : o' ≠ o) : weight g o < weight g o' := by
  have hnull : ∀ v, (get o v).nullable.toNat ≤ (get o' v).nullable.toNat :=
    fun v => Bool.toNat_le_toNat (hle v).2
  obtain ⟨v, hv, hvne⟩ : ∃ v < g.vars.size, get o v ≠ get o' v := by
    by_contra hall
    push Not at hall
    exact hne (ext_get (hs.trans hs'.symm) (hs ▸ hall)).symm
  refine Finset.sum_lt_sum (fun i _ => ?_) ⟨v, Finset.mem_range.2 hv, ?_⟩
  · exact Nat.add_le_add (TokenSet.weight_mono (hle i).1) (hnull i)
  · by_cases hf : (get o v).first = (get o' v).first
    · have hn : (get o v).nullable ≠ (get o' v).nullable := by
        intro hn
        refine hvne (le_antisymm (hle v) ⟨?_, fun hn' => hn ▸ hn'⟩)
        rw [hf]
        exact TokenSet.subset_refl _
      have := (hle v).2
      rw [hf]
      cases hn₁ : (get o v).nullable <;> cases hn₂ : (get o' v).nullable <;> grind
    · have hlt := TokenSet.weight_lt (hle v).1 (hw v) hf
      have := hnull v
      omega

theorem weight_le (g : FlatGrammar) (o : Array Opening) :
    weight g o ≤ g.vars.size * (g.tokenCount + 1) := by
  have h := Finset.sum_le_card_nsmul (Finset.range g.vars.size)
    (fun v => (get o v).first.weight g.tokenCount + (get o v).nullable.toNat) (g.tokenCount + 1)
    fun v _ => Nat.add_le_add (TokenSet.weight_le _ _) (Bool.toNat_le _)
  simpa [weight] using h

@[simp] theorem get_replicate_nothing (n v : Nat) :
    get (Array.replicate n nothing) v = nothing := by
  simp only [get, Array.getElem?_replicate]
  split <;> rfl

end Opening

namespace FlatGrammar

variable {g : FlatGrammar}

theorem openings_sound (g : FlatGrammar) : Opening.Sound g g.openings := by
  refine settle_keeps (fun o h => Opening.Sound.sweep h) _ fun v => ?_
  rw [Opening.get_replicate_nothing]
  simp [Opening.nothing]

theorem growing_nothing (g : FlatGrammar) :
    Opening.Growing g (Array.replicate g.vars.size .nothing) := by
  refine ⟨by simp, fun v => ?_, fun v => ?_⟩
  · rw [Opening.get_replicate_nothing]
    exact TokenSet.within_empty
  · rw [Opening.get_replicate_nothing]
    exact Opening.nothing_le _

@[simp] theorem size_openings (g : FlatGrammar) : g.openings.size = g.vars.size :=
  settle_keeps (P := fun o : Array Opening => o.size = g.vars.size)
    (fun _ _ => Opening.size_sweep g) _ (by simp)

/-- The openings are a fixed point: the sweeps did not run out. -/
theorem sweep_openings (wf : g.WellFormed) : Opening.sweep g g.openings = g.openings :=
  settle_fixed (fun _ h => Opening.Growing.sweep wf h) (Opening.weight g)
    (fun _ h hne => Opening.weight_lt h.size (h.sweep wf).size h.le (h.sweep wf).within hne)
    (fun o _ => Opening.weight_le g o) (growing_nothing g) (by omega)

theorem closed_openings (wf : g.WellFormed) : Opening.Closed g g.openings :=
  Opening.closed_of_sweep_eq (sweep_openings wf)

theorem within_openings (wf : g.WellFormed) (v : Nat) :
    (Opening.get g.openings v).first.Within g.tokenCount :=
  (settle_keeps (fun _ h => Opening.Growing.sweep wf h) _ (growing_nothing g)).within v

theorem nullable_ofSymbols_iff (wf : g.WellFormed) {ss : List Symbol} :
    (Opening.ofSymbols g.openings ss).nullable = true ↔ g.Derives ss [] :=
  ⟨(g.openings_sound.ofSymbols ss).1,
    fun h => (closed_openings wf).nullable_of_derives h rfl⟩

theorem contains_ofSymbols_iff (wf : g.WellFormed) {ss : List Symbol} {t : Symbol}
    (ht : t.isTerminal = true) :
    (Opening.ofSymbols g.openings ss).first.contains t = true ↔ g.Begins ss t :=
  ⟨(g.openings_sound.ofSymbols ss).2 t ht, (closed_openings wf).contains_of_begins⟩

end FlatGrammar

end GrammarTables
