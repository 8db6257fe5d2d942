import GrammarTables.Proofs.MergedRuns

/-!
# Runs past unit states

Passing by unit states leaves silent reductions out of runs. A run goes on past a unit state unless
an extra comes next that the unit state passes over and the state at the end of its chain does not.
-/

namespace GrammarTables

open Machine
open Automaton (Spells)
open FlatGrammar (lookahead)

namespace Bypass

variable {g : FlatGrammar} {states : Array State}

/-- An extra that a unit state passes over is passed over too by the state that is entered in its
place. -/
def KeepsExtras (g : FlatGrammar) (states : Array State) : Prop :=
  ∀ ⦃p u k t e : Nat⦄ ⦃s x y : State⦄, states[p]? = some s → u ∈ s.successors →
    Ends g states s.goto? k u t → states[u]? = some x → states[t]? = some y →
    .shiftExtra ∈ x.on (.terminal e) → .shiftExtra ∈ y.on (.terminal e)

/-- The topmost state is a successor of the one below it. -/
def Entered (states : Array State) (u : Nat) (ρ : List Nat) : Prop :=
  ∀ p τ, ρ = p :: τ → ∃ s, states[p]? = some s ∧ u ∈ s.successors

theorem exposed_eq_some {ρ : List Nat} {v n : Nat} (h : exposed states ρ v = some n) :
    ∃ p τ s, ρ = p :: τ ∧ states[p]? = some s ∧ s.goto? v = some n := by
  cases ρ with
  | nil => cases h
  | cons p τ =>
    obtain ⟨s, hs, hn⟩ := Option.bind_eq_some_iff.1 h
    exact ⟨p, τ, s, rfl, hs, hn⟩

namespace Ends

variable {goto : Nat → Option Nat} {k u t : Nat}

theorem chain (h : Ends g states goto k u t) : Chain g states goto u t := by
  induction h with
  | here _ _ => exact .refl _
  | step hp _ ih => exact .step hp ih

/-- The state at the end of a chain is no unit state. -/
theorem getElem?_last (h : Ends g states goto k u t) :
    ∃ y, states[t]? = some y ∧ ∀ v, unit? g y ≠ some (.nonterminal v) := by
  induction h with
  | here hs hne => exact ⟨_, hs, hne⟩
  | step _ _ ih => exact ih

theorem of_chain {m : Nat} (hc : Chain g states goto m u) (h : Ends g states goto k u t) :
    ∃ j, Ends g states goto j m t := by
  induction hc with
  | refl _ => exact ⟨k, h⟩
  | step hp _ ih =>
    obtain ⟨j, hj⟩ := ih h
    exact ⟨j + 1, .step hp hj⟩

theorem eq_of_nil (h : Ends g states (exposed states []) k u t) : u = t := by
  cases h with
  | here _ _ => rfl
  | step hp _ =>
    obtain ⟨_, _, _, _, hn⟩ := hp
    cases hn

end Ends

/-- What a unit state passes over is passed over at the end of its chain. -/
theorem KeepsExtras.ends (hk : KeepsExtras g states) {ρ : List Nat} {k u t e : Nat}
    (hends : Ends g states (exposed states ρ) k u t) (hent : Entered states u ρ) {x y : State}
    (hx : states[u]? = some x) (hy : states[t]? = some y)
    (he : .shiftExtra ∈ x.on (.terminal e)) : .shiftExtra ∈ y.on (.terminal e) := by
  cases ρ with
  | nil =>
    obtain rfl := hends.eq_of_nil
    rw [hx] at hy
    cases hy
    exact he
  | cons p τ =>
    obtain ⟨s, hs, hu⟩ := hent p τ rfl
    rw [exposed_cons hs] at hends
    exact hk hs hu hends hx hy he

theorem not_unit_of_mem {s : State} {t : Symbol} {a : Action} (ha : a ∈ s.on t)
    (hne : a ≠ .shiftExtra) (hr : ∀ r, a ≠ .reduce r) (v : Nat) :
    unit? g s ≠ some (.nonterminal v) := by
  intro hunit
  rcases (isUnit_of_unit? hunit).all t a ha with h | ⟨r, h, -⟩
  · exact hne h
  · exact hr r h

/-- A reduction in a unit state takes that state alone from the stack, and makes its variable. -/
theorem pop_of_unit? {s : State} {t : Symbol} {r : Reduction} {u p v v' : Nat} {ρ τ : List Nat}
    (hunit : unit? g s = some (.nonterminal v')) (hr : .reduce r ∈ s.on t)
    (hpop : (u :: ρ).drop r.children = p :: τ) (hv : r.symbol = .nonterminal v) :
    ρ = p :: τ ∧ v = v' := by
  obtain ⟨hsilent, hv'⟩ := (isUnit_of_unit? hunit).of_reduce hr
  rw [hsilent.1] at hpop
  rw [hv, Symbol.nonterminal.injEq] at hv'
  exact ⟨hpop, hv'⟩

/-- An accepting run goes on when unit states are passed by, without some silent reductions. The
chain from the topmost state comes to an end since the run does. -/
theorem accepts_redirect (hk : KeepsExtras g states) {c : Config}
    {es : List Event} (ha : Accepts states c es) {u : Nat} {ρ : List Nat} (hc : c.stack = u :: ρ)
    (hent : Entered states u ρ) :
    ∃ k t es', Ends g states (exposed states ρ) k u t ∧
      Accepts (redirect g states) ⟨t :: ρ, c.rest⟩ es' ∧ Omits (OfUnit g states) es es' := by
  induction ha generalizing u ρ with
  | accept hs hacc =>
    cases hc
    refine ⟨0, _, [], .here hs (not_unit_of_mem hacc (by simp) (by simp)), ?_, .nil⟩
    exact .accept (redirect_state hs) ((State.mem_mapTargets rfl).2 hacc)
  | step hstep _ ih =>
    cases hstep with
    | @shift q n t σ w s r hs hn =>
      cases hc
      have hent' : Entered states n (u :: ρ) := by
        rintro p τ ⟨⟩
        exact ⟨s, hs, State.mem_successors_of_on hn⟩
      obtain ⟨k, t', es', hends, hrun, hsh⟩ := ih rfl hent'
      rw [exposed_cons hs] at hends
      refine ⟨0, u, _, .here hs (not_unit_of_mem hn (by simp) (by simp)), ?_, .keep _ hsh⟩
      refine .step (.shift (redirect_state hs) ?_) hrun
      exact State.shift_mem_mapTargets.2 ⟨n, hn, redirected_eq hends⟩
    | @extra q e σ w s hs he =>
      cases hc
      obtain ⟨k, t, es', hends, hrun, hsh⟩ := ih rfl hent
      obtain ⟨y, hy, -⟩ := hends.getElem?_last
      refine ⟨k, t, _, hends, .step (.extra (redirect_state hy) ?_) hrun, .keep _ hsh⟩
      rw [State.mem_mapTargets rfl]
      exact hk.ends hends hent hs hy he
    | @reduce q p n v σ τ w s s' r hs hr hpop hv hp hn =>
      cases hc
      have hent' : Entered states n (p :: τ) := by
        rintro p τ ⟨⟩
        exact ⟨s', hp, State.mem_successors_of_goto? hn⟩
      obtain ⟨k, t', es', hends, hrun, hsh⟩ := ih rfl hent'
      by_cases hunit : ∃ v', unit? g s = some (.nonterminal v')
      · -- The reduction is left out, and the chain goes on from where it leads.
        obtain ⟨v', hunit⟩ := hunit
        obtain ⟨rfl, rfl⟩ := pop_of_unit? hunit hr hpop hv
        have hpass : Passes g states (exposed states (p :: τ)) u n :=
          ⟨s, v, hs, hunit, by rw [exposed_cons hp, hn]⟩
        exact ⟨k + 1, t', es', .step hpass hends, hrun, .drop ⟨_, s, v, _, hs, hunit, hr⟩ hsh⟩
      · rw [exposed_cons hp] at hends
        refine ⟨0, u, _, .here hs fun v' h => hunit ⟨v', h⟩, ?_, .keep _ hsh⟩
        refine .step (.reduce (redirect_state hs) ?_ hpop hv (redirect_state hp) ?_) hrun
        · exact (State.mem_mapTargets rfl).2 hr
        · exact State.goto?_mapTargets_eq_some.2 ⟨n, hn, redirected_eq hends⟩

/-- From the topmost state of an accepting run that passes by unit states a chain comes to an end,
since a run cannot go around in unit states forever. -/
theorem exists_ends {c : Config} {es : List Event} (ha : Accepts (redirect g states) c es) {t : Nat}
    {ρ : List Nat} (hc : c.stack = t :: ρ) : ∃ k t', Ends g states (exposed states ρ) k t t' := by
  have hdet := detours_redirect g states
  induction ha generalizing t ρ with
  | accept hs' hacc =>
    cases hc
    obtain ⟨s, f, hs, rfl, -⟩ := hdet hs'
    rw [State.mem_mapTargets rfl] at hacc
    exact ⟨0, _, .here hs (not_unit_of_mem hacc (by simp) (by simp))⟩
  | step hstep _ ih =>
    cases hstep with
    | shift hs' hn =>
      cases hc
      obtain ⟨s, f, hs, rfl, -⟩ := hdet hs'
      obtain ⟨m, hm, -⟩ := State.shift_mem_mapTargets.1 hn
      exact ⟨0, _, .here hs (not_unit_of_mem hm (by simp) (by simp))⟩
    | extra _ _ => exact ih hc
    | @reduce q p n v σ τ w s' s₂' r hs' hr hpop hv hp' hn =>
      cases hc
      obtain ⟨s, f, hs, rfl, -⟩ := hdet hs'
      obtain ⟨s₂, f₂, hp, rfl, hchain⟩ := hdet hp'
      rw [State.mem_mapTargets rfl] at hr
      obtain ⟨m, hm, rfl⟩ := State.goto?_mapTargets_eq_some.1 hn
      by_cases hunit : ∃ v', unit? g s = some (.nonterminal v')
      · obtain ⟨v', hunit⟩ := hunit
        obtain ⟨rfl, rfl⟩ := pop_of_unit? hunit hr hpop hv
        obtain ⟨k, t', hends⟩ := ih rfl
        rw [exposed_cons hp] at hends ⊢
        obtain ⟨j, hj⟩ := hends.of_chain (hchain m)
        exact ⟨j + 1, t', .step ⟨s, v, hs, hunit, hm⟩ hj⟩
      · exact ⟨0, _, .here hs fun v' h => hunit ⟨v', h⟩⟩

/-- A target from which an accepting run goes on is the end of the chain that it was followed
along. -/
theorem ends_redirected {p m : Nat} {s : State} (hp : states[p]? = some s) {τ w : List Nat}
    {es : List Event}
    (ha : Accepts (redirect g states) ⟨redirected g states s m :: p :: τ, w⟩ es) :
    ∃ k, Ends g states (exposed states (p :: τ)) k m (redirected g states s m) := by
  obtain ⟨k, t, hends⟩ := exists_ends ha rfl
  rw [exposed_cons hp] at hends ⊢
  obtain ⟨j, hj⟩ := hends.of_chain (chain_redirected m)
  rw [redirected_eq hj]
  exact ⟨j, hj⟩

theorem entered_of_spells {α : List Symbol} {u : Nat} {ρ : List Nat}
    (h : Spells (Leads states) α (u :: ρ)) : Entered states u ρ := by
  rintro p τ rfl
  generalize hσ : u :: p :: τ = σ at h
  cases h with
  | start => cases hσ
  | @push α q n σ x _ hl =>
    cases hσ
    cases x with
    | eof => cases hl
    | terminal t =>
      obtain ⟨s, r, hs, hn⟩ := hl
      exact ⟨s, hs, State.mem_successors_of_on hn⟩
    | nonterminal v =>
      obtain ⟨s, hs, hn⟩ := hl
      exact ⟨s, hs, State.mem_successors_of_goto? hn⟩

/-- The symbols that lead to the first state of a chain, with the last one made into another symbol,
lead to its last state. -/
theorem spells_chain {items : Nat → Item → Prop} (hann : Annotated g states items)
    {α : List Symbol} {u t : Nat} {ρ : List Nat}
    (hc : Chain g states (exposed states ρ) u t) (hsp : Spells (Leads states) α (u :: ρ)) :
    ∃ β, Spells (Leads states) β (t :: ρ) ∧ ∀ w, g.Completes β w → g.Completes α w := by
  cases ρ with
  | nil =>
    cases hc with
    | refl => exact ⟨α, hsp, fun _ hw => hw⟩
    | step hp _ =>
      obtain ⟨_, _, _, _, hn⟩ := hp
      cases hn
  | cons p τ =>
    obtain ⟨s, hs, -⟩ := entered_of_spells hsp p τ rfl
    rw [exposed_cons hs] at hc
    rcases List.eq_nil_or_concat' α with rfl | ⟨α, x, rfl⟩
    · cases hsp.nil_inv
    · obtain ⟨y, hy, hcomp⟩ := hann.spelled_chain hs hc hsp
      exact ⟨_, hy, hcomp⟩

/-- A reduction in a unit state leads along the chain. -/
theorem Passes.accepts {ρ w : List Nat} {u n : Nat}
    (hp : Passes g states (exposed states ρ) u n) {x : State} (hx : states[u]? = some x)
    {r : Reduction} (hr : .reduce r ∈ x.on (lookahead w)) {es : List Event}
    (ha : Accepts states ⟨n :: ρ, w⟩ es) :
    OfUnit g states r ∧ Accepts states ⟨u :: ρ, w⟩ (.reduce r :: es) := by
  obtain ⟨x', v, hx', hunit, hn⟩ := hp
  rw [hx] at hx'
  cases hx'
  obtain ⟨p, τ, s, rfl, hs, hn⟩ := exposed_eq_some hn
  obtain ⟨hsilent, hv⟩ := (isUnit_of_unit? hunit).of_reduce hr
  have hpop : (u :: p :: τ).drop r.children = p :: τ := by rw [hsilent.1]; rfl
  exact ⟨⟨u, x, v, _, hx, hunit, hr⟩, .step (.reduce hx hr hpop hv hs hn) ha⟩

section Merged

variable {auto : Array Automaton.State} {merged : Array State} {group : Nat → Nat}
  (wf : g.WellFormed) (ht : Canonical.Table g auto states)
  (h : Merge.Merges states merged group)
include wf ht h

/-- A unit state of a chain that a run goes on from reduces before the next token, or passes over
it. -/
theorem unit_entry {α : List Symbol} {u n t : Nat} {ρ w : List Nat} {es : List Event}
    (hp : Passes g merged (exposed merged ρ) u n) (hc : Chain g merged (exposed merged ρ) n t)
    (hsp : Spells (Leads merged) α (u :: ρ)) (ha : Accepts (redirect g merged) ⟨t :: ρ, w⟩ es)
    {x : State} (hx : merged[u]? = some x) :
    (∃ e, lookahead w = .terminal e ∧ .shiftExtra ∈ x.on (.terminal e)) ∨
      ∃ r, .reduce r ∈ x.on (lookahead w) := by
  have hann := h.annotated ht
  obtain ⟨β, hβ, hcomp⟩ := spells_chain hann (.step hp hc) hsp
  have hα := hcomp _ (hann.completes (detours_redirect g merged) ha hβ)
  obtain ⟨q, σ, s, hq, hmap, hs, -⟩ := h.exists_member wf ht hα hsp
  have hne := h.member_on wf ht (detours_redirect g merged) hq hs ha hα
  obtain ⟨m, hm, hon, -⟩ := h.state hs
  obtain ⟨rfl, -⟩ := List.cons.inj hmap
  rw [hx] at hm
  cases hm
  obtain ⟨a, hamem⟩ := List.exists_mem_of_ne_nil _ hne
  have hmem : a.mapTarget group ∈ x.on (lookahead w) := by
    rw [hon _ hne]
    exact List.mem_map_of_mem hamem
  obtain ⟨x', v, hx', hunit, -⟩ := hp
  rw [hx] at hx'
  cases hx'
  rcases (isUnit_of_unit? hunit).all _ _ hmem with hextra | ⟨r, hr, -⟩
  · rw [hextra] at hmem
    obtain ⟨hex, -⟩ := h.extra ht (isTerminal_lookahead w) hx hmem
    obtain ⟨e, -, he⟩ := wf.extras _ (by simpa [FlatGrammar.isExtra] using hex)
    exact .inl ⟨e, he, he ▸ hmem⟩
  · rw [hr] at hmem
    exact .inr ⟨r, hmem⟩

/-- A run from the end of a chain is a run from its start when the silent reductions are added,
given the runs that begin with passing over an extra. -/
theorem accepts_chain {α : List Symbol} {k u t : Nat} {ρ w : List Nat} {es' : List Event}
    (ha : Accepts (redirect g merged) ⟨t :: ρ, w⟩ es')
    (hend : ∃ es, Accepts merged ⟨t :: ρ, w⟩ es ∧ Omits (OfUnit g merged) es es')
    (hextra : ∀ {k u e : Nat} {α : List Symbol} {x : State}, lookahead w = .terminal e →
      Ends g merged (exposed merged ρ) k u t → Spells (Leads merged) α (u :: ρ) →
      merged[u]? = some x → .shiftExtra ∈ x.on (.terminal e) →
      ∃ es, Accepts merged ⟨u :: ρ, w⟩ es ∧ Omits (OfUnit g merged) es es')
    (hends : Ends g merged (exposed merged ρ) k u t) (hsp : Spells (Leads merged) α (u :: ρ)) :
    ∃ es, Accepts merged ⟨u :: ρ, w⟩ es ∧ Omits (OfUnit g merged) es es' := by
  induction hends generalizing α with
  | here _ _ => exact hend
  | @step k u n t hp hends ih =>
    obtain ⟨x, v, hx, hunit, hn⟩ := id hp
    rcases unit_entry wf ht h hp hends.chain hsp ha hx with ⟨e, he, hxe⟩ | ⟨r, hr⟩
    · exact hextra he (.step hp hends) hsp hx hxe
    · obtain ⟨p, τ, s, rfl, hs, hn⟩ := exposed_eq_some hn
      obtain ⟨β, hβ, -⟩ := spells_chain (h.annotated ht) (.step hp (.refl n)) hsp
      obtain ⟨es, hes, hsh⟩ := ih ha hend hextra hβ
      obtain ⟨hunit, hrun⟩ := hp.accepts hx hr hes
      exact ⟨_, hrun, .drop hunit hsh⟩

omit wf in
/-- An extra that a unit state passes over has no other actions at the end of the chain. -/
theorem KeepsExtras.on_eq (hk : KeepsExtras g merged) {k u t e : Nat} {ρ : List Nat}
    {α : List Symbol} {x y : State} (hends : Ends g merged (exposed merged ρ) k u t)
    (hsp : Spells (Leads merged) α (u :: ρ)) (hx : merged[u]? = some x)
    (hxe : .shiftExtra ∈ x.on (.terminal e)) (hy : merged[t]? = some y) :
    y.on (.terminal e) = [.shiftExtra] :=
  (h.extra ht rfl hy (hk.ends hends (entered_of_spells hsp) hx hy hxe)).2

/-- An accepting run that passes by unit states is a run through them when the silent reductions are
added. -/
theorem accepts_of_redirect (hk : KeepsExtras g merged) {c : Config} {es' : List Event}
    (ha : Accepts (redirect g merged) c es') {k t u : Nat} {ρ : List Nat}
    (hstack : c.stack = t :: ρ) {α : List Symbol} (hends : Ends g merged (exposed merged ρ) k u t)
    (hsp : Spells (Leads merged) α (u :: ρ)) :
    ∃ es, Accepts merged ⟨u :: ρ, c.rest⟩ es ∧ Omits (OfUnit g merged) es es' := by
  have hann := h.annotated ht
  have hdet := detours_redirect g merged
  induction ha generalizing k t u ρ α with
  | @accept q σ s' hs' hacc =>
    cases hstack
    refine accepts_chain wf ht h (.accept hs' hacc) ?_ (fun he => by cases he) hends hsp
    obtain ⟨s, f, hs, rfl, -⟩ := hdet hs'
    rw [State.mem_mapTargets rfl] at hacc
    exact ⟨[], .accept hs hacc, .nil⟩
  | step hstep hrest ih =>
    have hwhole := Accepts.step hstep hrest
    cases hstep with
    | @shift q n b σ w s' r hs' hn =>
      cases hstack
      obtain ⟨s, hs, rfl⟩ := exists_of_redirect hs'
      obtain ⟨m, hm, rfl⟩ := State.shift_mem_mapTargets.1 hn
      refine accepts_chain wf ht h hwhole ?_ (fun he hends' hsp' hx hxe => ?_) hends hsp
      · obtain ⟨β, hβ, -⟩ := spells_chain hann hends.chain hsp
        have hpush : Spells (Leads merged) (β ++ [.terminal b]) (m :: t :: ρ) :=
          hβ.push ⟨s, r, hs, hm⟩
        obtain ⟨j, hj⟩ := ends_redirected hs hrest
        obtain ⟨es, hes, hsh⟩ := ih rfl hj hpush
        exact ⟨_, .step (.shift hs hm) hes, .keep _ hsh⟩
      · cases he
        rw [hk.on_eq ht h hends' hsp' hx hxe hs] at hm
        simp at hm
    | @extra q b σ w s' hs' he =>
      cases hstack
      obtain ⟨s, f, hs, rfl, -⟩ := hdet hs'
      rw [State.mem_mapTargets rfl] at he
      refine accepts_chain wf ht h hwhole ?_ (fun hb hends' hsp' hx hxe => ?_) hends hsp
      · obtain ⟨β, hβ, -⟩ := spells_chain hann hends.chain hsp
        obtain ⟨y, hy, hne⟩ := hends.getElem?_last
        obtain ⟨es, hes, hsh⟩ := ih rfl (.here hy hne) hβ
        exact ⟨_, .step (.extra hs he) hes, .keep _ hsh⟩
      · cases hb
        obtain ⟨es, hes, hsh⟩ := ih rfl hends' hsp'
        exact ⟨_, .step (.extra hx hxe) hes, .keep _ hsh⟩
    | @reduce q p n v σ τ w s' s₂' r hs' hr hpop hv hp' hn =>
      cases hstack
      obtain ⟨s, f, hs, rfl, -⟩ := hdet hs'
      obtain ⟨s₂, hp, rfl⟩ := exists_of_redirect hp'
      rw [State.mem_mapTargets rfl] at hr
      obtain ⟨m, hm, rfl⟩ := State.goto?_mapTargets_eq_some.1 hn
      refine accepts_chain wf ht h hwhole ?_ (fun he hends' hsp' hx hxe => ?_) hends hsp
      · obtain ⟨β, hβ, -⟩ := spells_chain hann hends.chain hsp
        obtain ⟨v', prod, -, β', rfl, hv', hlen⟩ :=
          hann.spelled_reduce hβ hs (isTerminal_lookahead w) hr
        have hdrop := hβ.drop
        rw [← hlen, hpop] at hdrop
        have hpush : Spells (Leads merged) (β' ++ [.nonterminal v]) (m :: p :: τ) :=
          hdrop.push ⟨s₂, hp, hm⟩
        obtain ⟨j, hj⟩ := ends_redirected hp hrest
        obtain ⟨es, hes, hsh⟩ := ih rfl hj hpush
        exact ⟨_, .step (.reduce hs hr hpop hv hp hm) hes, .keep _ hsh⟩
      · rw [he, hk.on_eq ht h hends' hsp' hx hxe hs] at hr
        simp at hr

end Merged

end Bypass

end GrammarTables
