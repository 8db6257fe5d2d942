import GrammarTables.ParseTable.Basic
import GrammarTables.Proofs.Validity

/-!
# Runs of a table

The machine of a table has a stack of states and the rest of a text. Where an entry has several
actions the machine may take any of them. A run ends when the end of the text is accepted; what it
did on the way is a list of events.
-/

namespace GrammarTables

/-- What a step of a run does. -/
inductive Event where
  | shift (token : Nat) (repetition : Bool)
  | extra (token : Nat)
  | reduce (reduction : Reduction)
  deriving DecidableEq

namespace Event

/-- The token that is consumed. -/
def token? : Event → Option Nat
  | .shift t _ => some t
  | .extra t => some t
  | .reduce _ => none

/-- The token that comes onto the stack. -/
def shifted? : Event → Option Nat
  | .shift t _ => some t
  | _ => none

end Event

/-- The tokens that come onto the stack in a run. -/
def shifted (es : List Event) : List Nat := es.filterMap Event.shifted?

namespace State

variable {s : State} {f : Nat → Nat}

@[simp] theorem on_mapTargets (s : State) (f : Nat → Nat) (t : Symbol) :
    (s.mapTargets f).on t = (s.on t).map (·.mapTarget f) := by
  simp only [on, mapTargets, Array.getElem?_map]
  cases s.actions[TokenSet.position t]? <;> rfl

@[simp] theorem goto?_mapTargets (s : State) (f : Nat → Nat) (v : Nat) :
    (s.mapTargets f).goto? v = (s.goto? v).map f := by
  simp only [goto?, mapTargets, Array.getElem?_map]
  cases s.gotos[v]? <;> rfl

@[simp] theorem mapTargets_id (s : State) : s.mapTargets (fun n => n) = s := by
  have hm : (fun as : List Action => as.map (·.mapTarget fun n => n)) = id := by
    funext as
    simp
  have hg : (fun o : Option Nat => o.map fun n => n) = id := by
    funext o
    cases o <;> rfl
  simp only [mapTargets, hm, hg, Array.map_id]

theorem mem_successors_of_on {t : Symbol} {n : Nat} {r : Bool} (h : .shift n r ∈ s.on t) :
    n ∈ s.successors := by
  unfold on at h
  cases ha : s.actions[TokenSet.position t]? with
  | none => simp [ha] at h
  | some as =>
    rw [ha] at h
    refine List.mem_append_left _ (List.mem_flatMap.2 ⟨as, ?_, List.mem_filterMap.2 ⟨_, h, rfl⟩⟩)
    exact Array.mem_toList_iff.2 (Array.mem_of_getElem? ha)

theorem mem_successors_of_goto? {v n : Nat} (h : s.goto? v = some n) : n ∈ s.successors := by
  have hv : s.gotos[v]? = some (some n) := Option.join_eq_some_iff.1 h
  refine List.mem_append_right _ (List.mem_filterMap.2 ⟨some n, ?_, rfl⟩)
  exact Array.mem_toList_iff.2 (Array.mem_of_getElem? hv)

end State

namespace Action

variable {f : Nat → Nat}

theorem mem_map_shift {as : List Action} {m : Nat} {r : Bool} :
    .shift m r ∈ as.map (·.mapTarget f) ↔ ∃ n, .shift n r ∈ as ∧ f n = m := by
  rw [List.mem_map]
  constructor
  · rintro ⟨a, ha, he⟩
    cases a <;> simp [mapTarget] at he
    obtain ⟨rfl, rfl⟩ := he
    exact ⟨_, ha, rfl⟩
  · rintro ⟨n, hn, rfl⟩
    exact ⟨_, hn, rfl⟩

theorem mem_map_of_not_shift {as : List Action} {a : Action} (ha : a.isShift = false) :
    a ∈ as.map (·.mapTarget f) ↔ a ∈ as := by
  rw [List.mem_map]
  constructor
  · rintro ⟨b, hb, rfl⟩
    cases b <;> first | exact hb | simp [mapTarget, isShift] at ha
  · intro h
    exact ⟨a, h, by cases a <;> grind [mapTarget, isShift]⟩

end Action

namespace State

variable {s : State} {f : Nat → Nat}

theorem shift_mem_mapTargets {t : Symbol} {m : Nat} {r : Bool} :
    .shift m r ∈ (s.mapTargets f).on t ↔ ∃ n, .shift n r ∈ s.on t ∧ f n = m := by
  rw [on_mapTargets, Action.mem_map_shift]

/-- Only shifts have targets. -/
theorem mem_mapTargets {t : Symbol} {a : Action} (ha : a.isShift = false) :
    a ∈ (s.mapTargets f).on t ↔ a ∈ s.on t := by
  rw [on_mapTargets, Action.mem_map_of_not_shift ha]

theorem goto?_mapTargets_eq_some {v m : Nat} :
    (s.mapTargets f).goto? v = some m ↔ ∃ n, s.goto? v = some n ∧ f n = m := by
  rw [goto?_mapTargets, Option.map_eq_some_iff]

end State

namespace Machine

/-- The states on the stack, the topmost first, and the rest of the text. -/
structure Config where
  stack : List Nat
  rest : List Nat

open FlatGrammar (lookahead)

/-- One step of the machine. -/
inductive Step (states : Array State) : Config → Event → Config → Prop
  | shift {q n t : Nat} {σ w : List Nat} {s : State} {r : Bool} : states[q]? = some s →
      .shift n r ∈ s.on (.terminal t) →
      Step states ⟨q :: σ, t :: w⟩ (.shift t r) ⟨n :: q :: σ, w⟩
  | extra {q t : Nat} {σ w : List Nat} {s : State} : states[q]? = some s →
      .shiftExtra ∈ s.on (.terminal t) → Step states ⟨q :: σ, t :: w⟩ (.extra t) ⟨q :: σ, w⟩
  | reduce {q p n v : Nat} {σ τ w : List Nat} {s s' : State} {r : Reduction} :
      states[q]? = some s → .reduce r ∈ s.on (lookahead w) → (q :: σ).drop r.children = p :: τ →
      r.symbol = .nonterminal v → states[p]? = some s' → s'.goto? v = some n →
      Step states ⟨q :: σ, w⟩ (.reduce r) ⟨n :: p :: τ, w⟩

/-- A run that ends with the whole text accepted. -/
inductive Accepts (states : Array State) : Config → List Event → Prop
  | accept {q : Nat} {σ : List Nat} {s : State} : states[q]? = some s → .accept ∈ s.on .eof →
      Accepts states ⟨q :: σ, []⟩ []
  | step {c c' : Config} {e : Event} {es : List Event} : Step states c e c' →
      Accepts states c' es → Accepts states c (e :: es)

namespace Accepts

variable {states : Array State}

/-- A run consumes its text from left to right. -/
theorem tokens_eq {c : Config} {es : List Event} (h : Accepts states c es) :
    es.filterMap Event.token? = c.rest := by
  induction h with
  | accept => rfl
  | step hs _ ih =>
    cases hs with
    | shift _ _ => exact congrArg _ ih
    | extra _ _ => exact congrArg _ ih
    | reduce _ _ _ _ _ _ => exact ih

/-- The next token is passed over or it is the next to come onto the stack. -/
theorem next_token {q : Nat} {σ w : List Nat} {es : List Event}
    (h : Accepts states ⟨q :: σ, w⟩ es) :
    (∃ (p e : Nat) (s : State), lookahead w = .terminal e ∧ states[p]? = some s ∧
      .shiftExtra ∈ s.on (.terminal e)) ∨ lookahead w = lookahead (shifted es) := by
  generalize hc : Config.mk (q :: σ) w = c at h
  induction h generalizing q σ w with
  | accept =>
    cases hc
    exact .inr rfl
  | step hs _ ih =>
    cases hs with
    | shift _ _ =>
      cases hc
      exact .inr rfl
    | extra hs he =>
      cases hc
      exact .inl ⟨_, _, _, rfl, hs, he⟩
    | reduce _ _ _ _ _ _ =>
      cases hc
      exact ih rfl

end Accepts

/-- A reduction of a run is an action of the table. -/
theorem Accepts.exists_of_reduce {states : Array State} {c : Config} {es : List Event}
    (h : Accepts states c es) {r : Reduction} (hr : .reduce r ∈ es) :
    ∃ (q : Nat) (s : State) (t : Symbol), states[q]? = some s ∧ .reduce r ∈ s.on t := by
  induction h with
  | accept => cases hr
  | step hs _ ih =>
    rcases List.mem_cons.1 hr with rfl | hr
    · cases hs with
      | reduce hs hr _ _ _ _ => exact ⟨_, _, _, hs, hr⟩
    · exact ih hr

/-- The step that takes the first action of the entry, and where it leads. -/
def step? (states : Array State) : Config → Option (Event × Config)
  | ⟨[], _⟩ => none
  | ⟨q :: σ, w⟩ => do
    let s ← states[q]?
    match (s.on (lookahead w)).head?, w with
    | some (.shift n r), t :: w => some (.shift t r, ⟨n :: q :: σ, w⟩)
    | some .shiftExtra, t :: w => some (.extra t, ⟨q :: σ, w⟩)
    | some (.reduce r), w =>
      match (q :: σ).drop r.children, r.symbol with
      | p :: τ, .nonterminal v => do
        let n ← (← states[p]?).goto? v
        some (.reduce r, ⟨n :: p :: τ, w⟩)
      | _, _ => none
    | _, _ => none

def isAccepted (states : Array State) : Config → Bool
  | ⟨q :: _, []⟩ => states[q]?.any fun s => (s.on .eof).contains .accept
  | _ => false

/-- The run that takes the first action of each entry, if it is accepted within some steps. -/
def run? (states : Array State) : Nat → Config → Option (List Event)
  | 0, _ => none
  | fuel + 1, c =>
    if isAccepted states c then some []
    else do
      let (e, c) ← step? states c
      return e :: (← run? states fuel c)

theorem step_of_step? {states : Array State} {c c' : Config} {e : Event}
    (h : step? states c = some (e, c')) : Step states c e c' := by
  obtain ⟨σ, w⟩ := c
  cases σ with
  | nil => cases h
  | cons q σ =>
    obtain ⟨s, hs, h⟩ := Option.bind_eq_some_iff.1 h
    split at h
    · rename_i hhead
      cases h
      exact .shift hs (List.mem_of_mem_head? hhead)
    · rename_i hhead
      cases h
      exact .extra hs (List.mem_of_mem_head? hhead)
    · rename_i hhead
      split at h
      · rename_i hdrop hsymbol
        obtain ⟨s', hs', h⟩ := Option.bind_eq_some_iff.1 h
        obtain ⟨n, hn, h⟩ := Option.bind_eq_some_iff.1 h
        cases h
        exact .reduce hs (List.mem_of_mem_head? hhead) hdrop hsymbol hs' hn
      · cases h
    · cases h

/-- What is found by running the machine is a run of the table. -/
theorem accepts_of_run? {states : Array State} {fuel : Nat} {c : Config} {es : List Event}
    (h : run? states fuel c = some es) : Accepts states c es := by
  induction fuel generalizing c es with
  | zero => cases h
  | succ fuel ih =>
    rw [run?] at h
    split at h
    · rename_i haccept
      cases h
      unfold isAccepted at haccept
      split at haccept
      · obtain ⟨s, hs, hmem⟩ := (Option.any_eq_true _ _).1 haccept
        exact .accept hs (List.contains_iff_mem.1 hmem)
      · cases haccept
    · obtain ⟨⟨e, c'⟩, hstep, h⟩ := Option.bind_eq_some_iff.1 h
      obtain ⟨es, hes, h⟩ := Option.bind_eq_some_iff.1 h
      cases h
      exact .step (step_of_step? hstep) (ih hes)

/-- The live states of a table are renamed. -/
def Renames (states states' : Array State) (live : Nat → Prop) (f : Nat → Nat) : Prop :=
  ∀ q, live q → ∃ s, states[q]? = some s ∧ states'[f q]? = some (s.mapTargets f) ∧
    ∀ n ∈ s.successors, live n

namespace Renames

variable {states states' : Array State} {live : Nat → Prop} {f : Nat → Nat}

theorem state (h : Renames states states' live f) {q : Nat} (hq : live q) {s : State}
    (hs : states[q]? = some s) :
    states'[f q]? = some (s.mapTargets f) ∧ ∀ n ∈ s.successors, live n := by
  obtain ⟨s', hs', h'⟩ := h q hq
  rw [hs] at hs'
  cases hs'
  exact h'

theorem exists_state (h : Renames states states' live f) {q : Nat} (hq : live q) {s' : State}
    (hs' : states'[f q]? = some s') :
    ∃ s, states[q]? = some s ∧ s' = s.mapTargets f ∧ ∀ n ∈ s.successors, live n := by
  obtain ⟨s, hs, hmap, hlive⟩ := h q hq
  rw [hs'] at hmap
  exact ⟨s, hs, Option.some.inj hmap, hlive⟩

theorem accepts (h : Renames states states' live f) {c : Config} {es : List Event}
    (ha : Accepts states c es) (hl : ∀ q ∈ c.stack, live q) :
    Accepts states' ⟨c.stack.map f, c.rest⟩ es := by
  induction ha with
  | accept hs hacc =>
    exact .accept (h.state (hl _ (by simp)) hs).1 ((State.mem_mapTargets rfl).2 hacc)
  | step hstep _ ih =>
    cases hstep with
    | @shift q n t σ w s r hs hn =>
      obtain ⟨hs', hl'⟩ := h.state (hl q (by simp)) hs
      have hn' : .shift (f n) r ∈ (s.mapTargets f).on (.terminal t) :=
        State.shift_mem_mapTargets.2 ⟨n, hn, rfl⟩
      refine .step (.shift hs' hn') (ih fun q' hq' => ?_)
      rcases List.mem_cons.1 hq' with rfl | hq'
      · exact hl' _ (State.mem_successors_of_on hn)
      · exact hl _ hq'
    | extra hs he =>
      have hs' := (h.state (hl _ (by simp)) hs).1
      exact .step (.extra hs' ((State.mem_mapTargets rfl).2 he)) (ih hl)
    | @reduce q p n v σ τ w s s' r hs hr hd hv hp hn =>
      have hlp : ∀ q' ∈ p :: τ, live q' := fun q' hq' => hl q' (List.mem_of_mem_drop (hd ▸ hq'))
      obtain ⟨hp', hl'⟩ := h.state (hlp p (by simp)) hp
      refine .step (.reduce (h.state (hl _ (by simp)) hs).1 ?_ ?_ hv hp' ?_)
        (ih fun q' hq' => ?_)
      · exact (State.mem_mapTargets rfl).2 hr
      · rw [← List.map_cons, ← List.map_drop, hd]
        rfl
      · exact State.goto?_mapTargets_eq_some.2 ⟨n, hn, rfl⟩
      · rcases List.mem_cons.1 hq' with rfl | hq'
        · exact hl' _ (State.mem_successors_of_goto? hn)
        · exact hlp _ hq'

theorem accepts_of_map (h : Renames states states' live f) {c : Config} {es : List Event}
    (ha : Accepts states' c es) {σ : List Nat} (hσ : c.stack = σ.map f) (hl : ∀ q ∈ σ, live q) :
    Accepts states ⟨σ, c.rest⟩ es := by
  induction ha generalizing σ with
  | accept hs' hacc =>
    obtain ⟨q, τ, rfl, rfl, rfl⟩ := List.map_eq_cons_iff.1 hσ.symm
    obtain ⟨s, hs, rfl, -⟩ := h.exists_state (hl q (by simp)) hs'
    rw [State.mem_mapTargets rfl] at hacc
    exact .accept hs hacc
  | step hstep _ ih =>
    cases hstep with
    | @shift q n t σ' w s' r hs' hn =>
      obtain ⟨q, τ, rfl, rfl, rfl⟩ := List.map_eq_cons_iff.1 hσ.symm
      obtain ⟨s, hs, rfl, hl'⟩ := h.exists_state (hl q (by simp)) hs'
      obtain ⟨m, hm, rfl⟩ := State.shift_mem_mapTargets.1 hn
      refine .step (.shift hs hm) (@ih (m :: q :: τ) rfl fun q' hq' => ?_)
      rcases List.mem_cons.1 hq' with rfl | hq'
      · exact hl' _ (State.mem_successors_of_on hm)
      · exact hl _ hq'
    | extra hs' he =>
      obtain ⟨q, τ, rfl, rfl, rfl⟩ := List.map_eq_cons_iff.1 hσ.symm
      obtain ⟨s, hs, rfl, -⟩ := h.exists_state (hl q (by simp)) hs'
      rw [State.mem_mapTargets rfl] at he
      exact .step (.extra hs he) (ih rfl hl)
    | @reduce q p n v σ' τ' w s' s₂' r hs' hr hd hv hp' hn =>
      obtain ⟨q, τ, rfl, rfl, rfl⟩ := List.map_eq_cons_iff.1 hσ.symm
      obtain ⟨s, hs, rfl, -⟩ := h.exists_state (hl q (by simp)) hs'
      rw [State.mem_mapTargets rfl] at hr
      rw [← List.map_cons, ← List.map_drop] at hd
      obtain ⟨p, ρ, hρ, rfl, rfl⟩ := List.map_eq_cons_iff.1 hd
      have hlp : ∀ q' ∈ p :: ρ, live q' := fun q' hq' => hl q' (List.mem_of_mem_drop (hρ ▸ hq'))
      obtain ⟨s₂, hp, rfl, hl'⟩ := h.exists_state (hlp p (by simp)) hp'
      obtain ⟨m, hm, rfl⟩ := State.goto?_mapTargets_eq_some.1 hn
      refine .step (.reduce hs hr hρ hv hp hm) (@ih (m :: p :: ρ) rfl fun q' hq' => ?_)
      rcases List.mem_cons.1 hq' with rfl | hq'
      · exact hl' _ (State.mem_successors_of_goto? hm)
      · exact hlp _ hq'

/-- Renaming the states of a table leaves its runs as they are. -/
theorem accepts_iff (h : Renames states states' live f) {σ w : List Nat} (hl : ∀ q ∈ σ, live q)
    {es : List Event} : Accepts states' ⟨σ.map f, w⟩ es ↔ Accepts states ⟨σ, w⟩ es :=
  ⟨fun ha => h.accepts_of_map ha rfl hl, fun ha => h.accepts ha hl⟩

end Renames

end Machine

end GrammarTables
