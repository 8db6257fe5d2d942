import GrammarTables.Proofs.Evaluation
import GrammarTables.Proofs.Rows

/-!
# The readers undo the encoding

Whatever a state has for a symbol, the readers of the encoded tables find: for a terminal its
actions and whether they can be used again, for a variable its target. No reader leaves an array.
-/

namespace GrammarTables

namespace State

variable {s : State}

theorem mem_entries {t : Symbol} {actions : List Action} : (t, actions) ∈ s.entries ↔
    ∃ i, s.actions[i]? = some actions ∧ actions ≠ [] ∧ TokenSet.symbolAt i = t := by
  simp only [entries, List.mem_filterMap, Prod.exists, List.mem_zipIdx_iff_getElem?,
    Array.getElem?_toList]
  constructor
  · rintro ⟨as, i, hi, h⟩
    split at h
    · cases h
    · rename_i hne
      cases h
      exact ⟨i, hi, by simpa using hne, rfl⟩
  · rintro ⟨i, hi, hne, rfl⟩
    exact ⟨actions, i, hi, by simp [hne]⟩

theorem mem_targets {v n : Nat} : (v, n) ∈ s.targets ↔ s.goto? v = some n := by
  simp only [targets, List.mem_filterMap, Prod.exists, List.mem_zipIdx_iff_getElem?,
    Array.getElem?_toList, Option.map_eq_some_iff, Prod.mk.injEq, goto?, Option.join_eq_some_iff]
  constructor
  · rintro ⟨_, _, hi, _, rfl, rfl, rfl⟩
    exact hi
  · intro h
    exact ⟨some n, v, h, n, rfl, rfl, rfl⟩

theorem lt_of_on {n : Nat} (h : s.on (TokenSet.symbolAt n) ≠ []) : n < s.actions.size := by
  by_contra hge
  apply h
  rw [on, TokenSet.position_symbolAt, Array.getElem?_eq_none (Nat.le_of_not_lt hge)]
  rfl

end State

/-- What is kept of a list's places are different places. -/
theorem nodup_filterMap_zipIdx {α β : Type} (xs : List α) (f : α × Nat → Option (Nat × β))
    (hf : ∀ x y, f x = some y → y.1 = x.2) : ((xs.zipIdx.filterMap f).map (·.1)).Nodup := by
  have hsub : ((xs.zipIdx.filterMap f).map (·.1)).Sublist (xs.zipIdx.map (·.2)) := by
    induction xs.zipIdx with
    | nil => exact .slnil
    | cons x l ih =>
      cases hx : f x with
      | none => simpa [hx] using ih.cons _
      | some y => simpa [hx, hf x y hx] using ih
  refine hsub.nodup ?_
  rw [List.zipIdx_map_snd]
  exact List.nodup_range'

/-- Tables of the size of a grammar: states have entries for its terminals only, and everything that
is listed by state is listed for each state. -/
structure Tables.Fits (g : FlatGrammar) (t : Tables) : Prop where
  actions : ∀ s ∈ t.table.states, s.actions.size ≤ g.tokenCount
  reusable : t.reusable.length = t.table.states.size
  lexStates : t.lexStates.length = t.table.states.size

namespace Encoding

variable {g : FlatGrammar} {t : Tables} {s : State} {reusable : TokenSet} {n x : Nat}

theorem symbolId_symbolAt (g : FlatGrammar) (n : Nat) : g.symbolId (TokenSet.symbolAt n) = n := by
  cases n <;> rfl

/-- The targets of a state's variables by their symbols' numbers. -/
def stateTargets (g : FlatGrammar) (s : State) : List (Nat × Nat) :=
  s.targets.map fun (v, target) => (g.symbolId (.nonterminal v), target)

theorem mem_stateEntries {e : ActionEntry} : (n, e) ∈ stateEntries g s reusable ↔
    s.on (TokenSet.symbolAt n) ≠ [] ∧
      e = ⟨reusable.contains (TokenSet.symbolAt n), s.on (TokenSet.symbolAt n)⟩ := by
  simp only [stateEntries, List.mem_map, Prod.exists, State.mem_entries, Prod.mk.injEq]
  constructor
  · rintro ⟨_, as, ⟨i, hi, hne, rfl⟩, rfl, rfl⟩
    have hon : s.on (TokenSet.symbolAt i) = as := by simp [State.on, hi]
    rw [symbolId_symbolAt, hon]
    exact ⟨hne, rfl⟩
  · rintro ⟨hne, rfl⟩
    refine ⟨_, _, ⟨n, ?_, hne, rfl⟩, symbolId_symbolAt g n, rfl⟩
    rw [State.on, TokenSet.position_symbolAt] at hne ⊢
    cases h : s.actions[n]? with
    | none => simp [h] at hne
    | some as => rfl

theorem mem_stateTargets : (n, x) ∈ stateTargets g s ↔
    ∃ v, s.goto? v = some x ∧ g.tokenCount + v = n := by
  simp only [stateTargets, List.mem_map, Prod.exists, State.mem_targets, Prod.mk.injEq,
    FlatGrammar.symbolId]
  constructor
  · rintro ⟨v, _, hv, rfl, rfl⟩
    exact ⟨v, hv, rfl⟩
  · rintro ⟨v, hv, rfl⟩
    exact ⟨v, x, hv, rfl, rfl⟩

theorem mem_keys_stateEntries : n ∈ (stateEntries g s reusable).map (·.1) ↔
    s.on (TokenSet.symbolAt n) ≠ [] := by
  simp only [List.mem_map, Prod.exists, mem_stateEntries]
  constructor
  · rintro ⟨_, e, ⟨h, -⟩, rfl⟩
    exact h
  · intro h
    exact ⟨n, _, ⟨h, rfl⟩, rfl⟩

theorem mem_keys_stateTargets : n ∈ (stateTargets g s).map (·.1) ↔
    ∃ v x, s.goto? v = some x ∧ g.tokenCount + v = n := by
  simp only [List.mem_map, Prod.exists, mem_stateTargets]
  constructor
  · rintro ⟨_, x, ⟨v, hv, rfl⟩, rfl⟩
    exact ⟨v, x, hv, rfl⟩
  · rintro ⟨v, x, hv, rfl⟩
    exact ⟨_, x, ⟨v, hv, rfl⟩, rfl⟩

theorem nodup_stateEntries : ((stateEntries g s reusable).map (·.1)).Nodup := by
  rw [stateEntries, State.entries, List.map_filterMap]
  refine nodup_filterMap_zipIdx _ _ fun ⟨as, i⟩ y h => ?_
  obtain ⟨⟨x, as'⟩, hx, rfl⟩ := Option.map_eq_some_iff.1 h
  by_cases has : as.isEmpty = true
  · simp [has] at hx
  · obtain ⟨rfl, -⟩ : TokenSet.symbolAt i = x ∧ as = as' := by simpa [has] using hx
    exact symbolId_symbolAt g i

theorem nodup_stateTargets : ((stateTargets g s).map (·.1)).Nodup := by
  have hkeys : (s.targets.map (·.1)).Nodup := by
    refine nodup_filterMap_zipIdx _ _ fun y z h => ?_
    obtain ⟨_, -, rfl⟩ := Option.map_eq_some_iff.1 h
    rfl
  have hmap : (stateTargets g s).map (·.1) = (s.targets.map (·.1)).map (g.tokenCount + ·) := by
    simp [stateTargets, FlatGrammar.symbolId, Function.comp_def]
  rw [hmap]
  exact hkeys.map fun _ _ h => Nat.add_left_cancel h

/-- The entries of all states by their numbers, and the entries. -/
def numbered (g : FlatGrammar) (t : Tables) : List (List (Nat × Nat)) × List ActionEntry :=
  numberEntries ((t.table.states.toList.zip t.reusable).map fun (s, reusable) =>
    stateEntries g s reusable)

/-- The places of the entries in the list of all actions. -/
def places (g : FlatGrammar) (t : Tables) : Array Nat :=
  offsets 1 ((numbered g t).2.map fun e => 1 + e.actions.length)

/-- The numbers of the terminals and of the variables in each state. -/
def rows (g : FlatGrammar) (t : Tables) : List (List (Nat × Nat) × List (Nat × Nat)) :=
  ((numbered g t).1.map (·.map fun (symbol, n) => (symbol, (places g t)[n]?.getD 0))).zip
    (t.table.states.toList.map (stateTargets g))

/-- The numbers of the small states' groups, and the groups. -/
def small (g : FlatGrammar) (t : Tables) : List Nat × List (List Group) :=
  Numbering.ofList (((rows g t).drop t.largeCount).map fun (actions, gotos) =>
    smallGroups actions gotos)

/-- The places of the small rows. -/
def smallPlaces (g : FlatGrammar) (t : Tables) : Array Nat :=
  offsets 0 ((small g t).2.map smallLength)

/-- The parts of the encoded tables that readers of states use. -/
structure Lists (g : FlatGrammar) (t : Tables) (e : Encoding) : Prop where
  symbolCount : e.symbolCount = g.symbolCount
  tokenCount : e.tokenCount = g.tokenCount
  stateCount : e.stateCount = t.lexStates.length
  largeRows : e.largeRows = ((rows g t).take t.largeCount).map fun (actions, gotos) =>
    largeRow g.symbolCount (actions ++ gotos)
  smallRows : e.smallRows.map (·.groups) = (small g t).2
  smallOffsets : e.smallOffsets = (small g t).1.map fun n => (smallPlaces g t)[n]?.getD 0
  actionEntries : e.actionEntries = { reusable := false, actions := [] } :: (numbered g t).2
  lexSets : e.lexSets = t.lexSets

theorem length_ofSymbols (g : FlatGrammar) :
    (Constant.ofSymbols g).length = g.symbols.length := by
  have key : ∀ (symbols : List Symbol) (taken : List String),
      (symbols.foldl (fun taken s => Constant.fresh taken (Constant.ofSymbol g s) :: taken)
        taken).length = taken.length + symbols.length := by
    intro symbols
    induction symbols with
    | nil => intro taken; rfl
    | cons s symbols ih =>
      intro taken
      rw [List.foldl_cons, ih, List.length_cons, List.length_cons, Nat.add_right_comm,
        Nat.add_assoc]
  rw [Constant.ofSymbols, List.length_reverse, key, List.length_nil, Nat.zero_add]

theorem lists_of_ofTables {version : Version} {e : Encoding}
    (h : ofTables g t version = .ok e) : Lists g t e := by
  obtain ⟨-, -, h⟩ := bind_eq_ok.1 h
  obtain ⟨-, -, h⟩ := bind_eq_ok.1 h
  obtain ⟨-, -, h⟩ := bind_eq_ok.1 h
  obtain ⟨-, -, h⟩ := bind_eq_ok.1 h
  cases h
  refine ⟨?_, rfl, rfl, rfl, ?_, rfl, rfl, rfl⟩
  · simp only [Encoding.symbolCount, List.size_toArray, List.length_map, List.length_zip,
      length_ofSymbols, Nat.min_self, FlatGrammar.length_symbols]
  · have hlength : (small g t).2.length ≤ (smallPlaces g t).toList.length := by
      simp [smallPlaces, toList_offsets, -Array.length_toList]
    change List.map _ (List.map _ ((small g t).2.zip (smallPlaces g t).toList)) = _
    rw [List.map_map]
    exact List.map_fst_zip hlength

/-- The cells of all actions. -/
def cells (g : FlatGrammar) (t : Tables) : Array Cell :=
  (({ reusable := false, actions := [] } :: (numbered g t).2).flatMap Language.entryCells).toArray

theorem length_entryCells (e : ActionEntry) :
    (Language.entryCells e).length = 1 + e.actions.length := by
  simp [Language.entryCells, Nat.add_comm]

/-- An entry stands where the places say, behind the one that is always there. -/
theorem holdsAt_place {e : ActionEntry} (h : (numbered g t).2[n]? = some e) :
    HoldsAt (cells g t) ((places g t)[n]?.getD 0) (Language.entryCells e) := by
  have hlt := (List.getElem?_eq_some_iff.1 h).1
  rw [places, getElem?_offsets 1 (by simpa using hlt), Option.getD_some]
  have hentry : ({ reusable := false, actions := [] } :: (numbered g t).2)[n + 1]? = some e := by
    simpa using h
  have hcells := HoldsAt.of_flatMap Language.entryCells hentry
  simp only [length_entryCells, List.map_cons, List.take_succ_cons] at hcells
  exact hcells

/-- The numbers of a state's terminals are the places of its entries. -/
def Places (g : FlatGrammar) (t : Tables) (s : State) (reusable : TokenSet)
    (actions : List (Nat × Nat)) : Prop :=
  List.Forall₂ (fun x y => x.1 = y.1 ∧ HoldsAt (cells g t) y.2 (Language.entryCells x.2))
    (stateEntries g s reusable) actions

/-- The row of a state has the places of its entries and the targets of its variables. -/
theorem exists_row {q : Nat} (hs : t.table.states[q]? = some s)
    (hr : t.reusable[q]? = some reusable) :
    ∃ actions, (rows g t)[q]? = some (actions, stateTargets g s) ∧
      Places g t s reusable actions := by
  have hall := forall₂_numberEntries ((t.table.states.toList.zip t.reusable).map
    fun (s, reusable) => stateEntries g s reusable)
  have hentries : ((t.table.states.toList.zip t.reusable).map
      fun (s, reusable) => stateEntries g s reusable)[q]? = some (stateEntries g s reusable) := by
    have hzip : (t.table.states.toList.zip t.reusable)[q]? = some (s, reusable) := by
      rw [List.getElem?_zip_eq_some]
      exact ⟨by simpa using hs, hr⟩
    rw [List.getElem?_map, hzip]
    rfl
  have hlt : q < (numbered g t).1.length :=
    hall.length_eq ▸ (List.getElem?_eq_some_iff.1 hentries).1
  have hnumbers := List.getElem?_eq_getElem hlt
  refine ⟨(numbered g t).1[q].map fun (symbol, n) => (symbol, (places g t)[n]?.getD 0), ?_, ?_⟩
  · rw [rows, List.getElem?_zip_eq_some, List.getElem?_map, List.getElem?_map, hnumbers]
    exact ⟨rfl, by rw [Array.getElem?_toList, hs]; rfl⟩
  · rw [Places, List.forall₂_map_right_iff]
    exact (Numbering.forall₂_getElem? hall hentries hnumbers).imp fun x y h =>
      ⟨h.1, holdsAt_place h.2⟩

section Lookup

variable {e : Encoding} {q : Nat} {actions gotos : List (Nat × Nat)}

theorem largeCount_eq (h : Lists g t e) (hq : q < (rows g t).length) :
    q < e.largeCount ↔ q < t.largeCount := by
  rw [Encoding.largeCount, h.largeRows, List.length_map, List.length_take]
  omega

/-- The row of a large state is behind as many whole rows as there are states before it. -/
theorem getElem?_parseTable (h : Lists g t e) (hrow : (rows g t)[q]? = some (actions, gotos))
    (hq : q < t.largeCount) (hnd : ((actions ++ gotos).map (·.1)).Nodup) (hn : n < g.symbolCount)
    (hx : HasValue (actions ++ gotos) n x) :
    e.largeRows.flatten.toArray[q * g.symbolCount + n]? = some x := by
  have hlarge : e.largeRows[q]? = some (largeRow g.symbolCount (actions ++ gotos)) := by
    rw [h.largeRows, List.getElem?_map, List.getElem?_take_of_lt hq, hrow]
    rfl
  have hlt := (List.getElem?_eq_some_iff.1 hlarge).1
  have hlengths : e.largeRows.map (·.length) = List.replicate e.largeRows.length g.symbolCount := by
    rw [List.eq_replicate_iff, List.length_map]
    refine ⟨rfl, fun m hm => ?_⟩
    obtain ⟨row, hmem, rfl⟩ := List.mem_map.1 hm
    rw [h.largeRows] at hmem
    obtain ⟨_, -, rfl⟩ := List.mem_map.1 hmem
    exact length_largeRow _ _
  have hplace : total ((e.largeRows.map (·.length)).take q) = q * g.symbolCount := by
    rw [hlengths, List.take_replicate, Nat.min_eq_left hlt.le]
    exact List.sum_replicate_nat
  have hholds := HoldsAt.of_flatMap (fun row => row) hlarge
  rw [hplace, List.flatMap_id'] at hholds
  rw [hholds n (by rwa [length_largeRow]), getElem?_largeRow hnd hn hx]

/-- A small state's number leads to the place of its groups. -/
theorem exists_smallRow (h : Lists g t e) (hrow : (rows g t)[q]? = some (actions, gotos))
    (hq : t.largeCount ≤ q) :
    ∃ offset, e.smallOffsets[q - t.largeCount]? = some offset ∧
      HoldsAt (e.smallRows.flatMap fun r => Language.rowNumbers r.groups).toArray offset
        (Language.rowNumbers (smallGroups actions gotos)) := by
  have hgroups : (((rows g t).drop t.largeCount).map fun (actions, gotos) =>
      smallGroups actions gotos)[q - t.largeCount]? = some (smallGroups actions gotos) := by
    rw [List.getElem?_map, List.getElem?_drop, Nat.add_sub_cancel' hq, hrow]
    rfl
  have hall := (Numbering.ofList_members (((rows g t).drop t.largeCount).map
    fun (actions, gotos) => smallGroups actions gotos)).1
  have hlt : q - t.largeCount < (small g t).1.length :=
    hall.length_eq ▸ (List.getElem?_eq_some_iff.1 hgroups).1
  have hnumber := List.getElem?_eq_getElem hlt
  have hmember := Numbering.forall₂_getElem? hall hnumber hgroups
  change (small g t).2[(small g t).1[q - t.largeCount]]? = _ at hmember
  have hmlt := (List.getElem?_eq_some_iff.1 hmember).1
  refine ⟨(smallPlaces g t)[(small g t).1[q - t.largeCount]]?.getD 0, ?_, ?_⟩
  · rw [h.smallOffsets, List.getElem?_map, hnumber]
    rfl
  · have hflat : (e.smallRows.flatMap fun r => Language.rowNumbers r.groups) =
        (small g t).2.flatMap Language.rowNumbers := by
      rw [← h.smallRows, List.flatMap_map]
    have hholds := HoldsAt.of_flatMap Language.rowNumbers hmember
    simp only [length_rowNumbers] at hholds
    rw [smallPlaces, getElem?_offsets 0 (by simpa using hmlt), Option.getD_some, Nat.zero_add,
      hflat]
    exact hholds

/-- Looking a symbol up in a state finds its number, in a large row as in a small one. -/
theorem lookup?_eq (h : Lists g t e) (hrow : (rows g t)[q]? = some (actions, gotos))
    (hnd : ((actions ++ gotos).map (·.1)).Nodup) (hn : n < g.symbolCount)
    (hx : HasValue (actions ++ gotos) n x) : (Language.ofEncoding e).lookup? q n = some x := by
  have hq : q < (rows g t).length := (List.getElem?_eq_some_iff.1 hrow).1
  have hlarge := largeCount_eq h hq
  rw [Language.lookup?]
  split
  · rename_i hlt
    have hcount : (Language.ofEncoding e).symbolCount = g.symbolCount := h.symbolCount
    rw [hcount]
    exact getElem?_parseTable h hrow (hlarge.1 hlt) hnd hn hx
  · rename_i hge
    have hle : t.largeCount ≤ q := Nat.le_of_not_lt fun hlt => hge (hlarge.2 hlt)
    have hcount : (Language.ofEncoding e).largeCount = t.largeCount := by
      change e.largeRows.length = _
      rw [h.largeRows, List.length_map, List.length_take, Nat.min_eq_left (hle.trans hq.le)]
    obtain ⟨offset, hoffset, hholds⟩ := exists_smallRow h hrow hle
    have hoffset' : (Language.ofEncoding e).smallOffsets[q - t.largeCount]? = some offset := by
      simpa [Language.ofEncoding] using hoffset
    have hfound := Language.findGroup_of_holdsAt (n := n) hholds.tail
    rw [listedValue_smallGroups hnd hx] at hfound
    have hhead : (Language.ofEncoding e).smallTable[offset]? =
        some (smallGroups actions gotos).length := hholds.head
    rw [hcount, hoffset', Option.bind_eq_bind, Option.bind_some, hhead]
    exact hfound

end Lookup

end Encoding

/-- The entry that a reader finds for a terminal. Without actions it is the empty one. -/
def State.entryOn (s : State) (reusable : TokenSet) (x : Symbol) : Encoding.ActionEntry :=
  if s.on x = [] then { reusable := false, actions := [] }
  else { reusable := reusable.contains x, actions := s.on x }

/-- The state behind the last one of a state's actions, or zero. -/
def Action.next (state : Nat) : Option Action → Nat
  | some (.shift target _) => target
  | some .shiftExtra => state
  | _ => 0

namespace Language

/-- The readers answer for a symbol what a state has for it. -/
structure Answers (l : Language) (q : Nat) (s : State) (reusable : TokenSet) (n : Nat) : Prop where
  entry : n < l.tokenCount → l.entry? q n = some (s.entryOn reusable (TokenSet.symbolAt n))
  actions : n < l.tokenCount → l.actions? q n = some (s.on (TokenSet.symbolAt n))
  next : n < l.tokenCount →
    l.nextState? q n = some (Action.next q (s.on (TokenSet.symbolAt n)).getLast?)
  target : l.tokenCount ≤ n → l.lookup? q n = some ((s.goto? (n - l.tokenCount)).getD 0)
  goto : l.tokenCount ≤ n → l.nextState? q n = some ((s.goto? (n - l.tokenCount)).getD 0)

/-- The readers answer for every state what the tables have for it. The two numbers of symbols for
what cannot be parsed are left out. -/
structure ReadsBack (g : FlatGrammar) (t : Tables) (l : Language) : Prop where
  symbolCount : l.symbolCount = g.symbolCount
  tokenCount : l.tokenCount = g.tokenCount
  stateCount : l.stateCount = t.table.states.size
  answers : ∀ q < l.stateCount, ∃ s reusable, t.table.states[q]? = some s ∧
    t.reusable[q]? = some reusable ∧
    ∀ n < l.symbolCount, isErrorSymbol n = false → l.Answers q s reusable n

end Language

namespace Encoding

variable {g : FlatGrammar} {t : Tables} {s : State} {reusable : TokenSet} {e : Encoding}
  {q n : Nat}

namespace Places

variable {actions : List (Nat × Nat)}

theorem keys_eq (h : Places g t s reusable actions) :
    actions.map (·.1) = (stateEntries g s reusable).map (·.1) := by
  symm
  rw [← List.forall₂_eq_eq_eq, List.forall₂_map_left_iff, List.forall₂_map_right_iff]
  exact h.imp fun _ _ h => h.1

theorem mem_keys (h : Places g t s reusable actions) :
    n ∈ actions.map (·.1) ↔ s.on (TokenSet.symbolAt n) ≠ [] := by
  rw [h.keys_eq, mem_keys_stateEntries]

/-- Terminals come before variables, so that no symbol has two numbers. -/
theorem nodup (h : Places g t s reusable actions) (hs : s.actions.size ≤ g.tokenCount) :
    ((actions ++ stateTargets g s).map (·.1)).Nodup := by
  rw [List.map_append, List.nodup_append, h.keys_eq]
  refine ⟨nodup_stateEntries, nodup_stateTargets, fun m hm m' hm' => ?_⟩
  have hlt := State.lt_of_on (mem_keys_stateEntries.1 hm)
  obtain ⟨v, -, -, rfl⟩ := mem_keys_stateTargets.1 hm'
  omega

/-- The number of a terminal without actions is zero, and that of another one leads to its entry. -/
theorem exists_value (h : Places g t s reusable actions) (hn : n < g.tokenCount) :
    ∃ x, HasValue (actions ++ stateTargets g s) n x ∧
      HoldsAt (cells g t) x (Language.entryCells (s.entryOn reusable (TokenSet.symbolAt n))) := by
  rw [State.entryOn]
  split
  · rename_i hnil
    refine ⟨0, .inr ⟨fun hmem => ?_, rfl⟩, HoldsAt.of_append [] _ _⟩
    rw [List.map_append, List.mem_append] at hmem
    rcases hmem with hmem | hmem
    · exact h.mem_keys.1 hmem hnil
    · obtain ⟨v, -, -, rfl⟩ := mem_keys_stateTargets.1 hmem
      omega
  · rename_i hne
    have hmem : (n, ⟨reusable.contains (TokenSet.symbolAt n), s.on (TokenSet.symbolAt n)⟩) ∈
        stateEntries g s reusable := mem_stateEntries.2 ⟨hne, rfl⟩
    obtain ⟨i, hi⟩ := List.mem_iff_getElem?.1 hmem
    have hlt : i < actions.length := h.length_eq ▸ (List.getElem?_eq_some_iff.1 hi).1
    obtain ⟨hkey, hholds⟩ := Numbering.forall₂_getElem? h hi (List.getElem?_eq_getElem hlt)
    have hpair : (n, actions[i].2) = actions[i] := Prod.ext hkey rfl
    exact ⟨actions[i].2, .inl (List.mem_append_left _ (hpair ▸ List.getElem_mem hlt)), hholds⟩

/-- The number of a variable is its target. -/
theorem hasValue_target (h : Places g t s reusable actions) (hs : s.actions.size ≤ g.tokenCount)
    (hn : g.tokenCount ≤ n) :
    HasValue (actions ++ stateTargets g s) n ((s.goto? (n - g.tokenCount)).getD 0) := by
  cases hv : s.goto? (n - g.tokenCount) with
  | some target =>
    refine .inl (List.mem_append_right _ (mem_stateTargets.2 ⟨_, hv, ?_⟩))
    omega
  | none =>
    refine .inr ⟨fun hmem => ?_, rfl⟩
    rw [List.map_append, List.mem_append] at hmem
    rcases hmem with hmem | hmem
    · have hlt := State.lt_of_on (h.mem_keys.1 hmem)
      omega
    · obtain ⟨v, x, hvx, rfl⟩ := mem_keys_stateTargets.1 hmem
      rw [Nat.add_sub_cancel_left, hvx] at hv
      cases hv

end Places

/-- Looking a terminal up finds its entry. -/
theorem entry?_eq (h : Lists g t e) {actions : List (Nat × Nat)}
    (hrow : (rows g t)[q]? = some (actions, stateTargets g s)) (hp : Places g t s reusable actions)
    (hs : s.actions.size ≤ g.tokenCount) (hn : n < g.tokenCount)
    (herr : Language.isErrorSymbol n = false) :
    Language.entry? (Language.ofEncoding e) q n =
      some (s.entryOn reusable (TokenSet.symbolAt n)) := by
  obtain ⟨x, hx, hholds⟩ := hp.exists_value hn
  have hlookup := lookup?_eq h hrow (hp.nodup hs) (Nat.lt_add_right _ hn) hx
  have hcells : (Language.ofEncoding e).actions = cells g t := by
    rw [Language.ofEncoding, h.actionEntries]
    rfl
  have hread := Language.readActions_of_holdsAt hholds.tail
  rw [Language.entry?, herr, if_neg (by simp), hlookup, Option.bind_eq_bind, Option.bind_some,
    hcells, hholds.head]
  simp [hread]

theorem on_eq_entryOn (s : State) (reusable : TokenSet) (x : Symbol) :
    (s.entryOn reusable x).actions = s.on x := by
  unfold State.entryOn
  split <;> simp_all

theorem answers (h : Lists g t e) (hs : t.table.states[q]? = some s)
    (hr : t.reusable[q]? = some reusable) (hsize : s.actions.size ≤ g.tokenCount)
    (hn : n < g.symbolCount) (herr : Language.isErrorSymbol n = false) :
    (Language.ofEncoding e).Answers q s reusable n := by
  obtain ⟨actions, hrow, hp⟩ := exists_row (g := g) hs hr
  have hcount : (Language.ofEncoding e).tokenCount = g.tokenCount := h.tokenCount
  have hactions : n < g.tokenCount → (Language.ofEncoding e).actions? q n =
      some (s.on (TokenSet.symbolAt n)) := fun hlt => by
    rw [Language.actions?, entry?_eq h hrow hp hsize hlt herr, Option.map_some, on_eq_entryOn]
  have htarget : g.tokenCount ≤ n → (Language.ofEncoding e).lookup? q n =
      some ((s.goto? (n - g.tokenCount)).getD 0) := fun hle =>
    lookup?_eq h hrow (hp.nodup hsize) hn (hp.hasValue_target hsize hle)
  constructor <;> rw [hcount]
  · exact fun hlt => entry?_eq h hrow hp hsize hlt herr
  · exact hactions
  · intro hlt
    rw [Language.nextState?, herr, if_neg (by simp), hcount, if_pos hlt, hactions hlt,
      Option.bind_eq_bind, Option.bind_some]
    generalize (s.on (TokenSet.symbolAt n)).getLast? = last
    rcases last with _ | ⟨_ | _ | _ | _ | _⟩ <;> rfl
  · exact htarget
  · intro hle
    rw [Language.nextState?, herr, if_neg (by simp), hcount, if_neg (by omega), htarget hle]

theorem readsBack {version : Version} (ht : t.Fits g) (h : ofTables g t version = .ok e) :
    (Language.ofEncoding e).ReadsBack g t := by
  have hl := lists_of_ofTables h
  have hcount : (Language.ofEncoding e).stateCount = t.table.states.size :=
    hl.stateCount.trans ht.lexStates
  refine ⟨hl.symbolCount, hl.tokenCount, hcount, fun q hq => ?_⟩
  rw [hcount] at hq
  have hs := Array.getElem?_eq_getElem hq
  have hr := List.getElem?_eq_getElem (ht.reusable.symm ▸ hq)
  refine ⟨_, _, hs, hr, fun n hn herr => ?_⟩
  exact answers hl hs hr (ht.actions _ (Array.getElem_mem hq)) (hl.symbolCount ▸ hn) herr

end Encoding

section Fits

variable {g : FlatGrammar} {states : Array State} {k : Nat}

theorem size_actions_union {ss : List State} (h : ∀ s ∈ ss, s.actions.size ≤ k) :
    (Merge.union ss).actions.size ≤ k := by
  cases ss with
  | nil => exact Nat.zero_le k
  | cons s rest =>
    rw [Merge.union_cons]
    induction rest generalizing s with
    | nil => exact h s (by simp)
    | cons t rest ih =>
      refine ih (Merge.join s t) fun s' hs' => ?_
      rcases List.mem_cons.1 hs' with rfl | hs'
      · have hs := h s (by simp)
        simp only [Merge.join, Array.size_zipWith]
        omega
      · exact h s' (by simp [hs'])

theorem Canonical.size_actions {s : State} (hs : s ∈ Canonical.states g) :
    s.actions.size = g.tokenCount := by
  obtain ⟨q, hq⟩ := Array.mem_iff_getElem?.1 hs
  rw [Canonical.getElem?_states] at hq
  obtain ⟨a, -, hq⟩ := Option.bind_eq_some_iff.1 hq
  obtain ⟨core, -, rfl⟩ := Option.map_eq_some_iff.1 hq
  simp only [Canonical.state, List.size_toArray, List.length_map, FlatGrammar.terminals,
    FlatGrammar.tokenCount, List.length_cons, List.length_range, Analysis.ofGrammar]
  omega

theorem Merge.size_actions (h : ∀ s ∈ states, s.actions.size ≤ k) :
    ∀ s ∈ Merge.states g states, s.actions.size ≤ k := by
  intro s hs
  obtain ⟨q, hq⟩ := Array.mem_iff_getElem?.1 hs
  rw [Merge.getElem?_states] at hq
  obtain ⟨G, -, rfl⟩ := Option.map_eq_some_iff.1 hq
  rw [State.mapTargets, Array.size_map]
  refine size_actions_union fun s' hs' => ?_
  obtain ⟨i, -, hi⟩ := Merge.mem_members.1 hs'
  exact h s' (Array.mem_of_getElem? hi)

/-- The tables of a grammar are of its size. -/
theorem Tables.fits_of_ofGrammar {t : Tables} (h : Tables.ofGrammar g = .ok t) : t.Fits g := by
  obtain ⟨⟨canonical, conflicts⟩, hc, h⟩ := bind_eq_ok.1 h
  cases h
  refine ⟨?_, by simp, by simp⟩
  have hP : ∀ (s : State) (f : Nat → Nat), s.actions.size ≤ g.tokenCount →
      (s.mapTargets f).actions.size ≤ g.tokenCount := by
    intro s f hs
    simpa [State.mapTargets] using hs
  refine StateOrder.forall_states hP (Bypass.forall_states hP (Merge.size_actions fun s hs => ?_))
  rw [Canonical.states_of_canonical hc] at hs
  exact (Canonical.size_actions hs).le

end Fits

/-- The readers undo the encoding: the tables of a grammar are of its size, and whenever tables of
that size are encoded, the readers answer for every state and every symbol what the tables have,
without leaving an array. -/
theorem tables_read_back (g : FlatGrammar) (t : Tables) :
    (Tables.ofGrammar g = .ok t → t.Fits g) ∧
      ∀ version e, t.Fits g → Encoding.ofTables g t version = .ok e →
        (Language.ofEncoding e).ReadsBack g t :=
  ⟨Tables.fits_of_ofGrammar, fun _ _ => Encoding.readsBack⟩

/-- The tables of items between brackets are of their grammar's size, and they are read back from
large rows, from small rows of several groups and from a row that two states share. -/
theorem tables_read_back_bracketed : ∃ g t e, FlatGrammar.ofGrammar .bracketed = .ok g ∧
    Tables.ofGrammar g = .ok t ∧ t.Fits g ∧ Encoding.ofTables g t ⟨1, 0, 0⟩ = .ok e ∧
    t.largeCount = 2 ∧ e.smallRows.map (·.groups.length) = [3, 3, 2, 2, 2, 2] ∧
    e.smallOffsets = [0, 11, 22, 29, 36, 43, 43] ∧ (Language.ofEncoding e).ReadsBack g t := by
  obtain ⟨g, t, e, h, ht, he, -, hlarge, hrows, hoffsets⟩ := Encoding.exists_bracketed
  obtain ⟨hfits, hreads⟩ := tables_read_back g t
  exact ⟨g, t, e, h, ht, hfits ht, he, hlarge, hrows, hoffsets, hreads _ e (hfits ht) he⟩

end GrammarTables
