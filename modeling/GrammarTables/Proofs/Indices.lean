import GrammarTables.Proofs.Evaluation
import GrammarTables.Proofs.NodeTypes
import GrammarTables.Proofs.TableIndices

/-!
# Encoded tables are indexed

Each number in encoded tables is that of something which the tables have. A number in the row of a
state is the place of an entry or the number of a state, and a slice lies within the list that it is
a slice of. With that all indices from a grammar to its encoded tables are valid.
-/

namespace GrammarTables

theorem FlatGrammar.symbolId_lt {g : FlatGrammar} {s : Symbol} (h : s ∈ g.symbols) :
    g.symbolId s < g.symbolCount := by
  cases s with
  | eof => simp only [symbolId, symbolCount, tokenCount]; omega
  | terminal i =>
    have := FlatGrammar.terminal_mem_symbols.1 h
    simp only [symbolId, symbolCount, tokenCount]
    omega
  | nonterminal v =>
    have := FlatGrammar.nonterminal_mem_symbols.1 h
    simp only [symbolId, symbolCount]
    omega

theorem FlatGrammar.IsToken.mem_symbols {g : FlatGrammar} {s : Symbol} (h : g.IsToken s) :
    s ∈ g.symbols := by
  obtain ⟨i, hi, rfl⟩ := h
  exact FlatGrammar.terminal_mem_symbols.2 hi

theorem State.length_entries_le (s : State) : s.entries.length ≤ s.actions.size := by
  refine (List.length_filterMap_le _ _).trans ?_
  simp

theorem State.length_targets_le (s : State) : s.targets.length ≤ s.gotos.size := by
  refine (List.length_filterMap_le _ _).trans ?_
  simp

namespace Numbering

variable {α β γ : Type} [BEq α] [Hashable α]

/-- Where the new members of a step are of its value, each member at the end is of some value. -/
theorem foldl_members {of : β → α → Prop} (number : Numbering α → β → γ × Numbering α)
    (hstep : ∀ n b, Valid n → Valid (number n b).2 ∧
      ∀ a ∈ (number n b).2.members, a ∈ n.members ∨ of b a)
    (bs : List β) (x : Array γ × Numbering α) (hx : x.2.Valid) :
    ∀ a ∈ (bs.foldl (fun y b => (y.1.push (number y.2 b).1, (number y.2 b).2)) x).2.members,
      a ∈ x.2.members ∨ ∃ b ∈ bs, of b a := by
  induction bs generalizing x with
  | nil => exact fun a ha => .inl ha
  | cons b bs ih =>
    intro a ha
    obtain ⟨hvalid, hnew⟩ := hstep x.2 b hx
    rcases ih (x.1.push (number x.2 b).1, (number x.2 b).2) hvalid a ha with ha | ⟨c, hc, ha⟩
    · exact (hnew a ha).imp_right fun hb => ⟨b, List.mem_cons_self, hb⟩
    · exact .inr ⟨c, List.mem_cons_of_mem _ hc, ha⟩

theorem mem_of_ofList [LawfulBEq α] {values : List α} : ∀ a ∈ (ofList values).2, a ∈ values := by
  intro a ha
  have key := foldl_members Numbering.number
    (fun n b h => ⟨(h.number b).1, (h.number b).2.2.2⟩) values (#[], {}) valid_empty a
    (Array.mem_toList_iff.1 ha)
  simpa using key

end Numbering

namespace Encoding

/-- An entry that is numbered is that of a state. -/
theorem mem_of_numberEntries {states : List (List (Nat × ActionEntry))} :
    ∀ e ∈ (numberEntries states).2, ∃ entries ∈ states, ∃ n, (n, e) ∈ entries := by
  intro e he
  have key := Numbering.foldl_members (fun n entries => Numbering.numberAll entries n)
    (fun n entries h => ⟨(h.numberAll entries).1, (h.numberAll entries).2.2.2⟩) states (#[], {})
    Numbering.valid_empty e (Array.mem_toList_iff.1 he)
  simpa using key

/-- The entry of a state is numbered. -/
theorem mem_numberEntries {states : List (List (Nat × ActionEntry))}
    {entries : List (Nat × ActionEntry)} (hs : entries ∈ states) {n : Nat} {x : ActionEntry}
    (hx : (n, x) ∈ entries) : x ∈ (numberEntries states).2 := by
  have hall := forall₂_numberEntries states
  obtain ⟨i, hi⟩ := List.mem_iff_getElem?.1 hs
  have hlt := hall.length_eq ▸ (List.getElem?_eq_some_iff.1 hi).1
  have hrow := Numbering.forall₂_getElem? hall hi (List.getElem?_eq_getElem hlt)
  obtain ⟨j, hj⟩ := List.mem_iff_getElem?.1 hx
  have hlt := hrow.length_eq ▸ (List.getElem?_eq_some_iff.1 hj).1
  exact List.mem_of_getElem?
    (Numbering.forall₂_getElem? hrow hj (List.getElem?_eq_getElem hlt)).2

section Slices

variable {runs : List (List FieldEntry)} {entries : List FieldEntry}

/-- A slice lies within the list of all runs. -/
theorem slice_le (h : entries ≠ [] → entries ∈ runs) :
    (slice runs entries).1 + (slice runs entries).2 ≤ total (runs.map (·.length)) := by
  unfold slice
  split
  · exact Nat.zero_le _
  · rename_i hne
    have hmem := h (by simpa using hne)
    clear h hne
    induction runs with
    | nil => cases hmem
    | cons run runs ih =>
      by_cases hrun : run = entries
      · subst hrun
        simp [total]
      · have hle := ih ((List.mem_cons.1 hmem).resolve_left (Ne.symm hrun))
        simp only [List.takeWhile_cons, bne_iff_ne, ne_eq, hrun, not_false_eq_true, if_true,
          List.map_cons, total, List.foldr_cons] at hle ⊢
        omega

theorem length_flatten_runs : runs.flatten.length = total (runs.map (·.length)) :=
  List.length_flatten

theorem mem_runs {all : List (List FieldEntry)} (h : entries ∈ all) (hne : entries ≠ []) :
    entries ∈ Encoding.runs all := by
  simp [Encoding.runs, h, hne]

/-- The number of a field that a layout has. -/
theorem le_of_mem_layoutEntries {layouts : List FieldLayout} {layout : FieldLayout}
    (hl : layout ∈ layouts) {x : FieldEntry}
    (hx : x ∈ layoutEntries (fieldInfos layouts) layout) :
    0 < x.field ∧ x.field ≤ (fieldInfos layouts).length ∧
      ∀ n, layout.Below n → x.place.index < n := by
  obtain ⟨⟨name, places⟩, he, hx⟩ := List.mem_flatMap.1 hx
  obtain ⟨place, hp, rfl⟩ := List.mem_map.1 hx
  refine ⟨Nat.succ_pos _, ?_, fun n hn => hn _ he place hp⟩
  refine List.findIdx_lt_length_of_exists ⟨{ name, constant := Constant.ofField name }, ?_, ?_⟩
  · refine List.mem_map.2 ⟨name, Ordered.mem_ofList.2 ?_, rfl⟩
    exact List.mem_flatMap.2 ⟨layout, hl, List.mem_map.2 ⟨_, he, rfl⟩⟩
  · simp

end Slices

theorem total_take_add_le {lengths : List Nat} {n k : Nat} (h : lengths[n]? = some k) :
    total (lengths.take n) + k ≤ total lengths := by
  induction lengths generalizing n with
  | nil => simp at h
  | cons m lengths ih =>
    cases n with
    | zero =>
      obtain rfl : m = k := by simpa using h
      simp [total]
    | succ n =>
      have := ih (by simpa using h)
      simp only [List.take_succ_cons, total, List.foldr_cons] at this ⊢
      omega

section Groups

variable {values actions gotos : List (Nat × Nat)}

theorem length_groupsOf_le (values : List (Nat × Nat)) :
    (groupsOf values).length ≤ values.length := by
  rw [groupsOf, List.length_map, ← List.length_map (fun x : Nat × Nat => x.2)]
  exact length_eraseDups_le fun _ h => h

theorem length_smallGroups_le (actions gotos : List (Nat × Nat)) :
    (smallGroups actions gotos).length ≤ actions.length + gotos.length := by
  have ha := length_groupsOf_le actions
  have hg := length_groupsOf_le gotos
  simp only [smallGroups, List.length_map, List.length_mergeSort, List.length_append]
  omega

/-- A group has symbols of its list, and no more than these. -/
theorem of_mem_groupsOf {x : Group} (hx : x ∈ groupsOf values) :
    x.symbols.length ≤ values.length ∧ (∃ n, (n, x.value) ∈ values) := by
  obtain ⟨v, hv, rfl⟩ := List.mem_map.1 hx
  obtain ⟨⟨n, _⟩, hn, rfl⟩ := List.mem_map.1 (List.mem_eraseDups.1 hv)
  exact ⟨List.length_filterMap_le _ _, n, hn⟩

/-- A number in a large row is zero or that of a symbol. -/
theorem of_mem_largeRow {count n : Nat} (h : n ∈ largeRow count values) :
    n = 0 ∨ ∃ k, (k, n) ∈ values := by
  have key : ∀ (values : List (Nat × Nat)) (row : Array Nat),
      n ∈ values.foldl (fun row x => row.setIfInBounds x.1 x.2) row →
      n ∈ row ∨ ∃ k, (k, n) ∈ values := by
    intro values
    induction values with
    | nil => intro row hn; exact .inl hn
    | cons x values ih =>
      intro row hn
      rcases ih _ hn with hn | ⟨k, hk⟩
      · rcases Array.mem_or_eq_of_mem_setIfInBounds hn with hn | rfl
        · exact .inl hn
        · exact .inr ⟨x.1, List.mem_cons_self⟩
      · exact .inr ⟨k, List.mem_cons_of_mem _ hk⟩
  rcases key values _ (Array.mem_toList_iff.1 h) with hn | hn
  · exact .inl (Array.mem_replicate.1 hn).2
  · exact .inr hn

/-- What holds of the symbols and the numbers of a small state holds of those in its groups. -/
theorem of_mem_smallGroups {P Q : Nat → Prop} (h : ∀ x ∈ actions ++ gotos, P x.1 ∧ Q x.2)
    {x : Group} (hx : x ∈ smallGroups actions gotos) :
    Q x.value ∧ x.symbols.length ≤ actions.length + gotos.length ∧ ∀ n ∈ x.symbols, P n := by
  have key : ∀ values : List (Nat × Nat), values.Sublist (actions ++ gotos) →
      x ∈ groupsOf values →
      Q x.value ∧ x.symbols.length ≤ actions.length + gotos.length ∧ ∀ n ∈ x.symbols, P n := by
    intro values hsub hx
    obtain ⟨hlength, n, hn⟩ := of_mem_groupsOf hx
    refine ⟨(h _ (hsub.subset hn)).2, ?_, fun n hn => ?_⟩
    · rw [← List.length_append]
      exact hlength.trans hsub.length_le
    · exact (h _ (hsub.subset ((mem_groupsOf hx).1 hn))).1
  rcases mem_smallGroups.1 hx with hx | hx
  · exact key actions (List.sublist_append_left ..) hx
  · exact key gotos (List.sublist_append_right ..) hx

end Groups

/-- A number that can stand in a row: that of a state, or the place of an entry. -/
def IsValue (e : Encoding) (n : Nat) : Prop := n < e.stateCount ∨ n < e.actionsSize

/-- The numbers of an action are those of something which is there. -/
def HasAction (e : Encoding) : Action → Prop
  | .shift n _ => n < e.stateCount
  | .reduce r => e.symbolId r.symbol < e.symbolCount ∧ r.children ≤ e.maxChildren ∧
      r.production < e.slices.length
  | .accept | .shiftExtra | .recover => True

/-- All numbers in encoded tables are those of something which is there. -/
structure Indexed (e : Encoding) : Prop where
  tokenCount : e.tokenCount ≤ e.symbolCount
  largeCount : e.largeCount ≤ e.stateCount
  word : ∀ n ∈ e.word, n < e.symbolCount
  publicIds : ∀ s ∈ e.symbols, s.publicId < e.symbolCount
  fieldEntries : ∀ x ∈ e.fieldEntries,
    0 < x.field ∧ x.field ≤ e.fields.length ∧ x.place.index < e.maxChildren
  slices : ∀ x ∈ e.slices, x.1 + x.2 ≤ e.fieldEntries.length
  largeRows : ∀ row ∈ e.largeRows, row.length = e.symbolCount ∧ ∀ n ∈ row, e.IsValue n
  smallRows : ∀ r ∈ e.smallRows, r.groups.length ≤ e.symbolCount ∧
    ∀ x ∈ r.groups, e.IsValue x.value ∧ x.symbols.length ≤ e.symbolCount ∧
      ∀ n ∈ x.symbols, n < e.symbolCount
  smallOffsets : ∀ n ∈ e.smallOffsets, n < e.smallSize
  actions : ∀ x ∈ e.actionEntries, ∀ a ∈ x.actions, e.HasAction a
  lexModes : ∀ n ∈ e.lexModes, n < e.lexSets.length
  primary : ∀ n ∈ e.primary, n < e.stateCount
  keywords : ∀ k ∈ e.keywords, k.2 < e.symbolCount

section Tables

variable {g : FlatGrammar} {t : Tables} {e : Encoding}

/-- The row of a state has no more numbers than there are symbols. Each is given to a symbol, and is
that of a state or the place of an entry. -/
theorem of_mem_rows (ht : t.Indexed g) {row : List (Nat × Nat) × List (Nat × Nat)}
    (h : row ∈ rows g t) : row.1.length + row.2.length ≤ g.symbolCount ∧
      ∀ x ∈ row.1 ++ row.2, x.1 < g.symbolCount ∧
        (x.2 < t.table.states.size ∨ x.2 < (cells g t).size) := by
  obtain ⟨q, hq⟩ := List.mem_iff_getElem?.1 h
  have hlt : q < t.table.states.size := by
    have := (List.getElem?_eq_some_iff.1 hq).1
    simp only [rows, List.length_zip, List.length_map, Array.length_toList] at this
    omega
  have hs := Array.getElem?_eq_getElem hlt
  have hmem := Array.mem_of_getElem? hs
  obtain ⟨actions, hrow, hplaces⟩ := exists_row (g := g) hs
    (List.getElem?_eq_getElem (ht.reusable.symm ▸ hlt))
  obtain rfl : row = (actions, stateTargets g t.table.states[q]) :=
    Option.some.inj (hq.symm.trans hrow)
  obtain ⟨hsize, hgotos⟩ := ht.table.sized _ hmem
  refine ⟨?_, fun x hx => ?_⟩
  · have hentries : actions.length ≤ g.tokenCount := by
      rw [← hplaces.length_eq, stateEntries, List.length_map, ← hsize]
      exact State.length_entries_le _
    have htargets : (stateTargets g t.table.states[q]).length ≤ g.vars.size := by
      rw [stateTargets, List.length_map, ← hgotos]
      exact State.length_targets_le _
    exact Nat.add_le_add hentries htargets
  · obtain ⟨n, k⟩ := x
    rcases List.mem_append.1 hx with hx | hx
    · obtain ⟨i, hi⟩ := List.mem_iff_getElem?.1 hx
      have hlt : i < (stateEntries g t.table.states[q] _).length :=
        hplaces.length_eq ▸ (List.getElem?_eq_some_iff.1 hi).1
      have hentry := List.getElem?_eq_getElem hlt
      obtain ⟨hkey, hholds⟩ := Numbering.forall₂_getElem? hplaces hentry hi
      have hon := (mem_stateEntries.1 (List.mem_of_getElem? hentry)).1
      obtain rfl : _ = n := hkey
      exact ⟨Nat.lt_add_right _ (hsize ▸ State.lt_of_on hon),
        .inr (Array.getElem?_eq_some_iff.1 hholds.head).1⟩
    · obtain ⟨⟨v, target⟩, hv, heq⟩ := List.mem_map.1 hx
      cases heq
      obtain ⟨hlt, -, htarget⟩ := ht.targets _ hmem _ hv
      exact ⟨Nat.add_lt_add_left hlt _, .inl htarget⟩

theorem size_cells (g : FlatGrammar) (t : Tables) : (cells g t).size =
    1 + total ((numbered g t).2.map fun x => 1 + x.actions.length) := by
  have hlength : (fun x : ActionEntry => (Language.entryCells x).length) =
      fun x => 1 + x.actions.length := funext length_entryCells
  rw [cells, List.size_toArray, List.length_flatMap, hlength]
  rfl

theorem actionsSize_eq (hl : Lists g t e) : e.actionsSize = (cells g t).size := by
  rw [actionsSize, hl.actionEntries, size_cells]
  rfl

theorem smallSize_eq (hl : Lists g t e) :
    e.smallSize = total ((small g t).2.map smallLength) := by
  rw [smallSize, ← hl.smallRows, List.map_map]
  rfl

/-- The row of a small state starts before the end of all small rows. -/
theorem smallOffset_lt (hl : Lists g t e) : ∀ n ∈ e.smallOffsets, n < e.smallSize := by
  intro n hn
  rw [hl.smallOffsets] at hn
  obtain ⟨k, hk, rfl⟩ := List.mem_map.1 hn
  obtain ⟨i, hi⟩ := List.mem_iff_getElem?.1 hk
  obtain ⟨hall, -⟩ := Numbering.ofList_members (((rows g t).drop t.largeCount).map
    fun row => smallGroups row.1 row.2)
  have hlt := hall.length_eq ▸ (List.getElem?_eq_some_iff.1 hi).1
  have hgroups : (small g t).2[k]? = some _ :=
    Numbering.forall₂_getElem? hall hi (List.getElem?_eq_getElem hlt)
  have hlength := congrArg (Option.map smallLength) hgroups
  rw [← List.getElem?_map, Option.map_some] at hlength
  have hle := total_take_add_le hlength
  rw [smallPlaces, getElem?_offsets 0 (List.getElem?_eq_some_iff.1 hlength).1, Option.getD_some,
    Nat.zero_add, smallSize_eq hl]
  simp only [smallLength] at hle ⊢
  omega

theorem publicId_lt {s : Symbol} (hs : s ∈ g.symbols) (constant : String) :
    (symbolInfo g constant s).publicId < g.symbolCount := by
  refine FlatGrammar.symbolId_lt ?_
  cases hf : g.symbols.find? (looksLike g s) with
  | none => exact hs
  | some x => exact List.mem_of_find?_eq_some hf

/-- The actions of an entry are those of a state for a terminal. -/
theorem exists_state {x : ActionEntry} (hx : x ∈ (numbered g t).2) :
    ∃ s ∈ t.table.states, ∃ n, x.actions = s.on (TokenSet.symbolAt n) := by
  obtain ⟨entries, hentries, n, hn⟩ := mem_of_numberEntries x hx
  obtain ⟨⟨s, reusable⟩, hs, rfl⟩ := List.mem_map.1 hentries
  obtain ⟨-, rfl⟩ := mem_stateEntries.1 hn
  exact ⟨s, Array.mem_toList_iff.1 (List.of_mem_zip hs).1, n, rfl⟩

/-- The actions of a state for a terminal are those of an entry. -/
theorem exists_entry (ht : t.Indexed g) {s : State} (hs : s ∈ t.table.states) {x : Symbol}
    (hne : s.on x ≠ []) : ∃ y ∈ (numbered g t).2, y.actions = s.on x := by
  obtain ⟨q, hq⟩ := List.mem_iff_getElem?.1 (Array.mem_toList_iff.2 hs)
  obtain ⟨reusable, hr⟩ : ∃ reusable, t.reusable[q]? = some reusable := by
    have hlt := (List.getElem?_eq_some_iff.1 hq).1
    rw [Array.length_toList, ← ht.reusable] at hlt
    exact ⟨_, List.getElem?_eq_getElem hlt⟩
  have hentries : stateEntries g s reusable ∈ (t.table.states.toList.zip t.reusable).map
      fun x => stateEntries g x.1 x.2 :=
    List.mem_map.2 ⟨(s, reusable), List.mem_of_getElem? (List.getElem?_zip_eq_some.2 ⟨hq, hr⟩), rfl⟩
  rw [← Bypass.on_symbolAt_position] at hne ⊢
  exact ⟨_, mem_numberEntries hentries (mem_stateEntries.2 ⟨hne, rfl⟩), rfl⟩

/-- What holds of no actions holds of the actions of all entries exactly if it holds of those of all
states. -/
theorem forall_actionEntries (ht : t.Indexed g) (hl : Lists g t e) {P : List Action → Prop}
    (hnil : P []) : (∀ x ∈ e.actionEntries, P x.actions) ↔
      ∀ s ∈ t.table.states, ∀ x, P (s.on x) := by
  rw [hl.actionEntries, List.forall_mem_cons, and_iff_right hnil]
  constructor
  · intro h s hs x
    by_cases hne : s.on x = []
    · exact hne ▸ hnil
    · obtain ⟨y, hy, heq⟩ := exists_entry ht hs hne
      exact heq ▸ h y hy
  · intro h x hx
    obtain ⟨s, hs, n, hon⟩ := exists_state hx
    exact hon ▸ h s hs _

/-- The parts of the encoded tables that are not read by state and symbol. -/
structure Parts (g : FlatGrammar) (t : Tables) (e : Encoding) : Prop where
  symbols : e.symbols = ((g.symbols.zip (Constant.ofSymbols g)).map
    fun (s, constant) => symbolInfo g constant s).toArray
  word : e.word = g.word.map g.symbolId
  fields : e.fields = fieldInfos t.table.layouts
  slices : e.slices = (t.table.layouts.map (layoutEntries e.fields)).map
    (slice (runs (t.table.layouts.map (layoutEntries e.fields))))
  fieldEntries : e.fieldEntries = (runs (t.table.layouts.map (layoutEntries e.fields))).flatten
  maxChildren : e.maxChildren = t.table.maxChildren
  lexModes : e.lexModes = t.lexStates
  primary : e.primary = t.primary
  keywords : e.keywords = keywordTable g (Constant.ofSymbols g)

theorem parts_of_ofTables {version : Version} (h : ofTables g t version = .ok e) :
    Parts g t e := by
  obtain ⟨-, -, h⟩ := bind_eq_ok.1 h
  obtain ⟨-, -, h⟩ := bind_eq_ok.1 h
  obtain ⟨-, -, h⟩ := bind_eq_ok.1 h
  obtain ⟨-, -, h⟩ := bind_eq_ok.1 h
  cases h
  exact ⟨rfl, rfl, rfl, rfl, rfl, rfl, rfl, rfl, rfl⟩

section

variable (ht : t.Indexed g) (hl : Lists g t e)
include ht hl

theorem stateCount_eq : e.stateCount = t.table.states.size := by
  rw [hl.stateCount, ht.lexStates.length_eq, Array.length_toList]

theorem isValue_of_mem_rows {row : List (Nat × Nat) × List (Nat × Nat)} (h : row ∈ rows g t) :
    row.1.length + row.2.length ≤ e.symbolCount ∧
      ∀ x ∈ row.1 ++ row.2, x.1 < e.symbolCount ∧ e.IsValue x.2 := by
  rw [hl.symbolCount]
  simpa only [IsValue, stateCount_eq ht hl, actionsSize_eq hl] using of_mem_rows ht h

theorem indexed_largeRows {row : List Nat} (hrow : row ∈ e.largeRows) :
    row.length = e.symbolCount ∧ ∀ n ∈ row, e.IsValue n := by
  rw [hl.largeRows] at hrow
  obtain ⟨r, hr, rfl⟩ := List.mem_map.1 hrow
  refine ⟨(length_largeRow ..).trans hl.symbolCount.symm, fun n hn => ?_⟩
  rcases of_mem_largeRow hn with rfl | ⟨k, hk⟩
  · refine .inl ?_
    have htwo := ht.table.two_le
    rw [stateCount_eq ht hl]
    omega
  · exact ((isValue_of_mem_rows ht hl (List.mem_of_mem_take hr)).2 _ hk).2

theorem indexed_smallRows {r : SmallRow} (hr : r ∈ e.smallRows) :
    r.groups.length ≤ e.symbolCount ∧
      ∀ x ∈ r.groups, e.IsValue x.value ∧ x.symbols.length ≤ e.symbolCount ∧
        ∀ n ∈ x.symbols, n < e.symbolCount := by
  have hmem : r.groups ∈ (small g t).2 := hl.smallRows ▸ List.mem_map_of_mem hr
  obtain ⟨row, hrow, hgroups⟩ := List.mem_map.1 (Numbering.mem_of_ofList _ hmem)
  obtain ⟨hlength, hvalues⟩ := isValue_of_mem_rows ht hl (List.mem_of_mem_drop hrow)
  rw [← hgroups]
  refine ⟨(length_smallGroups_le _ _).trans hlength, fun x hx => ?_⟩
  obtain ⟨hvalue, hsymbols, hlt⟩ :=
    of_mem_smallGroups (P := (· < e.symbolCount)) (Q := e.IsValue) hvalues hx
  exact ⟨hvalue, hsymbols.trans hlength, hlt⟩

theorem hasAction_of_mem (hp : Parts g t e) :
    ∀ x ∈ e.actionEntries, ∀ a ∈ x.actions, e.HasAction a := by
  refine (forall_actionEntries ht hl (P := fun as => ∀ a ∈ as, e.HasAction a) (by simp)).2
    fun s hs x a ha => ?_
  cases a with
  | accept | shiftExtra | recover => trivial
  | shift m r =>
    rw [HasAction, stateCount_eq ht hl]
    exact (ht.table.targets s hs m (State.mem_successors_of_on ha)).2
  | reduce r =>
    obtain ⟨⟨v, hv, p, -, hsymbol, -, -, hlayout⟩, hle⟩ := ht.table.reductions s hs _ r ha
    rw [HasAction, hl.symbolCount, hp.maxChildren, hsymbol, Encoding.symbolId, hl.tokenCount]
    refine ⟨Nat.add_lt_add_left hv _, hle, ?_⟩
    simpa [hp.slices] using (List.getElem?_eq_some_iff.1 hlayout).1

end

section

variable (ht : t.Indexed g) (hp : Parts g t e)
include ht hp

theorem indexed_fieldEntries {x : FieldEntry} (hx : x ∈ e.fieldEntries) :
    0 < x.field ∧ x.field ≤ e.fields.length ∧ x.place.index < e.maxChildren := by
  rw [hp.fieldEntries, hp.fields] at hx
  obtain ⟨run, hrun, hx⟩ := List.mem_flatten.1 hx
  obtain ⟨layout, hlayout, rfl⟩ := List.mem_map.1
    (List.mem_filter.1 (List.mem_eraseDups.1 hrun)).1
  obtain ⟨hpos, hle, hbelow⟩ := le_of_mem_layoutEntries hlayout hx
  rw [hp.fields, hp.maxChildren]
  exact ⟨hpos, hle, hbelow _ (ht.table.layouts layout hlayout)⟩

theorem indexed_lexModes {n : Nat} (hn : n ∈ e.lexModes) : n < t.lexSets.length := by
  rw [hp.lexModes] at hn
  obtain ⟨i, hi⟩ := List.mem_iff_getElem?.1 hn
  have hlt := ht.lexStates.length_eq ▸ (List.getElem?_eq_some_iff.1 hi).1
  exact (List.getElem?_eq_some_iff.1
    (Numbering.forall₂_getElem? ht.lexStates hi (List.getElem?_eq_getElem hlt))).1

theorem indexed_primary {n : Nat} (hn : n ∈ e.primary) : n < t.table.states.size := by
  rw [hp.primary] at hn
  obtain ⟨i, hi⟩ := List.mem_iff_getElem?.1 hn
  have hlt := ht.primary.length_eq ▸ (List.getElem?_eq_some_iff.1 hi).1
  obtain ⟨u, hu, -⟩ := (Numbering.forall₂_getElem? ht.primary hi (List.getElem?_eq_getElem hlt)).1
  exact (Array.getElem?_eq_some_iff.1 hu).1

end

/-- The encoded tables of a grammar are indexed. -/
theorem indexed_of_ofTables (ht : t.Indexed g) (hword : ∀ s ∈ g.word, g.IsToken s)
    (hkeywords : ∀ s ∈ g.keywords, g.IsToken s) {version : Version}
    (h : ofTables g t version = .ok e) : e.Indexed := by
  have hl := lists_of_ofTables h
  have hp := parts_of_ofTables h
  have hsymbol : ∀ s ∈ g.symbols, g.symbolId s < e.symbolCount := fun s hs =>
    hl.symbolCount ▸ FlatGrammar.symbolId_lt hs
  refine ⟨?_, ?_, fun n hn => ?_, fun s hs => ?_, fun x hx => indexed_fieldEntries ht hp hx,
    fun x hx => ?_, fun row hrow => indexed_largeRows ht hl hrow,
    fun r hr => indexed_smallRows ht hl hr, smallOffset_lt hl,
    hasAction_of_mem ht hl hp,
    fun n hn => hl.lexSets ▸ indexed_lexModes ht hp hn,
    fun n hn => stateCount_eq ht hl ▸ indexed_primary ht hp hn, fun k hk => ?_⟩
  · rw [hl.tokenCount, hl.symbolCount]
    exact Nat.le_add_right ..
  · rw [largeCount, hl.largeRows, List.length_map, stateCount_eq ht hl]
    exact (List.length_take_le ..).trans ht.largeCount
  · rw [hp.word] at hn
    obtain ⟨s, hs, rfl⟩ := Option.map_eq_some_iff.1 hn
    exact hsymbol s (hword s hs).mem_symbols
  · rw [hp.symbols] at hs
    obtain ⟨⟨s, constant⟩, hx, rfl⟩ := List.mem_map.1 (List.mem_toArray.1 hs)
    exact hl.symbolCount ▸ publicId_lt (List.of_mem_zip hx).1 constant
  · rw [hp.slices] at hx
    obtain ⟨entries, hentries, rfl⟩ := List.mem_map.1 hx
    rw [hp.fieldEntries, length_flatten_runs]
    exact slice_le (mem_runs hentries)
  · rw [hp.keywords] at hk
    obtain ⟨s, hs, -, hid⟩ := mem_keywordTable.1 hk
    exact hid ▸ hsymbol s (hkeywords s hs).mem_symbols

end Tables

end Encoding

/-- What describes the nodes of a grammar is there for every variable, and the symbols of the nodes
are ones that the grammar has. -/
structure FlatGrammar.Described (g : FlatGrammar) : Prop where
  exposed : (FieldLayout.exposed g).size = g.vars.size
  summaries : (Summary.ofGrammar g).size = g.vars.size
  reachable : ∀ s ∈ g.reachable, s ∈ g.symbols

theorem FlatGrammar.described_of_declared {g : FlatGrammar} (wf : g.WellFormed)
    (hg : g.Declared) : g.Described where
  exposed := settle_keeps (P := fun exposed : Array (List String) => exposed.size = g.vars.size)
    (fun exposed _ => by simp [FieldLayout.sweep]) _ (by simp)
  summaries := settle_keeps (P := fun summaries : Array Summary => summaries.size = g.vars.size)
    (fun summaries _ => Summary.size_sweep g summaries) _ (by simp)
  reachable s hs := by
    rcases List.mem_cons.1 ((searched_reachable wf).known hs) with rfl | hs
    · obtain ⟨v, hv, heq⟩ := hg.start
      exact heq ▸ FlatGrammar.nonterminal_mem_symbols.2 hv
    · exact hs

section

variable {source : Grammar} {g : FlatGrammar}

/-- All indices from a grammar that has rules to its encoded tables are valid. -/
theorem indices_valid [RegexEngine] (h : FlatGrammar.ofGrammar source = .ok g)
    (hrules : source.rules ≠ []) :
    g.Declared ∧ g.Described ∧ ∀ t, Tables.ofGrammar g = .ok t →
      (∃ table conflicts, ParseTable.canonical g = .ok (table, conflicts) ∧ table.Staged g) ∧
      t.Indexed g ∧ ∀ version e, Encoding.ofTables g t version = .ok e → e.Indexed := by
  have wf := FlatGrammar.wellFormed_of_ofGrammar h
  have hg := FlatGrammar.declared_of_ofGrammar h hrules
  refine ⟨hg, FlatGrammar.described_of_declared wf hg, fun t ht => ?_⟩
  have hi := Tables.indexed_of_ofGrammar wf ht
  obtain ⟨⟨table, conflicts⟩, hc, -⟩ := bind_eq_ok.1 ht
  exact ⟨⟨table, conflicts, hc, ParseTable.staged_of_canonical wf hc⟩, hi,
    fun version e he => Encoding.indexed_of_ofTables hi hg.word hg.keywords he⟩

/-- All indices from the grammar of items between brackets to its encoded tables are valid. -/
theorem indices_valid_bracketed : ∃ g t e, FlatGrammar.ofGrammar .bracketed = .ok g ∧
    Grammar.bracketed.rules ≠ [] ∧ Tables.ofGrammar g = .ok t ∧
    Encoding.ofTables g t ⟨1, 0, 0⟩ = .ok e ∧ g.Declared ∧ g.Described ∧ t.Indexed g ∧
    e.Indexed := by
  obtain ⟨g, t, e, h, ht, he, -⟩ := Encoding.exists_bracketed
  have hrules : Grammar.bracketed.rules ≠ [] := by simp [Grammar.bracketed]
  obtain ⟨hg, hdescribed, hall⟩ := indices_valid h hrules
  obtain ⟨-, hi, hencoded⟩ := hall t ht
  exact ⟨g, t, e, h, hrules, ht, he, hg, hdescribed, hi, hencoded _ e he⟩

end

end GrammarTables
