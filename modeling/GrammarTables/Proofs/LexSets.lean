import GrammarTables.Proofs.Minimization

/-!
# What a state's lexer may return

The lexer of every state may return every extra, and no lexer returns a keyword: the word token
stands for it.
-/

namespace GrammarTables

theorem State.contains_tokens {s : State} {t : Symbol} :
    s.tokens.contains t = true ↔ s.on t ≠ [] := by
  have key : ∀ (l : List (List Action)) (i : Nat),
      (l.foldr (fun as mask => (if as.isEmpty then 0 else 1) ||| (mask <<< 1)) 0).testBit i =
        !(l[i]?.getD []).isEmpty := by
    intro l
    induction l with
    | nil => simp
    | cons as l ih =>
      intro i
      simp only [List.foldr_cons, Nat.testBit_or, Nat.testBit_shiftLeft]
      cases i with
      | zero => cases as <;> simp
      | succ i =>
        rw [Nat.add_sub_cancel, ih]
        cases as <;> simp [Nat.testBit_succ]
  rw [TokenSet.contains, tokens, key, on, ← Array.getElem?_toList]
  simp

section

variable {g : FlatGrammar} {states : Array State}

theorem Merge.exists_member (h : Mergeable states) {k : Nat} {m : State}
    (hm : (Merge.states g states)[k]? = some m) :
    ∃ q s, group g states q = k ∧ states[q]? = some s := by
  have hg := grouped_groups g h
  rw [getElem?_states] at hm
  obtain ⟨G, hG, -⟩ := Option.map_eq_some_iff.1 hm
  have hG' := List.mem_of_getElem? hG
  obtain ⟨i, hi⟩ := List.exists_mem_of_ne_nil _ (hg.partition.ne_nil G hG')
  have hlt := hg.partition.mem.1 (List.mem_flatten.2 ⟨G, hG', hi⟩)
  exact ⟨i, states[i], hg.partition.groupAt_eq hG hi, Array.getElem?_eq_getElem hlt⟩

/-- Every state of the final table has an entry for every extra. -/
theorem Tables.on_ne_nil_of_extra (wf : g.WellFormed) {tables : Tables}
    (h : Tables.ofGrammar g = .ok tables) {e : Nat} (he : g.isExtra (.terminal e) = true) :
    ∀ s ∈ tables.table.states, s.on (.terminal e) ≠ [] := by
  obtain ⟨⟨canonical, conflicts⟩, hc, h⟩ := bind_eq_ok.1 h
  cases h
  have hP : ∀ (s : State) (f : Nat → Nat), s.on (.terminal e) ≠ [] →
      (s.mapTargets f).on (.terminal e) ≠ [] := by
    intro s f hs
    rw [State.on_mapTargets]
    simpa using hs
  refine StateOrder.forall_states hP (Bypass.forall_states hP fun m hm => ?_)
  rw [Canonical.states_of_canonical hc] at hm
  have ht := Canonical.table_states wf
  obtain ⟨k, hk⟩ := Array.mem_iff_getElem?.1 hm
  obtain ⟨q, s, rfl, hs⟩ := Merge.exists_member ht.mergeable hk
  obtain ⟨a, -, hd⟩ := ht.described hs
  have hne := hd.on_ne_nil_of_extra rfl (wf.position_lt he) he
  obtain ⟨m', hm', hon, -⟩ := (Merge.merges g ht.mergeable).state hs
  rw [hk] at hm'
  cases hm'
  rw [hon _ hne]
  simpa using hne

theorem Tables.exists_of_mem_lexSets {tables : Tables} (h : Tables.ofGrammar g = .ok tables)
    {valid : TokenSet} (hv : valid ∈ tables.lexSets) :
    ∃ s ∈ tables.table.states, valid = lexSet g s := by
  obtain ⟨⟨canonical, conflicts⟩, -, h⟩ := bind_eq_ok.1 h
  cases h
  obtain ⟨s, hs, rfl⟩ := List.mem_map.1 (List.mem_eraseDups.1 hv)
  exact ⟨s, Array.mem_toList_iff.1 hs, rfl⟩

/-- A lexer may return every extra that is no keyword. -/
theorem Tables.contains_extra (wf : g.WellFormed) {tables : Tables}
    (h : Tables.ofGrammar g = .ok tables) {e : Nat} (he : g.isExtra (.terminal e) = true)
    (hk : .terminal e ∉ g.keywords) {valid : TokenSet} (hv : valid ∈ tables.lexSets) :
    valid.contains (.terminal e) = true := by
  obtain ⟨s, hs, rfl⟩ := exists_of_mem_lexSets h hv
  have hon := on_ne_nil_of_extra wf h he s hs
  rw [lexSet, TokenSet.contains_ofList]
  refine ⟨_, List.mem_map_of_mem (TokenSet.mem_toList.2 ⟨rfl, State.contains_tokens.2 hon⟩), ?_⟩
  split <;> simp [FlatGrammar.isKeyword, hk]

/-- No lexer returns a keyword: the word token stands for it. -/
theorem Tables.contains_keyword {word : Symbol} (hw : g.word = some word)
    (hword : word.isTerminal = true) (hne : word ∉ g.keywords) {tables : Tables}
    (h : Tables.ofGrammar g = .ok tables) {valid : TokenSet} (hv : valid ∈ tables.lexSets)
    {k : Symbol} (hk : k ∈ g.keywords) (hterm : k.isTerminal = true) :
    valid.contains k = false := by
  obtain ⟨s, hs, rfl⟩ := exists_of_mem_lexSets h hv
  rw [← Bool.not_eq_true, lexSet, TokenSet.contains_ofList, hw]
  rintro ⟨_, hr, hpos⟩
  obtain ⟨r, hmem, rfl⟩ := List.mem_map.1 hr
  have hr := (TokenSet.mem_toList.1 hmem).1
  dsimp only at hpos
  split at hpos
  · exact hne (TokenSet.position_injective hword hterm hpos ▸ hk)
  · rename_i hkey
    cases TokenSet.position_injective hr hterm hpos
    exact hkey (List.contains_iff_mem.2 hk)

end

end GrammarTables
