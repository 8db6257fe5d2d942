import GrammarTables.Encoding.Source
import GrammarTables.Proofs.FieldMaps
import GrammarTables.Proofs.Hexadecimal

/-!
# Constants are told apart

Every constant is an identifier. The constants of symbols are different from each other, because a
name that is taken gets a number behind it, and from those of fields, which begin in another way.
The constants of fields are only spelled, so they are different exactly if no two names of fields
are spelled alike.
-/

namespace GrammarTables

namespace Constant

/-- Letters, digits and underscores of ASCII, with no digit in front. -/
structure IsIdentifier (text : String) : Prop where
  parts : ∀ c ∈ text.toList, c.isAlphanum = true ∨ c = '_'
  front : ∃ c ∈ text.toList.head?, c.isDigit = false

variable {c : Char} {alone : Bool} {written : List Char} {taken : List String} {base name : String}

theorem isPlain_iff : isPlain c = true ↔ c.isAlphanum = true ∨ c = '_' := by
  simp [isPlain]

theorem isPlain_of_isAlphanum (h : c.isAlphanum = true) : isPlain c = true :=
  isPlain_iff.2 (.inl h)

section Spelling

theorem isPlain_words : ∀ p ∈ words, p.2.toList.all isPlain = true := by
  decide +kernel

theorem isPlain_of_word? {word : String} (h : word? alone c = some word) :
    ∀ x ∈ word.toList, isPlain x = true := by
  unfold word? at h
  split at h
  · cases h
    exact List.all_eq_true.1 (by decide)
  · obtain ⟨before, after, heq, -⟩ := List.lookup_eq_some_iff.1 h
    exact List.all_eq_true.1 (isPlain_words (c, word) (by simp [heq]))

theorem mem_separate {x : Char} (h : x ∈ separate written) : x = '_' ∨ x ∈ written := by
  unfold separate at h
  grind

theorem isPlain_spellChar (h : ∀ x ∈ written, isPlain x = true) (c : Char) :
    ∀ x ∈ spellChar alone written c, isPlain x = true := by
  intro x hx
  unfold spellChar at hx
  split at hx
  · rename_i hc
    rcases List.mem_cons.1 hx with rfl | hx
    · exact hc
    · exact h x hx
  · split at hx
    · rename_i word hword
      rcases List.mem_append.1 hx with hx | hx
      · exact isPlain_of_word? hword x (List.mem_reverse.1 hx)
      · rcases mem_separate hx with rfl | hx
        · rfl
        · exact h x hx
    · rcases List.mem_append.1 hx with hx | hx
      · exact isPlain_of_isAlphanum (Text.isAlphanum_of_mem_hexPadded (List.mem_reverse.1 hx))
      · rcases List.mem_cons.1 hx with rfl | hx
        · rfl
        · exact h x hx

/-- Whatever is in a name, spelled it stands in an identifier. -/
theorem isPlain_spell (name : String) : ∀ c ∈ (spell name).toList, isPlain c = true := by
  rw [spell, String.toList_ofList]
  intro c hc
  have key : ∀ x ∈ name.toList.foldl (spellChar (name.utf8ByteSize == 1)) [], isPlain x = true :=
    List.foldlRecOn (motive := fun written => ∀ x ∈ written, isPlain x = true) _ _ nofun
      fun written h c _ => isPlain_spellChar h c
  exact key c (List.mem_reverse.1 hc)

/-- What the constants of symbols begin with. -/
def fronts : List String := ["ts_builtin_sym_end", "aux_sym_", "anon_sym_", "sym_"]

theorem exists_ofSymbol (g : FlatGrammar) (s : Symbol) : ∃ front ∈ fronts, ∃ rest : String,
    (∀ c ∈ rest.toList, isPlain c = true) ∧ ofSymbol g s = front ++ rest := by
  have hspell := isPlain_spell (g.symbolName s)
  unfold ofSymbol
  split
  · exact ⟨"ts_builtin_sym_end", by simp [fronts], "", by simp, rfl⟩
  · split
    · exact ⟨"aux_sym_", by simp [fronts], _, hspell, rfl⟩
    · exact ⟨"anon_sym_", by simp [fronts], _, hspell, rfl⟩
    · exact ⟨"sym_", by simp [fronts], _, hspell, rfl⟩
    · exact ⟨"sym_", by simp [fronts], _, hspell, rfl⟩

end Spelling

section Numbers

/-- The name is the base, or the base with a number behind it. -/
def Numbers (base name : String) : Prop := name = base ∨ ∃ n : Nat, name = base ++ toString n

theorem append_toString_injective (base : String) :
    Function.Injective fun n : Nat => base ++ toString n := by
  intro m n h
  have hdigits : toString m = toString n := (String.append_right_inj _).1 h
  rw [Nat.toString_eq_ofList_toDigits, Nat.toString_eq_ofList_toDigits, String.ofList_inj]
    at hdigits
  rw [← Nat.ofDigitChars_ten_toDigits (n := m), hdigits, Nat.ofDigitChars_ten_toDigits]

theorem numbers_numberedFrom (taken : List String) (base : String) (fuel n : Nat) :
    Numbers base (numberedFrom taken base fuel n) := by
  induction fuel generalizing n with
  | zero => exact .inr ⟨n, rfl⟩
  | succ fuel ih =>
    rw [numberedFrom]
    split
    · exact ih (n + 1)
    · exact .inr ⟨n, rfl⟩

theorem numbers_fresh (taken : List String) (base : String) : Numbers base (fresh taken base) := by
  rw [fresh]
  split
  · exact numbers_numberedFrom taken base _ 2
  · exact .inl rfl

/-- The search ends at a name that is not taken, or it has seen only taken ones. -/
theorem numberedFrom_cases (taken : List String) (base : String) (fuel n : Nat) :
    numberedFrom taken base fuel n ∉ taken ∨ ∀ i ≤ fuel, base ++ toString (n + i) ∈ taken := by
  induction fuel generalizing n with
  | zero =>
    by_cases h : base ++ toString n ∈ taken
    · exact .inr fun i hi => by simpa [Nat.le_zero.1 hi] using h
    · exact .inl h
  | succ fuel ih =>
    rw [numberedFrom]
    split
    · rename_i htaken
      refine (ih (n + 1)).imp_right fun hall i hi => ?_
      cases i with
      | zero => exact List.contains_iff_mem.1 htaken
      | succ i => simpa [Nat.add_assoc, Nat.add_comm 1] using hall i (Nat.le_of_succ_le_succ hi)
    · rename_i hfree
      exact .inl fun hmem => hfree (List.contains_iff_mem.2 hmem)

/-- As many names as are taken cannot cover one more name. -/
theorem fresh_notMem (taken : List String) (base : String) : fresh taken base ∉ taken := by
  rw [fresh]
  split
  · -- had the search met only taken names, there would be one more of them than are taken
    refine (numberedFrom_cases taken base taken.length 2).elim id fun hall => ?_
    let names := (List.range (taken.length + 1)).map fun i => base ++ toString (2 + i)
    have hnodup : names.Nodup := by
      refine List.nodup_range.map ?_
      exact (append_toString_injective base).comp (add_right_injective 2)
    have hsub : names ⊆ taken := by
      intro name hname
      obtain ⟨i, hi, rfl⟩ := List.mem_map.1 hname
      exact hall i (Nat.le_of_lt_succ (List.mem_range.1 hi))
    have hle := (List.subperm_of_subset hnodup hsub).length_le
    simp [names] at hle
  · rename_i hfree
    exact fun hmem => hfree (List.contains_iff_mem.2 hmem)

end Numbers

section Identifiers

theorem IsIdentifier.append (h : IsIdentifier base) (hname : ∀ c ∈ name.toList, isPlain c = true) :
    IsIdentifier (base ++ name) := by
  obtain ⟨c, hc, hdigit⟩ := h.front
  refine ⟨fun x hx => ?_, c, ?_, hdigit⟩
  · rw [String.toList_append] at hx
    exact (List.mem_append.1 hx).elim (h.parts x) fun hx => isPlain_iff.1 (hname x hx)
  · rw [String.toList_append, List.head?_append]
    simp [Option.mem_def.1 hc]

theorem IsIdentifier.head?_append (h : IsIdentifier base) (name : String) :
    (base ++ name).toList.head? = base.toList.head? := by
  obtain ⟨c, hc, -⟩ := h.front
  rw [String.toList_append, List.head?_append, Option.mem_def.1 hc, Option.some_or]

theorem isPlain_toString (n : Nat) : ∀ c ∈ (toString n).toList, isPlain c = true := by
  intro c hc
  rw [Nat.toString_eq_ofList_toDigits, String.toList_ofList] at hc
  have hdigit := Nat.isDigit_of_mem_toDigits (by decide) (by decide) hc
  exact isPlain_of_isAlphanum (by simp [Char.isAlphanum, hdigit])

theorem Numbers.isIdentifier (h : Numbers base name) (hbase : IsIdentifier base) :
    IsIdentifier name := by
  obtain rfl | ⟨n, rfl⟩ := h
  · exact hbase
  · exact hbase.append (isPlain_toString n)

theorem Numbers.head?_eq (h : Numbers base name) (hbase : IsIdentifier base) :
    name.toList.head? = base.toList.head? := by
  obtain rfl | ⟨n, rfl⟩ := h
  · rfl
  · exact hbase.head?_append _

/-- A text can be checked for being an identifier. -/
theorem isIdentifier_of_all {text : String} (hparts : text.toList.all isPlain = true)
    (hfront : text.toList.head?.any (!·.isDigit) = true) : IsIdentifier text := by
  obtain ⟨c, hc, hdigit⟩ := (Option.any_eq_true _ _).1 hfront
  exact ⟨fun c hc => isPlain_iff.1 (List.all_eq_true.1 hparts c hc), c, hc, by simpa using hdigit⟩

theorem isIdentifier_fronts : ∀ front ∈ fronts, IsIdentifier front := by
  have h : ∀ front ∈ fronts, front.toList.all isPlain = true ∧
      front.toList.head?.any (!·.isDigit) = true := by
    decide +kernel
  exact fun front hfront => isIdentifier_of_all (h front hfront).1 (h front hfront).2

theorem isIdentifier_ofSymbol (g : FlatGrammar) (s : Symbol) : IsIdentifier (ofSymbol g s) := by
  obtain ⟨front, hfront, rest, hrest, heq⟩ := exists_ofSymbol g s
  rw [heq]
  exact (isIdentifier_fronts front hfront).append hrest

theorem head?_ofSymbol (g : FlatGrammar) (s : Symbol) :
    (ofSymbol g s).toList.head? ≠ some 'f' := by
  have h : ∀ front ∈ fronts, front.toList.head? ≠ some 'f' := by decide +kernel
  obtain ⟨front, hfront, rest, -, heq⟩ := exists_ofSymbol g s
  rw [heq, (isIdentifier_fronts front hfront).head?_append]
  exact h front hfront

theorem isIdentifier_field : IsIdentifier "field_" :=
  isIdentifier_of_all (by decide +kernel) (by decide +kernel)

theorem isIdentifier_ofField (name : String) : IsIdentifier (ofField name) :=
  isIdentifier_field.append (isPlain_spell name)

theorem head?_ofField (name : String) : (ofField name).toList.head? = some 'f' :=
  isIdentifier_field.head?_append _

theorem of_mem_map_ofField {names : List String} (h : name ∈ names.map ofField) :
    IsIdentifier name ∧ name.toList.head? = some 'f' := by
  obtain ⟨field, -, rfl⟩ := List.mem_map.1 h
  exact ⟨isIdentifier_ofField field, head?_ofField field⟩

theorem ofField_inj {a b : String} :
    ofField a = ofField b ↔ spell a = spell b :=
  String.append_right_inj _

theorem nodup_map_ofField {names : List String} :
    (names.map ofField).Nodup ↔ (names.map spell).Nodup := by
  simp only [List.Nodup, List.pairwise_map, ne_eq, ofField_inj]

end Identifiers

section Symbols

/-- Each symbol gets its constant, or that with a number behind it, and none that is taken. -/
theorem exists_foldl_fresh (g : FlatGrammar) (symbols : List Symbol) (taken : List String)
    (hn : taken.Nodup) : ∃ names,
      symbols.foldl (fun taken s => fresh taken (ofSymbol g s) :: taken) taken =
        names.reverse ++ taken ∧
      List.Forall₂ (fun s name => Numbers (ofSymbol g s) name) symbols names ∧
      (names.reverse ++ taken).Nodup := by
  induction symbols generalizing taken with
  | nil => exact ⟨[], rfl, .nil, hn⟩
  | cons s symbols ih =>
    let name := fresh taken (ofSymbol g s)
    obtain ⟨names, heq, hnames, hnodup⟩ :=
      ih (name :: taken) (List.nodup_cons.2 ⟨fresh_notMem taken _, hn⟩)
    refine ⟨name :: names, ?_, .cons (numbers_fresh taken _) hnames, ?_⟩
    · rw [List.foldl_cons, heq]
      simp
    · simpa using hnodup

theorem forall₂_ofSymbols (g : FlatGrammar) :
    List.Forall₂ (fun s name => Numbers (ofSymbol g s) name) g.symbols (ofSymbols g) ∧
      (ofSymbols g).Nodup := by
  obtain ⟨names, heq, hnames, hnodup⟩ := exists_foldl_fresh g g.symbols [] List.nodup_nil
  rw [ofSymbols, heq, List.append_nil, List.reverse_reverse]
  exact ⟨hnames, by simpa using hnodup⟩

/-- The constants of symbols are identifiers that do not begin as those of fields do. -/
theorem of_mem_ofSymbols {g : FlatGrammar} (h : name ∈ ofSymbols g) :
    IsIdentifier name ∧ name.toList.head? ≠ some 'f' := by
  obtain ⟨i, hi, rfl⟩ := List.mem_iff_getElem.1 h
  have hforall := (forall₂_ofSymbols g).1
  have hlt : i < g.symbols.length := hforall.length_eq ▸ hi
  have hnumbers := hforall.get hlt hi
  have hbase := isIdentifier_ofSymbol g g.symbols[i]
  exact ⟨hnumbers.isIdentifier hbase, hnumbers.head?_eq hbase ▸ head?_ofSymbol g _⟩

end Symbols

end Constant

/-- Symbols are listed in the order of their numbers. -/
theorem FlatGrammar.map_symbolId_symbols (g : FlatGrammar) :
    g.symbols.map g.symbolId = List.range g.symbolCount := by
  have hterminals : g.terminals.map g.symbolId = List.range g.tokenCount := by
    rw [tokenCount, Nat.add_comm, List.range_succ_eq_map, terminals, List.map_cons, List.map_map]
    rfl
  have hnonterminals : g.nonterminals.map g.symbolId =
      (List.range g.vars.size).map (g.tokenCount + ·) := by
    rw [nonterminals, List.map_map]
    rfl
  rw [symbols, List.map_append, hterminals, hnonterminals, symbolCount, List.range_add]

namespace Encoding

variable {g : FlatGrammar} {t : Tables} {e : Encoding}

theorem constants_symbols (hp : Parts g t e) :
    e.symbols.toList.map (·.constant) = Constant.ofSymbols g := by
  have hlength := length_ofSymbols g
  rw [hp.symbols, List.map_map]
  exact List.map_snd_zip hlength.le

theorem names_symbols (hp : Parts g t e) :
    e.symbols.toList.map (·.name) = g.symbols.map g.symbolName := by
  have hlength := length_ofSymbols g
  rw [hp.symbols, List.map_map]
  change (List.zip _ _).map (g.symbolName ∘ Prod.fst) = _
  rw [← List.map_map, List.map_fst_zip hlength.ge]

namespace Source

theorem symbol_mem_constants {n : Nat} {c : String}
    (h : (e.symbols.toList.map (·.constant))[n]? = some c) :
    s!"pub const {c}: TSSymbol = {n};" ∈ constants e := by
  refine List.mem_append_left _ (List.mem_append_left _ (List.mem_append_left _ ?_))
  obtain ⟨hn, rfl⟩ := List.getElem?_eq_some_iff.1 h
  exact List.mem_mapIdx.2 ⟨n, by simpa using hn, by simp⟩

theorem field_mem_constants {n : Nat} {c : String}
    (h : (e.fields.map (·.constant))[n]? = some c) :
    s!"pub const {c}: TSFieldId = {n + 1};" ∈ constants e := by
  refine List.mem_append_left _ (List.mem_append_right _ ?_)
  obtain ⟨hn, rfl⟩ := List.getElem?_eq_some_iff.1 h
  exact List.mem_mapIdx.2 ⟨n, by simpa using hn, by simp⟩

end Source

end Encoding

/-- Symbols have constants in the order of their numbers, and fields in the order of their names.
All are identifiers that stand in the source text. The constants of symbols differ from each other
and from those of fields. So all constants differ exactly if no two names of fields are spelled
alike. -/
theorem constants_distinct_iff {g : FlatGrammar} {t : Tables} {version : Version} {e : Encoding}
    (h : Encoding.ofTables g t version = .ok e) :
    let symbols := e.symbols.toList.map (·.constant)
    let fields := e.fields.map (·.constant)
    let names := e.fields.map (·.name)
    g.symbols.map g.symbolId = List.range e.symbolCount ∧
      e.symbols.toList.map (·.name) = g.symbols.map g.symbolName ∧
      List.Forall₂ (fun s c => Constant.Numbers (Constant.ofSymbol g s) c) g.symbols symbols ∧
      (∀ (n : Nat) c, symbols[n]? = some c →
        s!"pub const {c}: TSSymbol = {n};" ∈ Encoding.Source.constants e) ∧
      Ordered.Ascending names ∧
      (∀ name, name ∈ names ↔ ∃ layout ∈ t.table.layouts, name ∈ layout.map (·.1)) ∧
      fields = names.map Constant.ofField ∧
      (∀ (n : Nat) c, fields[n]? = some c →
        s!"pub const {c}: TSFieldId = {n + 1};" ∈ Encoding.Source.constants e) ∧
      (∀ c ∈ symbols ++ fields, Constant.IsIdentifier c) ∧
      symbols.Nodup ∧ (∀ c ∈ symbols, c ∉ fields) ∧
      ((symbols ++ fields).Nodup ↔ (names.map Constant.spell).Nodup) := by
  intro symbols fields names
  have hp := Encoding.parts_of_ofTables h
  have hsymbols : symbols = Constant.ofSymbols g := Encoding.constants_symbols hp
  have hfields : fields = names.map Constant.ofField := by
    simp only [fields, names, hp.fields, Encoding.constants_fieldInfos]
  obtain ⟨hforall, hnodup⟩ := Constant.forall₂_ofSymbols g
  rw [← hsymbols] at hforall hnodup
  have hsymbol : ∀ c ∈ symbols, Constant.IsIdentifier c ∧ c.toList.head? ≠ some 'f' :=
    fun c hc => Constant.of_mem_ofSymbols (hsymbols ▸ hc)
  have hfield : ∀ c ∈ fields, Constant.IsIdentifier c ∧ c.toList.head? = some 'f' :=
    fun c hc => Constant.of_mem_map_ofField (hfields ▸ hc)
  -- the first character tells the two kinds apart, whatever number is behind
  have hapart : ∀ c ∈ symbols, c ∉ fields := fun c hc hmem => (hsymbol c hc).2 (hfield c hmem).2
  refine ⟨?_, Encoding.names_symbols hp, hforall, fun _ _ => Encoding.Source.symbol_mem_constants,
    ?_, fun name => ?_, hfields, fun _ _ => Encoding.Source.field_mem_constants, fun c hc => ?_,
    hnodup, hapart, ?_⟩
  · rw [FlatGrammar.map_symbolId_symbols, (Encoding.lists_of_ofTables h).symbolCount]
  · simp only [names, hp.fields, Encoding.names_fieldInfos]
    exact Ordered.ascending_ofList _
  · simp only [names, hp.fields]
    exact Encoding.mem_names_fieldInfos
  · exact (List.mem_append.1 hc).elim (fun hc => (hsymbol c hc).1) fun hc => (hfield c hc).1
  · rw [← Constant.nodup_map_ofField, ← hfields, List.nodup_append']
    exact ⟨fun h => h.2.1, fun h => ⟨hnodup, h, fun c hc => hapart c hc⟩⟩

/-- A grammar in which a sign stands beside its name, both as texts and as fields. -/
def Grammar.signed : Grammar where
  name := "signed"
  rules := [⟨"start", .seq [.wrap (.field "+") (.string "+"), .string "PLUS2",
    .wrap (.field "PLUS") (.string "PLUS")]⟩]

theorem Encoding.exists_signed : ∃ g t e, FlatGrammar.ofGrammar .signed = .ok g ∧
    Tables.ofGrammar g = .ok t ∧ Encoding.ofTables g t ⟨1, 0, 0⟩ = .ok e ∧
    e.symbols.toList.map (·.constant) =
      ["ts_builtin_sym_end", "anon_sym_PLUS", "anon_sym_PLUS2", "anon_sym_PLUS3", "sym_start"] ∧
    e.fields.map (·.name) = ["+", "PLUS"] := by
  have h : ((FlatGrammar.ofGrammar .signed).toOption.any fun g =>
      (Tables.ofGrammar g).toOption.any fun t =>
        (Encoding.ofTables g t ⟨1, 0, 0⟩).toOption.any fun e =>
          decide (e.symbols.toList.map (·.constant) =
            ["ts_builtin_sym_end", "anon_sym_PLUS", "anon_sym_PLUS2", "anon_sym_PLUS3",
              "sym_start"] ∧ e.fields.map (·.name) = ["+", "PLUS"])) = true := by
    simp only [Tables.ofGrammar, ParseTable.canonical, Automaton.states_eq, Automaton.cores,
      Numbering.ofList_eq, Merge.states, Merge.groups_eq, StateOrder.states, StateOrder.order_eq,
      Encoding.ofTables, Encoding.numberEntries_eq, Encoding.smallGroups_eq]
    decide +kernel
  obtain ⟨g, t, e, hg, ht, he, h⟩ := Encoding.exists_evaluated h
  obtain ⟨hsymbols, hnames⟩ := of_decide_eq_true h
  exact ⟨g, t, e, hg, ht, he, hsymbols, hnames⟩

/-- The texts get numbers, of which the first one is taken. The fields have one constant. -/
theorem constants_distinct_iff_signed : ∃ g t e, FlatGrammar.ofGrammar .signed = .ok g ∧
    Tables.ofGrammar g = .ok t ∧ Encoding.ofTables g t ⟨1, 0, 0⟩ = .ok e ∧
    e.symbols.toList.map (·.constant) =
      ["ts_builtin_sym_end", "anon_sym_PLUS", "anon_sym_PLUS2", "anon_sym_PLUS3", "sym_start"] ∧
    e.fields.map (·.constant) = ["field_PLUS", "field_PLUS"] ∧
    (e.symbols.toList.map (·.constant)).Nodup ∧
    ¬(e.symbols.toList.map (·.constant) ++ e.fields.map (·.constant)).Nodup := by
  obtain ⟨g, t, e, hg, ht, he, hsymbols, hnames⟩ := Encoding.exists_signed
  obtain ⟨-, -, -, -, -, -, hfields, -, -, hnodup, -, hiff⟩ := constants_distinct_iff he
  refine ⟨g, t, e, hg, ht, he, hsymbols, ?_, hnodup, ?_⟩
  · rw [hfields, hnames]
    decide +kernel
  · rw [hiff, hnames]
    decide +kernel

end GrammarTables
