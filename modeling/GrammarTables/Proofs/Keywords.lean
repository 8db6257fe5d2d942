import GrammarTables.Keyword
import GrammarTables.Proofs.Listing
import GrammarTables.Proofs.ReadBack

/-!
# Keywords are found by name

The table of keywords ascends by the names of their tokens, and halving it finds a word exactly if a
keyword has that name. A keyword is lexed by its text, so the table finds every keyword by its text
exactly if the texts are the names and no two keywords have the same text.
-/

namespace GrammarTables

open Std

namespace Keyword

variable {table : Array (String × Nat)} {word : String} {base size j n : Nat}

/-- The rows of a table ascend by their texts. -/
def Ascends (table : Array (String × Nat)) : Prop :=
  ∀ ⦃i j : Nat⦄ ⦃x y : String × Nat⦄, i ≤ j → table[i]? = some x → table[j]? = some y →
    (compare x.1 y.1).isLE = true

/-- If a row of the window has the word, so has the row at which halving the window ends. -/
theorem exists_lastNotAbove (h : Ascends table) (hbound : base + size ≤ table.size)
    (hj : base ≤ j) (hlt : j < base + size) (hword : table[j]? = some (word, n)) :
    ∃ m, table[lastNotAbove table word base size]? = some (word, m) := by
  fun_induction lastNotAbove table word base size generalizing j n with
  | case1 base size hsize half middle =>
    rename_i next ih
    have hhalf : half = size / 2 := rfl
    have hmiddle : middle = base + half := rfl
    obtain ⟨⟨text, m⟩, hget⟩ : ∃ x, table[middle]? = some x :=
      ⟨_, Array.getElem?_eq_getElem (by omega)⟩
    by_cases habove : compare text word = .gt
    · have hnext : next = base := by simp [next, hget, habove]
      have hbefore : j < middle := by
        by_contra hge
        have hle := h (Nat.le_of_not_lt hge) hget hword
        simp [habove] at hle
      exact ih (by omega) (by omega) (by omega) hword
    · have hnext : next = middle := by simp [next, hget, habove]
      by_cases hbefore : j < middle
      · -- The row in the middle is between two that have the word, or not above it.
        have hge := h hbefore.le hword hget
        have hle := Ordering.isLE_iff_ne_gt.2 habove
        obtain rfl : word = text :=
          LawfulEqCmp.eq_of_compare (OrientedCmp.isLE_antisymm hge hle)
        exact ih (by omega) (by omega) (by omega) hget
      · exact ih (by omega) (by omega) (by omega) hword
  | case2 base size hsize =>
    obtain rfl : j = base := by omega
    exact ⟨n, hword⟩

theorem mem_of_search (h : search table word = some n) : (word, n) ∈ table := by
  unfold search at h
  split at h
  · rename_i text symbol hget
    split at h
    · rename_i htext
      cases h
      exact htext ▸ Array.mem_of_getElem? hget
    · cases h
  · cases h

/-- A word that an ascending table has is found. -/
theorem exists_search (h : Ascends table) (hword : (word, n) ∈ table) :
    ∃ m, search table word = some m := by
  obtain ⟨j, hj⟩ := Array.mem_iff_getElem?.1 hword
  have hlt := (Array.getElem?_eq_some_iff.1 hj).1
  obtain ⟨m, hm⟩ := exists_lastNotAbove h (Nat.zero_add _).le (Nat.zero_le j) (by omega) hj
  exact ⟨m, by simp [search, hm]⟩

end Keyword

namespace Encoding

variable {g : FlatGrammar} {constants : List String} {word : String} {n : Nat}

theorem mem_keywordTable : (word, n) ∈ keywordTable g constants ↔
    ∃ k ∈ g.keywords, g.symbolName k = word ∧ g.symbolId k = n := by
  simp only [keywordTable, List.mem_map, List.mem_mergeSort, Prod.exists, Prod.mk.injEq]
  constructor
  · rintro ⟨_, _, _, ⟨k, hk, rfl, -, rfl⟩, rfl, rfl⟩
    exact ⟨k, hk, rfl, rfl⟩
  · rintro ⟨k, hk, rfl, rfl⟩
    exact ⟨_, _, _, ⟨k, hk, rfl, rfl, rfl⟩, rfl, rfl⟩

theorem ascends_keywordTable (g : FlatGrammar) (constants : List String) :
    Keyword.Ascends (keywordTable g constants).toArray := by
  let order : String × String × Nat → String × String × Nat → Ordering :=
    compareLex (compareOn (·.1)) (compareOn (·.2.1))
  have hsorted : (keywordTable g constants).Pairwise fun x y => (compare x.1 y.1).isLE = true := by
    refine List.pairwise_map.2 ((pairwise_mergeSort_isLE order id _).imp fun {a b} hab => ?_)
    exact Ordering.isLE_left_of_isLE_then hab
  intro i j x y hij hx hy
  rw [List.getElem?_toArray] at hx hy
  rcases Nat.lt_or_eq_of_le hij with hlt | rfl
  · obtain ⟨hi, rfl⟩ := List.getElem?_eq_some_iff.1 hx
    obtain ⟨hj, rfl⟩ := List.getElem?_eq_some_iff.1 hy
    exact List.pairwise_iff_getElem.1 hsorted i j hi hj hlt
  · cases hx.symm.trans hy
    simp

theorem keywords_of_ofTables {t : Tables} {version : Version} {e : Encoding}
    (h : ofTables g t version = .ok e) : ∃ constants, e.keywords = keywordTable g constants := by
  obtain ⟨-, -, h⟩ := bind_eq_ok.1 h
  obtain ⟨-, -, h⟩ := bind_eq_ok.1 h
  obtain ⟨-, -, h⟩ := bind_eq_ok.1 h
  obtain ⟨-, -, h⟩ := bind_eq_ok.1 h
  cases h
  exact ⟨_, rfl⟩

end Encoding

section FilterMapM

variable {ε α β : Type} {f : α → Except ε (Option β)} {l : List α} {r : List β}

/-- What is kept of a list comes from the members of a sublist. -/
theorem forall₂_of_filterMapM (h : l.filterMapM f = .ok r) :
    ∃ kept, kept.Sublist l ∧ List.Forall₂ (fun a b => f a = .ok (some b)) kept r := by
  induction l generalizing r with
  | nil =>
    cases h
    exact ⟨[], .slnil, .nil⟩
  | cons a l ih =>
    rw [List.filterMapM_cons] at h
    obtain ⟨b, hb, h⟩ := bind_eq_ok.1 h
    cases b with
    | none =>
      obtain ⟨kept, hkept, hall⟩ := ih h
      exact ⟨kept, hkept.cons a, hall⟩
    | some b =>
      obtain ⟨rest, hrest, h⟩ := bind_eq_ok.1 h
      cases h
      obtain ⟨kept, hkept, hall⟩ := ih hrest
      exact ⟨a :: kept, hkept.cons_cons a, .cons hb hall⟩

end FilterMapM

/-- The text of a token that is a literal. -/
def Token.literal? (t : Token) : Option String :=
  match t.rule with
  | .string text => some text
  | _ => none

namespace FlatGrammar

variable {source : Grammar} {g : FlatGrammar}

theorem exists_literal_of_isKeywordOf [RegexEngine] {word token : Token}
    (h : isKeywordOf word token = .ok true) : ∃ text, token.literal? = some text := by
  unfold isKeywordOf at h
  split at h
  · rename_i text htext
    exact ⟨text, by rw [Token.literal?, htext]⟩
  · cases h

/-- The keywords are tokens that are literals, each listed once. -/
theorem wordKeywords_eq_ok [RegexEngine] {tokens : List Token} {w : Nat} {word : Token}
    {ks : List Symbol} (h : wordKeywords tokens w word = .ok ks) : ks.Nodup ∧
      ∀ k ∈ ks, ∃ i t text, k = .terminal i ∧ tokens[i]? = some t ∧ t.literal? = some text := by
  obtain ⟨kept, hkept, hall⟩ := forall₂_of_filterMapM h
  obtain ⟨rfl, hliteral⟩ : ks = kept.map (fun x => .terminal x.2) ∧
      ∀ x ∈ kept, ∃ text, x.1.literal? = some text := by
    clear hkept h
    induction hall with
    | nil => simp
    | @cons x k kept ks hk _ ih =>
      obtain ⟨rfl, hliteral⟩ := ih
      simp only at hk
      split at hk
      · cases hk
      · obtain ⟨b, hb, hk⟩ := bind_eq_ok.1 hk
        cases b with
        | false => cases hk
        | true =>
          cases hk
          exact ⟨rfl, List.forall_mem_cons.2 ⟨exists_literal_of_isKeywordOf hb, hliteral⟩⟩
  constructor
  · have hplaces : (kept.map (·.2)).Nodup := by
      refine (hkept.map (·.2)).nodup ?_
      rw [List.zipIdx_map_snd]
      exact List.nodup_range'
    simpa [Function.comp_def] using hplaces.map (f := Symbol.terminal) fun _ _ h => by
      cases h
      rfl
  · intro k hk
    obtain ⟨⟨t, i⟩, hx, rfl⟩ := List.mem_map.1 hk
    obtain ⟨text, htext⟩ := hliteral _ hx
    exact ⟨i, t, text, rfl, List.mem_zipIdx_iff_getElem?.1 (hkept.subset hx), htext⟩

/-- The literal text of a symbol's token. -/
def literal? (g : FlatGrammar) (s : Symbol) : Option String := (g.token? s).bind Token.literal?

theorem keywords_of_ofGrammar [RegexEngine] (h : ofGrammar source = .ok g) : g.keywords.Nodup ∧
    ∀ k ∈ g.keywords, ∃ i text, k = .terminal i ∧ g.literal? k = some text := by
  obtain ⟨-, -, -, -, hkeywords⟩ := ofGrammar_eq_ok h
  have hnil : g.keywords = [] → g.keywords.Nodup ∧
      ∀ k ∈ g.keywords, ∃ i text, k = .terminal i ∧ g.literal? k = some text := by
    intro hnil
    simp [hnil]
  unfold keywordsOf at hkeywords
  split at hkeywords
  · split at hkeywords
    · obtain ⟨hnodup, hall⟩ := wordKeywords_eq_ok hkeywords
      refine ⟨hnodup, fun k hk => ?_⟩
      obtain ⟨i, t, text, rfl, ht, htext⟩ := hall k hk
      refine ⟨i, text, rfl, ?_⟩
      rw [Array.getElem?_toList] at ht
      simpa [literal?, token?, ht] using htext
    · exact hnil (Except.ok.inj hkeywords).symm
  · exact hnil (Except.ok.inj hkeywords).symm

end FlatGrammar

/-- Looking a word up finds a keyword of that name, if there is one. -/
theorem Encoding.search_keywords {g : FlatGrammar} {t : Tables} {version : Version} {e : Encoding}
    (he : ofTables g t version = .ok e) (word : String) :
    (∀ n, Keyword.search (Language.ofEncoding e).keywords word = some n →
      ∃ k ∈ g.keywords, g.symbolName k = word ∧ g.symbolId k = n) ∧
    ∀ k ∈ g.keywords, g.symbolName k = word →
      ∃ n, Keyword.search (Language.ofEncoding e).keywords word = some n := by
  obtain ⟨constants, hkeywords⟩ := keywords_of_ofTables he
  have htable : (Language.ofEncoding e).keywords = (keywordTable g constants).toArray :=
    congrArg List.toArray hkeywords
  rw [htable]
  constructor
  · intro n hn
    exact mem_keywordTable.1 (List.mem_toArray.1 (Keyword.mem_of_search hn))
  · intro k hk hname
    exact Keyword.exists_search (ascends_keywordTable g constants)
      (List.mem_toArray.2 (mem_keywordTable.2 ⟨k, hk, hname, rfl⟩))

/-- The table finds the keywords by their texts, each by its own, exactly if every keyword has its
text for a name and no two have the same text. -/
theorem keywords_found_iff [RegexEngine] {source : Grammar} {g : FlatGrammar} {t : Tables}
    {version : Version} {e : Encoding} (h : FlatGrammar.ofGrammar source = .ok g)
    (he : Encoding.ofTables g t version = .ok e) :
    (∀ word n, Keyword.search (Language.ofEncoding e).keywords word = some n ↔
      ∃ k ∈ g.keywords, g.literal? k = some word ∧ g.symbolId k = n) ↔
    (∀ k ∈ g.keywords, g.literal? k = some (g.symbolName k)) ∧
      (g.keywords.map g.literal?).Nodup := by
  obtain ⟨hnodup, hliteral⟩ := FlatGrammar.keywords_of_ofGrammar h
  have hid : ∀ j ∈ g.keywords, ∀ k ∈ g.keywords, g.symbolId j = g.symbolId k → j = k := by
    intro j hj k hk heq
    obtain ⟨i, -, rfl, -⟩ := hliteral j hj
    obtain ⟨i', -, rfl, -⟩ := hliteral k hk
    simpa [FlatGrammar.symbolId] using heq
  constructor
  · intro hfinds
    constructor
    · intro k hk
      obtain ⟨i, text, -, htext⟩ := hliteral k hk
      obtain ⟨j, hj, hname, heq⟩ :=
        (Encoding.search_keywords he text).1 _ ((hfinds text _).2 ⟨k, hk, htext, rfl⟩)
      cases hid j hj k hk heq
      rw [htext, hname]
    · refine hnodup.map_on fun j hj k hk hsame => ?_
      obtain ⟨i, text, -, htext⟩ := hliteral j hj
      have hfound := (hfinds text _).2 ⟨j, hj, htext, rfl⟩
      have hfound' := (hfinds text _).2 ⟨k, hk, hsame ▸ htext, rfl⟩
      exact hid j hj k hk (Option.some.inj (hfound.symm.trans hfound'))
  · rintro ⟨hname, hdistinct⟩ word n
    constructor
    · intro hn
      obtain ⟨k, hk, rfl, rfl⟩ := (Encoding.search_keywords he word).1 n hn
      exact ⟨k, hk, hname k hk, rfl⟩
    · rintro ⟨k, hk, htext, rfl⟩
      obtain rfl : g.symbolName k = word := Option.some.inj ((hname k hk).symm.trans htext)
      obtain ⟨n, hn⟩ := (Encoding.search_keywords he _).2 k hk rfl
      obtain ⟨j, hj, hjk, rfl⟩ := (Encoding.search_keywords he _).1 n hn
      have hsame : g.literal? j = g.literal? k := by rw [hname j hj, hname k hk, hjk]
      rw [hn, List.inj_on_of_nodup_map hdistinct hj hk hsame]

/-- A grammar of conditionals and loops with five keywords. -/
def Grammar.conditional : Grammar where
  name := "conditional"
  rules := [
    ⟨"start", .choice [
      .seq [.string "if", .symbol "name", .string "then", .symbol "name", .string "else",
        .symbol "name"],
      .seq [.string "while", .symbol "name", .string "do", .symbol "name"]]⟩,
    ⟨"name", .pattern "[a-z]+" none⟩]
  word := some "name"

/-- The tables of conditionals are encoded with keywords that have their texts for names. -/
theorem Encoding.exists_conditional : ∃ g t e, FlatGrammar.ofGrammar .conditional = .ok g ∧
    Tables.ofGrammar g = .ok t ∧ Encoding.ofTables g t ⟨1, 0, 0⟩ = .ok e ∧
    g.keywords.map g.symbolName = ["if", "then", "else", "while", "do"] ∧
    g.keywords.map g.symbolId = [1, 3, 4, 5, 6] ∧
    g.keywords.map g.literal? = (g.keywords.map g.symbolName).map some := by
  have h : ((FlatGrammar.ofGrammar .conditional).toOption.any fun g =>
      (Tables.ofGrammar g).toOption.any fun t =>
        (Encoding.ofTables g t ⟨1, 0, 0⟩).toOption.any fun _ =>
          decide (g.keywords.map g.symbolName = ["if", "then", "else", "while", "do"] ∧
            g.keywords.map g.symbolId = [1, 3, 4, 5, 6] ∧
            g.keywords.map g.literal? = (g.keywords.map g.symbolName).map some)) = true := by
    simp only [Tables.ofGrammar, ParseTable.canonical, Automaton.states_eq_visitStates,
      Automaton.cores, Numbering.ofList_eq, Merge.states, Merge.groups_eq, StateOrder.states,
      StateOrder.order_eq, Encoding.ofTables, Encoding.numberEntries_eq, Encoding.smallGroups_eq]
    decide +kernel
  obtain ⟨g, t, e, hg, ht, he, h⟩ := Encoding.exists_evaluated h
  exact ⟨g, t, e, hg, ht, he, of_decide_eq_true h⟩

/-- Each of the five keywords is found by its text, and a word between them is not found. -/
theorem keywords_found_iff_conditional : ∃ g t e, FlatGrammar.ofGrammar .conditional = .ok g ∧
    Tables.ofGrammar g = .ok t ∧ Encoding.ofTables g t ⟨1, 0, 0⟩ = .ok e ∧
    ["if", "then", "else", "while", "do"].map (Keyword.search (Language.ofEncoding e).keywords) =
      [1, 3, 4, 5, 6].map some ∧
    Keyword.search (Language.ofEncoding e).keywords "elf" = none := by
  obtain ⟨g, t, e, h, ht, he, hnames, hids, hliterals⟩ := Encoding.exists_conditional
  have hname : ∀ k ∈ g.keywords, g.literal? k = some (g.symbolName k) :=
    List.map_inj_left.1 (hliterals.trans List.map_map)
  have hdistinct : (g.keywords.map g.literal?).Nodup := by
    rw [hliterals, hnames]
    decide
  have hfinds := (keywords_found_iff h he).2 ⟨hname, hdistinct⟩
  refine ⟨g, t, e, h, ht, he, ?_, Option.eq_none_iff_forall_ne_some.2 fun n hn => ?_⟩
  · rw [← hnames, ← hids, List.map_map, List.map_map]
    exact List.map_congr_left fun k hk => (hfinds _ _).2 ⟨k, hk, hname k hk, rfl⟩
  · obtain ⟨k, hk, htext, -⟩ := (hfinds "elf" n).1 hn
    have helf : "elf" ∈ g.keywords.map g.symbolName :=
      List.mem_map.2 ⟨k, hk, Option.some.inj ((hname k hk).symm.trans htext)⟩
    rw [hnames] at helf
    revert helf
    decide

end GrammarTables
