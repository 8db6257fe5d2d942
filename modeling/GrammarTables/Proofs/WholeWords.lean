import GrammarTables.Proofs.Cursor
import GrammarTables.Proofs.Keywords
import GrammarTables.Proofs.TokenSet
import GrammarTables.Text.ByteString

/-!
# Only whole words are keywords

A word is the longest run of letters, digits and underscores. The buffer that a word is read into
holds all of it unless the word is longer than every keyword, and then the word is none. A table
that ascends by the bytes of its texts ascends by their characters, because the texts are words.
-/

namespace GrammarTables.Keyword

variable {w : List Char} {s : Input} {n : Nat} {x : Char}
  {table : Array (String × Nat)}

theorem toNat_lt_of_isWordPart (h : isWordPart x = true) : x.toNat < 128 := by
  rw [isWordPart_iff] at h
  omega

/-- The characters that can stand in a word take one byte each. -/
theorem toNat_toUInt8 (h : isWordPart x = true) : x.toUInt8.toNat = x.toNat := by
  have hlt := toNat_lt_of_isWordPart h
  change x.toNat % 256 = x.toNat
  omega

theorem textOf_map (hw : ∀ x ∈ w, isWordPart x = true) :
    textOf (w.map Char.toUInt8) = String.ofList w := by
  have hchar : ∀ x ∈ w, Char.ofNat x.toUInt8.toNat = x := by
    intro x hx
    rw [toNat_toUInt8 (hw x hx), Char.ofNat_toNat]
  rw [textOf, List.map_map]
  refine congrArg String.ofList ((List.map_congr_left ?_).trans (List.map_id w))
  exact hchar

section Fill

/-- The word is the longest run of characters of words that is ahead. -/
def Ahead (s : Input) (w : List Char) : Prop := s.takeWhile (fun x => x.any isWordPart) = w.map some

theorem exists_ahead (s : Input) : ∃ w, Ahead s w := by
  induction s with
  | nil => exact ⟨[], rfl⟩
  | cons x s ih =>
    obtain ⟨w, hw⟩ := ih
    cases x with
    | none => exact ⟨[], rfl⟩
    | some x =>
      by_cases hx : isWordPart x = true
      · exact ⟨x :: w, by simpa [Ahead, hx] using hw⟩
      · exact ⟨[], by simp [Ahead, hx]⟩

theorem Ahead.isWordPart (h : Ahead s w) : ∀ x ∈ w, isWordPart x = true := by
  intro x hx
  have hmem : some x ∈ w.map some := List.mem_map_of_mem hx
  rw [← h] at hmem
  have hpart := List.mem_takeWhile_imp hmem
  exact hpart

/-- No word is ahead of what cannot be in a word, and any other word starts with what is ahead. -/
theorem Ahead.cases (h : Ahead s w) : w = [] ∧ s.head?.join.any Keyword.isWordPart = false ∨
    ∃ x v rest, w = x :: v ∧ s = some x :: rest ∧ Keyword.isWordPart x = true ∧ Ahead rest v := by
  rcases s with _ | ⟨_ | x, s⟩
  · exact .inl ⟨by simpa [Ahead] using h, rfl⟩
  · exact .inl ⟨by simpa [Ahead] using h, rfl⟩
  · by_cases hx : Keyword.isWordPart x = true
    · cases w with
      | nil => simp [Ahead, hx] at h
      | cons y w =>
        obtain ⟨rfl, hw⟩ : x = y ∧ Ahead s w := by simpa [Ahead, hx] using h
        exact .inr ⟨x, w, s, rfl, rfl, hx, hw⟩
    · exact .inl ⟨by simpa [Ahead, hx] using h, by simpa using hx⟩

theorem fill_of_not_isWordPart (h : s.head?.join.any isWordPart = false) (buffer : Array UInt8)
    (n : Nat) : fill buffer n s = (buffer, n) := by
  rcases s with _ | ⟨_ | x, s⟩
  · rfl
  · rfl
  · have hx : isWordPart x = false := h
    rw [fill, if_neg (by simp [hx])]

/-- What is written of a word, and its length: a word that has room is in the buffer, behind what
was there before. -/
theorem fill_of_ahead (h : Ahead s w) (buffer : Array UInt8) (n : Nat) :
    (fill buffer n s).2 = n + w.length ∧
      (n + w.length ≤ buffer.size → (fill buffer n s).1.toList.take (n + w.length) =
        buffer.toList.take n ++ w.map Char.toUInt8) := by
  induction w generalizing s buffer n with
  | nil =>
    obtain ⟨-, hstop⟩ | ⟨_, _, _, hw, -⟩ := h.cases
    · simp [fill_of_not_isWordPart hstop]
    · cases hw
  | cons x w ih =>
    obtain ⟨hw, -⟩ | ⟨_, _, rest, hw, rfl, hx, hrest⟩ := h.cases
    · cases hw
    · cases hw
      obtain ⟨hcount, htake⟩ := ih hrest (buffer.setIfInBounds n x.toUInt8) (n + 1)
      have hlength : n + (x :: w).length = n + 1 + w.length := by grind
      rw [fill, if_pos hx, hlength]
      refine ⟨hcount, fun hroom => ?_⟩
      have hn : n < buffer.toList.length := by grind
      rw [htake (by simpa using hroom), List.map_cons, Array.toList_setIfInBounds,
        List.take_succ_eq_append_getElem (by simpa using hn), List.take_set_of_le le_rfl]
      simp

end Fill

section Order

/-- The bytes of a text. -/
def bytes (text : String) : List UInt8 := text.toUTF8.data.toList

theorem bytes_ofList (hw : ∀ x ∈ w, isWordPart x = true) :
    bytes (String.ofList w) = w.map Char.toUInt8 := by
  have hbytes : bytes (String.ofList w) = w.flatMap String.utf8EncodeChar := by
    simp [bytes, List.utf8Encode]
  rw [hbytes, List.map_eq_flatMap]
  refine List.flatMap_congr fun x hx => ?_
  have hlt : x.val.toNat < 128 := toNat_lt_of_isWordPart (hw x hx)
  simp only [String.utf8EncodeChar]
  rw [if_pos (by omega)]
  rfl

theorem textOf_lt {b d : List UInt8} (h : b < d) : textOf b < textOf d := by
  change (textOf b).toList < (textOf d).toList
  rw [textOf, textOf, String.toList_ofList, String.toList_ofList]
  refine List.map_lt (fun x y hxy => ?_) h
  change (Char.ofNat x.toNat).toNat < (Char.ofNat y.toNat).toNat
  rw [Text.toNat_ofByte, Text.toNat_ofByte]
  exact UInt8.lt_iff_toNat_lt.1 hxy

/-- Texts of words are ordered as their bytes are. -/
theorem lt_of_bytes_lt {t u : String} (ht : ∀ x ∈ t.toList, isWordPart x = true)
    (hu : ∀ x ∈ u.toList, isWordPart x = true) (h : bytes t < bytes u) : t < u := by
  rw [← t.ofList_toList, ← u.ofList_toList, bytes_ofList ht, bytes_ofList hu] at h
  simpa [textOf_map ht, textOf_map hu] using textOf_lt h

theorem ascends_of_bytes (hwords : ∀ row ∈ table, ∀ x ∈ row.1.toList, isWordPart x = true)
    (hsorted : table.toList.Pairwise fun row next => bytes row.1 < bytes next.1) :
    Ascends table := by
  intro i j x y hij hx hy
  obtain rfl | hlt := hij.eq_or_lt
  · obtain rfl : x = y := by grind
    simp
  · obtain ⟨hi, rfl⟩ := Array.getElem?_eq_some_iff.1 hx
    obtain ⟨hj, rfl⟩ := Array.getElem?_eq_some_iff.1 hy
    have hbytes := List.pairwise_iff_getElem.1 hsorted i j hi hj hlt
    have hless := lt_of_bytes_lt (hwords _ (Array.getElem_mem hi)) (hwords _ (Array.getElem_mem hj))
      hbytes
    have hcompare : compare table[i].1 table[j].1 = .lt := compareOfLessAndEq_eq_lt.2 hless
    simp [hcompare]

/-- A table without two equal texts has a word in one row, and finds that row. -/
theorem search_eq_some_iff (hwords : ∀ row ∈ table, ∀ x ∈ row.1.toList, isWordPart x = true)
    (hsorted : table.toList.Pairwise fun row next => bytes row.1 < bytes next.1) {t : String} :
    search table t = some n ↔ (t, n) ∈ table := by
  refine ⟨mem_of_search, fun hn => ?_⟩
  obtain ⟨m, hm⟩ := exists_search (ascends_of_bytes hwords hsorted) hn
  have hne : table.toList.Pairwise fun row next => row.1 ≠ next.1 := by
    refine hsorted.imp fun hlt heq => ?_
    rw [heq] at hlt
    exact List.lt_irrefl _ hlt
  have hsame : (t, m) = (t, n) :=
    List.inj_on_of_nodup_map (List.pairwise_map.2 hne) (mem_of_search hm).val hn.val rfl
  rw [hm, (Prod.mk.inj hsame).2]

end Order

section Lex

variable {c : Cursor} {longest k e : Nat}

theorem sees_of_ahead (h : Ahead c.rest w) : c.sees isWordStart = w.head?.any isWordStart := by
  rw [Cursor.sees, Cursor.peek?]
  rcases h.cases with ⟨rfl, hstop⟩ | ⟨x, v, rest, rfl, hrest, -⟩
  · cases hpeek : c.rest.head?.join with
    | none => rfl
    | some x =>
      have hx : isWordPart x = false := by simpa [hpeek] using hstop
      refine Bool.eq_false_iff.2 fun hstart => ?_
      rw [isWordPart_of_isWordStart hstart] at hx
      cases hx
  · rw [hrest]
    rfl

/-- The word that was read is the one that is ahead, if it has room. -/
theorem textOf_fill (h : Ahead s w) (hroom : w.length ≤ n) :
    textOf ((fill (Array.replicate n 0) 0 s).1.toList.take w.length) = String.ofList w := by
  obtain ⟨-, htake⟩ := fill_of_ahead h (.replicate n 0) 0
  rw [Nat.zero_add] at htake
  rw [htake (by simpa using hroom), List.take_zero, List.nil_append, textOf_map h.isWordPart]

theorem lex_of_ahead (h : Ahead c.rest w) : lex table longest c =
    if w.head?.any isWordStart then
      match if w.length ≤ longest then search table (String.ofList w) else none with
      | some k => (c.advance w.length).accept (TokenSet.symbolAt k)
      | none => c.advance w.length
    else c := by
  have hcount : (fill (Array.replicate longest 0) 0 c.rest).2 = w.length := by
    rw [(fill_of_ahead h _ _).1, Nat.zero_add]
  simp only [lex, sees_of_ahead h, hcount]
  by_cases hroom : w.length ≤ longest
  · have htext := textOf_fill h hroom
    cases hsearch : search table (String.ofList w) <;>
      simp only [if_pos hroom, htext, hsearch]
  · simp only [if_neg hroom]

theorem position_advance_of_ahead (h : Ahead c.rest w) :
    (c.advance w.length).position = c.position + w.length := by
  have hle := (List.takeWhile_prefix (fun x : Option Char => x.any isWordPart)
    (l := c.rest)).length_le
  rw [h, List.length_map] at hle
  rw [Cursor.advance, min_eq_left hle]

/-- Only a whole word is a keyword: in a table of words that ascends by bytes, in which no word is
longer than the buffer, a keyword is accepted exactly if it is the word ahead, and then to the
word's end. Nothing is accepted otherwise. -/
theorem lex_eq_keyword_iff
    (hwords : ∀ row ∈ table, row.1.toList.head?.any isWordStart = true ∧
      ∀ x ∈ row.1.toList, isWordPart x = true)
    (hsorted : table.toList.Pairwise fun row next => bytes row.1 < bytes next.1)
    (hlongest : ∀ row ∈ table, (bytes row.1).length ≤ longest) (text : Input) (place : Nat) :
    ∃ word : List Char,
      (text.drop place).takeWhile (fun x => x.any isWordPart) = word.map some ∧
      (∀ k e,
        (lex table longest (.new text place)).lexeme.symbol = some (TokenSet.symbolAt k) ∧
            (lex table longest (.new text place)).lexeme.stop = e ↔
          word.head?.any isWordStart = true ∧ place + word.length = e ∧
            (String.ofList word, k) ∈ table) ∧
      ((lex table longest (.new text place)).lexeme.symbol = none ↔
        ¬ (word.head?.any isWordStart = true ∧ ∃ k, (String.ofList word, k) ∈ table)) := by
  obtain ⟨word, hahead⟩ := exists_ahead (text.drop place)
  have hfound : ∀ k, (if word.length ≤ longest then search table (String.ofList word) else none) =
      some k ↔ (String.ofList word, k) ∈ table := by
    intro k
    rw [← search_eq_some_iff (fun row hrow => (hwords row hrow).2) hsorted]
    split
    · rfl
    · rename_i hroom
      -- A word that has no room is longer than every keyword.
      have hnone : search table (String.ofList word) ≠ some k := by
        intro hsearch
        have hle := hlongest _ (mem_of_search hsearch)
        rw [bytes_ofList hahead.isWordPart, List.length_map] at hle
        exact hroom hle
      simp [hnone]
  refine ⟨word, hahead, ?_⟩
  rw [lex_of_ahead (c := .new text place) hahead]
  by_cases hstart : word.head?.any isWordStart = true
  · rw [if_pos hstart]
    cases hsearch : if word.length ≤ longest then search table (String.ofList word) else none with
    | some k =>
      simp only [hsearch] at hfound
      have hstop : (Cursor.new text place).position + word.length = place + word.length := rfl
      have hsymbol : ∀ k', TokenSet.symbolAt k = TokenSet.symbolAt k' ↔
          (String.ofList word, k') ∈ table := by
        intro k'
        rw [← hfound k', Option.some_inj]
        exact TokenSet.symbolAt_injective.eq_iff
      have hkeyword : ∃ k, (String.ofList word, k) ∈ table := ⟨k, (hfound k).1 rfl⟩
      simp [Cursor.lexeme, position_advance_of_ahead (c := .new text place) hahead, hstop, hstart,
        hsymbol, and_comm, hkeyword]
    | none =>
      simp only [hsearch] at hfound
      simp [Cursor.lexeme, Cursor.new, ← hfound]
  · rw [if_neg hstart]
    simp [Cursor.lexeme, Cursor.new, hstart]

/-- Of three keywords, the one of four letters is found before a brace, and not in a longer word. -/
theorem lex_eq_keyword_iff_rule :
    let table := #[("all", 2), ("not", 1), ("rule", 3)]
    (lex table 4 (.new (.ofString "rule\x7b") 0)).lexeme.symbol = some (.terminal 2) ∧
      (lex table 4 (.new (.ofString "rule\x7b") 0)).lexeme.stop = 4 ∧
      (lex table 4 (.new (.ofString "rules") 0)).lexeme.symbol = none := by
  intro table
  have hwords : ∀ row ∈ table, row.1.toList.head?.any isWordStart = true ∧
      ∀ x ∈ row.1.toList, isWordPart x = true := by
    simp only [table, List.mem_toArray, ← List.all_eq_true]
    decide
  have hsorted : table.toList.Pairwise fun row next => bytes row.1 < bytes next.1 := by decide
  have hlongest : ∀ row ∈ table, (bytes row.1).length ≤ 4 := by decide
  obtain ⟨word, hword, haccept, -⟩ :=
    lex_eq_keyword_iff hwords hsorted hlongest (.ofString "rule\x7b") 0
  obtain ⟨longer, hlonger, -, hreject⟩ :=
    lex_eq_keyword_iff hwords hsorted hlongest (.ofString "rules") 0
  have hinjective : Function.Injective (List.map (some : Char → Option Char)) :=
    List.map_injective_iff.2 (Option.some_injective _)
  obtain rfl : word = "rule".toList := hinjective (hword.symm.trans (by decide))
  obtain rfl : longer = "rules".toList := hinjective (hlonger.symm.trans (by decide))
  obtain ⟨hsymbol, hstop⟩ := (haccept 3 4).2 ⟨by decide, by decide, by simp [table]⟩
  refine ⟨hsymbol, hstop, hreject.2 fun h => ?_⟩
  obtain ⟨-, k, hk⟩ := h
  simp [table] at hk

end Lex

end GrammarTables.Keyword
