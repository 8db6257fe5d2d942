import GrammarTables.Proofs.TokenSet

/-!
# Sets of terminals as rows of words

A row of words holds the terminals whose bits are set, and grows only where a bit is set. So its
last word is not zero, and rows with the same bits are the same row: that of the mask.
-/

namespace GrammarTables.TokenSet

/-- Whether a bit of a row of words is set, the lowest word first. -/
def testWords (row : List UInt64) (n : Nat) : Bool :=
  match row[n / 64]? with
  | some word => (word >>> (n % 64).toUInt64) &&& 1 == 1
  | none => false

theorem testBit_word (word : UInt64) {n : Nat} (h : n < 64) :
    ((word >>> n.toUInt64) &&& 1 == 1) = word.toNat.testBit n := by
  have hn : n % 18446744073709551616 % 64 = n := by omega
  rw [Bool.eq_iff_iff, beq_iff_eq, ← UInt64.toNat_inj]
  simp [Nat.testBit, hn, Nat.and_comm]

theorem wordCount_le_iff {t : TokenSet} {n : Nat} : t.wordCount ≤ n ↔ t.Within (64 * n) := by
  rw [Within, wordCount]
  split
  · rename_i hmask
    exact iff_of_true (Nat.zero_le n) (hmask ▸ Nat.two_pow_pos _)
  · rename_i hmask
    rw [← Nat.log2_lt hmask]
    omega

/-- The bits of the words are those of the mask. -/
theorem testWords_words (t : TokenSet) (count n : Nat) :
    testWords (t.words count) n = t.mask.testBit n := by
  by_cases hn : n / 64 < max count t.wordCount
  · have hlt : n % 64 < 64 := Nat.mod_lt n (by omega)
    have hword : (t.words count)[n / 64]? = some (t.mask >>> (64 * (n / 64))).toUInt64 := by
      simp [words, hn]
    have hnat : (t.mask >>> (64 * (n / 64))).toUInt64.toNat =
        t.mask >>> (64 * (n / 64)) % 2 ^ 64 := UInt64.toNat_ofNat'
    simp only [testWords, hword, testBit_word _ hlt]
    rw [hnat, Nat.testBit_mod_two_pow, Nat.testBit_shiftRight, Nat.div_add_mod]
    simp [hlt]
  · have hnone : (t.words count)[n / 64]? = none := by simpa [words] using hn
    have hw : t.Within (64 * (n / 64)) := wordCount_le_iff.1 (by omega)
    have : t.mask < 2 ^ n := Nat.lt_of_lt_of_le hw (Nat.pow_le_pow_right (by omega) (by omega))
    simp [testWords, hnone, Nat.testBit_lt_two_pow this]

theorem length_words {t : TokenSet} {n : Nat} (h : t.Within n) :
    (t.words ((n + 63) / 64)).length = (n + 63) / 64 := by
  have hcount : t.wordCount ≤ (n + 63) / 64 :=
    wordCount_le_iff.2 (Nat.lt_of_lt_of_le h (Nat.pow_le_pow_right (by omega) (by omega)))
  simp [words, hcount]

theorem within_of_contains {t : TokenSet} {n : Nat}
    (h : ∀ x : Symbol, x.isTerminal = true → t.contains x = true → position x < n) :
    t.Within n := by
  refine Nat.lt_pow_two_of_testBit _ fun i hi => ?_
  by_contra hbit
  rw [Bool.not_eq_false, testBit_eq_contains] at hbit
  have hlt := h _ (isTerminal_symbolAt i) hbit
  rw [position_symbolAt] at hlt
  omega

namespace Row

/-- A word of a row. Behind the last one all are zero. -/
def word (row : List UInt64) (i : Nat) : UInt64 := row[i]?.getD 0

/-- The word in which only the bit of a position is set. -/
def bitWord (n : Nat) : UInt64 := 1 <<< (n % 64).toUInt64

/-- Zero words up to the given number. -/
def resize (row : List UInt64) (count : Nat) : List UInt64 :=
  row ++ List.replicate (count - row.length) 0

/-- Sets the bit of a terminal, and tells whether it was not set. -/
def insert (row : List UInt64) (s : Symbol) : Bool × List UInt64 :=
  let n := position s
  let row := resize row (n / 64 + 1)
  (word row (n / 64) &&& bitWord n == 0, row.modify (n / 64) (· ||| bitWord n))

/-- Sets the bits of the second row in the first, as far as that goes, and tells whether any of them
was not set. -/
def merge : List UInt64 → List UInt64 → Bool × List UInt64
  | w :: row, v :: other =>
    let (added, merged) := merge row other
    (v &&& ~~~w != 0 || added, (w ||| v) :: merged)
  | row, _ => (false, row)

def insertAll (row other : List UInt64) : Bool × List UInt64 :=
  merge (resize row other.length) other

def contains (row : List UInt64) (s : Symbol) : Bool :=
  word row (position s / 64) &&& bitWord (position s) != 0

def isEmpty (row : List UInt64) : Bool := row.all (· == 0)

/-- The bits of a word that are set, ascending. -/
def ones (w : UInt64) : List Nat := (List.range 64).filter fun n => w &&& bitWord n != 0

def size (row : List UInt64) : Nat := (row.map fun w => (ones w).length).sum

/-- The members, ascending. -/
def toList (row : List UInt64) : List Symbol :=
  (List.range row.length).flatMap fun i => (ones (word row i)).map fun n => symbolAt (64 * i + n)

section Bits

variable {row other : List UInt64} {w v : UInt64} {i n : Nat}

theorem word_of_length_le (h : row.length ≤ i) : word row i = 0 := by
  simp [word, h]

theorem word_of_lt (h : i < row.length) : row[i]? = some (word row i) := by
  simp [word, h]

theorem map_word (row : List UInt64) : (List.range row.length).map (word row) = row := by
  refine List.ext_getElem? fun i => ?_
  by_cases h : i < row.length
  · simp [h, word]
  · simp [h]

/-- Words with the same bits are the same. -/
theorem ext_testBit (h : ∀ n < 64, w.toNat.testBit n = v.toNat.testBit n) : w = v := by
  have hbound : ∀ (u : UInt64) {n : Nat}, 64 ≤ n → u.toNat.testBit n = false := fun u n hn =>
    Nat.testBit_lt_two_pow (u.toNat_lt.trans_le (Nat.pow_le_pow_right Nat.two_pos hn))
  refine UInt64.toNat_inj.1 (Nat.eq_of_testBit_eq fun n => ?_)
  by_cases hn : n < 64
  · exact h n hn
  · rw [hbound w (Nat.le_of_not_lt hn), hbound v (Nat.le_of_not_lt hn)]

theorem ne_zero_iff : w ≠ 0 ↔ ∃ n < 64, w.toNat.testBit n = true := by
  constructor
  · intro hw
    by_contra! h
    refine hw (ext_testBit fun n hn => ?_)
    simpa using h n hn
  · rintro ⟨n, -, hn⟩ rfl
    simp at hn

theorem testBit_and_not (v w : UInt64) (hn : n < 64) :
    (v &&& ~~~w).toNat.testBit n = (v.toNat.testBit n && !w.toNat.testBit n) := by
  have hnot : (~~~w).toNat = 2 ^ 64 - (w.toNat + 1) := by
    rw [UInt64.toNat_not, UInt64.size]
    omega
  rw [UInt64.toNat_and, Nat.testBit_and, hnot, Nat.testBit_two_pow_sub_succ w.toNat_lt]
  simp [hn]

theorem toNat_bitWord (n : Nat) : (bitWord n).toNat = 2 ^ (n % 64) := by
  have hlt : n % 64 < 64 := Nat.mod_lt n (by omega)
  have hshift : (n % 64).toUInt64.toNat % 64 = n % 64 := by
    change n % 64 % 18446744073709551616 % 64 = n % 64
    omega
  rw [bitWord, UInt64.toNat_shiftLeft, hshift, UInt64.toNat_one, Nat.one_shiftLeft]
  exact Nat.mod_eq_of_lt (Nat.pow_lt_pow_right Nat.one_lt_two hlt)

theorem bitWord_ne_zero (n : Nat) : bitWord n ≠ 0 := by
  intro h
  have hzero : 2 ^ (n % 64) = 0 := by rw [← toNat_bitWord, h, UInt64.toNat_zero]
  exact (Nat.two_pow_pos _).ne' hzero

theorem and_bitWord (w : UInt64) (n : Nat) :
    (w &&& bitWord n != 0) = w.toNat.testBit (n % 64) := by
  have hlt : n % 64 < 64 := Nat.mod_lt n (by omega)
  have hbit : ∀ m, (w &&& bitWord n).toNat.testBit m =
      (w.toNat.testBit m && decide (n % 64 = m)) := by
    intro m
    rw [UInt64.toNat_and, Nat.testBit_and, toNat_bitWord, Nat.testBit_two_pow]
  rw [Bool.eq_iff_iff, bne_iff_ne, ne_zero_iff]
  constructor
  · rintro ⟨m, -, hm⟩
    grind
  · exact fun h => ⟨n % 64, hlt, by rw [hbit, h, decide_eq_true rfl]; rfl⟩

theorem testWords_eq (row : List UInt64) (n : Nat) :
    testWords row n = (word row (n / 64)).toNat.testBit (n % 64) := by
  have hlt : n % 64 < 64 := Nat.mod_lt n (by omega)
  rw [testWords]
  cases h : row[n / 64]? with
  | none => simp [word, h]
  | some w => simp [word, h, testBit_word w hlt]

theorem testWords_add (row : List UInt64) (i : Nat) (hn : n < 64) :
    testWords row (64 * i + n) = (word row i).toNat.testBit n := by
  have hdiv : (64 * i + n) / 64 = i := by omega
  have hmod : (64 * i + n) % 64 = n := by omega
  rw [testWords_eq, hdiv, hmod]

/-- A word is not zero exactly if one of the row's bits in it is set. -/
theorem word_ne_zero_iff : word row i ≠ 0 ↔ ∃ n < 64, testWords row (64 * i + n) = true := by
  rw [ne_zero_iff]
  refine exists_congr fun n => and_congr_right fun hn => ?_
  rw [testWords_add row i hn]

/-- Rows with the same bits have the same words. -/
theorem word_eq_of_testWords (h : ∀ n, testWords row n = testWords other n) (i : Nat) :
    word row i = word other i := by
  refine ext_testBit fun n hn => ?_
  rw [← testWords_add row i hn, h, testWords_add other i hn]

end Bits

section Operations

variable {row other : List UInt64} {s : Symbol} {i n : Nat}

@[simp] theorem length_resize (row : List UInt64) (count : Nat) :
    (resize row count).length = max row.length count := by
  simp only [resize, List.length_append, List.length_replicate]
  omega

@[simp] theorem word_resize (row : List UInt64) (count i : Nat) :
    word (resize row count) i = word row i := by
  by_cases hi : i < row.length
  · rw [word, resize, List.getElem?_append_left hi, word]
  · rw [word_of_length_le (Nat.le_of_not_lt hi), word, resize,
      List.getElem?_append_right (Nat.le_of_not_lt hi), List.getElem?_replicate]
    split <;> rfl

theorem testWords_resize (row : List UInt64) (count n : Nat) :
    testWords (resize row count) n = testWords row n := by
  rw [testWords_eq, word_resize, ← testWords_eq]

theorem length_insert (row : List UInt64) (s : Symbol) :
    (insert row s).2.length = max row.length (position s / 64 + 1) := by
  simp [insert]

theorem word_insert (row : List UInt64) (s : Symbol) (i : Nat) : word (insert row s).2 i =
    if position s / 64 = i then word row i ||| bitWord (position s) else word row i := by
  rw [← word_resize row (position s / 64 + 1) i]
  simp only [insert]
  rw [word, List.getElem?_modify]
  by_cases hi : i < (resize row (position s / 64 + 1)).length
  · rw [word_of_lt hi]
    split <;> rfl
  · have hlength := length_resize row (position s / 64 + 1)
    have hne : position s / 64 ≠ i := by omega
    rw [List.getElem?_eq_none (Nat.le_of_not_lt hi), word_of_length_le (Nat.le_of_not_lt hi),
      if_neg hne]
    rfl

/-- An insertion sets the bit of the terminal and no other. -/
theorem testWords_insert (row : List UInt64) (s : Symbol) (n : Nat) :
    testWords (insert row s).2 n = (testWords row n || decide (position s = n)) := by
  rw [testWords_eq, word_insert, testWords_eq row]
  split
  · have hsame : position s % 64 = n % 64 ↔ position s = n := by omega
    rw [UInt64.toNat_or, Nat.testBit_or, toNat_bitWord, Nat.testBit_two_pow]
    simp only [hsame]
  · have hne : position s ≠ n := by grind
    simp [hne]

/-- The words between the first and the one that is set are zero. -/
example : resize (insert (insert [] .eof).2 (.terminal 70)).2 3 = [1, 0x80, 0] := by decide

theorem insert_fst (row : List UInt64) (s : Symbol) :
    (insert row s).1 = !testWords row (position s) := by
  simp only [insert, word_resize]
  rw [testWords_eq, ← and_bitWord, bne, Bool.not_not]

@[simp] theorem length_merge (row other : List UInt64) :
    (merge row other).2.length = row.length := by
  induction row generalizing other with
  | nil => cases other <;> rfl
  | cons w row ih =>
    cases other with
    | nil => rfl
    | cons v other => simp [merge, ih]

theorem word_merge (hi : i < row.length) :
    word (merge row other).2 i = word row i ||| word other i := by
  induction row generalizing other i with
  | nil => cases hi
  | cons w row ih =>
    cases other with
    | nil => simp [merge, word]
    | cons v other =>
      cases i with
      | zero => rfl
      | succ i => simpa [merge, word] using @ih other i (Nat.lt_of_succ_lt_succ hi)

theorem merge_fst : (merge row other).1 = true ↔
    ∃ i < row.length, word other i &&& ~~~word row i ≠ 0 := by
  induction row generalizing other with
  | nil => cases other <;> simp [merge]
  | cons w row ih =>
    cases other with
    | nil => simp [merge, word]
    | cons v other =>
      simp only [merge, Bool.or_eq_true, bne_iff_ne, ih]
      constructor
      · rintro (hv | ⟨i, hi, hne⟩)
        · exact ⟨0, Nat.succ_pos _, hv⟩
        · exact ⟨i + 1, Nat.succ_lt_succ hi, hne⟩
      · rintro ⟨_ | i, hi, hne⟩
        · exact .inl hne
        · exact .inr ⟨i, Nat.lt_of_succ_lt_succ hi, hne⟩

theorem length_insertAll (row other : List UInt64) :
    (insertAll row other).2.length = max row.length other.length := by
  simp [insertAll]

theorem word_insertAll (row other : List UInt64) (i : Nat) :
    word (insertAll row other).2 i = word row i ||| word other i := by
  by_cases hi : i < max row.length other.length
  · rw [insertAll, word_merge (by simpa using hi), word_resize]
  · have hlength := length_insertAll row other
    have hrow : word row i = 0 := word_of_length_le (by omega)
    have hother : word other i = 0 := word_of_length_le (by omega)
    rw [word_of_length_le (by omega), hrow, hother]
    rfl

/-- A union has the bits of both rows. -/
theorem testWords_insertAll (row other : List UInt64) (n : Nat) :
    testWords (insertAll row other).2 n = (testWords row n || testWords other n) := by
  rw [testWords_eq, word_insertAll, UInt64.toNat_or, Nat.testBit_or, ← testWords_eq,
    ← testWords_eq]

theorem insertAll_fst : (insertAll row other).1 = true ↔
    ∃ n, testWords other n = true ∧ testWords row n = false := by
  have hbit : ∀ i n, n < 64 → ((word other i &&& ~~~word row i).toNat.testBit n = true ↔
      testWords other (64 * i + n) = true ∧ testWords row (64 * i + n) = false) := by
    intro i n hn
    rw [testBit_and_not _ _ hn, testWords_add other i hn, testWords_add row i hn]
    simp
  simp only [insertAll, merge_fst, length_resize, word_resize, ne_zero_iff]
  constructor
  · rintro ⟨i, -, n, hn, h⟩
    exact ⟨64 * i + n, (hbit i n hn).1 h⟩
  · rintro ⟨n, hother, hrow⟩
    have hlt : n % 64 < 64 := Nat.mod_lt n (by omega)
    have hsplit : 64 * (n / 64) + n % 64 = n := Nat.div_add_mod n 64
    have hlength : n / 64 < max row.length other.length := by
      by_contra hle
      rw [testWords_eq, word_of_length_le (by omega)] at hother
      simp at hother
    exact ⟨n / 64, hlength, n % 64, hlt, (hbit _ _ hlt).2 (by rw [hsplit]; exact ⟨hother, hrow⟩)⟩

end Operations

section Canonical

variable {row other : List UInt64} {n : Nat}

/-- The last word of a row is not zero. -/
def Canonical (row : List UInt64) : Prop := ∀ i, row.length = i + 1 → word row i ≠ 0

theorem canonical_nil : Canonical [] := nofun

theorem Canonical.insert (h : Canonical row) (s : Symbol) : Canonical (insert row s).2 := by
  intro i hi
  rw [length_insert] at hi
  rw [word_insert]
  split
  · exact fun hzero => bitWord_ne_zero _ (UInt64.or_eq_zero_iff.1 hzero).2
  · exact h i (by omega)

theorem Canonical.insertAll (h : Canonical row) (hother : Canonical other) :
    Canonical (insertAll row other).2 := by
  intro i hi
  rw [length_insertAll] at hi
  rw [word_insertAll]
  intro hzero
  obtain ⟨hrow, hwords⟩ := UInt64.or_eq_zero_iff.1 hzero
  by_cases hlength : row.length = i + 1
  · exact h i hlength hrow
  · exact hother i (by omega) hwords

/-- A row is no longer than its bits need. -/
theorem Canonical.length_le_iff (h : Canonical row) :
    row.length ≤ n ↔ ∀ k, testWords row k = true → k < 64 * n := by
  constructor
  · intro hle k hk
    by_contra hge
    rw [testWords_eq, word_of_length_le (by omega)] at hk
    simp at hk
  · intro hbits
    by_contra hlt
    -- the last word has a bit, which lies behind the bound
    obtain ⟨k, -, hk⟩ := word_ne_zero_iff.1 (h (row.length - 1) (by omega))
    have := hbits _ hk
    omega

theorem Canonical.eq_of_testWords (h : Canonical row) (hother : Canonical other)
    (hbits : ∀ n, testWords row n = testWords other n) : row = other := by
  have hlength : row.length = other.length := by
    apply Nat.le_antisymm
    · rw [h.length_le_iff]
      simp only [hbits]
      exact hother.length_le_iff.1 le_rfl
    · rw [hother.length_le_iff]
      simp only [← hbits]
      exact h.length_le_iff.1 le_rfl
  rw [← map_word row, ← map_word other, hlength]
  exact List.map_congr_left fun i _ => word_eq_of_testWords hbits i

theorem canonical_words (t : TokenSet) : Canonical (t.words 0) := by
  intro i hi
  have hlength : t.wordCount = i + 1 := by simpa [words] using hi
  -- without its last word the row would hold the mask, against the count of words
  by_contra hzero
  have hbits : ∀ n < 64, testWords (t.words 0) (64 * i + n) = false := by
    simpa using mt word_ne_zero_iff.2 (not_not.2 hzero)
  have hwithin : t.Within (64 * i) := by
    refine Nat.lt_pow_two_of_testBit _ fun k hk => ?_
    by_contra hbit
    have hlt := (wordCount_le_iff.1 hlength.le).lt (Bool.not_eq_false _ ▸ hbit)
    have hfalse := hbits (k - 64 * i) (by omega)
    rw [testWords_words, Nat.add_sub_cancel' hk] at hfalse
    exact hbit hfalse
  have hle := wordCount_le_iff.2 hwithin
  omega

end Canonical

section Views

variable {row : List UInt64} {s : Symbol}

theorem contains_eq (row : List UInt64) (s : Symbol) :
    contains row s = testWords row (position s) := by
  rw [contains, and_bitWord, testWords_eq]

theorem isEmpty_iff : isEmpty row = true ↔ ∀ n, testWords row n = false := by
  simp only [isEmpty, List.all_eq_true, beq_iff_eq]
  constructor
  · intro h n
    have hword : word row (n / 64) = 0 := by
      by_cases hn : n / 64 < row.length
      · exact h _ (List.mem_of_getElem? (word_of_lt hn))
      · exact word_of_length_le (Nat.le_of_not_lt hn)
    rw [testWords_eq, hword]
    simp
  · intro h w hw
    obtain ⟨i, hi⟩ := List.mem_iff_getElem?.1 hw
    by_contra hne
    obtain ⟨n, -, hn⟩ := word_ne_zero_iff.1 (show word row i ≠ 0 by simpa [word, hi] using hne)
    rw [h] at hn
    cases hn

theorem mem_ones {w : UInt64} {n : Nat} : n ∈ ones w ↔ n < 64 ∧ w.toNat.testBit n = true := by
  simp only [ones, List.mem_filter, List.mem_range, and_bitWord]
  refine and_congr_right fun hn => ?_
  rw [Nat.mod_eq_of_lt hn]

theorem mem_toList : s ∈ toList row ↔ s.isTerminal = true ∧ testWords row (position s) = true := by
  simp only [toList, List.mem_flatMap, List.mem_range, List.mem_map, mem_ones]
  constructor
  · rintro ⟨i, -, n, ⟨hn, hbit⟩, rfl⟩
    rw [position_symbolAt, testWords_add row i hn]
    exact ⟨isTerminal_symbolAt _, hbit⟩
  · rintro ⟨hs, hbit⟩
    rw [testWords_eq] at hbit
    refine ⟨position s / 64, ?_, position s % 64, ⟨Nat.mod_lt _ (by omega), hbit⟩, ?_⟩
    · by_contra hlt
      rw [word_of_length_le (Nat.le_of_not_lt hlt)] at hbit
      simp at hbit
    · rw [Nat.div_add_mod, symbolAt_position hs]

theorem pairwise_toList (row : List UInt64) :
    (toList row).Pairwise fun r s => position r < position s := by
  refine List.pairwise_flatMap.2 ⟨fun i _ => List.pairwise_map.2 ?_, ?_⟩
  · simp only [position_symbolAt, Nat.add_lt_add_iff_left]
    exact List.pairwise_lt_range.filter _
  · refine List.pairwise_lt_range.imp fun {i j} hij r hr s hs => ?_
    obtain ⟨m, hm, rfl⟩ := List.mem_map.1 hr
    obtain ⟨n, hn, rfl⟩ := List.mem_map.1 hs
    have hlt := (mem_ones.1 hm).1
    simp only [position_symbolAt]
    omega

theorem length_toList (row : List UInt64) : (toList row).length = size row := by
  conv_rhs => rw [size, ← map_word row, List.map_map]
  simp [toList, List.length_flatMap, Function.comp_def]

end Views

end Row

end GrammarTables.TokenSet
