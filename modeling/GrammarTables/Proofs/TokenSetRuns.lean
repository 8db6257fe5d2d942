import GrammarTables.Proofs.TokenWords
import Mathlib.Data.Finset.Image

/-!
# Sets of terminals behave as finite sets

Any number of sets of terminals are made and changed one operation after the other, once as masks,
once as rows of words, and once as finite sets. Every operation answers the same on all three, so
after each run masks and rows show the members that the finite sets have, and two of them are equal
exactly if their members are.
-/

namespace GrammarTables.TokenSet

open Std

abbrev Terminal : Type := {s : Symbol // s.isTerminal = true}

def terminalAt (n : Nat) : Terminal := ⟨symbolAt n, isTerminal_symbolAt n⟩

@[simp] theorem position_terminalAt (n : Nat) : position (terminalAt n) = n := position_symbolAt n

theorem terminalAt_position (s : Terminal) : terminalAt (position s) = s :=
  Subtype.ext (symbolAt_position s.2)

theorem terminalAt_surjective : Function.Surjective terminalAt :=
  fun s => ⟨_, terminalAt_position s⟩

theorem position_eq_iff {r s : Terminal} : position r = position s ↔ r = s :=
  ⟨fun h => Subtype.ext (position_injective r.2 s.2 h), fun h => h ▸ rfl⟩

/-- The operations that make and change sets. A change tells whether the set grew. -/
structure Updates (σ : Type) where
  new : σ
  insert : σ → Terminal → Bool × σ
  insertAll : σ → σ → Bool × σ
  collect : List Terminal → σ

/-- The operations that read a set. -/
structure Views (σ : Type) where
  contains : σ → Terminal → Bool
  isEmpty : σ → Bool
  size : σ → Nat
  toList : σ → List Symbol
  /-- The words with zero words up to the given number. -/
  words : σ → Nat → List UInt64

/-- An operation on the sets of the given names. -/
inductive Operation (ι : Type) where
  | new (name : ι)
  | insert (name : ι) (s : Terminal)
  | insertAll (name other : ι)
  | collect (name : ι) (symbols : List Terminal)

namespace Updates

variable {σ τ ι : Type} [DecidableEq ι]

/-- What an operation answers, and the sets behind it. -/
def step (u : Updates σ) (store : ι → σ) : Operation ι → Option Bool × (ι → σ)
  | .new name => (none, Function.update store name u.new)
  | .insert name s =>
    let (grew, a) := u.insert (store name) s
    (some grew, Function.update store name a)
  | .insertAll name other =>
    let (grew, a) := u.insertAll (store name) (store other)
    (some grew, Function.update store name a)
  | .collect name symbols => (none, Function.update store name (u.collect symbols))

def run (u : Updates σ) (store : ι → σ) : List (Operation ι) → List (Option Bool) × (ι → σ)
  | [] => ([], store)
  | op :: ops =>
    let (answer, store) := u.step store op
    let (answers, store) := u.run store ops
    (answer :: answers, store)

/-- Operations on related sets answer the same and give related sets. -/
structure Simulates (u : Updates σ) (v : Updates τ) (R : σ → τ → Prop) : Prop where
  new : R u.new v.new
  insert {a : σ} {b : τ} (h : R a b) (s : Terminal) :
    (u.insert a s).1 = (v.insert b s).1 ∧ R (u.insert a s).2 (v.insert b s).2
  insertAll {a a' : σ} {b b' : τ} (h : R a b) (h' : R a' b') :
    (u.insertAll a a').1 = (v.insertAll b b').1 ∧ R (u.insertAll a a').2 (v.insertAll b b').2
  collect (symbols : List Terminal) : R (u.collect symbols) (v.collect symbols)

variable {u : Updates σ} {v : Updates τ} {R : σ → τ → Prop} {store : ι → σ} {other : ι → τ}

theorem related_update (h : ∀ x, R (store x) (other x)) {a : σ} {b : τ} (hab : R a b) (name : ι) :
    ∀ x, R (Function.update store name a x) (Function.update other name b x) := by
  intro x
  by_cases hx : x = name
  · subst hx
    simpa using hab
  · simpa [Function.update_of_ne hx] using h x

theorem Simulates.step (h : Simulates u v R) (hstore : ∀ x, R (store x) (other x))
    (op : Operation ι) : (u.step store op).1 = (v.step other op).1 ∧
      ∀ x, R ((u.step store op).2 x) ((v.step other op).2 x) := by
  cases op with
  | new name => exact ⟨rfl, related_update hstore h.new name⟩
  | insert name s =>
    obtain ⟨hgrew, hset⟩ := h.insert (hstore name) s
    exact ⟨congrArg some hgrew, related_update hstore hset name⟩
  | insertAll name more =>
    obtain ⟨hgrew, hset⟩ := h.insertAll (hstore name) (hstore more)
    exact ⟨congrArg some hgrew, related_update hstore hset name⟩
  | collect name symbols => exact ⟨rfl, related_update hstore (h.collect symbols) name⟩

/-- Whole runs from related sets answer the same and end with related sets. -/
theorem Simulates.run (h : Simulates u v R) (hstore : ∀ x, R (store x) (other x))
    (ops : List (Operation ι)) : (u.run store ops).1 = (v.run other ops).1 ∧
      ∀ x, R ((u.run store ops).2 x) ((v.run other ops).2 x) := by
  induction ops generalizing store other with
  | nil => exact ⟨rfl, hstore⟩
  | cons op ops ih =>
    obtain ⟨hanswer, hnext⟩ := h.step hstore op
    obtain ⟨hanswers, hend⟩ := ih hnext
    exact ⟨congrArg₂ List.cons hanswer hanswers, hend⟩

def masks : Updates TokenSet where
  new := empty
  insert t s := (t.grows (singleton s), t.insert s)
  insertAll t u := (t.grows u, t.union u)
  collect symbols := ofList (symbols.map (·.1))

def rows : Updates (List UInt64) where
  new := []
  insert row s := Row.insert row s
  insertAll := Row.insertAll
  collect symbols := symbols.foldl (fun row s => (Row.insert row s).2) []

/-- The operations on the members themselves. -/
def finsets : Updates (Finset Terminal) where
  new := ∅
  insert members s :=
    let more := Insert.insert s members
    (decide (more ≠ members), more)
  insertAll members others :=
    let more := members ∪ others
    (decide (more ≠ members), more)
  collect symbols := symbols.toFinset

end Updates

namespace Views

def masks : Views TokenSet where
  contains t s := t.contains s
  isEmpty := TokenSet.isEmpty
  size := TokenSet.size
  toList := TokenSet.toList
  words := TokenSet.words

def rows : Views (List UInt64) where
  contains row s := Row.contains row s
  isEmpty := Row.isEmpty
  size := Row.size
  toList := Row.toList
  words := Row.resize

/-- What is read of a set is what its members are. -/
structure Shows {σ : Type} (v : Views σ) (a : σ) (members : Finset Terminal) : Prop where
  contains : ∀ s, v.contains a s = true ↔ s ∈ members
  isEmpty : v.isEmpty a = true ↔ members = ∅
  size : v.size a = members.card
  toList : ∀ s, s ∈ v.toList a ↔ ∃ r ∈ members, r.1 = s
  ascending : (v.toList a).Pairwise fun r s => position r < position s
  words : ∀ count n, testWords (v.words a count) n = true ↔ terminalAt n ∈ members
  /-- There are as many words as are asked for, and more only where a member needs them. -/
  length : ∀ count n, (v.words a count).length ≤ n ↔
    count ≤ n ∧ ∀ s ∈ members, position s < 64 * n

end Views

/-- A mask has the given members. -/
def Has (t : TokenSet) (members : Finset Terminal) : Prop :=
  ∀ s : Terminal, t.contains s = true ↔ s ∈ members

/-- A row has the given members, and no words that they do not need. -/
structure Row.Has (row : List UInt64) (members : Finset Terminal) : Prop where
  canonical : Canonical row
  contains : ∀ s : Terminal, contains row s = true ↔ s ∈ members

section Masks

variable {t u : TokenSet} {members others : Finset Terminal} {s : Terminal}

theorem grows_eq_false_iff : t.grows u = false ↔
    ∀ s : Terminal, u.contains s = true → t.contains s = true := by
  rw [grows, bne_eq_false_iff_eq]
  constructor
  · intro h s hs
    rw [← h, contains_union, hs, Bool.or_true]
  · intro h
    refine ext_contains fun s hs => ?_
    rw [contains_union, Bool.or_eq_left_iff_imp]
    exact h ⟨s, hs⟩

theorem has_empty : Has empty ∅ := fun s => by simp

theorem has_singleton (s : Terminal) : Has (singleton s) {s} := by
  intro r
  rw [contains_singleton, decide_eq_true_eq, position_eq_iff, Finset.mem_singleton]
  exact eq_comm

theorem Has.union (h : t.Has members) (k : u.Has others) : (t.union u).Has (members ∪ others) :=
  fun s => by simp [h s, k s]

theorem Has.grows (h : t.Has members) (k : u.Has others) :
    t.grows u = decide (members ∪ others ≠ members) := by
  rw [Bool.eq_iff_iff, ← not_iff_not, Bool.not_eq_true, grows_eq_false_iff]
  simp [h _, k _, Finset.subset_iff]

theorem has_ofList (symbols : List Terminal) :
    Has (ofList (symbols.map (·.1))) symbols.toFinset := by
  intro s
  rw [contains_ofList, List.mem_toFinset]
  constructor
  · rintro ⟨_, hmem, hpos⟩
    obtain ⟨r, hr, rfl⟩ := List.mem_map.1 hmem
    exact position_eq_iff.1 hpos ▸ hr
  · exact fun hs => ⟨s, List.mem_map_of_mem hs, rfl⟩

theorem simulates_masks : Updates.Simulates .masks .finsets Has where
  new := has_empty
  insert {t members} h s := by
    have hgrows := h.grows (has_singleton s)
    have hset := h.union (has_singleton s)
    rw [Finset.union_comm, ← Finset.insert_eq] at hgrows hset
    exact ⟨hgrows, hset⟩
  insertAll h k := ⟨h.grows k, h.union k⟩
  collect := has_ofList

end Masks

section Rows

namespace Row

variable {row other : List UInt64} {members others : Finset Terminal}

theorem Has.bit (h : Has row members) (n : Nat) :
    testWords row n = true ↔ terminalAt n ∈ members := by
  rw [← h.contains, contains_eq, position_terminalAt]

theorem has_nil : Has [] ∅ := ⟨canonical_nil, fun s => by simp [contains_eq, testWords_eq, word]⟩

theorem Has.insert (h : Has row members) (s : Terminal) :
    (insert row s).1 = decide (Insert.insert s members ≠ members) ∧
      Has (insert row s).2 (Insert.insert s members) := by
  refine ⟨?_, h.canonical.insert s, fun r => ?_⟩
  · rw [insert_fst, ← contains_eq, Bool.eq_iff_iff, Bool.not_eq_true', ← Bool.not_eq_true,
      h.contains, decide_eq_true_eq, ne_eq, Finset.insert_eq_self]
  · rw [contains_eq, testWords_insert, ← contains_eq, Bool.or_eq_true, h.contains,
      decide_eq_true_eq, position_eq_iff, Finset.mem_insert]
    grind

theorem Has.insertAll (h : Has row members) (k : Has other others) :
    (insertAll row other).1 = decide (members ∪ others ≠ members) ∧
      Has (insertAll row other).2 (members ∪ others) := by
  refine ⟨?_, h.canonical.insertAll k.canonical, fun r => ?_⟩
  · have hfresh : ∀ n, testWords row n = false ↔ terminalAt n ∉ members := fun n => by
      rw [← Bool.not_eq_true, h.bit]
    rw [Bool.eq_iff_iff, insertAll_fst, decide_eq_true_eq, ne_eq, Finset.union_eq_left,
      Finset.not_subset, terminalAt_surjective.exists]
    simp only [k.bit, hfresh]
  · rw [contains_eq, testWords_insertAll, ← contains_eq, ← contains_eq]
    simp [h.contains, k.contains]

theorem has_foldl_insert (h : Has row members) (symbols : List Terminal) :
    Has (symbols.foldl (fun row s => (Row.insert row s).2) row) (members ∪ symbols.toFinset) := by
  induction symbols generalizing row members with
  | nil => simpa using h
  | cons s symbols ih =>
    have hnext := ih (h.insert s).2
    simpa [Finset.insert_union, Finset.union_insert] using hnext

end Row

theorem simulates_rows : Updates.Simulates .rows .finsets Row.Has where
  new := Row.has_nil
  insert h s := h.insert s
  insertAll h k := h.insertAll k
  collect symbols := by
    have h := Row.has_foldl_insert Row.has_nil symbols
    rwa [Finset.empty_union] at h

end Rows

section Shown

variable {t u : TokenSet} {row other : List UInt64} {members others : Finset Terminal}

theorem mem_iff_of_contains {contains : Symbol → Bool}
    (h : ∀ s : Terminal, contains s = true ↔ s ∈ members) (s : Symbol) :
    s.isTerminal = true ∧ contains s = true ↔ ∃ r ∈ members, r.1 = s := by
  constructor
  · exact fun ⟨hs, hc⟩ => ⟨⟨s, hs⟩, (h ⟨s, hs⟩).1 hc, rfl⟩
  · rintro ⟨r, hr, rfl⟩
    exact ⟨r.2, (h r).2 hr⟩

/-- An ascending list of the members has each of them once. -/
theorem length_eq_card {listed : List Symbol} (hmem : ∀ s, s ∈ listed ↔ ∃ r ∈ members, r.1 = s)
    (hasc : listed.Pairwise fun r s => position r < position s) : listed.length = members.card := by
  have hnodup : listed.Nodup := hasc.imp fun hlt heq => by
    rw [heq] at hlt
    exact Nat.lt_irrefl _ hlt
  have himage : listed.toFinset = members.image Subtype.val := by
    ext s
    rw [List.mem_toFinset, hmem, Finset.mem_image]
  rw [← List.toFinset_card_of_nodup hnodup, himage,
    Finset.card_image_of_injective _ Subtype.val_injective]

theorem Has.toList (h : t.Has members) (s : Symbol) : s ∈ t.toList ↔ ∃ r ∈ members, r.1 = s := by
  rw [mem_toList, mem_iff_of_contains h]

theorem pairwise_toList (t : TokenSet) :
    t.toList.Pairwise fun r s => position r < position s := by
  refine List.pairwise_map.2 ?_
  simp only [position_symbolAt]
  exact List.pairwise_lt_range.filter _

theorem Has.within_iff (h : t.Has members) {n : Nat} :
    t.Within n ↔ ∀ s ∈ members, position s < n := by
  constructor
  · exact fun hw s hs => hw.lt ((h s).2 hs)
  · exact fun hlt => within_of_contains fun s hs hc => hlt ⟨s, hs⟩ ((h ⟨s, hs⟩).1 hc)

/-- Masks are equal exactly if their members are. -/
theorem Has.eq_iff (h : t.Has members) (k : u.Has others) : t = u ↔ members = others := by
  constructor
  · rintro rfl
    ext s
    rw [← h, k]
  · rintro rfl
    refine ext_contains fun s hs => ?_
    rw [Bool.eq_iff_iff, h ⟨s, hs⟩, k ⟨s, hs⟩]

theorem Has.shows (h : t.Has members) : Views.masks.Shows t members where
  contains := h
  isEmpty := isEmpty_iff.trans (h.eq_iff has_empty)
  size := (List.length_map _).symm.trans (length_eq_card h.toList (pairwise_toList t))
  toList := h.toList
  ascending := pairwise_toList t
  words count n := by
    have hbit := testWords_words t count n
    rw [testBit_eq_contains] at hbit
    exact hbit ▸ h (terminalAt n)
  length count n := by
    rw [← h.within_iff, ← wordCount_le_iff, ← Nat.max_le]
    simp [Views.masks, words]

namespace Row

theorem Has.toList (h : Has row members) (s : Symbol) :
    s ∈ toList row ↔ ∃ r ∈ members, r.1 = s := by
  rw [mem_toList, ← contains_eq, mem_iff_of_contains h.contains]

/-- Rows are equal exactly if their members are, since none has more words than it needs. -/
theorem Has.eq_iff (h : Has row members) (k : Has other others) :
    row = other ↔ members = others := by
  constructor
  · rintro rfl
    ext s
    rw [← h.contains, k.contains]
  · rintro rfl
    refine h.canonical.eq_of_testWords k.canonical fun n => ?_
    rw [Bool.eq_iff_iff, h.bit, k.bit]

theorem Has.shows (h : Has row members) : Views.rows.Shows row members where
  contains := h.contains
  isEmpty := by
    refine isEmpty_iff.trans ?_
    rw [Finset.eq_empty_iff_forall_notMem, terminalAt_surjective.forall]
    simp only [← h.bit, Bool.not_eq_true]
  size := (length_toList row).symm.trans (length_eq_card h.toList (pairwise_toList row))
  toList := h.toList
  ascending := pairwise_toList row
  words count n := by
    rw [← h.bit, ← testWords_resize row count]
    rfl
  length count n := by
    have hlength := length_resize row count
    have hbits := h.canonical.length_le_iff (n := n)
    simp only [h.bit, terminalAt_surjective.forall, position_terminalAt] at hbits ⊢
    rw [← hbits]
    change (resize row count).length ≤ n ↔ _
    omega

theorem has_words {t : TokenSet} (h : t.Has members) : Has (t.words 0) members where
  canonical := canonical_words t
  contains s := by
    rw [contains_eq, testWords_words]
    exact h s

end Row

theorem compareWords_eq_iff {row other : List UInt64} :
    compareWords row other = .eq ↔ row = other := by
  induction row generalizing other with
  | nil => cases other <;> simp [compareWords]
  | cons w row ih =>
    cases other with
    | nil => simp [compareWords]
    | cons v other => simp [compareWords, Ordering.then_eq_eq, ih]

end Shown

/-- Whatever is done to any number of sets, each shows the members that were put into it, a change
tells whether there are more of them, and two sets are equal exactly if they have the same ones. The
words in which a set is kept are those of its mask, so they do not depend on how it was made. -/
theorem runs_show_members {ι : Type} [DecidableEq ι] (ops : List (Operation ι)) :
    let sets := Updates.finsets.run (fun _ => ∅) ops
    let masks := Updates.masks.run (fun _ => empty) ops
    let rows := Updates.rows.run (fun _ => []) ops
    masks.1 = sets.1 ∧ rows.1 = sets.1 ∧
      (∀ x, Views.masks.Shows (masks.2 x) (sets.2 x) ∧ Views.rows.Shows (rows.2 x) (sets.2 x)) ∧
      (∀ x y, (masks.2 x = masks.2 y ↔ sets.2 x = sets.2 y) ∧
        ((masks.2 x).compare (masks.2 y) = .eq ↔ sets.2 x = sets.2 y) ∧
        (rows.2 x = rows.2 y ↔ sets.2 x = sets.2 y) ∧
        (compareWords (rows.2 x) (rows.2 y) = .eq ↔ sets.2 x = sets.2 y)) ∧
      ∀ x, rows.2 x = (masks.2 x).words 0 := by
  intro sets masks rows
  obtain ⟨hmasks, hhas⟩ := simulates_masks.run (fun _ : ι => has_empty) ops
  obtain ⟨hrows, hrow⟩ := simulates_rows.run (fun _ : ι => Row.has_nil) ops
  have hwords : ∀ x, rows.2 x = (masks.2 x).words 0 := fun x =>
    ((hrow x).eq_iff (Row.has_words (hhas x))).2 rfl
  have hequal : ∀ x y, rows.2 x = rows.2 y ↔ sets.2 x = sets.2 y := fun x y =>
    (hrow x).eq_iff (hrow y)
  refine ⟨hmasks, hrows, fun x => ⟨(hhas x).shows, (hrow x).shows⟩, fun x y =>
    ⟨(hhas x).eq_iff (hhas y), ?_, hequal x y, compareWords_eq_iff.trans (hequal x y)⟩, hwords⟩
  rw [TokenSet.compare, compareWords_eq_iff, ← hwords, ← hwords, hequal]

end GrammarTables.TokenSet
