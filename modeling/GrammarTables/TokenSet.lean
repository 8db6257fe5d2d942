import GrammarTables.Symbol

/-!
# Sets of terminals

A set of terminals is a mask with a bit per member: bit 0 is the end of the input and bit `i + 1`
the token `i`. Two sets with the same members have the same mask. Tables hold a mask as words of 64
bits, the lowest word first.
-/

namespace GrammarTables

structure TokenSet where
  mask : Nat
  deriving DecidableEq, Hashable, Repr, Inhabited

namespace TokenSet

/-- The bit of a terminal. -/
def position : Symbol → Nat
  | .eof => 0
  | .terminal i => i + 1
  | .nonterminal i => i + 1

/-- The terminal of a bit. -/
def symbolAt : Nat → Symbol
  | 0 => .eof
  | i + 1 => .terminal i

@[simp] theorem position_symbolAt (n : Nat) : position (symbolAt n) = n := by cases n <;> rfl

theorem symbolAt_position {s : Symbol} (h : s.isTerminal = true) : symbolAt (position s) = s := by
  cases s <;> simp_all [position, symbolAt]

def empty : TokenSet := ⟨0⟩

def contains (t : TokenSet) (s : Symbol) : Bool := t.mask.testBit (position s)

def singleton (s : Symbol) : TokenSet := ⟨1 <<< position s⟩

def union (t u : TokenSet) : TokenSet := ⟨t.mask ||| u.mask⟩

def inter (t u : TokenSet) : TokenSet := ⟨t.mask &&& u.mask⟩

def insert (t : TokenSet) (s : Symbol) : TokenSet := t.union (singleton s)

def ofList (symbols : List Symbol) : TokenSet := symbols.foldl insert empty

def isEmpty (t : TokenSet) : Bool := t.mask == 0

/-- The bits that are set, ascending. -/
def positions (t : TokenSet) : List Nat :=
  (List.range (t.mask.log2 + 1)).filter t.mask.testBit

/-- The members, ascending. -/
def toList (t : TokenSet) : List Symbol := t.positions.map symbolAt

def size (t : TokenSet) : Nat := t.positions.length

/-- Whether a union with the second set adds anything to the first. -/
def grows (t u : TokenSet) : Bool := t.union u != t

@[simp] theorem contains_empty (s : Symbol) : empty.contains s = false := by
  simp [empty, contains]

@[simp] theorem contains_union (t u : TokenSet) (s : Symbol) :
    (t.union u).contains s = (t.contains s || u.contains s) := by
  simp [union, contains]

@[simp] theorem contains_inter (t u : TokenSet) (s : Symbol) :
    (t.inter u).contains s = (t.contains s && u.contains s) := by
  simp [inter, contains]

@[simp] theorem contains_singleton (r s : Symbol) :
    (singleton r).contains s = decide (position r = position s) := by
  rw [singleton, contains, Nat.one_shiftLeft, Nat.testBit_two_pow]

/-- How many words the members take. -/
def wordCount (t : TokenSet) : Nat := if t.mask = 0 then 0 else t.mask.log2 / 64 + 1

/-- The words of the mask, with zero words up to the given number. -/
def words (t : TokenSet) (count : Nat) : List UInt64 :=
  (List.range (max count t.wordCount)).map fun i => (t.mask >>> (64 * i)).toUInt64

/-- Word by word from the lowest; a set that runs out of words first is less. -/
def compareWords : List UInt64 → List UInt64 → Ordering
  | [], [] => .eq
  | [], _ :: _ => .lt
  | _ :: _, [] => .gt
  | a :: as, b :: bs => (compare a b).then (compareWords as bs)

def compare (t u : TokenSet) : Ordering := compareWords (t.words 0) (u.words 0)

/-- The text by which a message shows a set. -/
def text (t : TokenSet) : String :=
  "\x7b" ++ ", ".intercalate (t.toList.map Symbol.text) ++ "\x7d"

end TokenSet

instance : Membership Symbol TokenSet := ⟨fun t s => t.contains s = true⟩

end GrammarTables
