import GrammarTables.Text.CaseFold
import GrammarTables.Text.CodeRange

/-!
# Sets of characters

A set of characters is a list of ranges. Characters are numbered without the gap that the surrogates
leave among the code points, so the ranges on both sides of the gap are neighbours. Sets are kept
ascending, with at least one character missing between two ranges.
-/

namespace GrammarTables

structure CharSet where
  ranges : List (Nat × Nat)
  deriving DecidableEq, Repr, Inhabited

namespace CharSet

/-- The number of a code point that is a character. -/
def ordinalOfCode (code : Nat) : Nat := if code < 0xD800 then code else code - 0x800

/-- The code point of a character's number. -/
def codeOfOrdinal (n : Nat) : Nat := if n < 0xD800 then n else n + 0x800

def ordinal (c : Char) : Nat := ordinalOfCode c.toNat

def lastOrdinal : Nat := ordinalOfCode 0x10FFFF

def empty : CharSet := ⟨[]⟩

def all : CharSet := ⟨[(0, lastOrdinal)]⟩

def single (c : Char) : CharSet := ⟨[(ordinal c, ordinal c)]⟩

def isEmpty (s : CharSet) : Bool := s.ranges.isEmpty

/-- Whether there is exactly one character in the set. -/
def isSingle (s : CharSet) : Bool :=
  match s.ranges with
  | [(lo, hi)] => lo == hi
  | _ => false

def contains (s : CharSet) (c : Char) : Bool := Text.inRanges s.ranges (ordinal c)

/-- Joins a range with those after it that overlap it or touch it. -/
def coalesce (lo hi : Nat) : List (Nat × Nat) → List (Nat × Nat)
  | [] => [(lo, hi)]
  | (l, h) :: rest =>
    if l ≤ hi + 1 then coalesce lo (max hi h) rest else (lo, hi) :: coalesce l h rest

/-- Puts a range before the first one that does not start before it. -/
def insertRange (range : Nat × Nat) : List (Nat × Nat) → List (Nat × Nat)
  | [] => [range]
  | r :: rest => if range.1 ≤ r.1 then range :: r :: rest else r :: insertRange range rest

/-- The set of the given ranges, in any order. -/
def ofRanges (ranges : List (Nat × Nat)) : CharSet :=
  match ranges.foldr insertRange [] with
  | [] => empty
  | (lo, hi) :: rest => ⟨coalesce lo hi rest⟩

/-- The set of the given ranges of code points, none of which reaches into the surrogates. -/
def ofCodeRanges (ranges : List (Nat × Nat)) : CharSet :=
  ofRanges (ranges.map fun r => (ordinalOfCode r.1, ordinalOfCode r.2))

def ofBounds (lo hi : Char) : CharSet := ofRanges [(ordinal lo, ordinal hi)]

/-- The ranges by the code points of their ends. -/
def codeRanges (s : CharSet) : List (Nat × Nat) :=
  s.ranges.map fun r => (codeOfOrdinal r.1, codeOfOrdinal r.2)

def union (s t : CharSet) : CharSet := ofRanges (s.ranges ++ t.ranges)

/-- What lies between the ranges, from `start` on. -/
def gaps (start : Nat) : List (Nat × Nat) → List (Nat × Nat)
  | [] => if start ≤ lastOrdinal then [(start, lastOrdinal)] else []
  | (lo, hi) :: rest =>
    if start < lo then (start, lo - 1) :: gaps (hi + 1) rest else gaps (hi + 1) rest

def complement (s : CharSet) : CharSet := ⟨gaps 0 s.ranges⟩

def inter (s t : CharSet) : CharSet :=
  ⟨s.ranges.flatMap fun a => t.ranges.filterMap fun b =>
    if max a.1 b.1 ≤ min a.2 b.2 then some (max a.1 b.1, min a.2 b.2) else none⟩

def diff (s t : CharSet) : CharSet := s.inter t.complement

def symmDiff (s t : CharSet) : CharSet := (s.union t).diff (s.inter t)

/-- Whether the sets have a character in common. -/
def overlaps (s t : CharSet) : Bool :=
  s.ranges.any fun a => t.ranges.any fun b => max a.1 b.1 ≤ min a.2 b.2

/-- The set with everything that folds to what one of its characters folds to. -/
def caseFold (s : CharSet) : CharSet :=
  let holds := fun (code : Nat) => Text.inRanges s.ranges (ordinalOfCode code)
  let folded := (Text.foldPairs.filter fun p => holds p.1 || holds p.2).map (·.2)
  let sources := (Text.foldPairs.filter fun p => folded.contains p.2).map (·.1)
  ofRanges (s.ranges ++ (folded ++ sources).map fun code =>
    (ordinalOfCode code, ordinalOfCode code))

/-- The set with the other case of each of its ASCII letters. -/
def asciiCaseFold (s : CharSet) : CharSet :=
  let upper := s.inter (ofBounds 'A' 'Z')
  let lower := s.inter (ofBounds 'a' 'z')
  ofRanges (s.ranges ++ upper.ranges.map (fun r => (r.1 + 32, r.2 + 32)) ++
    lower.ranges.map (fun r => (r.1 - 32, r.2 - 32)))

end CharSet

instance : Membership Char CharSet := ⟨fun s c => s.contains c = true⟩

end GrammarTables
