import GrammarTables.Regex.Reader
import GrammarTables.Text.WhiteSpace
import GrammarTables.Text.Word

/-!
# What patterns mean

A pattern becomes a regular expression under the flags in force. Flags that stand alone hold up to
the end of the group around them, over the bars between its branches too. Without the flag for all
of Unicode a class holds ASCII characters only, and one that cannot is refused.
-/

namespace GrammarTables

namespace Pattern

structure Flags where
  caseless : Bool := false
  multiLine : Bool := false
  dotAll : Bool := false
  unicode : Bool := true
  crlf : Bool := false
  deriving DecidableEq, Repr

def Flags.change (f : Flags) (changes : List FlagChange) : Flags where
  caseless := (change? .caseless changes).getD f.caseless
  multiLine := (change? .multiLine changes).getD f.multiLine
  dotAll := (change? .dotAll changes).getD f.dotAll
  unicode := (change? .unicode changes).getD f.unicode
  crlf := (change? .crlf changes).getD f.crlf

def asciiSet : CharSet := .ofBounds '\x00' '\x7f'

/-- A class of bytes has to be one of ASCII characters. -/
def Flags.check (f : Flags) (s : CharSet) : Option CharSet :=
  if f.unicode || (s.diff asciiSet).isEmpty then some s else none

/-- Case first, then negation. -/
def Flags.settle (f : Flags) (negated : Bool) (s : CharSet) : Option CharSet :=
  let s := if f.caseless then (if f.unicode then s.caseFold else s.asciiCaseFold) else s
  f.check (if negated then s.complement else s)

def ShortClass.chars (unicode : Bool) : ShortClass → CharSet
  | .digit => if unicode then .ofCodeRanges Text.digitRanges else .ofBounds '0' '9'
  | .space =>
    if unicode then .ofCodeRanges Text.whiteSpaceRanges
    else .ofCodeRanges [(0x09, 0x0D), (0x20, 0x20)]
  | .word =>
    if unicode then .ofCodeRanges Text.wordRanges
    else .ofCodeRanges [(0x30, 0x39), (0x41, 0x5A), (0x5F, 0x5F), (0x61, 0x7A)]

def Flags.short (f : Flags) (kind : ShortClass) (negated : Bool) : Option CharSet :=
  let s := kind.chars f.unicode
  f.check (if negated then s.complement else s)

/-- A character outside brackets: a byte beyond ASCII has no meaning. -/
def Flags.literal (f : Flags) (l : Literal) : Option CharSet :=
  if !f.unicode && l.isByte && 0x7F < l.char.toNat then none
  else if !f.caseless then some (.single l.char)
  else if f.unicode then some (CharSet.single l.char).caseFold
  else some (CharSet.single l.char).asciiCaseFold

/-- A character inside brackets. -/
def Flags.classChar (f : Flags) (l : Literal) : Option Char :=
  if !f.unicode && 0x7F < l.char.toNat then none else some l.char

def SetOperator.apply (op : SetOperator) (lhs rhs : CharSet) : CharSet :=
  match op with
  | .intersection => lhs.inter rhs
  | .difference => lhs.diff rhs
  | .symmetricDifference => lhs.symmDiff rhs

def Flags.foldOperand (f : Flags) (s : CharSet) : CharSet :=
  if f.caseless then (if f.unicode then s.caseFold else s.asciiCaseFold) else s

mutual

/-- The characters that brackets hold, before the brackets' own case and negation. -/
def ClassTree.chars (f : Flags) : ClassTree → Option CharSet
  | .empty => some .empty
  | .literal l => do some (.single (← f.classChar l))
  | .range lo hi => do some (.ofBounds (← f.classChar lo) (← f.classChar hi))
  | .ascii ranges negated => f.settle negated (.ofCodeRanges ranges)
  | .short kind negated => f.short kind negated
  | .bracket negated body => do f.settle negated (← body.chars f)
  | .union items => ClassTree.unionChars f items
  | .binary op lhs rhs => do
    let lhs ← lhs.chars f
    let rhs ← rhs.chars f
    some (op.apply (f.foldOperand lhs) (f.foldOperand rhs))

def ClassTree.unionChars (f : Flags) : List ClassTree → Option CharSet
  | [] => some .empty
  | t :: rest => do some ((← t.chars f).union (← ClassTree.unionChars f rest))

end

def Flags.anchor (f : Flags) : Anchor → Look
  | .lineStart => if f.multiLine then .lineStart f.crlf else .textStart
  | .lineEnd => if f.multiLine then .lineEnd f.crlf else .textEnd
  | .textStart => .textStart
  | .textEnd => .textEnd
  | .word edge => .word edge (!f.unicode)

/-- The characters of a dot. -/
def Flags.dot (f : Flags) : Option CharSet :=
  if !f.unicode then none
  else if f.dotAll then some .all
  else if f.crlf then some (CharSet.ofCodeRanges [(0x0A, 0x0A), (0x0D, 0x0D)]).complement
  else some (CharSet.single '\n').complement

mutual

/-- The expression that a pattern means, and the flags in force after it. -/
def meaning (f : Flags) : Pattern → Option (Regex × Flags)
  | .empty => some (.empty, f)
  | .flags changes => some (.empty, f.change changes)
  | .literal l => do some (.chars (← f.literal l), f)
  | .dot => do some (.chars (← f.dot), f)
  | .anchor kind => some (.look (f.anchor kind), f)
  | .short kind negated => do some (.chars (← f.short kind negated), f)
  | .bracket negated body => do some (.chars (← f.settle negated (← body.chars f)), f)
  | .repeated body least most => do
    let (r, f) ← meaning f body
    some (.repetition r least most, f)
  | .group capturing changes body => do
    let (r, _) ← meaning (f.change changes) body
    some (if capturing then .group r else r, f)
  | .alternation branches => do
    let (rs, f) ← meanings f branches
    some (.choice rs, f)
  | .concat parts => do
    let (rs, f) ← meanings f parts
    some (.sequence rs, f)

/-- The flags after one pattern are those before the next. -/
def meanings (f : Flags) : List Pattern → Option (List Regex × Flags)
  | [] => some ([], f)
  | p :: rest => do
    let (r, f) ← meaning f p
    let (rs, f) ← meanings f rest
    some (r :: rs, f)

end

end Pattern

/-- The expression that a text means. -/
def Regex.parse? (text : String) : Option Regex := do
  let (r, _) ← (← Pattern.parse? text).meaning {}
  some r

end GrammarTables
