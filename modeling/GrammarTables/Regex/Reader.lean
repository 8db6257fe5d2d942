import GrammarTables.Json.Reader
import GrammarTables.Regex.Pattern
import GrammarTables.Text.Alphabetic
import GrammarTables.Text.Number
import GrammarTables.Text.WhiteSpace

/-!
# Reading patterns

The reader works through the text of a pattern from left to right. In a verbose stretch blanks and
comments between the parts of a pattern do not count. Look-around, back-references and classes named
by a property of characters are refused.
-/

namespace GrammarTables.Pattern

namespace Reader

open Json.Reader (hexValue)

/-- Leaves out blanks and comments; a comment runs to the end of its line. -/
def skipVerbose (inComment : Bool) : List Char → List Char
  | [] => []
  | c :: rest =>
    if inComment then skipVerbose (c != '\n') rest
    else if Text.isWhiteSpace c then skipVerbose false rest
    else if c = '#' then skipVerbose true rest
    else c :: rest

/-- Leaves out what does not count. -/
def skip (verbose : Bool) (cs : List Char) : List Char :=
  if verbose then skipVerbose false cs else cs

/-- Characters that have a meaning in patterns. -/
def isMeta (c : Char) : Bool := "\\.+*?()|[]\x7b\x7d^$#&-~".toList.contains c

/-- Characters that a backslash leaves as they are. Letters and digits are kept for escapes. -/
def isEscapable (c : Char) : Bool :=
  isMeta c || (c.toNat < 0x80 && !c.isAlphanum && c != '<' && c != '>')

def charOfCode? (code : Nat) : Option Char :=
  if code.isValidChar then some (Char.ofNat code) else none

/-- A number of hexadecimal digits. -/
def hexDigits (verbose : Bool) : Nat → Nat → List Char → Option (Nat × List Char)
  | 0, code, cs => some (code, cs)
  | _ + 1, _, [] => none
  | n + 1, code, c :: rest => do
    hexDigits verbose n (code * 16 + (← hexValue c)) (skip verbose rest)

/-- Hexadecimal digits up to a closing brace, at least one. -/
def hexBraced (verbose : Bool) : Nat → Option Nat → List Char → Option (Nat × List Char)
  | 0, _, _ => none
  | fuel + 1, code, cs =>
    match skip verbose cs with
    | [] => none
    | '\x7d' :: rest => do some (← code, skip verbose rest)
    | c :: rest => do
      hexBraced verbose fuel (some (code.getD 0 * 16 + (← hexValue c))) rest

/-- The rest of an escape by code point, after its letter. -/
def hexEscape (verbose : Bool) (width : Nat) (cs : List Char) : Option (Literal × List Char) := do
  match skip verbose cs with
  | '\x7b' :: rest =>
    let (code, rest) ← hexBraced verbose (rest.length + 1) none rest
    some ({ char := ← charOfCode? code }, rest)
  | cs =>
    let (code, rest) ← hexDigits verbose width 0 cs
    some ({ char := ← charOfCode? code, isByte := width == 2 }, rest)

/-- The letters of the name of an edge of a word. -/
def edgeName (verbose : Bool) : Nat → List Char → List Char × List Char
  | 0, cs => ([], cs)
  | fuel + 1, cs =>
    match cs with
    | c :: rest =>
      if c.isAlpha || c == '-' then
        let (name, rest) := edgeName verbose fuel (skip verbose rest)
        (c :: name, rest)
      else ([], cs)
    | [] => ([], [])

/-- The edge that `\b` asks for: one named in braces, or any. Braces with no name in them are left
for a repetition. -/
def wordEdge (verbose : Bool) (cs : List Char) : Option (WordEdge × List Char) :=
  match cs with
  | '\x7b' :: rest =>
    match skip verbose rest with
    | [] => none
    | c :: tail =>
      if c.isAlpha || c == '-' then
        match edgeName verbose (c :: tail).length (c :: tail) with
        | (name, '\x7d' :: rest) =>
          match String.ofList name with
          | "start" => some (.start, rest)
          | "end" => some (.stop, rest)
          | "start-half" => some (.startHalf, rest)
          | "end-half" => some (.stopHalf, rest)
          | _ => none
        | _ => none
      else some (.boundary, cs)
  | _ => some (.boundary, cs)

/-- An escape after its backslash: a character, a class or an anchor. -/
def escape (verbose : Bool) : List Char → Option (Pattern × List Char)
  | [] => none
  | c :: rest =>
    let char := fun (d : Char) => some (Pattern.literal { char := d }, rest)
    let hex := fun (width : Nat) => do
      let (l, rest) ← hexEscape verbose width rest
      some (Pattern.literal l, rest)
    let anchor := fun (kind : Anchor) => some (Pattern.anchor kind, rest)
    match c with
    | 'x' => hex 2
    | 'u' => hex 4
    | 'U' => hex 8
    | 'd' => some (.short .digit false, rest)
    | 's' => some (.short .space false, rest)
    | 'w' => some (.short .word false, rest)
    | 'D' => some (.short .digit true, rest)
    | 'S' => some (.short .space true, rest)
    | 'W' => some (.short .word true, rest)
    | 'a' => char '\x07'
    | 'f' => char '\x0c'
    | 't' => char '\t'
    | 'n' => char '\n'
    | 'r' => char '\r'
    | 'v' => char '\x0b'
    | 'A' => anchor .textStart
    | 'z' => anchor .textEnd
    | 'B' => anchor (.word .interior)
    | '<' => anchor (.word .start)
    | '>' => anchor (.word .stop)
    | 'b' => do
      let (edge, rest) ← wordEdge verbose rest
      some (.anchor (.word edge), rest)
    | c => if isEscapable c then char c else none

/-- The classes of ASCII characters that brackets may name. -/
def asciiClass? (name : String) : Option (List (Nat × Nat)) :=
  match name with
  | "alnum" => some [(0x30, 0x39), (0x41, 0x5A), (0x61, 0x7A)]
  | "alpha" => some [(0x41, 0x5A), (0x61, 0x7A)]
  | "ascii" => some [(0x00, 0x7F)]
  | "blank" => some [(0x09, 0x09), (0x20, 0x20)]
  | "cntrl" => some [(0x00, 0x1F), (0x7F, 0x7F)]
  | "digit" => some [(0x30, 0x39)]
  | "graph" => some [(0x21, 0x7E)]
  | "lower" => some [(0x61, 0x7A)]
  | "print" => some [(0x20, 0x7E)]
  | "punct" => some [(0x21, 0x2F), (0x3A, 0x40), (0x5B, 0x60), (0x7B, 0x7E)]
  | "space" => some [(0x09, 0x0D), (0x20, 0x20)]
  | "upper" => some [(0x41, 0x5A)]
  | "word" => some [(0x30, 0x39), (0x41, 0x5A), (0x5F, 0x5F), (0x61, 0x7A)]
  | "xdigit" => some [(0x30, 0x39), (0x41, 0x46), (0x61, 0x66)]
  | _ => none

/-- A class named between `[:` and `:]`, after its bracket. What is no such class is left for an
inner bracket. -/
def namedClass? : List Char → Option (ClassTree × List Char)
  | ':' :: rest =>
    let (negated, rest) :=
      match rest with
      | '^' :: rest => (true, rest)
      | _ => (false, rest)
    let (name, rest) := rest.span (· != ':')
    match rest with
    | ':' :: ']' :: rest => do
      some (.ascii (← asciiClass? (String.ofList name)) negated, rest)
    | _ => none
  | _ => none

/-- A character or a class inside brackets. -/
def classAtom (verbose : Bool) : List Char → Option (ClassTree × List Char)
  | '\\' :: rest => do
    match ← escape verbose rest with
    | (.literal l, rest) => some (.literal l, rest)
    | (.short kind negated, rest) => some (.short kind negated, rest)
    | _ => none
  | c :: rest => some (.literal { char := c }, rest)
  | [] => none

/-- An atom, or a range between two characters. A dash before a bracket or a dash is no range. -/
def classRange (verbose : Bool) (cs : List Char) : Option (ClassTree × List Char) := do
  let (lo, rest) ← classAtom verbose cs
  match skip verbose rest with
  | [] => none
  | '-' :: rest =>
    match skip verbose rest with
    | [] => none
    | c :: tail =>
      if c = ']' ∨ c = '-' then some (lo, '-' :: rest)
      else
        let (hi, rest) ← classAtom verbose (c :: tail)
        match lo, hi with
        | .literal lo, .literal hi =>
          if lo.char ≤ hi.char then some (.range lo hi, rest) else none
        | _, _ => none
  | rest => some (lo, rest)

/-- One item for several. -/
def classUnion : List ClassTree → ClassTree
  | [] => .empty
  | [item] => item
  | items => .union items

/-- The operand that is complete, joined to the one before it. -/
def classOperand (pending : Option (SetOperator × ClassTree)) (items : List ClassTree) :
    ClassTree :=
  match pending with
  | none => classUnion items.reverse
  | some (op, lhs) => .binary op lhs (classUnion items.reverse)

/-- Dashes at the front of a bracket stand for themselves. -/
def leadingDashes (verbose : Bool) : Nat → List Char → List ClassTree × List Char
  | 0, cs => ([], cs)
  | fuel + 1, cs =>
    match cs with
    | '-' :: rest =>
      let (items, rest) := leadingDashes verbose fuel (skip verbose rest)
      (.literal { char := '-' } :: items, rest)
    | _ => ([], cs)

/-- The front of a bracket after it opens: whether it is negated, and the dashes or the closing
bracket that stand for themselves there. -/
def classFront (verbose : Bool) (cs : List Char) : Bool × List ClassTree × List Char :=
  let cs := skip verbose cs
  let (negated, cs) :=
    match cs with
    | '^' :: rest => (true, skip verbose rest)
    | _ => (false, cs)
  match leadingDashes verbose cs.length cs with
  | ([], ']' :: rest) => (negated, [.literal { char := ']' }], skip verbose rest)
  | (items, rest) => (negated, items, rest)

/-- The rest of a bracket: the items so far, last first, and an operator that waits for its right
operand. -/
def classBody (verbose : Bool) : Nat → Option (SetOperator × ClassTree) → List ClassTree →
    List Char → Option (ClassTree × List Char)
  | 0, _, _, _ => none
  | fuel + 1, pending, items, cs =>
    let operator := fun (op : SetOperator) (rest : List Char) =>
      classBody verbose fuel (some (op, classOperand pending items)) [] rest
    match skip verbose cs with
    | [] => none
    | '[' :: rest =>
      match namedClass? rest with
      | some (named, rest) => classBody verbose fuel pending (named :: items) rest
      | none => do
        let (negated, front, rest) := classFront verbose rest
        let (body, rest) ← classBody verbose fuel none front.reverse rest
        classBody verbose fuel pending (.bracket negated body :: items) rest
    | ']' :: rest => some (classOperand pending items, rest)
    | '&' :: '&' :: rest => operator .intersection rest
    | '-' :: '-' :: rest => operator .difference rest
    | '~' :: '~' :: rest => operator .symmetricDifference rest
    | cs => do
      let (item, rest) ← classRange verbose cs
      classBody verbose fuel pending (item :: items) rest

/-- A bracket after it opens. -/
def bracket (verbose : Bool) (cs : List Char) : Option (Pattern × List Char) := do
  let (negated, front, rest) := classFront verbose cs
  let (body, rest) ← classBody verbose (cs.length + 1) none front.reverse rest
  some (.bracket negated body, rest)

/-- The digits of a number; blanks and comments between them do not count in a verbose stretch. -/
def countDigits (verbose : Bool) : Nat → Option Nat → List Char → Option Nat × List Char
  | 0, n, cs => (n, cs)
  | fuel + 1, n, cs =>
    match cs with
    | c :: rest =>
      if c.isDigit then
        countDigits verbose fuel (some (n.getD 0 * 10 + (c.toNat - 48))) (skip verbose rest)
      else (n, cs)
    | [] => (n, [])

/-- A number of 32 bits in decimal digits, with blanks around it. -/
def count (verbose : Bool) (cs : List Char) : Option Nat × List Char :=
  let cs := cs.dropWhile Text.isWhiteSpace
  let (n, cs) := countDigits verbose cs.length none cs
  let cs := skip verbose (cs.dropWhile Text.isWhiteSpace)
  (n.filter (· < 4294967296), cs.dropWhile Text.isWhiteSpace)

/-- The bounds of a repetition after the opening brace. -/
def bounds (verbose : Bool) (cs : List Char) : Option ((Nat × Option Nat) × List Char) := do
  let (least, cs) := count verbose (skip verbose cs)
  let least ← least
  match cs with
  | '\x7d' :: rest => some ((least, some least), rest)
  | ',' :: rest =>
    match skip verbose rest with
    | '\x7d' :: rest => some ((least, none), rest)
    | rest =>
      match count verbose rest with
      | (some most, '\x7d' :: rest) =>
        if least ≤ most then some ((least, some most), rest) else none
      | _ => none
  | _ => none

/-- The mark of a repetition that takes as little as it can. -/
def skipLazy : List Char → List Char
  | '?' :: rest => rest
  | cs => cs

def flag? (c : Char) : Option Flag :=
  match c with
  | 'i' => some .caseless
  | 'm' => some .multiLine
  | 's' => some .dotAll
  | 'U' => some .swapGreed
  | 'u' => some .unicode
  | 'R' => some .crlf
  | 'x' => some .verbose
  | _ => none

/-- Flags up to a colon or a closing parenthesis. A dash turns off those after it, stands once, and
not last; no flag stands twice. -/
def flagList : List Char → List FlagChange → Bool → Bool → Option (List FlagChange × List Char)
  | [], _, _, _ => none
  | c :: rest, changes, off, dangling =>
    if c = ':' ∨ c = ')' then
      if dangling then none else some (changes.reverse, c :: rest)
    else if c = '-' then
      if off then none else flagList rest changes true true
    else do
      let flag ← flag? c
      if (change? flag changes).isSome then none
      else flagList rest ((flag, !off) :: changes) off false

def isNameStart (c : Char) : Bool := c == '_' || Text.isAlphabetic c

def isNameChar (c : Char) : Bool :=
  c == '_' || c == '.' || c == '[' || c == ']' || Text.isAlphabetic c || Text.isNumeric c

/-- The name of a group up to its closing angle bracket. -/
def groupName (cs : List Char) : Option (String × List Char) :=
  match cs.span (· != '>') with
  | (c :: name, '>' :: rest) =>
    if isNameStart c && name.all isNameChar then some (String.ofList (c :: name), rest) else none
  | _ => none

/-- What opens with a parenthesis: a change of flags that stands alone, or a group. -/
inductive Opening where
  | flags (changes : List FlagChange)
  | group (capturing : Bool) (changes : List FlagChange) (name : Option String)

/-- The front of a group after its parenthesis. -/
def opening (verbose : Bool) (cs : List Char) : Option (Opening × List Char) :=
  let named := fun (rest : List Char) => do
    let (name, rest) ← groupName rest
    some (Opening.group true [] (some name), rest)
  match skip verbose cs with
  | '?' :: '=' :: _ => none
  | '?' :: '!' :: _ => none
  | '?' :: '<' :: '=' :: _ => none
  | '?' :: '<' :: '!' :: _ => none
  | '?' :: 'P' :: '<' :: rest => named rest
  | '?' :: '<' :: rest => named rest
  | '?' :: rest => do
    match ← flagList rest [] false false with
    | ([], ')' :: _) => none
    | (changes, ')' :: rest) => some (.flags changes, rest)
    | (changes, _ :: rest) => some (.group false changes none, rest)
    | (_, []) => none
  | cs => some (.group true [] none, cs)

/-- What a reader of patterns keeps beside the text. -/
structure State where
  verbose : Bool
  /-- The names of groups so far. -/
  names : List String

def State.change (s : State) (changes : List FlagChange) : State :=
  { s with verbose := (change? .verbose changes).getD s.verbose }

def State.name? (s : State) : Option String → Option State
  | none => some s
  | some name => if name ∈ s.names then none else some { s with names := name :: s.names }

/-- One pattern for several parts, given last first. -/
def concatenation (parts : List Pattern) : Pattern :=
  match parts.reverse with
  | [] => .empty
  | [p] => p
  | parts => .concat parts

/-- One pattern for several branches, given last first. -/
def branches (parts : List Pattern) (done : List Pattern) : Pattern :=
  match done with
  | [] => concatenation parts
  | _ => .alternation (concatenation parts :: done).reverse

/-- Puts a repetition around the last part. Flags cannot be repeated. -/
def repeatLast (least : Nat) (most : Option Nat) : List Pattern → Option (List Pattern)
  | [] => none
  | .flags _ :: _ => none
  | p :: rest => some (.repeated p least most :: rest)

/-- A part that is neither group nor bracket nor repetition. -/
def primitive (verbose : Bool) : List Char → Option (Pattern × List Char)
  | [] => none
  | '\\' :: rest => escape verbose rest
  | '.' :: rest => some (.dot, rest)
  | '^' :: rest => some (.anchor .lineStart, rest)
  | '$' :: rest => some (.anchor .lineEnd, rest)
  | c :: rest => some (.literal { char := c }, rest)

/-- The rest of a group up to its closing parenthesis or the end of the text. -/
def body : Nat → State → List Pattern → List Pattern → List Char →
    Option (Pattern × State × List Char)
  | 0, _, _, _, _ => none
  | fuel + 1, s, parts, done, cs =>
    let repetition := fun (least : Nat) (most : Option Nat) (rest : List Char) => do
      body fuel s (← repeatLast least most parts) done (skipLazy rest)
    match skip s.verbose cs with
    | [] => some (branches parts done, s, [])
    | ')' :: rest => some (branches parts done, s, ')' :: rest)
    | '|' :: rest => body fuel s [] (concatenation parts :: done) rest
    | '(' :: rest => do
      match ← opening s.verbose rest with
      | (.flags changes, rest) => body fuel (s.change changes) (.flags changes :: parts) done rest
      | (.group capturing changes name, rest) =>
        match ← body fuel ((← s.name? name).change changes) [] [] rest with
        | (inner, inside, ')' :: rest) =>
          body fuel { inside with verbose := s.verbose } (.group capturing changes inner :: parts)
            done rest
        | _ => none
    | '[' :: rest => do
      let (p, rest) ← bracket s.verbose rest
      body fuel s (p :: parts) done rest
    | '?' :: rest => repetition 0 (some 1) rest
    | '*' :: rest => repetition 0 none rest
    | '+' :: rest => repetition 1 none rest
    | '\x7b' :: rest => do
      let ((least, most), rest) ← bounds s.verbose rest
      repetition least most (skip s.verbose rest)
    | cs => do
      let (p, rest) ← primitive s.verbose cs
      body fuel s (p :: parts) done rest

end Reader

/-- The pattern that a text is. Each step of the reader takes a character, so the text's length
bounds them. -/
def parse? (text : String) : Option Pattern :=
  let cs := text.toList
  match Reader.body (cs.length + 1) ⟨false, []⟩ [] [] cs with
  | some (p, _, []) => if p.depth ≤ maxDepth then some p else none
  | _ => none

end GrammarTables.Pattern
