import GrammarTables.Json.Basic

/-!
# Reading JSON

The reader takes exactly the grammar of JSON: blanks are space, tab, line feed and carriage return,
and nothing may follow the value. What is well-formed and still no value becomes `unreadable`.
-/

namespace GrammarTables.Json

/-- Arrays and objects may be nested this deep. -/
def maxDepth : Nat := 127

namespace Reader

def isBlank (c : Char) : Bool := c == ' ' || c == '\t' || c == '\n' || c == '\r'

def skipBlank (cs : List Char) : List Char := cs.dropWhile isBlank

def hexValue (c : Char) : Option Nat :=
  if '0' ≤ c ∧ c ≤ '9' then some (c.toNat - 48)
  else if 'a' ≤ c ∧ c ≤ 'f' then some (c.toNat - 87)
  else if 'A' ≤ c ∧ c ≤ 'F' then some (c.toNat - 55)
  else none

/-- The four digits of a `\u` escape. -/
def unit : List Char → Option (Nat × List Char)
  | a :: b :: c :: d :: rest => do
    let a ← hexValue a
    let b ← hexValue b
    let c ← hexValue c
    let d ← hexValue d
    some (((a * 16 + b) * 16 + c) * 16 + d, rest)
  | _ => none

def shortEscape (c : Char) : Option Char :=
  match c with
  | '"' => some '"'
  | '\\' => some '\\'
  | '/' => some '/'
  | 'b' => some '\x08'
  | 'f' => some '\x0c'
  | 'n' => some '\n'
  | 'r' => some '\r'
  | 't' => some '\t'
  | _ => none

/-- The character of a surrogate pair. -/
def joinUnits (high low : Nat) : Char :=
  Char.ofNat (0x10000 + (high - 0xD800) * 0x400 + (low - 0xDC00))

/-- The rest of a string after its opening quote. The string is `none` when a surrogate in it stands
alone. -/
def stringRest : Nat → List Char → List Char → Bool → Option (Option String × List Char)
  | 0, _, _, _ => none
  | _ + 1, [], _, _ => none
  | fuel + 1, c :: rest, done, ok =>
    if c = '"' then
      some (if ok then some (String.ofList done.reverse) else none, rest)
    else if c.toNat < 0x20 then none
    else if c ≠ '\\' then stringRest fuel rest (c :: done) ok
    else
      match rest with
      | [] => none
      | e :: rest =>
        if e ≠ 'u' then do
          stringRest fuel rest ((← shortEscape e) :: done) ok
        else do
          let (high, rest) ← unit rest
          if 0xDC00 ≤ high ∧ high ≤ 0xDFFF then stringRest fuel rest done false
          else if high < 0xD800 ∨ 0xDFFF < high then
            stringRest fuel rest (Char.ofNat high :: done) ok
          else
            match rest with
            | '\\' :: 'u' :: tail => do
              let (low, tail) ← unit tail
              if 0xDC00 ≤ low ∧ low ≤ 0xDFFF then
                stringRest fuel tail (joinUnits high low :: done) ok
              else stringRest fuel rest done false
            | _ => stringRest fuel rest done false

def digits (cs : List Char) : List Char × List Char := cs.span Char.isDigit

def natOfDigits (ds : List Char) : Nat := ds.foldl (fun n d => n * 10 + (d.toNat - 48)) 0

/-- The least number that rounds to no floating-point number of 64 bits. -/
def floatLimit : Nat := Nat.pow 2 1024 - Nat.pow 2 970

/-- Whether the number with the given digits times ten to the `exponent` rounds to a floating-point
number of 64 bits. Numbers from 10 to the 310 on do not, and those below 10 to the 308 do. -/
def isFinite (digits : List Char) (exponent : Int) : Bool :=
  let digits := digits.dropWhile (· == '0')
  let size := exponent + digits.length
  let mantissa := natOfDigits digits
  if digits.isEmpty || size ≤ 308 then true
  else if 310 < size then false
  else if exponent < 0 then mantissa < floatLimit * Nat.pow 10 exponent.natAbs
  else mantissa * Nat.pow 10 exponent.natAbs < floatLimit

/-- The digits of the whole part: a zero stands alone. -/
def wholePart (cs : List Char) : Option (List Char × List Char) :=
  match cs with
  | '0' :: rest =>
    match rest with
    | d :: _ => if d.isDigit then none else some (['0'], rest)
    | [] => some (['0'], rest)
  | _ =>
    match digits cs with
    | ([], _) => none
    | (ds, rest) => some (ds, rest)

/-- The digits after a point, if there is one. -/
def fractionPart : List Char → Option (List Char × List Char)
  | '.' :: rest =>
    match digits rest with
    | ([], _) => none
    | (ds, rest) => some (ds, rest)
  | cs => some ([], cs)

/-- The exponent, if there is one, and whether there is. -/
def exponentPart : List Char → Option (Option Int × List Char)
  | c :: rest =>
    if c = 'e' ∨ c = 'E' then
      let (negative, rest) :=
        match rest with
        | '-' :: rest => (true, rest)
        | '+' :: rest => (false, rest)
        | _ => (false, rest)
      match digits rest with
      | ([], _) => none
      | (ds, rest) =>
        some (some (if negative then -(natOfDigits ds : Int) else natOfDigits ds), rest)
    else some (none, c :: rest)
  | [] => some (none, [])

def number (cs : List Char) : Option (Json × List Char) := do
  let (negative, body) :=
    match cs with
    | '-' :: rest => (true, rest)
    | _ => (false, cs)
  let (whole, rest) ← wholePart body
  let (fraction, rest) ← fractionPart rest
  let (exponent, rest) ← exponentPart rest
  let n := natOfDigits whole
  if fraction.isEmpty && exponent.isNone then
    if negative && 0 < n && n ≤ 9223372036854775808 then return (.integer (-n), rest)
    if !negative && n < 18446744073709551616 then return (.integer n, rest)
  if isFinite (whole ++ fraction) (exponent.getD 0 - fraction.length) then
    some (.decimal (String.ofList (cs.take (cs.length - rest.length))), rest)
  else some (.unreadable, rest)

/-- The rest of a word whose first letter is read. -/
def word (letters : List Char) (value : Json) (cs : List Char) : Option (Json × List Char) :=
  if letters.isPrefixOf cs then some (value, cs.drop letters.length) else none

def orUnreadable (ok : Bool) (v : Json) : Json := if ok then v else .unreadable

mutual

def value : Nat → Nat → List Char → Option (Json × List Char)
  | 0, _, _ => none
  | fuel + 1, depth, cs =>
    match cs with
    | 'n' :: rest => word "ull".toList .null rest
    | 't' :: rest => word "rue".toList (.bool true) rest
    | 'f' :: rest => word "alse".toList (.bool false) rest
    | '"' :: rest => do
      let (s, rest) ← stringRest fuel rest [] true
      some (s.elim .unreadable .string, rest)
    | '[' :: rest =>
      match skipBlank rest with
      | ']' :: rest => some (orUnreadable (depth < maxDepth) (.array []), rest)
      | rest => do
        let (vs, rest) ← elements fuel (depth + 1) rest []
        some (orUnreadable (depth < maxDepth) (.array vs), rest)
    | '\x7b' :: rest =>
      match skipBlank rest with
      | '\x7d' :: rest => some (orUnreadable (depth < maxDepth) (.object []), rest)
      | rest => do
        let (ms, ok, rest) ← members fuel (depth + 1) rest [] true
        some (orUnreadable (ok && depth < maxDepth) (.object ms), rest)
    | _ => number cs

/-- The elements of an array up to its closing bracket, at least one. -/
def elements : Nat → Nat → List Char → List Json → Option (List Json × List Char)
  | 0, _, _, _ => none
  | fuel + 1, depth, cs, done => do
    let (v, rest) ← value fuel depth cs
    match skipBlank rest with
    | ',' :: rest => elements fuel depth (skipBlank rest) (v :: done)
    | ']' :: rest => some ((v :: done).reverse, rest)
    | _ => none

/-- The members of an object up to its closing brace, at least one, and whether every name is a
string. -/
def members : Nat → Nat → List Char → List (String × Json) → Bool →
    Option (List (String × Json) × Bool × List Char)
  | 0, _, _, _, _ => none
  | fuel + 1, depth, cs, done, ok => do
    match cs with
    | '"' :: rest =>
      let (name, rest) ← stringRest fuel rest [] true
      match skipBlank rest with
      | ':' :: rest =>
        let (v, rest) ← value fuel depth (skipBlank rest)
        let done := (name.getD "", v) :: done
        let ok := ok && name.isSome
        match skipBlank rest with
        | ',' :: rest => members fuel depth (skipBlank rest) done ok
        | '\x7d' :: rest => some (done.reverse, ok, rest)
        | _ => none
      | _ => none
    | _ => none

end

end Reader

/-- The value that a text is. Each step of the reader takes a character, so the text's length
bounds them. -/
def parse? (text : String) : Option Json :=
  let cs := text.toList
  match Reader.value (cs.length + 1) 0 (Reader.skipBlank cs) with
  | some (v, rest) => if (Reader.skipBlank rest).isEmpty then some v else none
  | none => none

end GrammarTables.Json
