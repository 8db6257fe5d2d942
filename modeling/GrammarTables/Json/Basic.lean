/-!
# JSON values

Objects keep their members in the order of the text, repeated names included. A text may hold
something that has the shape of a value and yet is none: a string with half of a surrogate pair, a
number beyond every floating-point number, nesting past the limit. Such a place is `unreadable`. It
does no harm where the value is passed over.
-/

namespace GrammarTables

inductive Json where
  | null
  | bool (value : Bool)
  /-- A whole number of 64 bits, signed or not. -/
  | integer (value : Int)
  /-- Any other number, by its text. -/
  | decimal (text : String)
  | string (value : String)
  | array (elements : List Json)
  | object (members : List (String × Json))
  | unreadable
  deriving Inhabited

namespace Json

mutual

/-- Whether the value is a value throughout. -/
def readable : Json → Bool
  | .unreadable => false
  | .array elements => readableElements elements
  | .object members => readableMembers members
  | _ => true

def readableElements : List Json → Bool
  | [] => true
  | v :: rest => v.readable && readableElements rest

def readableMembers : List (String × Json) → Bool
  | [] => true
  | (_, v) :: rest => v.readable && readableMembers rest

end

/-- Puts a member in place of the one of its name, or last. -/
def put (name : String) (value : Json) : List (String × Json) → List (String × Json)
  | [] => [(name, value)]
  | (n, v) :: rest => if n = name then (n, value) :: rest else (n, v) :: put name value rest

mutual

/-- Keeps of members of one name the last value, in the first one's place. -/
def lastWins : Json → Json
  | .array elements => .array (lastWinsElements elements)
  | .object members => .object (lastWinsMembers members [])
  | v => v

def lastWinsElements : List Json → List Json
  | [] => []
  | v :: rest => v.lastWins :: lastWinsElements rest

def lastWinsMembers : List (String × Json) → List (String × Json) → List (String × Json)
  | [], done => done
  | (n, v) :: rest, done => lastWinsMembers rest (put n v.lastWins done)

end

/-- The first member of a name. -/
def member? (v : Json) (name : String) : Option Json :=
  match v with
  | .object members => members.lookup name
  | _ => none

def string? : Json → Option String
  | .string s => some s
  | _ => none

def bool? : Json → Option Bool
  | .bool b => some b
  | _ => none

def integer? : Json → Option Int
  | .integer n => some n
  | _ => none

def array? : Json → Option (List Json)
  | .array vs => some vs
  | _ => none

def object? : Json → Option (List (String × Json))
  | .object ms => some ms
  | _ => none

/-- The elements of an array, each read by `f`. -/
def list? {α : Type} (f : Json → Option α) (v : Json) : Option (List α) := do
  (← v.array?).mapM f

end Json

end GrammarTables
