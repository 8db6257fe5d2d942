/-!
# Ascending lists

Sets as lists that ascend strictly in the order of their members.
-/

namespace GrammarTables.Ordered

variable {α : Type} [Ord α]

/-- The list with a member put in its place; a member that is there stays once. -/
def insert (a : α) : List α → List α
  | [] => [a]
  | b :: rest =>
    match compare a b with
    | .lt => a :: b :: rest
    | .eq => b :: rest
    | .gt => b :: insert a rest

def ofList (members : List α) : List α := members.foldl (fun s a => insert a s) []

def union (s t : List α) : List α := t.foldl (fun s a => insert a s) s

variable {β : Type}

/-- The pairs with the value of a key changed, or set from nothing, in its place. -/
def update (key : α) (change : Option β → β) : List (α × β) → List (α × β)
  | [] => [(key, change none)]
  | (k, v) :: rest =>
    match compare key k with
    | .lt => (key, change none) :: (k, v) :: rest
    | .eq => (k, change (some v)) :: rest
    | .gt => (k, v) :: update key change rest

/-- The value of a key. -/
def get? (key : α) : List (α × β) → Option β
  | [] => none
  | (k, v) :: rest => if compare key k = .eq then some v else get? key rest

end GrammarTables.Ordered
