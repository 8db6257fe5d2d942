/-!
# Rules

The rule trees of a grammar file. A rule is a text, a pattern, a reference, a sequence, a choice, or
a rule under a wrapper that repeats it, names it, ranks it or makes a token of it.
-/

namespace GrammarTables

inductive Associativity where
  | left
  | right
  deriving DecidableEq, Repr

/-- A precedence is a number or a name for one. -/
inductive Precedence where
  | integer (value : Int)
  | name (value : String)
  deriving DecidableEq, Repr

inductive Wrapper where
  /-- Any number of times. -/
  | repeat0
  /-- Once or more. -/
  | repeat1
  | field (name : String)
  | prec (associativity : Option Associativity) (value : Precedence)
  /-- A precedence that is weighed while parsing. -/
  | dynamic (value : Int)
  | token (immediate : Bool)
  | renamed (named : Bool) (value : String)
  | reserved (context : String)
  deriving DecidableEq, Repr

inductive Rule where
  | blank
  | string (value : String)
  | pattern (value : String) (flags : Option String)
  | symbol (name : String)
  | seq (members : List Rule)
  | choice (members : List Rule)
  | wrap (wrapper : Wrapper) (content : Rule)
  deriving Inhabited, Repr

namespace Rule

mutual

def beq : Rule → Rule → Bool
  | .blank, .blank => true
  | .string a, .string b => a == b
  | .pattern a f, .pattern b g => a == b && f == g
  | .symbol a, .symbol b => a == b
  | .seq as, .seq bs => beqMembers as bs
  | .choice as, .choice bs => beqMembers as bs
  | .wrap v a, .wrap w b => v == w && beq a b
  | _, _ => false

def beqMembers : List Rule → List Rule → Bool
  | [], [] => true
  | a :: as, b :: bs => beq a b && beqMembers as bs
  | _, _ => false

end

mutual

theorem beq_refl : (a : Rule) → beq a a = true
  | .blank => rfl
  | .string _ => by simp [beq]
  | .pattern _ _ => by simp [beq]
  | .symbol _ => by simp [beq]
  | .seq as => by simp [beq, beqMembers_refl as]
  | .choice as => by simp [beq, beqMembers_refl as]
  | .wrap _ a => by simp [beq, beq_refl a]

theorem beqMembers_refl : (as : List Rule) → beqMembers as as = true
  | [] => rfl
  | a :: as => by simp [beqMembers, beq_refl a, beqMembers_refl as]

end

mutual

theorem eq_of_beq : (a b : Rule) → beq a b = true → a = b
  | .blank, b, h => by cases b <;> simp_all [beq]
  | .string _, b, h => by cases b <;> simp_all [beq]
  | .pattern _ _, b, h => by cases b <;> simp_all [beq]
  | .symbol _, b, h => by cases b <;> simp_all [beq]
  | .seq as, b, h => by
    cases b <;> simp only [beq, Bool.false_eq_true] at h
    exact congrArg seq (eq_of_beqMembers as _ h)
  | .choice as, b, h => by
    cases b <;> simp only [beq, Bool.false_eq_true] at h
    exact congrArg choice (eq_of_beqMembers as _ h)
  | .wrap v a, b, h => by
    cases b <;> simp only [beq, Bool.false_eq_true, Bool.and_eq_true, beq_iff_eq] at h
    exact h.1 ▸ congrArg (wrap v) (eq_of_beq a _ h.2)

theorem eq_of_beqMembers : (as bs : List Rule) → beqMembers as bs = true → as = bs
  | [], bs, h => by cases bs <;> simp_all [beqMembers]
  | a :: as, bs, h => by
    cases bs <;> simp only [beqMembers, Bool.false_eq_true, Bool.and_eq_true] at h
    rw [eq_of_beq a _ h.1, eq_of_beqMembers as _ h.2]

end

instance : DecidableEq Rule := fun a b =>
  if h : beq a b = true then isTrue (eq_of_beq a b h)
  else isFalse fun e => h (e ▸ beq_refl a)

/-- A rule whose whole body is lexical is a token named after the rule. -/
def isToken : Rule → Bool
  | .string _ => true
  | .pattern _ _ => true
  | .wrap (.token _) _ => true
  | _ => false

def symbolName? : Rule → Option String
  | .symbol name => some name
  | _ => none

end Rule

end GrammarTables
