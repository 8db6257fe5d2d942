import GrammarTables.Rule.Basic
import GrammarTables.Symbol

/-!
# Bodies

A body is what a syntax rule says once its tokens and references are symbols.
-/

namespace GrammarTables

/-- What a rule says about a part of its body. -/
structure Attributes where
  precedence : Option Int := none
  associativity : Option Associativity := none
  dynamic : Int := 0
  field : Option String := none
  deriving DecidableEq, Repr

inductive Body where
  | blank
  | symbol (s : Symbol)
  | seq (members : List Body)
  | choice (members : List Body)
  /-- Once or more. -/
  | repeat1 (content : Body)
  | attr (attributes : Attributes) (content : Body)
  deriving Inhabited, Repr

namespace Body

mutual

def beq : Body → Body → Bool
  | .blank, .blank => true
  | .symbol a, .symbol b => a == b
  | .seq as, .seq bs => beqMembers as bs
  | .choice as, .choice bs => beqMembers as bs
  | .repeat1 a, .repeat1 b => beq a b
  | .attr v a, .attr w b => v == w && beq a b
  | _, _ => false

def beqMembers : List Body → List Body → Bool
  | [], [] => true
  | a :: as, b :: bs => beq a b && beqMembers as bs
  | _, _ => false

end

mutual

theorem beq_refl : (a : Body) → beq a a = true
  | .blank => rfl
  | .symbol _ => by simp [beq]
  | .seq as => by simp [beq, beqMembers_refl as]
  | .choice as => by simp [beq, beqMembers_refl as]
  | .repeat1 a => by simp [beq, beq_refl a]
  | .attr _ a => by simp [beq, beq_refl a]

theorem beqMembers_refl : (as : List Body) → beqMembers as as = true
  | [] => rfl
  | a :: as => by simp [beqMembers, beq_refl a, beqMembers_refl as]

end

mutual

theorem eq_of_beq : (a b : Body) → beq a b = true → a = b
  | .blank, b, h => by cases b <;> simp_all [beq]
  | .symbol _, b, h => by cases b <;> simp_all [beq]
  | .seq as, b, h => by
    cases b <;> simp only [beq, Bool.false_eq_true] at h
    exact congrArg seq (eq_of_beqMembers as _ h)
  | .choice as, b, h => by
    cases b <;> simp only [beq, Bool.false_eq_true] at h
    exact congrArg choice (eq_of_beqMembers as _ h)
  | .repeat1 a, b, h => by
    cases b <;> simp only [beq, Bool.false_eq_true] at h
    exact congrArg repeat1 (eq_of_beq a _ h)
  | .attr v a, b, h => by
    cases b <;> simp only [beq, Bool.false_eq_true, Bool.and_eq_true, beq_iff_eq] at h
    exact h.1 ▸ congrArg (attr v) (eq_of_beq a _ h.2)

theorem eq_of_beqMembers : (as bs : List Body) → beqMembers as bs = true → as = bs
  | [], bs, h => by cases bs <;> simp_all [beqMembers]
  | a :: as, bs, h => by
    cases bs <;> simp only [beqMembers, Bool.false_eq_true, Bool.and_eq_true] at h
    rw [eq_of_beq a _ h.1, eq_of_beqMembers as _ h.2]

end

instance : DecidableEq Body := fun a b =>
  if h : beq a b = true then isTrue (eq_of_beq a b h)
  else isFalse fun e => h (e ▸ beq_refl a)

/-- Any number of times. -/
def repeat0 (content : Body) : Body := .choice [.repeat1 content, .blank]

/-- A tree of one or more: two of itself, or the content. -/
def tree (self : Symbol) (content : Body) : Body :=
  .choice [.seq [.symbol self, .symbol self], content]

end Body

end GrammarTables
