import GrammarTables.Proofs.Flattening
import GrammarTables.Proofs.Strongest

/-!
# What the blocks around a symbol say

A symbol of a choice-free body stands at a place, which is told by what is around it: the members of
sequences before and behind it, and blocks. The steps of the production are the symbols in order,
and each takes what the innermost block around its place says. The last step of a block that does
not stand at the end competes with what follows the block, so it takes what is said outside of the
outermost such block.
-/

namespace GrammarTables.Body

/-- What is around a place: members of a sequence before and behind it, or a block. -/
inductive Frame where
  | member (before after : List Body)
  | block (attrs : Attributes)

/-- A place in a body, by the frames around it from the outside in. -/
abbrev Place := List Frame

namespace Place

variable {α : Type} {get : Attributes → Option α} {p outer inner : Place} {attrs : Attributes}
  {s : Symbol}

/-- The body that has the given one at the place. -/
def fill : Place → Body → Body
  | [], b => b
  | .member ms ms' :: inner, b => .seq (ms ++ fill inner b :: ms')
  | .block attrs :: inner, b => .attr attrs (fill inner b)

/-- The symbols before the place. -/
def before : Place → List Symbol
  | [] => []
  | .member ms _ :: inner => spelledAll ms ++ before inner
  | .block _ :: inner => before inner

/-- The symbols behind the place. -/
def after : Place → List Symbol
  | [] => []
  | .member _ ms' :: inner => after inner ++ spelledAll ms'
  | .block _ :: inner => after inner

/-- Whether the place is in the last member of every sequence around it. -/
def atEnd : Place → Bool
  | [] => true
  | .member _ ms' :: inner => ms'.isEmpty && atEnd inner
  | .block _ :: inner => atEnd inner

/-- What the innermost block says that says anything. -/
def innermost (get : Attributes → Option α) : Place → Option α
  | [] => none
  | .member _ _ :: inner => innermost get inner
  | .block attrs :: inner => innermost get inner <|> get attrs

/-- The step at a place `inner` of a block at a place `outer` defers to what is outside: the block
says something and is not at the end, and the step is its last one. -/
structure Defers (get : Attributes → Option α) (outer : Place) (attrs : Attributes)
    (inner : Place) : Prop where
  isSome : (get attrs).isSome = true
  not_atEnd : outer.atEnd = false
  last : inner.after = []

/-- What the blocks around a place give to the step there: the innermost value, or the one outside
of the outermost block where the step defers. -/
structure Takes (get : Attributes → Option α) (p : Place) (v : Option α) : Prop where
  inside : (∀ outer attrs inner, p = outer ++ .block attrs :: inner →
    ¬ Defers get outer attrs inner) → v = p.innermost get
  outside : ∀ outer attrs inner, p = outer ++ .block attrs :: inner → Defers get outer attrs inner →
    (∀ outer' attrs' inner', outer = outer' ++ .block attrs' :: inner' →
      ¬ Defers get outer' attrs' (inner' ++ .block attrs :: inner)) → v = innermost get outer

@[simp] theorem spelledAll_append (ms ms' : List Body) :
    spelledAll (ms ++ ms') = spelledAll ms ++ spelledAll ms' := by
  induction ms with
  | nil => rfl
  | cons m ms ih => simp [spelledAll, ih]

theorem spelled_fill (p : Place) (s : Symbol) :
    spelled (p.fill (.symbol s)) = p.before ++ s :: p.after := by
  induction p with
  | nil => rfl
  | cons f p ih => cases f <;> simp [fill, before, after, spelled, spelledAll, ih]

@[simp] theorem atEnd_append (p q : Place) : atEnd (p ++ q) = (p.atEnd && q.atEnd) := by
  induction p with
  | nil => rfl
  | cons f p ih => cases f <;> simp [atEnd, ih, Bool.and_assoc]

@[simp] theorem innermost_append (p q : Place) :
    innermost get (p ++ q) = (q.innermost get <|> p.innermost get) := by
  induction p with
  | nil => simp [innermost]
  | cons f p ih => cases f <;> simp [innermost, ih, Option.or_assoc]

section Given

/-- What a place is given from the outside in: a block where the step defers gives what is around
it, and any other one passes on what it says. -/
def given (get : Attributes → Option α) (around : Option α) (last : Bool) : Place → Option α
  | [] => around
  | .member _ ms' :: inner => given get around (last && ms'.isEmpty) inner
  | .block attrs :: inner =>
    if (get attrs).isSome && !last && (after inner).isEmpty then around
    else given get (get attrs <|> around) last inner

theorem given_block_of_not_defers (h : ¬ Defers get outer attrs inner) :
    given get (innermost get outer) outer.atEnd (.block attrs :: inner) =
      given get (innermost get (outer ++ [.block attrs])) (atEnd (outer ++ [.block attrs]))
        inner := by
  have hdefers : ((get attrs).isSome && !outer.atEnd && inner.after.isEmpty) = false := by
    rw [Bool.eq_false_iff]
    intro hall
    simp only [Bool.and_eq_true, Bool.not_eq_true', List.isEmpty_iff] at hall
    exact h ⟨hall.1.1, hall.1.2, hall.2⟩
  simp [given, hdefers, innermost, atEnd]

theorem given_member (outer : Place) (ms ms' : List Body) :
    given get (innermost get outer) outer.atEnd (.member ms ms' :: inner) =
      given get (innermost get (outer ++ [.member ms ms'])) (atEnd (outer ++ [.member ms ms']))
        inner := by
  simp [given, innermost, atEnd]

/-- Where no block defers, the innermost value is given. -/
theorem given_of_not_defers (around : Place) (h : ∀ outer attrs inner,
    p = outer ++ .block attrs :: inner → ¬ Defers get (around ++ outer) attrs inner) :
    given get (innermost get around) around.atEnd p = innermost get (around ++ p) := by
  induction p generalizing around with
  | nil => simp [given]
  | cons f p ih =>
    have hrest := ih (around ++ [f]) fun outer attrs inner hp => by
      simpa using h (f :: outer) attrs inner (by simp [hp])
    cases f with
    | member ms ms' => rw [given_member, hrest, List.append_assoc, List.singleton_append]
    | block attrs =>
      have hblock : ¬ Defers get around attrs p := by simpa using h [] attrs p rfl
      rw [given_block_of_not_defers hblock, hrest, List.append_assoc, List.singleton_append]

/-- The outermost block that defers gives what is said around it. -/
theorem given_of_defers (around : Place) (hy : Defers get (around ++ outer) attrs inner)
    (h : ∀ outer' attrs' inner', outer = outer' ++ .block attrs' :: inner' →
      ¬ Defers get (around ++ outer') attrs' (inner' ++ .block attrs :: inner)) :
    given get (innermost get around) around.atEnd (outer ++ .block attrs :: inner) =
      innermost get (around ++ outer) := by
  induction outer generalizing around with
  | nil =>
    obtain ⟨hsome, hend, hlast⟩ := hy
    simp only [List.append_nil] at hend
    simp [given, hsome, hend, hlast]
  | cons f outer ih =>
    have hrest := ih (around ++ [f]) (by simpa using hy) fun outer' attrs' inner' ho => by
      simpa using h (f :: outer') attrs' inner' (by simp [ho])
    rw [List.append_assoc, List.singleton_append] at hrest
    cases f with
    | member ms ms' => rw [List.cons_append, given_member, hrest]
    | block attrs' =>
      have hblock := h [] attrs' outer rfl
      rw [List.append_nil] at hblock
      rw [List.cons_append, given_block_of_not_defers hblock, hrest]

theorem takes_given (get : Attributes → Option α) (p : Place) :
    Takes get p (given get none true p) where
  inside h := given_of_not_defers [] h
  outside outer attrs inner hp hy h := by
    subst hp
    exact given_of_defers [] hy h

end Given

end Place

open Place

variable {scope : Scope} {last : Bool} {b : Body} {n : Nat}

theorem getElem?_modifyLast {α : Type} (f : α → α) (l : List α) (i : Nat) :
    (modifyLast f l)[i]? = if i + 1 = l.length then l[i]?.map f else l[i]? := by
  fun_induction modifyLast f l generalizing i with
  | case1 => simp
  | case2 a => cases i <;> simp
  | case3 a b rest ih => cases i <;> simp [ih]

@[simp] theorem length_steps (scope : Scope) (last : Bool) (b : Body) :
    (steps scope last b).length = b.spelled.length := by
  rw [← symbols_steps scope last b, List.length_map]

/-- Before the last member of a sequence no member is at the end. -/
theorem exists_stepsAll_append (scope : Scope) (last : Bool) (b : Body) (ms ms' : List Body) :
    ∃ front, front.length = (spelledAll ms).length ∧ stepsAll scope last (ms ++ b :: ms') =
      front ++ (steps scope (last && ms'.isEmpty) b ++ stepsAll scope last ms') := by
  induction ms with
  | nil => exact ⟨[], rfl, rfl⟩
  | cons m ms ih =>
    obtain ⟨front, hlength, hsteps⟩ := ih
    refine ⟨steps scope (last && (ms ++ b :: ms').isEmpty) m ++ front, ?_, ?_⟩
    · simp [spelledAll, hlength]
    · simp [stepsAll, hsteps]

/-- The step of the symbol at a place has what the blocks around it give. -/
theorem getElem?_steps_fill (scope : Scope) (last : Bool) (p : Place) (s : Symbol) :
    (steps scope last (p.fill (.symbol s)))[p.before.length]? = some
      { symbol := s
        precedence := (p.given Attributes.precedence scope.precedence last).getD 0
        associativity := p.given Attributes.associativity scope.associativity last
        field := p.innermost Attributes.field <|> scope.field } := by
  induction p generalizing scope last with
  | nil => simp [fill, before, given, innermost, steps, Scope.step]
  | cons f p ih =>
    cases f with
    | member ms ms' =>
      obtain ⟨front, hlength, hsteps⟩ :=
        exists_stepsAll_append scope last (fill p (.symbol s)) ms ms'
      have hlt : (before p).length <
          (steps scope (last && ms'.isEmpty) (fill p (.symbol s))).length := by
        rw [length_steps, spelled_fill, List.length_append, List.length_cons]
        omega
      rw [fill, steps, hsteps, before, List.length_append, ← hlength,
        List.getElem?_append_right (by omega), Nat.add_sub_cancel_left,
        List.getElem?_append_left hlt, ih]
      rfl
    | block attrs =>
      have hinner := ih (scope.within attrs) last
      have hlength : (before p).length + 1 = (steps (scope.within attrs) last
          (fill p (.symbol s))).length ↔ after p = [] := by
        rw [length_steps, spelled_fill, List.length_append, List.length_cons,
          ← List.length_eq_zero_iff]
        omega
      simp only [fill, before, steps, given, innermost]
      cases last with
      | true =>
        rw [if_pos rfl, hinner]
        simp [Scope.within, Option.or_assoc]
      | false =>
        rw [if_neg Bool.false_ne_true, getElem?_modifyLast, hinner]
        by_cases hafter : after p = []
        · obtain ⟨precedence, associativity, dynamic, field⟩ := attrs
          rw [if_pos (hlength.2 hafter)]
          cases precedence <;> cases associativity <;>
            simp [hafter, Scope.close, Scope.within, Option.or_assoc]
        · rw [if_neg (hafter ∘ hlength.1)]
          simp [hafter, Scope.within, Option.or_assoc]

/-- The number of a symbol of members is that of a symbol of one of them. -/
theorem exists_member {ms : List Body} (hn : n < (spelledAll ms).length) :
    ∃ front m rest k, ms = front ++ m :: rest ∧ k < m.spelled.length ∧
      (spelledAll front).length + k = n := by
  induction ms generalizing n with
  | nil => simp [spelledAll] at hn
  | cons m ms ih =>
    rw [spelledAll, List.length_append] at hn
    by_cases hlt : n < m.spelled.length
    · exact ⟨[], m, ms, n, rfl, hlt, Nat.zero_add n⟩
    · obtain ⟨front, m', rest, k, rfl, hk, hn'⟩ := ih (n := n - m.spelled.length) (by omega)
      refine ⟨m :: front, m', rest, k, rfl, hk, ?_⟩
      rw [spelledAll, List.length_append]
      omega

/-- Every symbol of a choice-free body stands at a place. -/
theorem exists_place (hb : b.Straight) (hn : n < b.spelled.length) :
    ∃ p s, fill p (.symbol s) = b ∧ (before p).length = n := by
  induction hb generalizing n with
  | blank => simp [spelled] at hn
  | symbol s =>
    obtain rfl : n = 0 := by simpa [spelled] using hn
    exact ⟨[], s, rfl, rfl⟩
  | seq _ ih =>
    obtain ⟨front, m, rest, k, rfl, hk, rfl⟩ := exists_member hn
    obtain ⟨p, s, rfl, rfl⟩ := ih m (by simp) hk
    exact ⟨.member front rest :: p, s, rfl, by simp [before]⟩
  | @attr attrs _ _ ih =>
    obtain ⟨p, s, rfl, rfl⟩ := ih hn
    exact ⟨.block attrs :: p, s, rfl, rfl⟩

/-- The steps of a choice-free body's production are its symbols in order, each of which stands at a
place. The field of a step is that of the innermost field block around its place. Its precedence is
that of the innermost precedence block, unless it is the last step of such a block that is not at
the end: then it is that of the innermost one outside of the outermost of these, or 0. The same goes
for its associativity. -/
theorem steps_production (hb : b.Straight) :
    (production b).symbols = b.spelled ∧
    (∀ n < (production b).steps.length, ∃ p s, fill p (.symbol s) = b ∧ (before p).length = n) ∧
    ∀ p s, fill p (.symbol s) = b → ∃ step, (production b).steps[(before p).length]? = some step ∧
      step.symbol = s ∧ step.field = innermost Attributes.field p ∧
      (∃ v, Takes Attributes.precedence p v ∧ step.precedence = v.getD 0) ∧
      Takes Attributes.associativity p step.associativity := by
  refine ⟨symbols_production b, fun n hn => ?_, ?_⟩
  · exact exists_place hb (by rwa [production, length_steps] at hn)
  · rintro p s rfl
    refine ⟨_, getElem?_steps_fill {} true p s, rfl, ?_, ?_, ?_⟩
    · simp
    · exact ⟨_, takes_given _ p, rfl⟩
    · exact takes_given _ p

/-- Inside of a left-associative block of precedence 1 the last step of a block of precedence 5 that
something follows has precedence 1, and the one before it has 5. -/
theorem steps_production_nested : ∃ b : Body, b.Straight ∧
    (production b).steps.map (fun step => (step.precedence, step.associativity, step.field)) =
      [(1, some .left, some "left"), (5, some .left, none), (1, some .left, none),
        (1, some .left, none)] ∧
    ∃ p s, fill p (.symbol s) = b ∧ ∃ step, (production b).steps[2]? = some step ∧
      Takes Attributes.precedence p (some 1) ∧ step.precedence = 1 := by
  let operand := Body.symbol (.terminal 0)
  let left := Body.attr { field := some "left" } operand
  let signs := [Body.symbol (.terminal 1), .symbol (.terminal 2)]
  let part := Body.attr { precedence := some 5 } (.seq signs)
  let b := Body.attr { precedence := some 1, associativity := some .left }
    (.seq [left, part, operand])
  have hb : b.Straight := by
    refine .attr (.seq fun m hm => ?_)
    simp only [List.mem_cons, List.not_mem_nil, or_false] at hm
    obtain rfl | rfl | rfl := hm
    · exact .attr (.symbol _)
    · refine .attr (.seq fun m hm => ?_)
      simp only [signs, List.mem_cons, List.not_mem_nil, or_false] at hm
      obtain rfl | rfl := hm
      all_goals exact .symbol _
    · exact .symbol _
  let outer : Place :=
    [.block { precedence := some 1, associativity := some .left }, .member [left] [operand]]
  let inner : Place := [.member [.symbol (.terminal 1)] []]
  obtain ⟨step, hstep, -, -, ⟨v, hv, hprecedence⟩, -⟩ := (steps_production hb).2.2
    (outer ++ .block { precedence := some 5 } :: inner) (.terminal 2) rfl
  have hdefers : Defers Attributes.precedence outer { precedence := some 5 } inner :=
    ⟨rfl, rfl, rfl⟩
  -- The block around all of the body is at the end, so nothing defers to what is outside of it.
  have hv' : v = some 1 := hv.outside outer _ inner rfl hdefers fun outer' attrs' inner' ho hy => by
    cases outer' with
    | nil => cases hy.not_atEnd
    | cons f outer' => cases outer' <;> simp [outer] at ho
  subst hv'
  exact ⟨b, hb, by decide, _, _, rfl, step, hstep, hv, hprecedence⟩

end GrammarTables.Body
