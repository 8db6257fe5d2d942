import GrammarTables.FlatGrammar

/-!
# Texts of bodies

What bodies yield, given the bodies that variables stand for. Texts are lists of token numbers.

A rule, its body, the body once repetitions are variables and the productions of that body are four
forms of the same texts. This is the form in the middle, which each of the others is compared with.
-/

namespace GrammarTables.Body

/-- The texts of a body, given the bodies of variables. -/
inductive Yields (ds : List Definition) : Body → List Nat → Prop
  | blank : Yields ds .blank []
  | token (t : Nat) : Yields ds (.symbol (.terminal t)) [t]
  | reference {v : Nat} {d : Definition} {w : List Nat} : ds[v]? = some d → Yields ds d.body w →
      Yields ds (.symbol (.nonterminal v)) w
  | seqNil : Yields ds (.seq []) []
  | seqCons {b : Body} {bs : List Body} {u w : List Nat} : Yields ds b u → Yields ds (.seq bs) w →
      Yields ds (.seq (b :: bs)) (u ++ w)
  | choice {b : Body} {bs : List Body} {w : List Nat} : b ∈ bs → Yields ds b w →
      Yields ds (.choice bs) w
  | once {b : Body} {w : List Nat} : Yields ds b w → Yields ds (.repeat1 b) w
  | more {b : Body} {u w : List Nat} : Yields ds b u → Yields ds (.repeat1 b) w →
      Yields ds (.repeat1 b) (u ++ w)
  | attr {attrs : Attributes} {b : Body} {w : List Nat} : Yields ds b w →
      Yields ds (.attr attrs b) w

/-- The symbols of a body are as given, and it has repetitions only if it may. -/
inductive Within (P : Symbol → Prop) (repeats : Prop) : Body → Prop
  | blank : Within P repeats .blank
  | symbol {s : Symbol} : P s → Within P repeats (.symbol s)
  | seqNil : Within P repeats (.seq [])
  | seqCons {b : Body} {bs : List Body} : Within P repeats b → Within P repeats (.seq bs) →
      Within P repeats (.seq (b :: bs))
  | choiceNil : Within P repeats (.choice [])
  | choiceCons {b : Body} {bs : List Body} : Within P repeats b → Within P repeats (.choice bs) →
      Within P repeats (.choice (b :: bs))
  | repeat1 {b : Body} : repeats → Within P repeats b → Within P repeats (.repeat1 b)
  | attr {attrs : Attributes} {b : Body} : Within P repeats b → Within P repeats (.attr attrs b)

variable {ds : List Definition} {P : Symbol → Prop} {repeats : Prop}

theorem Within.member {bs : List Body} (h : Within P repeats (.choice bs)) :
    ∀ b ∈ bs, Within P repeats b := by
  induction bs with
  | nil => simp
  | cons b bs ih =>
    cases h with
    | choiceCons hb hbs => exact List.forall_mem_cons.2 ⟨hb, ih hbs⟩

/-- One or more and then one or more are one or more. -/
theorem Yields.append {b : Body} {u w : List Nat} (hu : Yields ds (.repeat1 b) u)
    (hw : Yields ds (.repeat1 b) w) : Yields ds (.repeat1 b) (u ++ w) := by
  generalize hc : Body.repeat1 b = c at hu
  induction hu with
  | once hu =>
    cases hc
    exact .more hu hw
  | more hu _ _ ih =>
    cases hc
    rw [List.append_assoc]
    exact .more hu (ih rfl)
  | _ => cases hc

end GrammarTables.Body
