import GrammarTables.Proofs.Opening
import Mathlib.Logic.Relation

/-!
# Sentential forms

A sentential form is rewritten by putting a production in the place of its variable. Texts are the
sentential forms without variables, so what is derived by rewriting is what `Derives` says, and what
`Begins` says of a terminal is that it stands first in a sentential form.
-/

namespace GrammarTables.FlatGrammar

/-- A production is put in the place of its variable. -/
inductive Rewrites (g : FlatGrammar) : List Symbol → List Symbol → Prop
  | replace {v : Nat} {p : Production} (before after : List Symbol) :
      p ∈ g.productionsOf (.nonterminal v) →
      Rewrites g (before ++ .nonterminal v :: after) (before ++ (p.symbols ++ after))

/-- Symbols are rewritten to a sentential form in any number of steps. -/
def Yields (g : FlatGrammar) : List Symbol → List Symbol → Prop := Relation.ReflTransGen g.Rewrites

variable {g : FlatGrammar} {ss ts us : List Symbol} {t : Symbol}

theorem Rewrites.append_left (as : List Symbol) (h : g.Rewrites ss ts) :
    g.Rewrites (as ++ ss) (as ++ ts) := by
  obtain ⟨before, after, hp⟩ := h
  simpa using Rewrites.replace (as ++ before) after hp

theorem Rewrites.append_right (as : List Symbol) (h : g.Rewrites ss ts) :
    g.Rewrites (ss ++ as) (ts ++ as) := by
  obtain ⟨before, after, hp⟩ := h
  simpa using Rewrites.replace before (after ++ as) hp

namespace Yields

protected theorem rfl : g.Yields ss ss := .refl

theorem trans (h : g.Yields ss ts) (k : g.Yields ts us) : g.Yields ss us :=
  Relation.ReflTransGen.trans h k

theorem append_left (as : List Symbol) (h : g.Yields ss ts) : g.Yields (as ++ ss) (as ++ ts) := by
  induction h with
  | refl => exact .rfl
  | tail _ hstep ih => exact Relation.ReflTransGen.tail ih (hstep.append_left as)

theorem append_right (as : List Symbol) (h : g.Yields ss ts) : g.Yields (ss ++ as) (ts ++ as) := by
  induction h with
  | refl => exact .rfl
  | tail _ hstep ih => exact Relation.ReflTransGen.tail ih (hstep.append_right as)

/-- A variable is rewritten as one of its productions is. -/
theorem expand {v : Nat} {p : Production} (hp : p ∈ g.productionsOf (.nonterminal v))
    (h : g.Yields (p.symbols ++ ss) ts) : g.Yields (.nonterminal v :: ss) ts :=
  Relation.ReflTransGen.head (.replace [] ss hp) h

end Yields

/-- The texts that symbols derive are the sentential forms without variables. -/
theorem derives_iff_yields {w : List Nat} : g.Derives ss w ↔ g.Yields ss (w.map .terminal) := by
  constructor
  · intro h
    induction h with
    | nil => exact .rfl
    | @token t _ _ _ ih => exact ih.append_left [.terminal t]
    | expand hp _ _ ihp ih =>
      rw [List.map_append]
      exact .expand hp ((ihp.append_right _).trans (ih.append_left _))
  · intro h
    induction h using Relation.ReflTransGen.head_induction_on with
    | refl =>
      induction w with
      | nil => exact .nil
      | cons t w ih => exact .token ih
    | head hstep _ ih =>
      obtain ⟨before, after, hp⟩ := hstep
      obtain ⟨u, v, rfl, hu, hv⟩ := ih.split
      obtain ⟨x, y, rfl, hx, hy⟩ := hv.split
      exact hu.append (.expand hp hx hy)

theorem derives_nil_iff : g.Derives ss [] ↔ g.Yields ss [] := derives_iff_yields (w := [])

/-- The first of symbols that derive the empty text is a variable that derives it. -/
theorem Derives.of_cons_nil {s : Symbol} (h : g.Derives (s :: ss) []) :
    ∃ v, s = .nonterminal v ∧ g.Derives [.nonterminal v] [] ∧ g.Derives ss [] := by
  generalize hw : ([] : List Nat) = w at h
  cases h with
  | token => cases hw
  | @expand v p _ u w hp hu hr =>
    obtain ⟨rfl, rfl⟩ := List.append_eq_nil_iff.1 hw.symm
    exact ⟨v, rfl, .single hp hu, hr⟩

theorem Begins.append_left (h : g.Derives ss []) (k : g.Begins ts t) : g.Begins (ss ++ ts) t := by
  induction ss with
  | nil => exact k
  | cons s ss ih =>
    obtain ⟨v, rfl, hv, hss⟩ := h.of_cons_nil
    exact .past hv (ih hss)

/-- What a list begins with, a first part of it begins with, or that part is empty. -/
theorem begins_append : g.Begins (ss ++ ts) t ↔
    g.Begins ss t ∨ g.Derives ss [] ∧ g.Begins ts t := by
  refine ⟨fun h => ?_, fun h => h.elim (·.append_right ts) fun ⟨hd, hb⟩ => hb.append_left hd⟩
  induction ss with
  | nil => exact .inr ⟨.nil, h⟩
  | cons s ss ih =>
    cases h with
    | here ht => exact .inl (.here ht)
    | inside hp hb => exact .inl (.inside hp hb)
    | past hv hb =>
      rcases ih hb with hb | ⟨hd, hb⟩
      · exact .inl (.past hv hb)
      · exact .inr ⟨hv.append hd, hb⟩

/-- Symbols begin with the terminals that stand first in their sentential forms. -/
theorem begins_iff_yields (ht : t.isTerminal = true) :
    g.Begins ss t ↔ ∃ rest, g.Yields ss (t :: rest) := by
  constructor
  · intro h
    induction h with
    | @here t ss _ => exact ⟨ss, .rfl⟩
    | @inside v p ss t hp _ ih =>
      obtain ⟨rest, h⟩ := ih ht
      exact ⟨rest ++ ss, .expand hp (h.append_right ss)⟩
    | @past v ss t hv _ ih =>
      obtain ⟨rest, h⟩ := ih ht
      exact ⟨rest, ((derives_nil_iff.1 hv).append_right ss).trans h⟩
  · rintro ⟨rest, h⟩
    induction h using Relation.ReflTransGen.head_induction_on with
    | refl => exact .here ht
    | head hstep _ ih =>
      obtain ⟨before, after, hp⟩ := hstep
      rcases begins_append.1 ih with hb | ⟨hbefore, hb⟩
      · exact hb.append_right _
      · refine Begins.append_left hbefore ?_
        rcases begins_append.1 hb with hb | ⟨hd, hb⟩
        · exact .inside hp hb
        · exact .past (.single hp hd) hb

end GrammarTables.FlatGrammar
