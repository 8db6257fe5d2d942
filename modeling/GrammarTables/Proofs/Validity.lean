import GrammarTables.Proofs.Kernel

/-!
# Valid items

An item with a lookahead is valid for a list of symbols when the list can be on the stack while the
item is being worked on, in a text that can still be completed. If symbols and the rest of a text
can be reduced to the start symbol, then some item is valid for the symbols that goes on with the
first terminal of the rest. This is what makes the lookaheads of the automaton enough.
-/

namespace GrammarTables.FlatGrammar

/-- The terminal that comes next, given the one behind the text. -/
def upcoming (w : List Nat) (u : Symbol) : Symbol :=
  match w with
  | [] => u
  | t :: _ => .terminal t

/-- The terminal that comes next in a text. -/
def lookahead (w : List Nat) : Symbol := upcoming w .eof

@[simp] theorem upcoming_nil (u : Symbol) : upcoming [] u = u := rfl

@[simp] theorem upcoming_cons (t : Nat) (w : List Nat) (u : Symbol) :
    upcoming (t :: w) u = .terminal t := rfl

theorem upcoming_append (v w : List Nat) (u : Symbol) :
    upcoming (v ++ w) u = upcoming v (upcoming w u) := by
  cases v <;> rfl

variable {g : FlatGrammar}

/-- Where symbols stand before the terminal `u`, a text can be derived of them that has the terminal
`x` come next. -/
def Next (g : FlatGrammar) (ss : List Symbol) (u x : Symbol) : Prop :=
  ∃ w, g.Derives ss w ∧ x = upcoming w u

theorem Derives.begins {ss : List Symbol} {w : List Nat} (h : g.Derives ss w) {t : Nat}
    {w' : List Nat} (hw : w = t :: w') : g.Begins ss (.terminal t) := by
  induction h generalizing w' with
  | nil => cases hw
  | token _ _ =>
    cases hw
    exact .here rfl
  | @expand v p ss u w hp hu _ ihu ihw =>
    cases u with
    | nil => exact .past (.single hp hu) (ihw hw)
    | cons a u =>
      obtain ⟨rfl, -⟩ := List.cons.inj hw
      exact .inside hp (ihu rfl)

theorem Next.ahead {ss : List Symbol} {u x : Symbol} (h : g.Next ss u x) : g.Ahead ss u x := by
  obtain ⟨w, hw, rfl⟩ := h
  cases w with
  | nil => exact .inr ⟨hw, rfl⟩
  | cons t w => exact .inl (hw.begins rfl)

@[simp] theorem next_nil {u : Symbol} : g.Next [] u u := ⟨[], .nil, rfl⟩

theorem Next.terminal {ss : List Symbol} {u x : Symbol} (h : g.Next ss u x) (t : Nat) :
    g.Next (.terminal t :: ss) u (.terminal t) := by
  obtain ⟨w, hw, -⟩ := h
  exact ⟨t :: w, .token hw, rfl⟩

theorem Next.expand {v : Nat} {p : Production} (hp : p ∈ g.productionsOf (.nonterminal v))
    {ss : List Symbol} {u t x : Symbol} (ht : g.Next ss u t) (hx : g.Next p.symbols t x) :
    g.Next (.nonterminal v :: ss) u x := by
  obtain ⟨w, hw, rfl⟩ := ht
  obtain ⟨w', hw', rfl⟩ := hx
  exact ⟨w' ++ w, .expand hp hw' hw, (upcoming_append w' w u).symm⟩

/-- An item with a lookahead is valid for the symbols on a stack. -/
inductive Valid (g : FlatGrammar) : List Symbol → Item → Symbol → Prop
  | initial : Valid g [] .initial .eof
  | opened {α : List Symbol} {i : Item} {u t : Symbol} {v n : Nat} {ss : List Symbol} :
      Valid g α i u → i.after g = .nonterminal v :: ss →
      n < (g.productionsOf (.nonterminal v)).length → g.Next ss u t →
      Valid g α ⟨.nonterminal v, n, 0⟩ t
  | moved {α : List Symbol} {i : Item} {u s : Symbol} {ss : List Symbol} :
      Valid g α i u → i.after g = s :: ss → Valid g (α ++ [s]) i.advance u

/-- With the symbols on the stack, the terminal can come next in a text that can be completed. -/
def Viable (g : FlatGrammar) (α : List Symbol) (x : Symbol) : Prop :=
  ∃ i u, g.Valid α i u ∧ g.Next (i.after g) u x

/-- Before the last symbol came onto the stack an item was valid that had it after its dot. -/
theorem Viable.back {α : List Symbol} {s x : Symbol} (h : g.Viable (α ++ [s]) x) :
    ∃ i u ss, g.Valid α i u ∧ i.after g = s :: ss ∧ g.Next ss u x := by
  obtain ⟨i, u, hv, hx⟩ := h
  generalize hβ : α ++ [s] = β at hv
  induction hv generalizing x with
  | initial => simp at hβ
  | @opened β i u t v n ss hi hss hn ht ih =>
    refine ih ?_ hβ
    rw [hss]
    rw [Item.after_start hn] at hx
    exact ht.expand (List.getElem_mem hn) hx
  | @moved β i u s' ss hi hss ih =>
    obtain ⟨rfl, hs⟩ := List.append_inj' hβ rfl
    obtain rfl : s = s' := by simpa using hs
    rw [Item.after_advance hss] at hx
    exact ⟨i, u, ss, hi, hss, hx⟩

/-- An item that goes on with a terminal leads to one that is complete before it or has it after
its dot. -/
theorem Valid.descend {α : List Symbol} {i : Item} {u x : Symbol} (h : g.Valid α i u)
    (hx : g.Next (i.after g) u x) :
    ∃ j t, g.Valid α j t ∧ ((j.after g = [] ∧ t = x) ∨ ∃ ss, j.after g = x :: ss) := by
  obtain ⟨w, hw, rfl⟩ := hx
  generalize hss : i.after g = ss at hw
  induction hw generalizing i u with
  | nil => exact ⟨i, u, h, .inl ⟨hss, rfl⟩⟩
  | token _ _ => exact ⟨i, u, h, .inr ⟨_, hss⟩⟩
  | @expand v p ss w w' hp _ hw' ihw _ =>
    obtain ⟨n, hn, rfl⟩ := List.mem_iff_getElem.1 hp
    rw [upcoming_append]
    exact ihw (.opened h hss hn ⟨w', hw', rfl⟩) (Item.after_start hn)

theorem Valid.moves {α : List Symbol} {i : Item} {u : Symbol} (h : g.Valid α i u)
    {ss rest : List Symbol} (hss : i.after g = ss ++ rest) :
    g.Valid (α ++ ss) { i with dot := i.dot + ss.length } u := by
  induction ss generalizing α i with
  | nil => simpa using h
  | cons s ss ih =>
    have hadv := Item.after_advance (show i.after g = s :: (ss ++ rest) from hss)
    have := ih (h.moved hss) hadv
    simpa [Item.advance, Nat.add_assoc, Nat.add_comm 1] using this

/-- Where a variable can come onto the stack, its productions can be worked off before. -/
theorem Viable.valid_production {α : List Symbol} {v n : Nat} {x : Symbol}
    (h : g.Viable (α ++ [.nonterminal v]) x) (hn : n < (g.productionsOf (.nonterminal v)).length) :
    g.Valid (α ++ (g.productionsOf (.nonterminal v))[n].symbols)
      ⟨.nonterminal v, n, (g.productionsOf (.nonterminal v))[n].steps.length⟩ x := by
  obtain ⟨i, u, ss, hi, hss, hx⟩ := h.back
  have hafter : Item.after g ⟨.nonterminal v, n, 0⟩ =
      (g.productionsOf (.nonterminal v))[n].symbols ++ [] := by
    rw [Item.after_start hn, List.append_nil]
  simpa [Production.symbols] using (hi.opened hss hn hx).moves hafter

/-- The item at the end of a production is complete. -/
theorem after_end {v n : Nat} (hn : n < (g.productionsOf (.nonterminal v)).length) :
    Item.after g ⟨.nonterminal v, n, (g.productionsOf (.nonterminal v))[n].steps.length⟩ = [] := by
  simp [Item.after, Item.rest, Item.productionIn_nonterminal hn]

/-- The symbols of a text that can be completed are viable before its rest. -/
theorem Completes.viable {α : List Symbol} {y : List Nat} (h : g.Completes α y) :
    g.Viable α (lookahead y) := by
  induction h with
  | done => exact ⟨_, _, Valid.initial.moved rfl, next_nil⟩
  | @shift α t y _ ih =>
    obtain ⟨i, u, ss, hi, hss, hx⟩ := ih.back
    exact ⟨i, u, hi, hss ▸ hx.terminal t⟩
  | @reduce α v p y hp _ ih =>
    obtain ⟨n, hn, rfl⟩ := List.mem_iff_getElem.1 hp
    refine ⟨_, _, ih.valid_production hn, ?_⟩
    rw [after_end hn]
    exact next_nil

end GrammarTables.FlatGrammar
