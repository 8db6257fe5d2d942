import GrammarTables.FlatGrammar
import Mathlib.Data.List.Forall2

/-!
# Tokens and bodies of rules

The texts of a rule are lists of tokens. A token keeps the number under which it is met first while
more tokens are collected, so a rule can be read with the tokens that are there in the end. Its body
then stands for the rule member by member.
-/

namespace GrammarTables

/-- The number of the token that the token rule of the given name became. -/
def namedToken? (tokens : Array Token) (name : String) : Option Nat :=
  tokens.findIdx? fun t => t.kind.isNamed && t.name == name

/-- The number of the token that a token inside a rule became. -/
def inlineToken? (tokens : Array Token) (rule : Rule) : Option Nat :=
  match TokenBody.ofRule rule with
  | .ok body => tokens.findIdx? fun t => !t.kind.isNamed && t.toTokenBody == body
  | .error _ => none

/-- Whether a wrapper leaves the texts of its content as they are. -/
def Wrapper.isTransparent : Wrapper → Bool
  | .field _ | .prec _ _ | .dynamic _ => true
  | _ => false

/-- The texts of rules, as the least relation that is closed under what the rules say. -/
inductive Grammar.Generates (g : Grammar) (tokens : Array Token) : Rule → List Nat → Prop
  | blank : Generates g tokens .blank []
  | inline {r : Rule} {i : Nat} : r.isToken = true → inlineToken? tokens r = some i →
      Generates g tokens r [i]
  | token {name : String} {rule : Rule} {i : Nat} : g.tokenRule? name = some rule →
      namedToken? tokens name = some i → Generates g tokens (.symbol name) [i]
  | reference {name : String} {r : NamedRule} {w : List Nat} : g.tokenRule? name = none →
      g.syntaxRules.find? (·.name == name) = some r → Generates g tokens r.rule w →
      Generates g tokens (.symbol name) w
  | seqNil : Generates g tokens (.seq []) []
  | seqCons {r : Rule} {rs : List Rule} {u w : List Nat} : Generates g tokens r u →
      Generates g tokens (.seq rs) w → Generates g tokens (.seq (r :: rs)) (u ++ w)
  | choice {r : Rule} {rs : List Rule} {w : List Nat} : r ∈ rs → Generates g tokens r w →
      Generates g tokens (.choice rs) w
  | repeatNone {r : Rule} : Generates g tokens (.wrap .repeat0 r) []
  | repeatMore {r : Rule} {u w : List Nat} : Generates g tokens r u →
      Generates g tokens (.wrap .repeat0 r) w → Generates g tokens (.wrap .repeat0 r) (u ++ w)
  | once {r : Rule} {w : List Nat} : Generates g tokens r w →
      Generates g tokens (.wrap .repeat1 r) w
  | more {r : Rule} {u w : List Nat} : Generates g tokens r u →
      Generates g tokens (.wrap .repeat1 r) w → Generates g tokens (.wrap .repeat1 r) (u ++ w)
  | transparent {wrapper : Wrapper} {r : Rule} {w : List Nat} : wrapper.isTransparent = true →
      Generates g tokens r w → Generates g tokens (.wrap wrapper r) w

/-- A body stands for a rule, given the tokens and the variables of the rules. -/
inductive Grammar.Renders (g : Grammar) (tokens : Array Token) : Rule → Body → Prop
  | blank : Renders g tokens .blank .blank
  | inline {r : Rule} {i : Nat} : r.isToken = true → inlineToken? tokens r = some i →
      Renders g tokens r (.symbol (.terminal i))
  | token {name : String} {rule : Rule} {i : Nat} : g.tokenRule? name = some rule →
      namedToken? tokens name = some i → Renders g tokens (.symbol name) (.symbol (.terminal i))
  | reference {name : String} {v : Nat} : g.tokenRule? name = none →
      g.syntaxRules.findIdx? (·.name == name) = some v →
      Renders g tokens (.symbol name) (.symbol (.nonterminal v))
  | seqNil : Renders g tokens (.seq []) (.seq [])
  | seqCons {r : Rule} {rs : List Rule} {b : Body} {bs : List Body} : Renders g tokens r b →
      Renders g tokens (.seq rs) (.seq bs) → Renders g tokens (.seq (r :: rs)) (.seq (b :: bs))
  | choiceNil : Renders g tokens (.choice []) (.choice [])
  | choiceCons {r : Rule} {rs : List Rule} {b : Body} {bs : List Body} : Renders g tokens r b →
      Renders g tokens (.choice rs) (.choice bs) →
      Renders g tokens (.choice (r :: rs)) (.choice (b :: bs))
  | repeat0 {r : Rule} {b : Body} : Renders g tokens r b →
      Renders g tokens (.wrap .repeat0 r) b.repeat0
  | repeat1 {r : Rule} {b : Body} : Renders g tokens r b →
      Renders g tokens (.wrap .repeat1 r) (.repeat1 b)
  | transparent {wrapper : Wrapper} {attrs : Attributes} {r : Rule} {b : Body} :
      wrapper.isTransparent = true → Renders g tokens r b →
      Renders g tokens (.wrap wrapper r) (.attr attrs b)

/-- The second table has the tokens of the first in their places. -/
def Keeps (tokens tokens' : Array Token) : Prop :=
  ∀ ⦃i : Nat⦄ ⦃t : Token⦄, tokens[i]? = some t → tokens'[i]? = some t

theorem Keeps.refl (tokens : Array Token) : Keeps tokens tokens := fun _ _ h => h

theorem Keeps.trans {a b c : Array Token} (h : Keeps a b) (k : Keeps b c) : Keeps a c :=
  fun _ _ hi => k (h hi)

theorem keeps_push (tokens : Array Token) (t : Token) : Keeps tokens (tokens.push t) := by
  intro i t' hi
  have hlt := (Array.getElem?_eq_some_iff.1 hi).1
  rw [Array.getElem?_push, if_neg (by omega)]
  exact hi

/-- What is found first is still found first when there are more tokens. -/
theorem Keeps.findIdx? {tokens tokens' : Array Token} (h : Keeps tokens tokens')
    {p : Token → Bool} {i : Nat} (hi : tokens.findIdx? p = some i) :
    tokens'.findIdx? p = some i := by
  obtain ⟨hlt, hp, hbefore⟩ := Array.findIdx?_eq_some_iff_getElem.1 hi
  have hget : ∀ {j : Nat} (hj : j < tokens.size),
      ∃ hj' : j < tokens'.size, tokens'[j] = tokens[j] := fun {j} hj =>
    Array.getElem?_eq_some_iff.1 (h (Array.getElem?_eq_getElem hj))
  obtain ⟨hlt', heq⟩ := hget hlt
  refine Array.findIdx?_eq_some_iff_getElem.2 ⟨hlt', heq ▸ hp, fun j hj => ?_⟩
  obtain ⟨hj', heq'⟩ := hget (Nat.lt_trans hj hlt)
  rw [heq']
  exact hbefore j hj

theorem findIdx?_push {tokens : Array Token} {p : Token → Bool} (h : tokens.findIdx? p = none)
    {t : Token} (ht : p t = true) : (tokens.push t).findIdx? p = some tokens.size := by
  rw [Array.findIdx?_push, h]
  simp [ht]

/-- A computation that goes on after another is done when both are. -/
theorem bind_eq_ok {ε α β : Type} {x : Except ε α} {f : α → Except ε β} {b : β} :
    (x >>= f) = .ok b ↔ ∃ a, x = .ok a ∧ f a = .ok b := by
  cases x with
  | error e => simp [bind, Except.bind]
  | ok a => simp [bind, Except.bind]

theorem map_eq_ok {ε α β : Type} {x : Except ε α} {f : α → β} {b : β} :
    x.map f = .ok b ↔ ∃ a, x = .ok a ∧ f a = b := by
  cases x with
  | error e => simp [Except.map]
  | ok a => simp [Except.map]

namespace Lexicon

variable {l l' : Lexicon} {s : Symbol}

theorem isNamed_ofRuleName (name : String) : (SymbolKind.ofRuleName name).isNamed = true := by
  unfold SymbolKind.ofRuleName
  split <;> rfl

/-- A step that gives the token of some sort: the tokens that were there stay, and the token is
found among any later ones. -/
def Gives (l l' : Lexicon) (s : Symbol) (find : Array Token → Option Nat) : Prop :=
  Keeps l.tokens l'.tokens ∧
    ∀ tokens, Keeps l'.tokens tokens → ∃ i, s = .terminal i ∧ find tokens = some i

theorem gives_found {p : Token → Bool} {i : Nat} (h : l.tokens.findIdx? p = some i) :
    Gives l l (.terminal i) (·.findIdx? p) :=
  ⟨.refl _, fun _ hk => ⟨i, rfl, hk.findIdx? h⟩⟩

theorem gives_add {p : Token → Bool} (h : l.tokens.findIdx? p = none) {t : Token}
    (ht : p t = true) : Gives l (l.add t).2 (l.add t).1 (·.findIdx? p) :=
  ⟨keeps_push _ _, fun _ hk => ⟨_, rfl, hk.findIdx? (findIdx?_push h ht)⟩⟩

theorem Gives.lt {find : Array Token → Option Nat}
    (h : Gives l l' s find) (hfind : ∀ tokens i, find tokens = some i → i < tokens.size)
    {tokens : Array Token} (ht : Keeps l'.tokens tokens) : ∃ i < tokens.size, s = .terminal i := by
  obtain ⟨i, rfl, hi⟩ := h.2 tokens ht
  exact ⟨i, hfind tokens i hi, rfl⟩

theorem lt_of_namedToken? {tokens : Array Token} {name : String} {i : Nat}
    (h : namedToken? tokens name = some i) : i < tokens.size :=
  (Array.findIdx?_eq_some_iff_getElem.1 h).1

theorem lt_of_inlineToken? {tokens : Array Token} {rule : Rule} {i : Nat}
    (h : inlineToken? tokens rule = some i) : i < tokens.size := by
  unfold inlineToken? at h
  split at h
  · exact (Array.findIdx?_eq_some_iff_getElem.1 h).1
  · cases h

variable [RegexEngine]

theorem ofBody_eq {name : String} {kind : SymbolKind} {body : TokenBody} {t : Token}
    (h : Token.ofBody name kind body = .ok t) :
    t.toTokenBody = body ∧ t.name = name ∧ t.kind = kind := by
  obtain ⟨pattern, -, h⟩ := bind_eq_ok.1 h
  cases h
  exact ⟨rfl, rfl, rfl⟩

theorem gives_named {name : String} {rule : Rule} (h : l.named name rule = .ok (s, l')) :
    Gives l l' s (namedToken? · name) := by
  unfold named at h
  split at h
  · rename_i i hi
    cases h
    exact gives_found hi
  · rename_i hnone
    obtain ⟨body, -, h⟩ := bind_eq_ok.1 h
    obtain ⟨t, ht, h⟩ := bind_eq_ok.1 h
    cases h
    obtain ⟨-, hname, hkind⟩ := ofBody_eq ht
    exact gives_add hnone (by simp [hname, hkind, isNamed_ofRuleName])

theorem gives_inline {owner : String} {rule : Rule} (h : l.inline owner rule = .ok (s, l')) :
    Gives l l' s (inlineToken? · rule) := by
  obtain ⟨body, hbody, h⟩ := bind_eq_ok.1 h
  have hfind : (fun tokens => inlineToken? tokens rule) = fun tokens : Array Token =>
      tokens.findIdx? fun t => !t.kind.isNamed && t.toTokenBody == body := by
    funext tokens
    simp [inlineToken?, hbody]
  rw [hfind]
  split at h
  · rename_i i hi
    cases h
    exact gives_found hi
  · rename_i hnone
    split at h
    · obtain ⟨t, ht, h⟩ := bind_eq_ok.1 h
      cases h
      obtain ⟨hb, -, hkind⟩ := ofBody_eq ht
      exact gives_add hnone (by simp [hb, hkind, SymbolKind.isNamed])
    · obtain ⟨t, ht, h⟩ := bind_eq_ok.1 h
      cases h
      obtain ⟨hb, -, hkind⟩ := ofBody_eq ht
      refine @gives_add { l with numbered := l.numbered + 1 } _ hnone t ?_
      simp [hb, hkind, SymbolKind.isNamed]

theorem renders_resolve {g : Grammar} {owner name : String}
    (h : resolve g owner name l = .ok (s, l')) :
    Keeps l.tokens l'.tokens ∧ ∀ tokens, Keeps l'.tokens tokens →
      g.Renders tokens (.symbol name) (.symbol s) := by
  unfold resolve at h
  split at h
  · rename_i rule hrule
    obtain ⟨hk, hfind⟩ := gives_named h
    refine ⟨hk, fun tokens ht => ?_⟩
    obtain ⟨i, rfl, hi⟩ := hfind tokens ht
    exact .token hrule hi
  · rename_i hnone
    split at h
    · rename_i v hv
      cases h
      obtain ⟨i, hi, rfl⟩ := Option.map_eq_some_iff.1 hv
      exact ⟨.refl _, fun tokens _ => .reference hnone hi⟩
    · cases h

theorem renders_inline {g : Grammar} {owner : String} {r : Rule} (hr : r.isToken = true)
    (h : l.inline owner r = .ok (s, l')) :
    Keeps l.tokens l'.tokens ∧ ∀ tokens, Keeps l'.tokens tokens →
      g.Renders tokens r (.symbol s) := by
  obtain ⟨hk, hfind⟩ := gives_inline h
  refine ⟨hk, fun tokens ht => ?_⟩
  obtain ⟨i, rfl, hi⟩ := hfind tokens ht
  exact .inline hr hi

/-- What it takes to convert a rule: the lexicon before it, its body, and the lexicon with the
tokens that are met on the way. -/
inductive Converts (g : Grammar) (owner : String) : Rule → Lexicon → Body → Lexicon → Prop
  | blank {l : Lexicon} : Converts g owner .blank l .blank l
  | inline {r : Rule} {l l' : Lexicon} {s : Symbol} : r.isToken = true →
      l.inline owner r = .ok (s, l') → Converts g owner r l (.symbol s) l'
  | symbol {name : String} {l l' : Lexicon} {s : Symbol} :
      resolve g owner name l = .ok (s, l') → Converts g owner (.symbol name) l (.symbol s) l'
  | seqNil {l : Lexicon} : Converts g owner (.seq []) l (.seq []) l
  | seqCons {r : Rule} {rs : List Rule} {l l₁ l' : Lexicon} {b : Body} {bs : List Body} :
      Converts g owner r l b l₁ → Converts g owner (.seq rs) l₁ (.seq bs) l' →
      Converts g owner (.seq (r :: rs)) l (.seq (b :: bs)) l'
  | choiceNil {l : Lexicon} : Converts g owner (.choice []) l (.choice []) l
  | choiceCons {r : Rule} {rs : List Rule} {l l₁ l' : Lexicon} {b : Body} {bs : List Body} :
      Converts g owner r l b l₁ → Converts g owner (.choice rs) l₁ (.choice bs) l' →
      Converts g owner (.choice (r :: rs)) l (.choice (b :: bs)) l'
  | repeat0 {r : Rule} {l l' : Lexicon} {b : Body} : Converts g owner r l b l' →
      Converts g owner (.wrap .repeat0 r) l b.repeat0 l'
  | repeat1 {r : Rule} {l l' : Lexicon} {b : Body} : Converts g owner r l b l' →
      Converts g owner (.wrap .repeat1 r) l (.repeat1 b) l'
  | attr {wrapper : Wrapper} {attrs : Attributes} {r : Rule} {l l' : Lexicon} {b : Body} :
      wrapper.isTransparent = true → attributes wrapper = .ok attrs → Converts g owner r l b l' →
      Converts g owner (.wrap wrapper r) l (.attr attrs b) l'

mutual

/-- A rule that became a body was converted step by step. -/
theorem converts_of_convert {g : Grammar} {owner : String} : (r : Rule) → {l l' : Lexicon} →
    {b : Body} → convert g owner r l = .ok (b, l') → Converts g owner r l b l'
  | .blank, l, l', b, h => by
    cases h
    exact .blank
  | .string _, l, l', b, h | .pattern _ _, l, l', b, h => by
    obtain ⟨⟨s, l₁⟩, hs, heq⟩ := map_eq_ok.1 h
    cases heq
    exact .inline rfl hs
  | .symbol name, l, l', b, h => by
    obtain ⟨⟨s, l₁⟩, hs, heq⟩ := map_eq_ok.1 h
    cases heq
    exact .symbol hs
  | .seq members, l, l', b, h => by
    rw [convert] at h
    obtain ⟨⟨bs, l₁⟩, hbs, heq⟩ := map_eq_ok.1 h
    cases heq
    exact (converts_of_convertAll members hbs).1
  | .choice members, l, l', b, h => by
    rw [convert] at h
    obtain ⟨⟨bs, l₁⟩, hbs, heq⟩ := map_eq_ok.1 h
    cases heq
    exact (converts_of_convertAll members hbs).2
  | .wrap wrapper content, l, l', b, h => by
    have ih {c l₁} := @converts_of_convert g owner content l l₁ c
    cases wrapper with
    | token immediate =>
      rw [convert] at h
      obtain ⟨⟨s, l₁⟩, hs, heq⟩ := map_eq_ok.1 h
      cases heq
      exact .inline rfl hs
    | repeat0 =>
      rw [convert] at h
      obtain ⟨⟨c, l₁⟩, hc, heq⟩ := map_eq_ok.1 h
      cases heq
      exact .repeat0 (ih hc)
    | repeat1 =>
      rw [convert] at h
      obtain ⟨⟨c, l₁⟩, hc, heq⟩ := map_eq_ok.1 h
      cases heq
      exact .repeat1 (ih hc)
    | renamed | reserved =>
      simp only [convert] at h
      cases h
    | field | prec | dynamic =>
      simp only [convert] at h
      obtain ⟨attrs, hattrs, h⟩ := bind_eq_ok.1 h
      obtain ⟨⟨c, l₁⟩, hc, heq⟩ := map_eq_ok.1 h
      cases heq
      exact .attr rfl hattrs (ih hc)

theorem converts_of_convertAll {g : Grammar} {owner : String} : (rs : List Rule) →
    {l l' : Lexicon} → {bs : List Body} → convertAll g owner rs l = .ok (bs, l') →
    Converts g owner (.seq rs) l (.seq bs) l' ∧ Converts g owner (.choice rs) l (.choice bs) l'
  | [], l, l', bs, h => by
    rw [convertAll] at h
    cases h
    exact ⟨.seqNil, .choiceNil⟩
  | r :: rs, l, l', bs, h => by
    rw [convertAll] at h
    obtain ⟨⟨b, l₁⟩, hb, h⟩ := bind_eq_ok.1 h
    obtain ⟨⟨bs, l₂⟩, hbs, h⟩ := bind_eq_ok.1 h
    cases h
    have hr := converts_of_convert r hb
    obtain ⟨hseq, hchoice⟩ := converts_of_convertAll rs hbs
    exact ⟨.seqCons hr hseq, .choiceCons hr hchoice⟩

end

/-- The body that a rule is converted to stands for it, whatever tokens come after. -/
theorem Converts.renders {g : Grammar} {owner : String} {r : Rule} {b : Body}
    (h : Converts g owner r l b l') : Keeps l.tokens l'.tokens ∧
      ∀ tokens, Keeps l'.tokens tokens → g.Renders tokens r b := by
  induction h with
  | blank => exact ⟨.refl _, fun _ _ => .blank⟩
  | inline hr hs => exact renders_inline hr hs
  | symbol hs => exact renders_resolve hs
  | seqNil => exact ⟨.refl _, fun _ _ => .seqNil⟩
  | choiceNil => exact ⟨.refl _, fun _ _ => .choiceNil⟩
  | seqCons _ _ ih ihs =>
    obtain ⟨hk, hr⟩ := ih
    obtain ⟨hk', hrs⟩ := ihs
    exact ⟨hk.trans hk', fun tokens ht => .seqCons (hr tokens (hk'.trans ht)) (hrs tokens ht)⟩
  | choiceCons _ _ ih ihs =>
    obtain ⟨hk, hr⟩ := ih
    obtain ⟨hk', hrs⟩ := ihs
    exact ⟨hk.trans hk', fun tokens ht => .choiceCons (hr tokens (hk'.trans ht)) (hrs tokens ht)⟩
  | repeat0 _ ih => exact ⟨ih.1, fun tokens ht => .repeat0 (ih.2 tokens ht)⟩
  | repeat1 _ ih => exact ⟨ih.1, fun tokens ht => .repeat1 (ih.2 tokens ht)⟩
  | attr hw _ _ ih => exact ⟨ih.1, fun tokens ht => .transparent hw (ih.2 tokens ht)⟩

theorem renders_convertRules {g : Grammar} {rs : List NamedRule} {bs : List Body}
    (h : convertRules g rs l = .ok (bs, l')) :
    Keeps l.tokens l'.tokens ∧ ∀ tokens, Keeps l'.tokens tokens →
      List.Forall₂ (fun r b => g.Renders tokens r.rule b) rs bs := by
  induction rs generalizing l bs with
  | nil =>
    cases h
    exact ⟨.refl _, fun _ _ => .nil⟩
  | cons r rs ih =>
    obtain ⟨⟨b, l₁⟩, hb, h⟩ := bind_eq_ok.1 h
    obtain ⟨⟨bs, l₂⟩, hbs, h⟩ := bind_eq_ok.1 h
    cases h
    obtain ⟨hk, hr⟩ := (converts_of_convert r.rule hb).renders
    obtain ⟨hk', hrs⟩ := ih hbs
    exact ⟨.trans hk hk', fun tokens ht => .cons (hr tokens (hk'.trans ht)) (hrs tokens ht)⟩

theorem extra_lt {g : Grammar} {rule : Rule} (h : extra g rule l = .ok (s, l')) :
    Keeps l.tokens l'.tokens ∧ ∀ tokens, Keeps l'.tokens tokens →
      ∃ i < tokens.size, s = .terminal i := by
  unfold extra at h
  split at h
  · split at h
    · have hg := gives_named h
      exact ⟨hg.1, fun tokens ht => hg.lt (fun _ _ => lt_of_namedToken?) ht⟩
    · cases h
  · split at h
    · have hg := gives_inline h
      exact ⟨hg.1, fun tokens ht => hg.lt (fun _ _ => lt_of_inlineToken?) ht⟩
    · cases h

/-- Extras are tokens. -/
theorem extras_lt {g : Grammar} {rules : List Rule} {symbols : List Symbol}
    (h : extras g rules l = .ok (symbols, l')) :
    Keeps l.tokens l'.tokens ∧ ∀ tokens, Keeps l'.tokens tokens →
      ∀ s ∈ symbols, ∃ i < tokens.size, s = .terminal i := by
  induction rules generalizing l symbols with
  | nil =>
    cases h
    exact ⟨.refl _, by simp⟩
  | cons r rest ih =>
    obtain ⟨⟨s, l₁⟩, hs, h⟩ := bind_eq_ok.1 h
    obtain ⟨⟨ss, l₂⟩, hss, h⟩ := bind_eq_ok.1 h
    cases h
    obtain ⟨hk, hs⟩ := extra_lt hs
    obtain ⟨hk', hss⟩ := ih hss
    refine ⟨hk.trans hk', fun tokens ht x hx => ?_⟩
    rcases List.mem_cons.1 hx with rfl | hx
    · exact hs tokens (hk'.trans ht)
    · exact hss tokens ht x (List.mem_filter.1 hx).1

theorem keeps_addRules {rs : List NamedRule} (h : addRules rs l = .ok l') :
    Keeps l.tokens l'.tokens := by
  induction rs generalizing l with
  | nil =>
    cases h
    exact .refl _
  | cons r rs ih =>
    obtain ⟨⟨s, l₁⟩, hs, h⟩ := bind_eq_ok.1 h
    exact (gives_named hs).1.trans (ih h)

theorem keeps_word {g : Grammar} {symbol : Option Symbol} (h : l.word g = .ok (symbol, l')) :
    Keeps l.tokens l'.tokens := by
  unfold word at h
  split at h
  · cases h
    exact .refl _
  · split at h
    · obtain ⟨⟨s, l₁⟩, hs, heq⟩ := map_eq_ok.1 h
      cases heq
      exact (gives_named hs).1
    · cases h

end Lexicon

/-- The definitions of a grammar's syntax rules, given their bodies. -/
def Grammar.definitions (g : Grammar) (bodies : List Body) : List Definition :=
  (g.syntaxRules.zip bodies).map fun (r, body) =>
    { name := r.name, kind := .ofRuleName r.name, body }

/-- How a grammar became a flat one: its bodies, and the tokens after its rules, after its extras,
after its token rules and after the word token. -/
structure FlatGrammar.Stages [RegexEngine] (source : Grammar) (g : FlatGrammar)
    (bodies : List Body) (l₁ l₂ l₃ l₄ : Lexicon) : Prop where
  start : ∀ r ∈ source.rules.head?, r.rule.isToken = false
  rules : Lexicon.convertRules source source.syntaxRules {} = .ok (bodies, l₁)
  extras : Lexicon.extras source source.extras l₁.nextRule = .ok (g.extras, l₂)
  tokenRules : Lexicon.addRules source.tokenRules l₂ = .ok l₃
  word : l₃.word source = .ok (g.word, l₄)
  tokens : l₄.tokens = g.tokens
  conflicts : (source.conflicts.mapM (conflict source)).map Ordered.ofList = .ok g.conflicts
  vars : g.vars = ((Repetition.expandAllDefinitions (source.definitions bodies)).map
    Variable.ofDefinition).toArray
  filled : emptyRule? g.vars.toList = none
  keywords : keywordsOf g.tokens g.word = .ok g.keywords

theorem FlatGrammar.exists_stages [RegexEngine] {source : Grammar} {g : FlatGrammar}
    (h : FlatGrammar.ofGrammar source = .ok g) :
    ∃ bodies l₁ l₂ l₃ l₄, Stages source g bodies l₁ l₂ l₃ l₄ := by
  unfold FlatGrammar.ofGrammar at h
  cases hu : unsupported? source with
  | some feature =>
    rw [hu] at h
    cases h
  | none =>
    simp only [hu] at h
    split at h
    on_goal 1 => split at h
    on_goal 1 => cases h
    -- The start rule is no token, or there are no rules.
    all_goals
      obtain ⟨⟨bodies, l₁⟩, hrules, h⟩ := bind_eq_ok.1 h
      obtain ⟨⟨symbols, l₂⟩, hextras, h⟩ := bind_eq_ok.1 h
      obtain ⟨l₃, htokens, h⟩ := bind_eq_ok.1 h
      obtain ⟨⟨word, l₄⟩, hword, h⟩ := bind_eq_ok.1 h
      obtain ⟨conflicts, hconflicts, h⟩ := bind_eq_ok.1 h
      split at h
      · cases h
      rename_i hfilled
      obtain ⟨keywords, hkeywords, h⟩ := bind_eq_ok.1 h
      cases h
      refine ⟨bodies, l₁, l₂, l₃, l₄, ?_, hrules, hextras, htokens, hword, rfl,
        map_eq_ok.2 ⟨_, hconflicts, rfl⟩, rfl, Option.eq_none_iff_forall_ne_some.2 hfilled,
        hkeywords⟩
      simp_all

/-- A flat grammar has bodies for the rules of its grammar, spelled out once their repetitions are
variables, its extras are tokens, and its keywords are those of its tokens. -/
theorem FlatGrammar.ofGrammar_eq_ok [RegexEngine] {source : Grammar} {g : FlatGrammar}
    (h : FlatGrammar.ofGrammar source = .ok g) :
    ∃ bodies, List.Forall₂ (fun r b => source.Renders g.tokens r.rule b) source.syntaxRules bodies ∧
      g.vars = ((Repetition.expandAllDefinitions (source.definitions bodies)).map
        Variable.ofDefinition).toArray ∧
      (∀ s ∈ g.extras, ∃ i < g.tokens.size, s = .terminal i) ∧
      keywordsOf g.tokens g.word = .ok g.keywords := by
  obtain ⟨bodies, l₁, l₂, l₃, l₄, hs⟩ := exists_stages h
  obtain ⟨-, hrenders⟩ := Lexicon.renders_convertRules hs.rules
  obtain ⟨hk, hlt⟩ := Lexicon.extras_lt hs.extras
  have hk' := (Lexicon.keeps_addRules hs.tokenRules).trans (Lexicon.keeps_word hs.word)
  rw [hs.tokens] at hk'
  exact ⟨bodies, hrenders _ (hk.trans hk'), hs.vars, hlt _ hk', hs.keywords⟩

end GrammarTables
