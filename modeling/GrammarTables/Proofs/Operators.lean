import GrammarTables.Proofs.Escape
import GrammarTables.Proofs.Listing
import GrammarTables.Proofs.Preparation

/-!
# Grammars of binary operators

An expression is an atom, or two expressions with an operator between them. Every operator has a
precedence and associates to the left or to the right. The flat form of such a grammar has one
variable, with a production for each operator whose steps all carry the operator's precedence.
-/

namespace GrammarTables

/-- A binary operator. -/
structure Operator where
  text : String
  precedence : Int
  associativity : Associativity

/-- The production of an atom. -/
def Production.atom (a : Nat) : Production where
  steps := [{ symbol := .terminal a, precedence := 0, associativity := none, field := none }]
  dynamic := 0

namespace Operator

/-- The rule of an operation. -/
def rule (o : Operator) : Rule :=
  .wrap (.prec (some o.associativity) (.integer o.precedence))
    (.seq [.symbol "expr", .string o.text, .symbol "expr"])

/-- The body of an operation, given the operator's symbol. -/
def body (o : Operator) (s : Symbol) : Body :=
  .attr { precedence := some o.precedence, associativity := some o.associativity }
    (.seq [.symbol FlatGrammar.start, .symbol s, .symbol FlatGrammar.start])

def step (o : Operator) (s : Symbol) : Step where
  symbol := s
  precedence := o.precedence
  associativity := some o.associativity
  field := none

def production (o : Operator) (s : Symbol) : Production where
  steps := [o.step FlatGrammar.start, o.step s, o.step FlatGrammar.start]
  dynamic := 0

/-- The bodies of the operations, given the operators with their tokens, and of the atom. -/
def bodies (terms : List (Operator × Nat)) (atom : Nat) : List Body :=
  terms.map (fun x => x.1.body (.terminal x.2)) ++ [.symbol (.terminal atom)]

def productions (terms : List (Operator × Nat)) (atom : Nat) : List Production :=
  terms.map (fun x => x.1.production (.terminal x.2)) ++ [.atom atom]

end Operator

/-- The grammar of expressions: operations and atoms. -/
def Grammar.binary (name : String) (ops : List Operator) (atom : Rule) : Grammar where
  name
  rules := [⟨"expr", .choice (ops.map Operator.rule ++ [.symbol "atom"])⟩, ⟨"atom", atom⟩]

section

variable {name : String} {ops : List Operator} {atom : Rule} (hatom : atom.isToken = true)

namespace Grammar

@[simp] theorem isToken_choice (members : List Rule) : (Rule.choice members).isToken = false := rfl

theorem tokenRule?_expr : (binary name ops atom).tokenRule? "expr" = none := by
  simp [tokenRule?, binary]

include hatom

theorem tokenRule?_atom : (binary name ops atom).tokenRule? "atom" = some atom := by
  simp [tokenRule?, binary, hatom]

theorem syntaxRules_binary : (binary name ops atom).syntaxRules =
    [⟨"expr", .choice (ops.map Operator.rule ++ [.symbol "atom"])⟩] := by
  simp [syntaxRules, binary, hatom]

theorem variableNamed?_expr :
    (binary name ops atom).variableNamed? "expr" = some FlatGrammar.start := by
  simp [variableNamed?, syntaxRules_binary hatom, FlatGrammar.start]

end Grammar

namespace Lexicon

variable [RegexEngine]

/-- A text inside a rule has a token. -/
theorem exists_inline [RegexEngine.LawfulEscape] (owner text : String) (l : Lexicon) :
    ∃ x, inline owner (.string text) l = .ok x := by
  have hbody : TokenBody.ofRule (.string text) = .ok ⟨.string text, false, 0⟩ := rfl
  simp only [inline, hbody, bind, Except.bind]
  split
  · exact ⟨_, rfl⟩
  · obtain ⟨token, htoken⟩ :=
      @Token.exists_ofBody _ _ ⟨.string text, false, 0⟩ text rfl text .anonymous
    exact ⟨l.add token, by rw [htoken]; rfl⟩

theorem named_empty (name : String) (rule : Rule) : named name rule {} = do
    let body ← TokenBody.ofRule rule
    return add {} (← Token.ofBody name (.ofRuleName name) body) := by
  simp [named]

/-- Whether a rule has a token does not depend on the tokens there are. -/
theorem exists_named {name : String} {rule : Rule} {x : Symbol × Lexicon}
    (h : named name rule {} = .ok x) (l : Lexicon) : ∃ y, named name rule l = .ok y := by
  rw [named_empty] at h
  obtain ⟨body, hbody, h⟩ := bind_eq_ok.1 h
  obtain ⟨token, htoken, -⟩ := bind_eq_ok.1 h
  unfold named
  split
  · exact ⟨_, rfl⟩
  · exact ⟨l.add token, by simp only [hbody, htoken, bind, Except.bind]; rfl⟩

include hatom

theorem resolve_expr (l : Lexicon) :
    resolve (.binary name ops atom) "expr" "expr" l = .ok (FlatGrammar.start, l) := by
  simp [resolve, Grammar.tokenRule?_expr, Grammar.variableNamed?_expr hatom]

theorem resolve_atom (l : Lexicon) :
    resolve (.binary name ops atom) "expr" "atom" l = l.named "atom" atom := by
  simp [resolve, Grammar.tokenRule?_atom hatom]

theorem convert_rule (o : Operator) (l : Lexicon) :
    convert (.binary name ops atom) "expr" o.rule l = (inline "expr" (.string o.text) l).map
      fun x => (o.body x.1, x.2) := by
  simp only [Operator.rule, convert, convertAll, attributes, Precedence.number, resolve_expr hatom,
    Except.map, bind, Except.bind, pure, Except.pure, Prod.map, id]
  cases inline "expr" (.string o.text) l <;> rfl

/-- The rule of the expressions becomes a choice of operations and the atom. The operators and the
atom are found among any later tokens. -/
theorem convertAll_rules {os : List Operator} {l l' : Lexicon} {bs : List Body}
    (h : convertAll (.binary name ops atom) "expr" (os.map Operator.rule ++ [.symbol "atom"]) l =
      .ok (bs, l')) {tokens : Array Token} (hk : Keeps l'.tokens tokens) :
    Keeps l.tokens l'.tokens ∧ ∃ terms : List (Operator × Nat), terms.map (·.1) = os ∧
      (∀ x ∈ terms, inlineToken? tokens (.string x.1.text) = some x.2) ∧
      ∃ a, namedToken? tokens "atom" = some a ∧ bs = Operator.bodies terms a := by
  induction os generalizing l bs with
  | nil =>
    simp only [List.map_nil, List.nil_append, convertAll, convert, resolve_atom hatom] at h
    obtain ⟨⟨b, l₁⟩, hb, h⟩ := bind_eq_ok.1 h
    obtain ⟨⟨s, l₂⟩, hs, heq⟩ := map_eq_ok.1 hb
    cases heq
    cases h
    obtain ⟨hkeep, hfind⟩ := gives_named hs
    obtain ⟨a, rfl, ha⟩ := hfind tokens hk
    exact ⟨hkeep, [], rfl, by simp, a, ha, rfl⟩
  | cons o os ih =>
    rw [List.map_cons, List.cons_append, convertAll, convert_rule hatom] at h
    obtain ⟨⟨b, l₁⟩, hb, h⟩ := bind_eq_ok.1 h
    obtain ⟨⟨s, l₂⟩, hs, heq⟩ := map_eq_ok.1 hb
    cases heq
    obtain ⟨⟨bs, l₃⟩, hbs, h⟩ := bind_eq_ok.1 h
    cases h
    obtain ⟨hkeep', terms, hterms, hfound, a, ha, rfl⟩ := ih hbs
    obtain ⟨hkeep, hfind⟩ := gives_inline hs
    obtain ⟨k, rfl, hk⟩ := hfind tokens (hkeep'.trans hk)
    refine ⟨hkeep.trans hkeep', (o, k) :: terms, by simp [hterms], ?_, a, ha, rfl⟩
    exact List.forall_mem_cons.2 ⟨hk, hfound⟩

/-- Every operator has a token, so only the atom might have none. -/
theorem exists_convertAll [RegexEngine.LawfulEscape]
    (hnamed : ∀ l, ∃ x, named "atom" atom l = .ok x) (os : List Operator) (l : Lexicon) :
    ∃ x, convertAll (.binary name ops atom) "expr"
      (os.map Operator.rule ++ [.symbol "atom"]) l = .ok x := by
  induction os generalizing l with
  | nil =>
    obtain ⟨⟨s, l'⟩, hs⟩ := hnamed l
    refine ⟨([.symbol s], l'), ?_⟩
    rw [List.map_nil, List.nil_append, convertAll, convert, resolve_atom hatom, hs]
    rfl
  | cons o os ih =>
    obtain ⟨⟨s, l₁⟩, hs⟩ := exists_inline "expr" o.text l
    obtain ⟨⟨bs, l₂⟩, hbs⟩ := ih l₁
    refine ⟨(o.body s :: bs, l₂), ?_⟩
    simp only [List.map_cons, List.cons_append, convertAll, convert_rule hatom, hs, Except.map,
      bind, Except.bind, hbs]
    rfl

end Lexicon

end

section

variable (terms : List (Operator × Nat)) (atom : Nat)

/-- There is nothing to expand in operations and atoms. -/
theorem Repetition.expandAll_bodies (site : Site) (found : Found) :
    expandAll site (Operator.bodies terms atom) found = (Operator.bodies terms atom, found) := by
  induction terms with
  | nil => rfl
  | cons x terms ih =>
    have hx : expand site (x.1.body (.terminal x.2)) found =
        (x.1.body (.terminal x.2), found) := rfl
    rw [show Operator.bodies (x :: terms) atom =
      x.1.body (.terminal x.2) :: Operator.bodies terms atom from rfl, expandAll, hx]
    simp only [ih]

theorem Repetition.expandAllDefinitions_bodies (name : String) (kind : SymbolKind) :
    expandAllDefinitions [{ name, kind, body := .choice (Operator.bodies terms atom) }] =
      [{ name, kind, body := .choice (Operator.bodies terms atom) }] := by
  simp [expandAllDefinitions, expandDefinitions, expandDefinition, expand, expandAll_bodies]

namespace Body

theorem alternativesAny_bodies :
    alternativesAny (Operator.bodies terms atom) = Operator.bodies terms atom := by
  induction terms with
  | nil => rfl
  | cons x terms ih => exact congrArg (_ :: ·) ih

theorem map_production_bodies :
    (Operator.bodies terms atom).map production = Operator.productions terms atom := by
  simp [Operator.bodies, Operator.productions, Operator.body, Operator.production, production,
    steps, stepsAll, dynamics, dynamicsAll, Scope.within, Scope.step, Operator.step,
    Production.atom, strongest]

end Body

end

/-- A token inside a rule that is a text. -/
theorem exists_of_inlineToken? {tokens : Array Token} {text : String} {k : Nat}
    (h : inlineToken? tokens (.string text) = some k) :
    ∃ t, tokens[k]? = some t ∧ t.kind.isNamed = false ∧ t.rule = .string text := by
  obtain ⟨hk, ht, -⟩ := Array.findIdx?_eq_some_iff_getElem.1 h
  simp only [Bool.and_eq_true, Bool.not_eq_true', beq_iff_eq] at ht
  exact ⟨_, Array.getElem?_eq_getElem hk, ht.1, congrArg TokenBody.rule ht.2⟩

theorem exists_of_namedToken? {tokens : Array Token} {name : String} {k : Nat}
    (h : namedToken? tokens name = some k) : ∃ t, tokens[k]? = some t ∧ t.kind.isNamed = true := by
  obtain ⟨hk, ht, -⟩ := Array.findIdx?_eq_some_iff_getElem.1 h
  rw [Bool.and_eq_true] at ht
  exact ⟨_, Array.getElem?_eq_getElem hk, ht.1⟩

namespace Operator

variable {terms : List (Operator × Nat)} {atom : Nat} {tokens : Array Token}

/-- Operators of different texts and the atom have different tokens. -/
theorem nodup_tokens (htexts : (terms.map (·.1.text)).Nodup)
    (hterms : ∀ x ∈ terms, inlineToken? tokens (.string x.1.text) = some x.2)
    (hatom : namedToken? tokens "atom" = some atom) : (atom :: terms.map (·.2)).Nodup := by
  refine List.nodup_cons.2 ⟨fun hmem => ?_, List.pairwise_map.2 ?_⟩
  · obtain ⟨x, hx, rfl⟩ := List.mem_map.1 hmem
    obtain ⟨t, ht, hanonymous, -⟩ := exists_of_inlineToken? (hterms x hx)
    obtain ⟨t', ht', hnamed⟩ := exists_of_namedToken? hatom
    cases ht.symm.trans ht'
    rw [hanonymous] at hnamed
    cases hnamed
  · refine (List.pairwise_map.1 htexts).imp_of_mem fun {x y} hx hy hne heq => hne ?_
    obtain ⟨t, ht, -, hrule⟩ := exists_of_inlineToken? (hterms x hx)
    obtain ⟨t', ht', -, hrule'⟩ := exists_of_inlineToken? (hterms y hy)
    rw [heq] at ht
    cases ht.symm.trans ht'
    exact Rule.string.inj (hrule.symm.trans hrule')

/-- The productions differ in their last but one symbols, which are the tokens. -/
theorem nodup_productions (h : (atom :: terms.map (·.2)).Nodup) :
    (productions terms atom).Nodup := by
  have htokens : (productions terms atom).map (·.symbols[1]?.getD (.terminal atom)) =
      (terms.map (·.2) ++ [atom]).map .terminal := by
    simp [productions, production, Production.atom, Production.symbols, step]
  refine List.Nodup.of_map (·.symbols[1]?.getD (.terminal atom)) ?_
  rw [htokens]
  refine List.Nodup.map (fun _ _ => Symbol.terminal.inj) ?_
  exact (List.perm_append_singleton atom _).nodup_iff.2 h

end Operator

namespace FlatGrammar

/-- A flat grammar of binary operators, given the operators with their tokens and the atom's
token. -/
structure Operates (g : FlatGrammar) (terms : List (Operator × Nat)) (atom : Nat) : Prop where
  size : g.vars.size = 1
  kind : g.symbolKind start = .named
  extras : g.extras = []
  productions : g.productionsOf start = Operator.productions terms atom
  /-- No two tokens are the same. -/
  nodup : (atom :: terms.map (·.2)).Nodup

theorem emptyRule?_singleton (v : Variable) : emptyRule? [v] = none := by simp [emptyRule?]

section

variable {name : String} {ops : List Operator} {atom : Rule} (hatom : atom.isToken = true)
include hatom

theorem vars_binary (terms : List (Operator × Nat)) (a : Nat) :
    (Repetition.expandAllDefinitions ((Grammar.binary name ops atom).definitions
      [.choice (Operator.bodies terms a)])).map Variable.ofDefinition =
      [{ name := "expr"
         kind := .ofRuleName "expr"
         productions := (Body.choice (Operator.bodies terms a)).productions
         parent := none }] := by
  simp [Grammar.definitions, Grammar.syntaxRules_binary hatom,
    Repetition.expandAllDefinitions_bodies, Variable.ofDefinition]

/-- A grammar of binary operators has a flat form if its atom has a token. -/
theorem exists_ofGrammar [RegexEngine] [RegexEngine.LawfulEscape] {x : Symbol × Lexicon}
    (htoken : Lexicon.named "atom" atom {} = .ok x) :
    ∃ g, ofGrammar (.binary name ops atom) = .ok g := by
  have hnamed := Lexicon.exists_named htoken
  obtain ⟨⟨bs, l₁⟩, hbs⟩ := @Lexicon.exists_convertAll name ops atom hatom _ _ hnamed ops {}
  obtain ⟨-, terms, -, -, a, -, rfl⟩ := Lexicon.convertAll_rules hatom hbs (.refl _)
  obtain ⟨⟨s, l₂⟩, hl₂⟩ := hnamed l₁.nextRule
  have hunsupported : unsupported? (.binary name ops atom) = none := rfl
  have hstart : (Grammar.binary name ops atom).rules.head? =
    some ⟨"expr", .choice (ops.map Operator.rule ++ [.symbol "atom"])⟩ := rfl
  have hrules : Lexicon.convertRules (.binary name ops atom)
      (Grammar.binary name ops atom).syntaxRules {} =
        .ok ([.choice (Operator.bodies terms a)], l₁) := by
    rw [Grammar.syntaxRules_binary hatom]
    simp only [Lexicon.convertRules, Lexicon.convert, Lexicon.nextRule, hbs]
    rfl
  have hextras : Lexicon.extras (.binary name ops atom) (Grammar.binary name ops atom).extras
      l₁.nextRule = .ok ([], l₁.nextRule) := rfl
  have htokens : Lexicon.addRules (Grammar.binary name ops atom).tokenRules l₁.nextRule =
      .ok l₂ := by
    have hfilter : (Grammar.binary name ops atom).tokenRules = [⟨"atom", atom⟩] := by
      simp [Grammar.tokenRules, Grammar.binary, hatom]
    rw [hfilter, Lexicon.addRules, hl₂]
    rfl
  have hword : l₂.word (.binary name ops atom) = .ok (none, l₂) := rfl
  have hconflicts : (Grammar.binary name ops atom).conflicts.mapM
      (conflict (.binary name ops atom)) = .ok [] := rfl
  have hvars := @vars_binary name ops atom hatom terms a
  simp only [Grammar.definitions] at hvars
  simp only [ofGrammar, hunsupported, hstart, Grammar.isToken_choice, hrules, hextras, htokens,
    hword, hconflicts, hvars, emptyRule?_singleton, bind, Except.bind]
  exact ⟨_, rfl⟩

/-- The flat form of a grammar of binary operators. -/
theorem exists_operates [RegexEngine] {g : FlatGrammar} (htexts : (ops.map (·.text)).Nodup)
    (h : ofGrammar (.binary name ops atom) = .ok g) :
    ∃ terms a, g.Operates terms a ∧ terms.map (·.1) = ops ∧
      ∀ x ∈ terms, inlineToken? g.tokens (.string x.1.text) = some x.2 := by
  obtain ⟨bodies, l₁, l₂, l₃, l₄, hs⟩ := exists_stages h
  obtain ⟨hextras, rfl⟩ := Prod.mk.inj (Except.ok.inj hs.extras)
  have hk : Keeps l₁.tokens g.tokens :=
    hs.tokens ▸ (Lexicon.keeps_addRules hs.tokenRules).trans (Lexicon.keeps_word hs.word)
  have hrules := hs.rules
  rw [Grammar.syntaxRules_binary hatom] at hrules
  obtain ⟨⟨body, l⟩, hbody, hrules⟩ := bind_eq_ok.1 hrules
  obtain ⟨⟨bs, l'⟩, hbs, heq⟩ := map_eq_ok.1 hbody
  cases heq
  cases hrules
  obtain ⟨-, terms, rfl, hterms, a, ha, rfl⟩ := Lexicon.convertAll_rules hatom hbs hk
  rw [List.map_map] at htexts
  have hnodup := Operator.nodup_tokens htexts hterms ha
  have hproductions : (Body.choice (Operator.bodies terms a)).productions =
      Operator.productions terms a := by
    rw [Body.productions, Body.alternatives, Body.alternativesAny_bodies,
      Body.map_production_bodies, eraseDups_of_nodup (Operator.nodup_productions hnodup)]
  have hvars := hs.vars
  rw [vars_binary hatom, hproductions] at hvars
  have hkind : SymbolKind.ofRuleName "expr" = .named := by decide +kernel
  refine ⟨terms, a, ⟨?_, ?_, hextras.symm, ?_, hnodup⟩, rfl, hterms⟩
  · simp [hvars]
  · simp [symbolKind, start, hvars, hkind]
  · simp [productionsOf, variableOf?, start, hvars]

end

end FlatGrammar

end GrammarTables
