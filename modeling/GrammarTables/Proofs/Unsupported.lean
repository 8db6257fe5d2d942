import GrammarTables.Proofs.Preparation
import Mathlib.Data.List.Nodup

/-!
# Features that are not supported

Renamings, reserved words and precedences by name are not supported. Three walks meet them. The one
over the rules refuses each of them, and the one over the wrappers of a token refuses precedences by
name. The one over the body of a token leaves all wrappers out that do not repeat, these ones too.
So a feature is refused where it stands outside of the bodies of tokens, and ignored inside of them.
-/

namespace GrammarTables

/-- A renaming, a set of reserved words, or a precedence by name. -/
def Wrapper.isUnsupported : Wrapper → Bool
  | .renamed _ _ | .reserved _ | .prec _ (.name _) => true
  | _ => false

namespace Rule

mutual

/-- A feature that is not supported stands anywhere in the rule. -/
def uses : Rule → Bool
  | .seq members | .choice members => usesAny members
  | .wrap wrapper content => wrapper.isUnsupported || content.uses
  | _ => false

def usesAny : List Rule → Bool
  | [] => false
  | r :: rest => r.uses || usesAny rest

end

/-- Such a feature is among the wrappers that are taken off a token's rule. -/
def leads : Rule → Bool
  | .wrap (.token _) content => content.leads
  | .wrap (.prec associativity value) content =>
    (Wrapper.prec associativity value).isUnsupported || content.leads
  | _ => false

mutual

/-- Such a feature stands outside of the bodies of tokens. -/
def shows : Rule → Bool
  | .seq members | .choice members => showsAny members
  | .wrap (.token _) content => content.leads
  | .wrap wrapper content => wrapper.isUnsupported || content.shows
  | _ => false

def showsAny : List Rule → Bool
  | [] => false
  | r :: rest => r.shows || showsAny rest

end

mutual

/-- The rule without such features. -/
def bare : Rule → Rule
  | .seq members => .seq (bareAll members)
  | .choice members => .choice (bareAll members)
  | .wrap wrapper content =>
    if wrapper.isUnsupported then content.bare else .wrap wrapper content.bare
  | rule => rule

def bareAll : List Rule → List Rule
  | [] => []
  | r :: rest => r.bare :: bareAll rest

end

end Rule

/-- The rules of a grammar and its extras. -/
def Grammar.bodies (g : Grammar) : List Rule := g.rules.map (·.rule) ++ g.extras

section

variable [RegexEngine]

theorem TokenPattern.sourceOf_wrap {w : Wrapper} (token : String) (content : Rule)
    (hw : w.isUnsupported = true) : sourceOf token (.wrap w content) = sourceOf token content := by
  cases w <;> first | rfl | simp [Wrapper.isUnsupported] at hw

mutual

/-- The pattern of a token is that of its rule without such features. -/
theorem TokenPattern.sourceOf_bare (token : String) :
    (r : Rule) → sourceOf token r.bare = sourceOf token r
  | .blank | .string _ | .pattern _ _ | .symbol _ => rfl
  | .seq members | .choice members => by
    simp only [Rule.bare, sourceOf, sourcesOf_bareAll token members]
  | .wrap wrapper content => by
    have ih := sourceOf_bare token content
    rw [Rule.bare]
    split
    · rename_i hw
      rw [ih, sourceOf_wrap token content hw]
    · cases wrapper <;> simp only [sourceOf, ih]

theorem TokenPattern.sourcesOf_bareAll (token : String) :
    (rs : List Rule) → sourcesOf token (Rule.bareAll rs) = sourcesOf token rs
  | [] => rfl
  | r :: rs => by
    simp only [Rule.bareAll, sourcesOf, sourceOf_bare token r, sourcesOf_bareAll token rs]

end

end

/-- The wrappers that were taken off a token's rule have no such feature. -/
theorem TokenBody.leads_of_unwrap {immediate : Bool} {precedence : Int} {r : Rule}
    {body : TokenBody} (h : unwrap immediate precedence r = .ok body) : r.leads = false := by
  fun_induction unwrap immediate precedence r with
  | case1 immediate precedence now content ih => exact ih h
  | case2 immediate precedence associativity value content ih =>
    obtain ⟨n, hn, hrest⟩ := bind_eq_ok.1 h
    cases value with
    | integer value => simpa [Rule.leads, Wrapper.isUnsupported] using ih n hrest
    | name value => cases hn
  | case3 immediate precedence r htoken hprec =>
    unfold Rule.leads
    split
    · exact absurd rfl (htoken _ _)
    · exact absurd rfl (hprec _ _ _)
    · rfl

/-- A token is what its rule says. If it is named, that is the token rule of its name. -/
structure Token.Stands [RegexEngine] (g : Grammar) (t : Token) : Prop where
  pattern : TokenPattern.ofRule t.name t.rule = .ok t.pattern
  rule : t.kind.isNamed = true →
    ∃ r, g.tokenRule? t.name = some r ∧ TokenBody.ofRule r = .ok t.toTokenBody

namespace Lexicon

theorem isUnsupported_of_attributes {w : Wrapper} {attrs : Attributes}
    (h : attributes w = .ok attrs) : w.isUnsupported = false := by
  cases w with
  | prec associativity value =>
    cases value with
    | integer n => rfl
    | name n => cases h
  | renamed named value => cases h
  | reserved context => cases h
  | _ => rfl

/-- A token shows what its wrappers have. -/
theorem shows_of_isToken {r : Rule} (h : r.isToken = true) : r.shows = r.leads := by
  unfold Rule.isToken at h
  split at h
  · rfl
  · rfl
  · rfl
  · cases h

variable [RegexEngine] {g : Grammar} {l l' : Lexicon} {s : Symbol}

/-- Each token is what its rule says. -/
def Grounded (g : Grammar) (l : Lexicon) : Prop := ∀ t ∈ l.tokens, t.Stands g

theorem pattern_of_ofBody {name : String} {kind : SymbolKind} {body : TokenBody} {t : Token}
    (h : Token.ofBody name kind body = .ok t) :
    TokenPattern.ofRule t.name t.rule = .ok t.pattern := by
  obtain ⟨pattern, hp, h⟩ := bind_eq_ok.1 h
  cases h
  exact hp

theorem Grounded.push (hl : Grounded g l) {t : Token} (ht : t.Stands g) :
    Grounded g (l.add t).2 := by
  intro x hx
  rcases Array.mem_push.1 hx with hx | rfl
  · exact hl x hx
  · exact ht

theorem Grounded.named (hl : Grounded g l) {name : String} {r : Rule}
    (hr : g.tokenRule? name = some r) (h : l.named name r = .ok (s, l')) :
    Grounded g l' ∧ r.leads = false := by
  unfold Lexicon.named at h
  split at h
  · rename_i i hi
    cases h
    -- The token under the name was made of the same rule.
    obtain ⟨hlt, hfound, -⟩ := Array.findIdx?_eq_some_iff_getElem.1 hi
    rw [Bool.and_eq_true, beq_iff_eq] at hfound
    obtain ⟨r', hr', hbody⟩ := (hl _ (Array.getElem_mem hlt)).rule hfound.1
    rw [hfound.2, hr] at hr'
    cases hr'
    exact ⟨hl, TokenBody.leads_of_unwrap hbody⟩
  · obtain ⟨body, hbody, h⟩ := bind_eq_ok.1 h
    obtain ⟨t, ht, h⟩ := bind_eq_ok.1 h
    cases h
    obtain ⟨htbody, hname, -⟩ := ofBody_eq ht
    exact ⟨hl.push ⟨pattern_of_ofBody ht, fun _ => ⟨r, hname ▸ hr, htbody ▸ hbody⟩⟩,
      TokenBody.leads_of_unwrap hbody⟩

theorem Grounded.inline (hl : Grounded g l) {owner : String} {r : Rule}
    (h : l.inline owner r = .ok (s, l')) : Grounded g l' ∧ r.leads = false := by
  obtain ⟨body, hbody, h⟩ := bind_eq_ok.1 h
  refine ⟨?_, TokenBody.leads_of_unwrap hbody⟩
  split at h
  · cases h
    exact hl
  · split at h
    all_goals
      obtain ⟨t, ht, h⟩ := bind_eq_ok.1 h
      cases h
      obtain ⟨-, -, hkind⟩ := ofBody_eq ht
      refine Grounded.push (l := { l with numbered := _ }) hl ⟨pattern_of_ofBody ht, fun hn => ?_⟩
      simp [hkind, SymbolKind.isNamed] at hn

/-- A rule that became a body shows no such feature. -/
theorem Converts.grounded {owner : String} {r : Rule} {b : Body}
    (h : Converts g owner r l b l') (hl : Grounded g l) : Grounded g l' ∧ r.shows = false := by
  induction h with
  | blank | seqNil | choiceNil => exact ⟨hl, rfl⟩
  | inline hr hs =>
    rw [shows_of_isToken hr]
    exact hl.inline hs
  | symbol hs =>
    unfold resolve at hs
    split at hs
    · rename_i r hr
      exact ⟨(hl.named hr hs).1, rfl⟩
    · split at hs
      · cases hs
        exact ⟨hl, rfl⟩
      · cases hs
  | seqCons _ _ ih ihs | choiceCons _ _ ih ihs =>
    obtain ⟨hl₁, hr⟩ := ih hl
    obtain ⟨hl₂, hrs⟩ := ihs hl₁
    exact ⟨hl₂, Bool.or_eq_false_iff.2 ⟨hr, hrs⟩⟩
  | repeat0 _ ih | repeat1 _ ih => exact ih hl
  | attr hw hattrs _ ih =>
    obtain ⟨hl₁, hr⟩ := ih hl
    refine ⟨hl₁, ?_⟩
    -- A wrapper that leaves its content in place is no token.
    rw [Rule.shows, isUnsupported_of_attributes hattrs, hr, Bool.or_self]
    rintro immediate rfl
    cases hw

theorem Grounded.convertRules {rs : List NamedRule} {bs : List Body} (hl : Grounded g l)
    (h : convertRules g rs l = .ok (bs, l')) :
    Grounded g l' ∧ ∀ r ∈ rs, r.rule.shows = false := by
  induction rs generalizing l bs with
  | nil =>
    cases h
    exact ⟨hl, by simp⟩
  | cons r rs ih =>
    obtain ⟨⟨b, l₁⟩, hb, h⟩ := bind_eq_ok.1 h
    obtain ⟨⟨bs, l₂⟩, hbs, h⟩ := bind_eq_ok.1 h
    cases h
    obtain ⟨hl₁, hr⟩ := Converts.grounded (l := l.nextRule) (converts_of_convert r.rule hb) hl
    obtain ⟨hl₂, hrs⟩ := ih hl₁ hbs
    exact ⟨hl₂, List.forall_mem_cons.2 ⟨hr, hrs⟩⟩

theorem Grounded.extra {r : Rule} (hl : Grounded g l) (h : extra g r l = .ok (s, l')) :
    Grounded g l' ∧ r.shows = false := by
  unfold Lexicon.extra at h
  split at h
  · split at h
    · rename_i hr
      exact ⟨(hl.named hr h).1, rfl⟩
    · cases h
  · split at h
    · rename_i htoken
      rw [shows_of_isToken htoken]
      exact hl.inline h
    · cases h

theorem Grounded.extras {rs : List Rule} {symbols : List Symbol} (hl : Grounded g l)
    (h : extras g rs l = .ok (symbols, l')) : Grounded g l' ∧ ∀ r ∈ rs, r.shows = false := by
  induction rs generalizing l symbols with
  | nil =>
    cases h
    exact ⟨hl, by simp⟩
  | cons r rs ih =>
    obtain ⟨⟨s, l₁⟩, hs, h⟩ := bind_eq_ok.1 h
    obtain ⟨⟨ss, l₂⟩, hss, h⟩ := bind_eq_ok.1 h
    cases h
    obtain ⟨hl₁, hr⟩ := hl.extra hs
    obtain ⟨hl₂, hrs⟩ := ih hl₁ hss
    exact ⟨hl₂, List.forall_mem_cons.2 ⟨hr, hrs⟩⟩

theorem Grounded.addRules {rs : List NamedRule} (hl : Grounded g l)
    (hrs : ∀ r ∈ rs, g.tokenRule? r.name = some r.rule) (h : addRules rs l = .ok l') :
    Grounded g l' ∧ ∀ r ∈ rs, r.rule.leads = false := by
  induction rs generalizing l with
  | nil =>
    cases h
    exact ⟨hl, by simp⟩
  | cons r rs ih =>
    obtain ⟨hr, hrs⟩ := List.forall_mem_cons.1 hrs
    obtain ⟨⟨s, l₁⟩, hs, h⟩ := bind_eq_ok.1 h
    obtain ⟨hl₁, hleads⟩ := hl.named hr hs
    obtain ⟨hl₂, hall⟩ := ih hl₁ hrs h
    exact ⟨hl₂, List.forall_mem_cons.2 ⟨hleads, hall⟩⟩

theorem Grounded.word {symbol : Option Symbol} (hl : Grounded g l)
    (h : l.word g = .ok (symbol, l')) : Grounded g l' := by
  unfold Lexicon.word at h
  split at h
  · cases h
    exact hl
  · split at h
    · rename_i hr
      obtain ⟨⟨s, l₁⟩, hs, heq⟩ := map_eq_ok.1 h
      cases heq
      exact (hl.named hr hs).1
    · cases h

end Lexicon

namespace Json

variable {name : String} {value : Json} {members done : List (String × Json)}

theorem keys_put : (put name value members).map (·.1) =
    if name ∈ members.map (·.1) then members.map (·.1) else members.map (·.1) ++ [name] := by
  induction members with
  | nil => rfl
  | cons m members ih =>
    rw [put]
    split
    · rename_i h
      simp [h]
    · rename_i h
      have hne : name ≠ m.1 := fun heq => h heq.symm
      simp only [List.map_cons, ih, List.mem_cons, hne, false_or]
      split <;> rfl

theorem nodup_put (h : (members.map (·.1)).Nodup) : ((put name value members).map (·.1)).Nodup := by
  rw [keys_put]
  split
  · exact h
  · rename_i hnot
    exact List.nodup_append'.2 ⟨h, List.nodup_singleton _, by simpa using hnot⟩

theorem nodup_lastWinsMembers (h : (done.map (·.1)).Nodup) :
    ((lastWinsMembers members done).map (·.1)).Nodup := by
  induction members generalizing done with
  | nil =>
    rw [lastWinsMembers]
    exact h
  | cons m members ih =>
    rw [lastWinsMembers]
    exact ih (nodup_put h)

end Json

namespace Grammar

theorem nodup_map? {v : Json} {members : List (String × Json)} (h : map? v = some members) :
    (members.map (·.1)).Nodup := by
  unfold map? at h
  split at h
  · cases v with
    | object ms =>
      rw [Json.lastWins] at h
      cases h
      exact Json.nodup_lastWinsMembers List.nodup_nil
    | _ => simp [Json.lastWins, Json.object?] at h
  · cases h

theorem map_name_of_readRule {entries : List (String × Json)} {rules : List NamedRule}
    (h : entries.mapM readRule = .ok rules) : rules.map (·.name) = entries.map (·.1) := by
  induction entries generalizing rules with
  | nil =>
    cases h
    rfl
  | cons entry entries ih =>
    rw [List.mapM_cons] at h
    obtain ⟨r, hr, h⟩ := bind_eq_ok.1 h
    obtain ⟨rs, hrs, h⟩ := bind_eq_ok.1 h
    cases h
    unfold readRule at hr
    split at hr
    · cases hr
      rw [List.map_cons, List.map_cons, ih hrs]
    · cases hr

theorem nodup_rules_of_ofJson? {v : Json} {o : Outline} (h : Outline.ofJson? v = some o) :
    (o.rules.map (·.1)).Nodup := by
  unfold Outline.ofJson? at h
  obtain ⟨given, -, h⟩ := Option.bind_eq_some_iff.1 h
  split at h
  · obtain ⟨name, -, h⟩ := Option.bind_eq_some_iff.1 h
    obtain ⟨rules, hrules, h⟩ := Option.bind_eq_some_iff.1 h
    obtain ⟨v, -, hrules⟩ := Option.bind_eq_some_iff.1 hrules
    simp only [Option.bind_eq_bind, Option.bind_eq_some_iff, Option.some.injEq] at h
    obtain ⟨-, -, -, -, -, -, -, -, -, -, -, -, -, -, -, -, rfl⟩ := h
    exact nodup_map? hrules
  · cases h

/-- The rules of a grammar that was read have different names. -/
theorem nodup_names_of_parse {text : String} {g : Grammar} (h : parse text = .ok g) :
    (g.rules.map (·.name)).Nodup := by
  unfold parse at h
  split at h
  · rename_i outline houtline
    obtain ⟨v, -, houtline⟩ := Option.bind_eq_some_iff.1 houtline
    obtain ⟨rules, hrules, h⟩ := bind_eq_ok.1 h
    split at h
    · cases h
    · obtain ⟨conflicts, -, h⟩ := bind_eq_ok.1 h
      cases h
      rw [map_name_of_readRule hrules]
      exact nodup_rules_of_ofJson? houtline
  · cases h

/-- Where rules have different names, each token rule is the one of its name. -/
theorem tokenRule?_eq_some {g : Grammar} (hg : (g.rules.map (·.name)).Nodup) {r : NamedRule}
    (hr : r ∈ g.tokenRules) : g.tokenRule? r.name = some r.rule := by
  obtain ⟨hmem, htoken⟩ := List.mem_filter.1 hr
  rw [tokenRule?, Option.map_eq_some_iff]
  cases hfind : g.rules.find? fun x => x.rule.isToken && x.name == r.name with
  | none => simpa [htoken] using List.find?_eq_none.1 hfind r hmem
  | some x =>
    have hname : x.name = r.name := by
      have := List.find?_some hfind
      rw [Bool.and_eq_true, beq_iff_eq] at this
      exact this.2
    obtain rfl := List.inj_on_of_nodup_map hg (List.mem_of_find?_eq_some hfind) hmem hname
    exact ⟨x, rfl, rfl⟩

end Grammar

open FlatGrammar

/-- Where the rules of a grammar that is accepted have different names, its rules and extras show no
such feature, and its tokens are what their rules say. -/
theorem stands_of_ofGrammar [RegexEngine] {source : Grammar}
    (hnames : (source.rules.map (·.name)).Nodup) {g : FlatGrammar} (h : ofGrammar source = .ok g) :
    (∀ r ∈ source.bodies, r.shows = false) ∧ ∀ t ∈ g.tokens, t.Stands source := by
  obtain ⟨bodies, l₁, l₂, l₃, l₄, hs⟩ := exists_stages h
  have hempty : Lexicon.Grounded source {} := fun t ht => by simp at ht
  obtain ⟨hl₁, hrules⟩ := hempty.convertRules hs.rules
  obtain ⟨hl₂, hextras⟩ := Lexicon.Grounded.extras (l := l₁.nextRule) hl₁ hs.extras
  obtain ⟨hl₃, htokens⟩ :=
    hl₂.addRules (fun r hr => Grammar.tokenRule?_eq_some hnames hr) hs.tokenRules
  refine ⟨fun r hr => ?_, hs.tokens ▸ hl₃.word hs.word⟩
  rcases List.mem_append.1 hr with hr | hr
  · obtain ⟨r, hmem, rfl⟩ := List.mem_map.1 hr
    by_cases htoken : r.rule.isToken = true
    · rw [Lexicon.shows_of_isToken htoken]
      exact htokens r (List.mem_filter.2 ⟨hmem, htoken⟩)
    · exact hrules r (List.mem_filter.2 ⟨hmem, by simpa using htoken⟩)
  · exact hextras r hr

/-- A grammar whose rules have different names is refused where one of its rules or extras has a
feature that is not supported outside of the bodies of tokens. In the bodies of tokens such features
are ignored: each token has the pattern of its rule without them. -/
theorem unsupported_refused_or_ignored [RegexEngine] {source : Grammar}
    (hnames : (source.rules.map (·.name)).Nodup) :
    ((∃ r ∈ source.bodies, r.shows = true) → ∃ err, ofGrammar source = .error err) ∧
    ∀ g, ofGrammar source = .ok g → ∀ t ∈ g.tokens,
      TokenPattern.sourceOf t.name t.rule.bare = .ok t.pattern.source := by
  have key {g : FlatGrammar} (h : ofGrammar source = .ok g) := stands_of_ofGrammar hnames h
  constructor
  · rintro ⟨r, hr, hshows⟩
    cases h : ofGrammar source with
    | error err => exact ⟨err, rfl⟩
    | ok g => simp [(key h).1 r hr] at hshows
  · intro g h t ht
    obtain ⟨source, hsource, h⟩ := bind_eq_ok.1 ((key h).2 t ht).pattern
    rw [TokenPattern.sourceOf_bare]
    split at h
    · rw [← Except.ok.inj h]
      exact hsource
    · cases h

/-- The texts of an `a` and what the given rule says. -/
def Grammar.withWord (rule : Rule) : Grammar where
  name := "withWord"
  rules := [⟨"start", .seq [.string "a", .symbol "word"]⟩, ⟨"word", rule⟩]

/-- The text `b` under another name. -/
def Rule.renamedB : Rule := .wrap (.renamed true "x") (.string "b")

/-- A rule under another name is refused. Inside of a token the name is ignored. -/
theorem unsupported_refused_or_ignored_renamed :
    (∃ err, ofGrammar (.withWord .renamedB) = .error err) ∧
    ∃ g, ofGrammar (.withWord (.wrap (.token false) .renamedB)) = .ok g ∧
      ∃ t ∈ g.tokens, t.rule.uses = true ∧ t.pattern.source = "b" := by
  refine ⟨(unsupported_refused_or_ignored (by decide)).1 ⟨.renamedB, by decide, by decide⟩, ?_⟩
  obtain ⟨g, h, hrules⟩ : ∃ g, ofGrammar (.withWord (.wrap (.token false) .renamedB)) = .ok g ∧
      g.tokens.map (·.rule) = #[.string "a", .renamedB] := exists_of_decide (by decide +kernel)
  obtain ⟨t, ht, hrule⟩ : ∃ t ∈ g.tokens, t.rule = .renamedB :=
    Array.mem_map.1 (hrules ▸ by simp)
  have hsource := (unsupported_refused_or_ignored (by decide)).2 g h t ht
  rw [hrule] at hsource
  exact ⟨g, h, t, ht, by rw [hrule]; decide, (Except.ok.inj hsource).symm⟩

end GrammarTables
