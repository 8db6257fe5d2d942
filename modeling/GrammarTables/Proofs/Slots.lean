import GrammarTables.Proofs.Indices

/-!
# Numbers and their slots

Each number of a language has a slot of a fixed width. What is encoded is checked against limits,
and with these every number fits into its slot but for one kind: nothing limits how many actions an
entry has. So the numbers of a language fit exactly if no state has more than 255 actions for a
terminal.
-/

namespace GrammarTables

/-- The types of slots. -/
inductive Slot where
  | u8
  | u16
  | u32
  | i16
  deriving DecidableEq, Repr

namespace Slot

def least : Slot → Int
  | .u8 | .u16 | .u32 => 0
  | .i16 => -32768

def greatest : Slot → Nat
  | .u8 => 255
  | .u16 => 65535
  | .u32 => 4294967295
  | .i16 => 32767

/-- Whether a number fits into a slot. -/
def Holds (s : Slot) (n : Int) : Prop := s.least ≤ n ∧ n ≤ s.greatest

instance (s : Slot) (n : Int) : Decidable (s.Holds n) := by
  unfold Holds
  infer_instance

theorem holds_natCast {s : Slot} {n : Nat} : s.Holds n ↔ n ≤ s.greatest := by
  have hleast : s.least ≤ 0 := by cases s <;> decide
  unfold Holds
  omega

/-- Numbers in slots of one type. -/
def each (s : Slot) (ns : List Nat) : List (Slot × Int) := ns.map fun n => (s, (n : Int))

theorem forall_mem_each {s : Slot} {ns : List Nat} :
    (∀ x ∈ s.each ns, x.1.Holds x.2) ↔ ∀ n ∈ ns, n ≤ s.greatest := by
  simp [each, holds_natCast]

end Slot

namespace Language

/-- The numbers of an element of the array of actions. -/
def cellNumbers (l : Language) : Cell → List (Slot × Int)
  | .header count _ => [(.u8, count)]
  | .action (.shift state _) => [(.u16, state)]
  | .action (.reduce r) =>
    [(.u16, l.symbolId r.symbol), (.u8, r.children), (.i16, r.dynamic), (.u16, r.production)]
  | .action .accept | .action .shiftExtra | .action .recover => []

/-- The numbers outside of the array of actions, with the slots that they are in. -/
def tableNumbers (l : Language) : List (Slot × Int) :=
  Slot.u8.each [l.version.major.toNat, l.version.minor.toNat, l.version.patch.toNat] ++
  Slot.u32.each [l.symbolCount, l.tokenCount, l.stateCount, l.largeCount, l.slices.size,
    l.fields.size] ++
  Slot.u16.each (l.maxChildren :: l.word.toList) ++
  Slot.u16.each (List.range l.symbolCount) ++
  Slot.u16.each (l.symbols.toList.map (·.publicId)) ++
  Slot.u16.each (List.range' 1 l.fields.size) ++
  Slot.u16.each (l.slices.toList.flatMap fun (index, length) => [index, length]) ++
  Slot.u16.each (l.fieldEntries.toList.map (·.field)) ++
  Slot.u8.each (l.fieldEntries.toList.map (·.place.index)) ++
  Slot.u16.each l.parseTable.toList ++
  Slot.u16.each l.smallTable.toList ++
  Slot.u32.each l.smallOffsets.toList ++
  Slot.u16.each l.lexModes.toList ++
  Slot.u16.each l.primary.toList ++
  Slot.u16.each (l.keywords.toList.map (·.2))

/-- All numbers of a language with the slots that they are in. -/
def numbers (l : Language) : List (Slot × Int) :=
  l.tableNumbers ++ l.actions.toList.flatMap l.cellNumbers

/-- Every number is in a slot that holds it. -/
def Fits (l : Language) : Prop := ∀ x ∈ l.numbers, x.1.Holds x.2

end Language

theorem checkLimit_eq_ok {what : String} {count limit : Nat} :
    checkLimit what count limit = .ok () ↔ count ≤ limit := by
  simp [checkLimit]

/-- An error that a number is over its limit. -/
def Error.IsLimit (err : Error) : Prop :=
  ∃ what count limit, err = .tableLimit what count limit ∧ limit < count

/-- Nothing fails but for a number that is over its limit. -/
def Limits {α : Type} (x : Except Error α) : Prop := ∀ err, x = .error err → err.IsLimit

namespace Limits

theorem ok {α : Type} (a : α) : Limits (.ok a) := fun _ h => by cases h

theorem checkLimit (what : String) (count limit : Nat) :
    Limits (GrammarTables.checkLimit what count limit) := by
  intro err h
  unfold GrammarTables.checkLimit at h
  split at h
  · cases h
    exact ⟨what, count, limit, rfl, ‹_›⟩
  · cases h

theorem bind {α β : Type} {x : Except Error α} {f : α → Except Error β} (hx : Limits x)
    (hf : ∀ a, Limits (f a)) : Limits (x >>= f) := by
  cases x with
  | error e =>
    intro err h
    cases h
    exact hx e rfl
  | ok a => exact hf a

theorem forM {α : Type} {f : α → Except Error Unit} (hf : ∀ a, Limits (f a)) (l : List α) :
    Limits (l.forM f) := by
  induction l with
  | nil => exact ok ()
  | cons a l ih => exact (hf a).bind fun _ => ih

end Limits

namespace Encoding

theorem limits_checkAction (a : Action) : Limits (checkAction a) := by
  intro err h
  cases a with
  | reduce r =>
    rw [checkAction] at h
    split at h
    · cases h
    · cases h
      exact ⟨_, _, _, rfl, by omega⟩
  | _ => cases h

theorem limits_checkEntries (place : Nat) (entries : List ActionEntry) :
    Limits (checkEntries place entries) := by
  induction entries generalizing place with
  | nil => exact .ok ()
  | cons e rest ih =>
    exact (Limits.forM limits_checkAction _).bind fun _ =>
      (Limits.checkLimit _ _ _).bind fun _ => ih _

theorem limits_checkCounts (g : FlatGrammar) (t : Tables) (fields : List FieldInfo) :
    Limits (checkCounts g t fields) :=
  (Limits.checkLimit _ _ _).bind fun _ => (Limits.checkLimit _ _ _).bind fun _ =>
    (Limits.checkLimit _ _ _).bind fun _ => (Limits.checkLimit _ _ _).bind fun _ =>
    (Limits.checkLimit _ _ _).bind fun _ => Limits.checkLimit _ _ _

/-- Tables are encoded, or a number is over its limit. -/
theorem limits_ofTables (g : FlatGrammar) (t : Tables) (version : Version) :
    Limits (ofTables g t version) :=
  (limits_checkCounts _ _ _).bind fun _ => (Limits.checkLimit _ _ _).bind fun _ =>
    (limits_checkEntries _ _).bind fun _ => (Limits.checkLimit _ _ _).bind fun _ => .ok _

theorem forM_eq_ok {α : Type} {f : α → Except Error Unit} {l : List α} :
    l.forM f = .ok () ↔ ∀ a ∈ l, f a = .ok () := by
  induction l with
  | nil => exact ⟨fun _ => by simp, fun _ => rfl⟩
  | cons a l ih =>
    rw [List.forall_mem_cons, ← ih]
    constructor
    · intro h
      obtain ⟨⟨⟩, ha, h⟩ := bind_eq_ok.1 h
      exact ⟨ha, h⟩
    · exact fun ⟨ha, h⟩ => bind_eq_ok.2 ⟨(), ha, h⟩

theorem checkAction_eq_ok {a : Action} :
    checkAction a = .ok () ↔ ∀ r, a = .reduce r → Slot.i16.Holds r.dynamic := by
  cases a with
  | reduce r => simp [checkAction, Slot.Holds, Slot.least, Slot.greatest]
  | _ => simp [checkAction]

/-- Entries pass if they end within the limit and all their precedences fit. -/
theorem checkEntries_eq_ok {place : Nat} {entries : List ActionEntry} (hp : place ≤ 65535) :
    checkEntries place entries = .ok () ↔
      place + total (entries.map fun x => 1 + x.actions.length) ≤ 65535 ∧
      ∀ x ∈ entries, ∀ r, .reduce r ∈ x.actions → Slot.i16.Holds r.dynamic := by
  induction entries generalizing place with
  | nil => simpa [checkEntries, total] using hp
  | cons x entries ih =>
    have hactions : x.actions.forM checkAction = .ok () ↔
        ∀ r, .reduce r ∈ x.actions → Slot.i16.Holds r.dynamic := by
      simp only [forM_eq_ok, checkAction_eq_ok]
      exact ⟨fun h r hr => h _ hr r rfl, fun h a ha r hr => h r (hr ▸ ha)⟩
    have htotal : total ((x :: entries).map fun x => 1 + x.actions.length) =
        1 + x.actions.length + total (entries.map fun x => 1 + x.actions.length) := rfl
    rw [List.forall_mem_cons, ← hactions, htotal]
    constructor
    · intro h
      obtain ⟨⟨⟩, hx, h⟩ := bind_eq_ok.1 h
      obtain ⟨⟨⟩, hlimit, h⟩ := bind_eq_ok.1 h
      obtain ⟨hle, hrest⟩ := (ih (checkLimit_eq_ok.1 hlimit)).1 h
      exact ⟨by omega, hx, hrest⟩
    · rintro ⟨hle, hx, hrest⟩
      have hlimit : place + 1 + x.actions.length ≤ 65535 := by omega
      exact bind_eq_ok.2 ⟨(), hx, bind_eq_ok.2 ⟨(), checkLimit_of_le hlimit,
        (ih hlimit).2 ⟨by omega, hrest⟩⟩⟩

end Encoding

/-- The numbers of tables are within the limits that are checked when they are encoded. -/
structure Tables.Limited (g : FlatGrammar) (t : Tables) : Prop where
  symbols : g.symbolCount ≤ 65535
  states : t.table.states.size ≤ 65535
  fields : (Encoding.fieldInfos t.table.layouts).length ≤ 65535
  layouts : t.table.layouts.length ≤ 65535
  maxChildren : t.table.maxChildren ≤ 255
  lexSets : t.lexSets.length ≤ 65535
  fieldEntries : (Encoding.runs (t.table.layouts.map (Encoding.layoutEntries
    (Encoding.fieldInfos t.table.layouts)))).flatten.length ≤ 65535
  cells : (Encoding.cells g t).size ≤ 65535
  dynamic : ∀ s ∈ t.table.states, ∀ x r, .reduce r ∈ s.on x → Slot.i16.Holds r.dynamic
  small : Encoding.total ((Encoding.small g t).2.map Encoding.smallLength) ≤ 4294967295

namespace Encoding

variable {g : FlatGrammar} {t : Tables} {e : Encoding} {version : Version}

/-- The entries of tables pass exactly if the cells of all actions are within their limit and all
precedences fit. -/
theorem checkEntries_numbered_eq_ok (ht : t.Indexed g) :
    checkEntries 1 (numbered g t).2 = .ok () ↔ (cells g t).size ≤ 65535 ∧
      ∀ s ∈ t.table.states, ∀ x r, .reduce r ∈ s.on x → Slot.i16.Holds r.dynamic := by
  rw [checkEntries_eq_ok (by decide), size_cells]
  refine and_congr_right fun _ => ⟨fun h s hs x r hr => ?_, fun h x hx r hr => ?_⟩
  · obtain ⟨y, hy, heq⟩ := exists_entry ht hs (List.ne_nil_of_mem hr)
    exact h y hy r (heq ▸ hr)
  · obtain ⟨s, hs, n, hon⟩ := exists_state hx
    exact h s hs _ r (hon ▸ hr)

theorem checkCounts_eq_ok {fields : List FieldInfo} : checkCounts g t fields = .ok () ↔
    g.symbolCount ≤ 65535 ∧ t.table.states.size ≤ 65535 ∧ fields.length ≤ 65535 ∧
      t.table.layouts.length ≤ 65535 ∧ t.table.maxChildren ≤ 255 ∧ t.lexSets.length ≤ 65535 := by
  constructor
  · intro h
    obtain ⟨⟨⟩, hsymbols, h⟩ := bind_eq_ok.1 h
    obtain ⟨⟨⟩, hstates, h⟩ := bind_eq_ok.1 h
    obtain ⟨⟨⟩, hfields, h⟩ := bind_eq_ok.1 h
    obtain ⟨⟨⟩, hlayouts, h⟩ := bind_eq_ok.1 h
    obtain ⟨⟨⟩, hchildren, hlex⟩ := bind_eq_ok.1 h
    rw [checkLimit_eq_ok] at hsymbols hstates hfields hlayouts hchildren hlex
    exact ⟨hsymbols, hstates, hfields, hlayouts, hchildren, hlex⟩
  · rintro ⟨hsymbols, hstates, hfields, hlayouts, hchildren, hlex⟩
    rw [← checkLimit_eq_ok] at hsymbols hstates hfields hlayouts hchildren hlex
    exact bind_eq_ok.2 ⟨(), hsymbols, bind_eq_ok.2 ⟨(), hstates, bind_eq_ok.2 ⟨(), hfields,
      bind_eq_ok.2 ⟨(), hlayouts, bind_eq_ok.2 ⟨(), hchildren, hlex⟩⟩⟩⟩⟩

/-- Tables are encoded exactly if they are within the limits. -/
theorem exists_ofTables_iff (ht : t.Indexed g) :
    (∃ e, ofTables g t version = .ok e) ↔ t.Limited g := by
  constructor
  · rintro ⟨e, h⟩
    obtain ⟨⟨⟩, hcounts, h⟩ := bind_eq_ok.1 h
    obtain ⟨⟨⟩, hfields, h⟩ := bind_eq_ok.1 h
    obtain ⟨⟨⟩, hentries, h⟩ := bind_eq_ok.1 h
    obtain ⟨⟨⟩, hsmall, -⟩ := bind_eq_ok.1 h
    obtain ⟨hsymbols, hstates, hnames, hlayouts, hchildren, hlex⟩ := checkCounts_eq_ok.1 hcounts
    obtain ⟨hcells, hdynamic⟩ := (checkEntries_numbered_eq_ok ht).1 hentries
    exact ⟨hsymbols, hstates, hnames, hlayouts, hchildren, hlex,
      length_flatten_runs ▸ checkLimit_eq_ok.1 hfields, hcells, hdynamic,
      checkLimit_eq_ok.1 hsmall⟩
  · intro h
    have hcounts : checkCounts g t (fieldInfos t.table.layouts) = .ok () := checkCounts_eq_ok.2
      ⟨h.symbols, h.states, h.fields, h.layouts, h.maxChildren, h.lexSets⟩
    have hfields := length_flatten_runs ▸ h.fieldEntries
    have hentries := (checkEntries_numbered_eq_ok ht).2 ⟨h.cells, h.dynamic⟩
    exact ⟨_, bind_eq_ok.2 ⟨(), hcounts, bind_eq_ok.2 ⟨(), checkLimit_of_le hfields,
      bind_eq_ok.2 ⟨(), hentries, bind_eq_ok.2 ⟨(), checkLimit_of_le h.small, rfl⟩⟩⟩⟩⟩

/-- The limits as numbers of the encoded tables. -/
structure Limited (e : Encoding) : Prop where
  symbols : e.symbolCount ≤ 65535
  states : e.stateCount ≤ 65535
  fields : e.fields.length ≤ 65535
  slices : e.slices.length ≤ 65535
  maxChildren : e.maxChildren ≤ 255
  lexSets : e.lexSets.length ≤ 65535
  fieldEntries : e.fieldEntries.length ≤ 65535
  actions : e.actionsSize ≤ 65535
  dynamic : ∀ x ∈ e.actionEntries, ∀ r, .reduce r ∈ x.actions → Slot.i16.Holds r.dynamic
  small : e.smallSize ≤ 4294967295

theorem limited_of_ofTables (ht : t.Indexed g) (h : ofTables g t version = .ok e) : e.Limited := by
  have hl := lists_of_ofTables h
  have hp := parts_of_ofTables h
  have hlimited := (exists_ofTables_iff ht).1 ⟨e, h⟩
  refine ⟨hl.symbolCount ▸ hlimited.symbols, stateCount_eq ht hl ▸ hlimited.states,
    hp.fields ▸ hlimited.fields, ?_, hp.maxChildren ▸ hlimited.maxChildren,
    hl.lexSets ▸ hlimited.lexSets, ?_, actionsSize_eq hl ▸ hlimited.cells, ?_,
    smallSize_eq hl ▸ hlimited.small⟩
  · simpa [hp.slices] using hlimited.layouts
  · rw [hp.fieldEntries, hp.fields]
    exact hlimited.fieldEntries
  · exact (forall_actionEntries ht hl
      (P := fun as => ∀ r, .reduce r ∈ as → Slot.i16.Holds r.dynamic) (by simp)).2 hlimited.dynamic

theorem IsValue.le (hl : e.Limited) {n : Nat} (h : e.IsValue n) : n ≤ 65535 := by
  have hstates := hl.states
  have hactions := hl.actions
  rcases h with h | h <;> omega

/-- The numbers of the small rows fit. -/
theorem le_of_mem_smallTable (hi : e.Indexed) (hl : e.Limited) :
    ∀ n ∈ (Language.ofEncoding e).smallTable, n ≤ 65535 := by
  intro n hn
  have hsymbols := hl.symbols
  obtain ⟨r, hr, hn⟩ := List.mem_flatMap.1 (List.mem_toArray.1 hn)
  obtain ⟨hcount, hgroups⟩ := hi.smallRows r hr
  rcases List.mem_cons.1 hn with rfl | hn
  · omega
  · obtain ⟨x, hx, hn⟩ := List.mem_flatMap.1 hn
    obtain ⟨hvalue, hlength, hlt⟩ := hgroups x hx
    rcases List.mem_cons.1 hn with rfl | hn
    · exact hvalue.le hl
    · rcases List.mem_cons.1 hn with rfl | hn
      · omega
      · have := hlt n hn
        omega

/-- The numbers of an entry's cells fit exactly if there are no more than 255 actions. -/
theorem holds_entryCells_iff (hi : e.Indexed) (hl : e.Limited) {x : ActionEntry}
    (hx : x ∈ e.actionEntries) :
    (∀ cell ∈ Language.entryCells x, ∀ y ∈ (Language.ofEncoding e).cellNumbers cell,
      y.1.Holds y.2) ↔ x.actions.length ≤ 255 := by
  have hactions : ∀ a ∈ x.actions, ∀ y ∈ (Language.ofEncoding e).cellNumbers (.action a),
      y.1.Holds y.2 := by
    intro a ha
    have hhas := hi.actions x hx a ha
    cases a with
    | accept | shiftExtra | recover => simp [Language.cellNumbers]
    | shift n r =>
      have hlt : n < e.stateCount := hhas
      have hstates := hl.states
      simp [Language.cellNumbers, Slot.holds_natCast, Slot.greatest]
      omega
    | reduce r =>
      obtain ⟨hsymbol, hchildren, hproduction⟩ := hhas
      have hsymbols := hl.symbols
      have hmax := hl.maxChildren
      have hslices := hl.slices
      have hid : (Language.ofEncoding e).symbolId r.symbol = e.symbolId r.symbol := by
        cases r.symbol <;> rfl
      have hdynamic := hl.dynamic x hx r ha
      simp only [Language.cellNumbers, List.forall_mem_cons, Slot.holds_natCast, Slot.greatest,
        hid]
      exact ⟨by omega, by omega, hdynamic, by omega, by simp⟩
  have hheader : (∀ y ∈ (Language.ofEncoding e).cellNumbers (.header x.actions.length x.reusable),
      y.1.Holds y.2) ↔ x.actions.length ≤ 255 := by
    simp [Language.cellNumbers, Slot.holds_natCast, Slot.greatest]
  simp only [Language.entryCells, List.forall_mem_cons, List.forall_mem_map, hheader]
  exact and_iff_left hactions

/-- The numbers outside of the array of actions fit. -/
theorem holds_tableNumbers (hi : e.Indexed) (hl : e.Limited) :
    ∀ x ∈ (Language.ofEncoding e).tableNumbers, x.1.Holds x.2 := by
  have htokens := hi.tokenCount
  have hlarge := hi.largeCount
  have hsymbols := hl.symbols
  have hstates := hl.states
  have hfields := hl.fields
  have hslices := hl.slices
  have hentries := hl.fieldEntries
  have hchildren := hl.maxChildren
  simp only [Language.tableNumbers, List.forall_mem_append, Slot.forall_mem_each, and_assoc,
    Slot.greatest]
  refine ⟨?_, ?_, ?_, ?_, ?_, ?_, ?_, ?_, ?_, ?_, ?_, ?_, ?_, ?_, ?_⟩
  · have hbyte : ∀ b : UInt8, b.toNat ≤ 255 := fun b => Nat.le_of_lt_succ b.toNat_lt
    simp [hbyte]
  · simp only [List.forall_mem_cons, Language.ofEncoding, Language.symbolCount, List.size_toArray]
    have hcount : e.symbols.size ≤ 65535 := hsymbols
    exact ⟨by omega, by omega, by omega, by omega, by omega, by omega, by simp⟩
  · refine List.forall_mem_cons.2 ⟨hchildren.trans (by decide), fun n hn => ?_⟩
    have := hi.word n (Option.mem_toList.1 hn)
    omega
  · intro n hn
    have : n < e.symbolCount := List.mem_range.1 hn
    omega
  · refine List.forall_mem_map.2 fun s hs => ?_
    have := hi.publicIds s (Array.mem_toList_iff.1 hs)
    omega
  · intro n hn
    have := (List.mem_range'_1.1 hn).2
    simp only [Language.ofEncoding, List.size_toArray] at this
    omega
  · simp only [List.forall_mem_flatMap, Language.ofEncoding]
    intro x hx
    have := hi.slices x hx
    simp only [List.forall_mem_cons]
    exact ⟨by omega, by omega, by simp⟩
  · refine List.forall_mem_map.2 fun x hx => ?_
    obtain ⟨-, hle, -⟩ := hi.fieldEntries x hx
    omega
  · refine List.forall_mem_map.2 fun x hx => ?_
    obtain ⟨-, -, hlt⟩ := hi.fieldEntries x hx
    omega
  · intro n hn
    obtain ⟨row, hrow, hn⟩ := List.mem_flatten.1 hn
    exact ((hi.largeRows row hrow).2 n hn).le hl
  · exact fun n hn => le_of_mem_smallTable hi hl n (Array.mem_toList_iff.1 hn)
  · intro n hn
    have := hi.smallOffsets n hn
    have := hl.small
    omega
  · intro n hn
    have := hi.lexModes n hn
    have := hl.lexSets
    omega
  · intro n hn
    have := hi.primary n hn
    omega
  · refine List.forall_mem_map.2 fun k hk => ?_
    have := hi.keywords k hk
    omega

/-- The numbers of indexed tables within the limits fit exactly if no entry has more than 255
actions. -/
theorem fits_iff (hi : e.Indexed) (hl : e.Limited) :
    (Language.ofEncoding e).Fits ↔ ∀ x ∈ e.actionEntries, x.actions.length ≤ 255 := by
  rw [Language.Fits, Language.numbers, List.forall_mem_append,
    and_iff_right (holds_tableNumbers hi hl)]
  simp only [Language.ofEncoding, List.forall_mem_flatMap]
  exact forall₂_congr fun x hx => holds_entryCells_iff hi hl hx

end Encoding

section

variable {source : Grammar} {g : FlatGrammar} {t : Tables}

/-- Tables of a grammar that are within the limits are encoded, and every number fits into its slot
exactly if no state has more than 255 actions for a terminal. For other tables a number is over its
limit. -/
theorem numbers_fit_iff [RegexEngine] (h : FlatGrammar.ofGrammar source = .ok g)
    (ht : Tables.ofGrammar g = .ok t) (version : Version) :
    (t.Limited g → ∃ e, Encoding.ofTables g t version = .ok e ∧ ((Language.ofEncoding e).Fits ↔
      ∀ s ∈ t.table.states, ∀ x, (s.on x).length ≤ 255)) ∧
    (¬ t.Limited g → ∃ what count limit,
      Encoding.ofTables g t version = .error (.tableLimit what count limit) ∧ limit < count) := by
  have hi := Tables.indexed_of_ofGrammar (FlatGrammar.wellFormed_of_ofGrammar h) ht
  constructor
  · intro hlimited
    obtain ⟨e, he⟩ := (Encoding.exists_ofTables_iff hi).2 hlimited
    have hindexed := Encoding.indexed_of_ofTables hi (FlatGrammar.isToken_word h)
      (FlatGrammar.isToken_keyword h) he
    refine ⟨e, he, ?_⟩
    rw [Encoding.fits_iff hindexed (Encoding.limited_of_ofTables hi he)]
    exact Encoding.forall_actionEntries hi (Encoding.lists_of_ofTables he)
      (P := fun as => as.length ≤ 255) (Nat.zero_le 255)
  · intro hlimited
    cases he : Encoding.ofTables g t version with
    | ok e => exact absurd ((Encoding.exists_ofTables_iff hi).1 ⟨e, he⟩) hlimited
    | error err =>
      obtain ⟨what, count, limit, rfl, hlt⟩ := Encoding.limits_ofTables g t version err he
      exact ⟨what, count, limit, rfl, hlt⟩

/-- The tables of one word are within the limits, and every number fits into its slot. -/
theorem numbers_fit_iff_single : ∃ g t e, FlatGrammar.ofGrammar .single = .ok g ∧
    Tables.ofGrammar g = .ok t ∧ t.Limited g ∧ Encoding.ofTables g t ⟨1, 0, 0⟩ = .ok e ∧
    (Language.ofEncoding e).Fits := by
  obtain ⟨g, t, e, h, ht, he, hfew⟩ := Encoding.exists_single
  have hi := Tables.indexed_of_ofGrammar (FlatGrammar.wellFormed_of_ofGrammar h) ht
  have hlimited := (Encoding.exists_ofTables_iff hi).1 ⟨e, he⟩
  obtain ⟨e', he', hfits⟩ := (numbers_fit_iff h ht ⟨1, 0, 0⟩).1 hlimited
  refine ⟨g, t, e', h, ht, hlimited, he', hfits.2 fun s hs x => ?_⟩
  cases hx : s.actions[TokenSet.position x]? with
  | none => simp [State.on, hx]
  | some actions =>
    have := hfew s hs actions (Array.mem_of_getElem? hx)
    simp only [State.on, hx, Option.getD_some]
    omega

end

end GrammarTables
