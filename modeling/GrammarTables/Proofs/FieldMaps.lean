import GrammarTables.Proofs.FieldLayouts
import GrammarTables.Proofs.Indices
import GrammarTables.Proofs.Keywords
import GrammarTables.Proofs.Reading

/-!
# Field maps

The entries of all layouts stand in one list, in which equal layouts share their entries, and a
production number has a slice of it. Reading a slice gives the entries of the layout it was made
for, and the number in an entry gives the name of its field.
-/

namespace GrammarTables

theorem HoldsAt.mapM {α : Type} {table : Array α} {place : Nat} {values : List α}
    (h : HoldsAt table place values) :
    ((List.range values.length).mapM fun i => table[place + i]?) = some values := by
  induction values generalizing place with
  | nil => rfl
  | cons v vs ih =>
    have hrest := ih h.tail
    simp only [Nat.add_assoc, Nat.add_comm 1] at hrest
    rw [List.length_cons, List.range_succ_eq_map, List.mapM_cons, Nat.add_zero, h.head,
      List.mapM_map]
    simp [Function.comp_def, hrest]

theorem idxOf_map {α β : Type} [DecidableEq α] [DecidableEq β] {f : α → β} {l : List α}
    (hn : (l.map f).Nodup) {a : α} (ha : a ∈ l) : (l.map f).idxOf (f a) = l.idxOf a := by
  have hlt : l.idxOf a < (l.map f).length := by simpa using List.idxOf_lt_length_of_mem ha
  have h := hn.idxOf_getElem (l.idxOf a) hlt
  rwa [List.getElem_map, List.getElem_idxOf] at h

/-- Of two members the smaller one comes first. -/
theorem Ordered.Ascending.idxOf_le {l : List String} (h : Ascending l) {a b : String} (ha : a ∈ l)
    (hb : b ∈ l) (hlt : compare a b = .lt) : l.idxOf a ≤ l.idxOf b := by
  by_contra! hidx
  have hab := List.pairwise_iff_getElem.1 h _ _ (List.idxOf_lt_length_of_mem hb)
    (List.idxOf_lt_length_of_mem ha) hidx
  rw [List.getElem_idxOf, List.getElem_idxOf] at hab
  have hgt : compare a b = .gt := Std.OrientedCmp.gt_of_lt hab
  rw [hlt] at hgt
  cases hgt

namespace Encoding

variable {layouts : List FieldLayout} {layout : FieldLayout} {runs : List (List FieldEntry)}
  {entries : List FieldEntry}

/-- The entries of a layout where fields are numbered from one in the order of their names. -/
def numberedEntries (names : List String) (layout : FieldLayout) : List FieldEntry :=
  layout.flatMap fun (name, places) =>
    places.map fun place => { field := names.idxOf name + 1, place }

theorem names_fieldInfos (layouts : List FieldLayout) :
    (fieldInfos layouts).map (·.name) = Ordered.ofList (layouts.flatMap (·.map (·.1))) := by
  simp [fieldInfos, Function.comp_def]

theorem constants_fieldInfos (layouts : List FieldLayout) :
    (fieldInfos layouts).map (·.constant) =
      ((fieldInfos layouts).map (·.name)).map Constant.ofField := by
  simp [fieldInfos, Function.comp_def]

theorem mem_names_fieldInfos {name : String} :
    name ∈ (fieldInfos layouts).map (·.name) ↔ ∃ layout ∈ layouts, name ∈ layout.map (·.1) := by
  rw [names_fieldInfos, Ordered.mem_ofList, List.mem_flatMap]

/-- Where no two fields have the same constant, a constant stands for the number of its field. -/
theorem layoutEntries_eq (hn : ((fieldInfos layouts).map (·.constant)).Nodup)
    (hl : layout ∈ layouts) : layoutEntries (fieldInfos layouts) layout =
      numberedEntries ((fieldInfos layouts).map (·.name)) layout := by
  have hconstants := constants_fieldInfos layouts
  refine List.flatMap_congr fun x hx => ?_
  have hname : x.1 ∈ (fieldInfos layouts).map (·.name) :=
    mem_names_fieldInfos.2 ⟨layout, hl, List.mem_map_of_mem hx⟩
  have hidx : (fieldInfos layouts).findIdx (·.constant == Constant.ofField x.1) =
      ((fieldInfos layouts).map (·.name)).idxOf x.1 := by
    rw [← idxOf_map (hconstants ▸ hn) hname, ← hconstants, List.idxOf, List.findIdx_map]
    rfl
  simp only [hidx]

/-- A slice is where its entries stand. -/
theorem holdsAt_slice (h : entries ≠ [] → entries ∈ runs) :
    HoldsAt runs.flatten.toArray (slice runs entries).1 entries ∧
      (slice runs entries).2 = entries.length := by
  by_cases hnil : entries = []
  · subst hnil
    exact ⟨nofun, rfl⟩
  · have hempty : entries.isEmpty = false := by simpa using hnil
    have htake : runs.takeWhile (· != entries) = runs.take (runs.idxOf entries) := by
      rw [List.takeWhile_eq_take_findIdx_not]
      simp only [List.idxOf, bne, Bool.not_not]
    have hholds := HoldsAt.of_flatMap id (List.getElem?_idxOf (h hnil))
    rw [List.flatMap_id, ← List.map_take, ← htake] at hholds
    simp only [slice, hempty]
    exact ⟨hholds, rfl⟩

/-- Entries are listed by ascending numbers of their fields. -/
theorem pairwise_numberedEntries {names : List String} (hnames : Ordered.Ascending names)
    (hasc : Ordered.Ascending (layout.map (·.1))) (hsub : ∀ x ∈ layout, x.1 ∈ names) :
    (numberedEntries names layout).Pairwise fun x y => x.field ≤ y.field := by
  refine List.pairwise_flatMap.2 ⟨fun x _ => ?_, ?_⟩
  · exact List.pairwise_map.2 (List.pairwise_of_forall fun _ _ => le_rfl)
  · refine (List.pairwise_map.1 hasc).imp_of_mem fun {a b} ha hb hlt x hx y hy => ?_
    obtain ⟨_, -, rfl⟩ := List.mem_map.1 hx
    obtain ⟨_, -, rfl⟩ := List.mem_map.1 hy
    exact Nat.succ_le_succ (hnames.idxOf_le (hsub a ha) (hsub b hb) hlt)

end Encoding

namespace Language

variable {g : FlatGrammar} {t : Tables} {e : Encoding}

theorem fieldName?_ofEncoding {name : String} (hname : name ∈ e.fields.map (·.name)) :
    (ofEncoding e).fieldName? ((e.fields.map (·.name)).idxOf name + 1) = some name := by
  have h := List.getElem?_idxOf hname
  rw [List.getElem?_map] at h
  simpa [fieldName?, ofEncoding] using h

/-- Reading the fields of a production number gives the entries of its layout. -/
theorem fieldMap?_ofEncoding (hp : Encoding.Parts g t e)
    (hn : (e.fields.map (·.constant)).Nodup) {id : Nat} {layout : FieldLayout}
    (hl : t.table.layouts[id]? = some layout) : (ofEncoding e).fieldMap? id =
      some (Encoding.numberedEntries (e.fields.map (·.name)) layout) := by
  have hmem := List.mem_of_getElem? hl
  by_cases hfields : e.fields = []
  · have hnil : layout = [] := by
      refine List.eq_nil_iff_forall_not_mem.2 fun x hx => ?_
      have hname := Encoding.mem_names_fieldInfos.2 ⟨layout, hmem, List.mem_map_of_mem hx⟩
      rw [← hp.fields, hfields] at hname
      cases hname
    subst hnil
    simp [fieldMap?, ofEncoding, hfields, Encoding.numberedEntries]
  · have hentries : Encoding.layoutEntries e.fields layout =
        Encoding.numberedEntries (e.fields.map (·.name)) layout := by
      rw [hp.fields] at hn ⊢
      exact Encoding.layoutEntries_eq hn hmem
    obtain ⟨hholds, hlength⟩ := Encoding.holdsAt_slice (Encoding.mem_runs
      (List.mem_map_of_mem (f := Encoding.layoutEntries e.fields) hmem))
    have hslice : (ofEncoding e).slices[id]? =
        some (Encoding.slice (Encoding.runs (t.table.layouts.map (Encoding.layoutEntries e.fields)))
          (Encoding.layoutEntries e.fields layout)) := by
      simp [ofEncoding, hp.slices, hl]
    rw [← hp.fieldEntries] at hholds
    rw [fieldMap?, if_neg (by simpa [ofEncoding] using hfields), hslice, ← hentries]
    simp only [Option.bind_eq_bind, Option.bind_some, hlength]
    exact hholds.mapM

end Language

/-- The field layouts of a grammar's tables have their fields in ascending order. -/
theorem Tables.ascending_layouts {g : FlatGrammar} {t : Tables} (h : Tables.ofGrammar g = .ok t) :
    ∀ layout ∈ t.table.layouts, Ordered.Ascending (layout.map (·.1)) := by
  obtain ⟨⟨canonical, conflicts⟩, hc, h⟩ := bind_eq_ok.1 h
  cases h
  obtain ⟨-, hlayouts, -⟩ := Canonical.table_of_canonical hc
  intro layout hl
  change layout ∈ canonical.layouts at hl
  rw [hlayouts] at hl
  exact (Canonical.keyed_of_mem_numbered hl).ascending

/-- Reading encoded tables gives the fields back that they were made from: those of a production
number with their places in the order of the layout, which for the tables of a grammar is that of
the names, and under numbers that the names can be read by. -/
theorem fields_read_back {g : FlatGrammar} {t : Tables} {version : Version} {e : Encoding}
    (h : Encoding.ofTables g t version = .ok e) (hn : (e.fields.map (·.constant)).Nodup) :
    let names := e.fields.map (·.name)
    Ordered.Ascending names ∧
      (∀ name, name ∈ names ↔ ∃ layout ∈ t.table.layouts, name ∈ layout.map (·.1)) ∧
      e.fields.map (·.constant) = names.map Constant.ofField ∧
      (∀ id layout, t.table.layouts[id]? = some layout →
        (Language.ofEncoding e).fieldMap? id = some (Encoding.numberedEntries names layout)) ∧
      (∀ layout ∈ t.table.layouts, Ordered.Ascending (layout.map (·.1)) →
        (Encoding.numberedEntries names layout).Pairwise fun x y => x.field ≤ y.field) ∧
      (Tables.ofGrammar g = .ok t →
        ∀ layout ∈ t.table.layouts, Ordered.Ascending (layout.map (·.1))) ∧
      ∀ name ∈ names,
        (Language.ofEncoding e).fieldName? (names.idxOf name + 1) = some name := by
  have hp := Encoding.parts_of_ofTables h
  have hnames : Ordered.Ascending (e.fields.map (·.name)) := by
    rw [hp.fields, Encoding.names_fieldInfos]
    exact Ordered.ascending_ofList _
  have hmem : ∀ name, name ∈ e.fields.map (·.name) ↔
      ∃ layout ∈ t.table.layouts, name ∈ layout.map (·.1) := by
    rw [hp.fields]
    exact fun name => Encoding.mem_names_fieldInfos
  have hconstants : e.fields.map (·.constant) =
      (e.fields.map (·.name)).map Constant.ofField := by
    rw [hp.fields]
    exact Encoding.constants_fieldInfos _
  refine ⟨hnames, hmem, hconstants, fun id layout hl => Language.fieldMap?_ofEncoding hp hn hl,
    fun layout hl hasc => ?_, Tables.ascending_layouts,
    fun name hname => Language.fieldName?_ofEncoding hname⟩
  exact Encoding.pairwise_numberedEntries hnames hasc fun x hx =>
    (hmem x.1).2 ⟨layout, hl, List.mem_map_of_mem hx⟩

/-- Tables without states. -/
def Tables.blank : Tables where
  table := { states := #[], layouts := [], maxChildren := 0 }
  largeCount := 0
  primary := []
  lexSets := []
  lexStates := []
  reusable := []
  conflicts := []

/-- Tables without states, of whose production numbers two have the same layout. -/
def Tables.fielded : Tables :=
  let sides : FieldLayout := [("left", [⟨0, false⟩]), ("right", [⟨2, false⟩])]
  let layouts := [[], sides, [("left", [⟨1, false⟩])], sides, [("name", [⟨0, true⟩, ⟨1, true⟩])]]
  { blank with table := { states := #[], layouts, maxChildren := 3 } }

/-- The layout behind shared ones is read back, and the name of its field. -/
theorem fields_read_back_fielded : ∃ g e, FlatGrammar.ofGrammar .single = .ok g ∧
    Encoding.ofTables g .fielded ⟨1, 0, 0⟩ = .ok e ∧ (e.fields.map (·.constant)).Nodup ∧
    (Language.ofEncoding e).fieldMap? 0 = some [] ∧
    (Language.ofEncoding e).fieldMap? 3 = some [⟨1, ⟨0, false⟩⟩, ⟨3, ⟨2, false⟩⟩] ∧
    (Language.ofEncoding e).fieldMap? 4 = some [⟨2, ⟨0, true⟩⟩, ⟨2, ⟨1, true⟩⟩] ∧
    (Language.ofEncoding e).fieldName? 2 = some "name" := by
  obtain ⟨g, h, hcount⟩ : ∃ g, FlatGrammar.ofGrammar .single = .ok g ∧ g.symbolCount ≤ 65535 :=
    FlatGrammar.exists_of_decide (by decide +kernel)
  have hcounts : Encoding.checkCounts g .fielded
      (Encoding.fieldInfos Tables.fielded.table.layouts) = .ok () := by
    rw [Encoding.checkCounts, checkLimit_of_le hcount]
    rfl
  obtain ⟨e, he⟩ : ∃ e, Encoding.ofTables g .fielded ⟨1, 0, 0⟩ = .ok e :=
    ⟨_, bind_eq_ok.2 ⟨(), hcounts, rfl⟩⟩
  have hfields := (Encoding.parts_of_ofTables he).fields
  have hnames : e.fields.map (·.name) = ["left", "name", "right"] := by
    rw [hfields]
    decide
  have hn : (e.fields.map (·.constant)).Nodup := by
    rw [hfields]
    decide +kernel
  obtain ⟨-, -, -, hmaps, -, -, hread⟩ := fields_read_back he hn
  rw [hnames] at hmaps hread
  exact ⟨g, e, h, he, hn, hmaps 0 _ rfl, hmaps 3 _ rfl, hmaps 4 _ rfl,
    hread "name" (by decide)⟩

end GrammarTables
