/-
What is sent of an object: a function of the schema, of the object's
values and of which of its links are resolved, and instructions about
nothing but the object.

# Links

A link is sent by its target's table and primary key. Whether the target
exists is asked for as well (`FlxDb.has`), for each link anywhere in the
values, those of embedded objects included (`fieldLinks`).
-/
import BarqSync.Server.Flx.Session

namespace BarqSync.Flx

open FlxDb

-- ===== links

/-- The target of a link. -/
def linkOf : Mixed → List ObjectRef
  | .link table key => [(table, key)]
  | _ => []

mutual

/-- All links a value holds. -/
def FlxValue.allLinks : FlxValue → List ObjectRef
  | .mixed m => linkOf m
  | .object fields => fieldLinks fields
  | .list elems => listLinks elems
  | .dictionary entries => fieldLinks entries
  | .set elems => elems.flatMap linkOf

/-- All links of the items of a list. -/
def listLinks : List FlxValue → List ObjectRef
  | [] => []
  | v :: vs => v.allLinks ++ listLinks vs

/-- All links of the columns of an object or the entries of a
dictionary. -/
def fieldLinks : List (Bytes × FlxValue) → List ObjectRef
  | [] => []
  | (_, v) :: fields => v.allLinks ++ fieldLinks fields

end

/-- The links of an item are links of the list. -/
theorem allLinks_of_mem {elems : List FlxValue} {v : FlxValue}
    (hv : v ∈ elems) : ∀ ref ∈ v.allLinks, ref ∈ listLinks elems := by
  induction elems with
  | nil => cases hv
  | cons w elems ih =>
    intro ref href
    rw [listLinks, List.mem_append]
    rcases List.mem_cons.1 hv with rfl | hv
    · exact .inl href
    · exact .inr (ih hv ref href)

/-- The links of a column are links of the object. -/
theorem allLinks_of_mem_fields {fields : FlxFields}
    {e : Bytes × FlxValue} (he : e ∈ fields) :
    ∀ ref ∈ e.2.allLinks, ref ∈ fieldLinks fields := by
  induction fields with
  | nil => cases he
  | cons f fields ih =>
    intro ref href
    obtain ⟨name, v⟩ := f
    rw [fieldLinks, List.mem_append]
    rcases List.mem_cons.1 he with rfl | he
    · exact .inl href
    · exact .inr (ih he ref href)

/-- Two snapshots have the same schema. -/
def SameSchema (db db' : FlxDb) : Prop := db.tables = db'.tables

/-- Two snapshots have the same of some objects. -/
def SameHas (db db' : FlxDb) (refs : List ObjectRef) : Prop :=
  ∀ ref ∈ refs, db.has ref = db'.has ref

section emission

variable {db db' : FlxDb} {v : FlxValue} {refs refs' : List ObjectRef}
  {fields : FlxFields}

/-- Fewer objects have to be the same. -/
theorem SameHas.mono (h : SameHas db db' refs)
    (hsub : ∀ ref ∈ refs', ref ∈ refs) :
    SameHas db db' refs' :=
  fun ref href => h ref (hsub ref href)

theorem SameHas.left (h : SameHas db db' (refs ++ refs')) :
    SameHas db db' refs :=
  h.mono fun _ href => List.mem_append_left _ href

theorem SameHas.right (h : SameHas db db' (refs ++ refs')) :
    SameHas db db' refs' :=
  h.mono fun _ href => List.mem_append_right _ href

section

variable (ht : SameSchema db db')

include ht

theorem SameSchema.getTable (name : Bytes) :
    db.getTable name = db'.getTable name := by
  rw [FlxDb.getTable, FlxDb.getTable, ht]

theorem SameSchema.typedLinkTargetTable (name : Bytes) :
    db.typedLinkTargetTable name = db'.typedLinkTargetTable name := by
  rw [FlxDb.typedLinkTargetTable, FlxDb.typedLinkTargetTable, ht.getTable]

theorem SameSchema.hasSupportedLinkTarget (col : FlxColumn) :
    db.hasSupportedLinkTarget col = db'.hasSupportedLinkTarget col := by
  rw [FlxDb.hasSupportedLinkTarget, FlxDb.hasSupportedLinkTarget,
    ht.getTable]

theorem SameSchema.hasEmbeddedLinkTarget (col : FlxColumn) :
    db.hasEmbeddedLinkTarget col = db'.hasEmbeddedLinkTarget col := by
  rw [FlxDb.hasEmbeddedLinkTarget, FlxDb.hasEmbeddedLinkTarget,
    ht.getTable]

/-- Which columns are sent is a matter of the schema. -/
theorem SameSchema.canBootstrapValue (col : FlxColumn) :
    db.canBootstrapValue col = db'.canBootstrapValue col := by
  simp only [FlxDb.canBootstrapValue, FlxDb.canBootstrapScalarValue,
    FlxDb.canBootstrapListValue, FlxDb.canBootstrapSetValue,
    FlxDb.canBootstrapDictionaryValue, ht.hasSupportedLinkTarget col,
    ht.hasEmbeddedLinkTarget col]

/-- The walk over the tables asks for the schema only. -/
theorem SameSchema.addSchemaImpl (fuel : Nat) :
    ∀ visiting name table, db.addSchemaImpl fuel visiting name table
      = db'.addSchemaImpl fuel visiting name table := by
  induction fuel with
  | zero => exact fun _ _ _ => rfl
  | succ fuel ih =>
    intro visiting name table
    have hrec : ∀ visiting name, db.addSchemaImpl fuel visiting name
          = db'.addSchemaImpl fuel visiting name :=
      fun visiting name => funext (ih visiting name)
    simp only [FlxDb.addSchemaImpl, FlxDb.addColumn, ht.getTable,
      ht.hasSupportedLinkTarget, ht.hasEmbeddedLinkTarget,
      ht.canBootstrapValue, hrec]

/-- So is the schema that goes along with an object. -/
theorem SameSchema.addSchema (name : Bytes) :
    db.addSchema name = db'.addSchema name := by
  have hlength : db.tables.length = db'.tables.length := by rw [ht]
  have himpl : db.addSchemaImpl (db.tables.length + 1) [] name
      = db'.addSchemaImpl (db'.tables.length + 1) [] name := by
    rw [hlength]
    exact funext (ht.addSchemaImpl _ [] name)
  rw [FlxDb.addSchema, FlxDb.addSchema, ht.getTable, himpl]

/-- A link is sent as null unless its target exists. -/
theorem payload_congr {m : Mixed}
    (h : SameHas db db' (linkOf m)) : db.payload m = db'.payload m := by
  cases m with
  | link table key =>
    have hhas := h (table, key) List.mem_cons_self
    simp only [payload, linkPayload, ht.typedLinkTargetTable, hhas]
  | _ => rfl

/-- Whether a value can be sent depends on its link, if it is one. -/
theorem mixedValueCanBootstrapPayload_congr
    (h : SameHas db db' v.allLinks) :
    db.mixedValueCanBootstrapPayload v
      = db'.mixedValueCanBootstrapPayload v := by
  cases v with
  | mixed m =>
    cases m with
    | link table key =>
      have hhas := h (table, key) List.mem_cons_self
      simp only [mixedValueCanBootstrapPayload,
        ht.typedLinkTargetTable, hhas]
    | _ => rfl
  | _ => rfl

end

theorem all_congr_of_mem {α : Type*} {l : List α} {f g : α → Bool}
    (h : ∀ a ∈ l, f a = g a) : l.all f = l.all g := by
  rw [Bool.eq_iff_iff, List.all_eq_true, List.all_eq_true]
  exact forall₂_congr fun a ha => by rw [h a ha]

/-- Whether a column can be sent depends on its links. -/
theorem currentValueCanBootstrap_congr (ht : SameSchema db db')
    (col : FlxColumn) (h : SameHas db db' v.allLinks) :
    db.currentValueCanBootstrap col v
      = db'.currentValueCanBootstrap col v := by
  have hsingle := mixedValueCanBootstrapPayload_congr ht h
  have hlist : ∀ elems, SameHas db db' (listLinks elems) →
      elems.all db.mixedValueCanBootstrapPayload
        = elems.all db'.mixedValueCanBootstrapPayload := by
    intro elems helems
    exact all_congr_of_mem fun v hv =>
      mixedValueCanBootstrapPayload_congr ht
        (helems.mono (allLinks_of_mem hv))
  have hset : ∀ elems : List Mixed, SameHas db db' (elems.flatMap linkOf) →
      (elems.all fun m => db.mixedValueCanBootstrapPayload (.mixed m))
        = elems.all fun m =>
          db'.mixedValueCanBootstrapPayload (.mixed m) := by
    intro elems helems
    apply all_congr_of_mem
    intro m hm
    apply mixedValueCanBootstrapPayload_congr ht
    exact helems.mono fun ref href => List.mem_flatMap.2 ⟨m, hm, href⟩
  have hentries : ∀ entries : List (Bytes × FlxValue),
      SameHas db db' (fieldLinks entries) →
      (entries.all fun e => db.mixedValueCanBootstrapPayload e.2)
        = entries.all fun e =>
          db'.mixedValueCanBootstrapPayload e.2 := by
    intro entries h
    exact all_congr_of_mem fun e he =>
      mixedValueCanBootstrapPayload_congr ht
        (h.mono (allLinks_of_mem_fields he))
  unfold currentValueCanBootstrap
  congr 1
  generalize col.collection = kind
  cases kind <;> cases v <;>
    first
      | exact hsingle
      | exact hlist _ h
      | exact hset _ h
      | exact hentries _ h

/-- What is sent of a column depends on the links in it. -/
theorem bootstrapColumn_congr (ht : SameSchema db db') (table : FlxTable)
    (name : Bytes) (h : SameHas db db' v.allLinks) :
    db.bootstrapColumn table name v = db'.bootstrapColumn table name v := by
  simp only [bootstrapColumn, ht.canBootstrapValue,
    currentValueCanBootstrap_congr ht _ h]

section

variable (ht : SameSchema db db') (f : FlxField)

include ht

mutual

/-- What is sent of a value depends on the schema, the value and which of
its links are resolved. -/
theorem addValue_congr (col : FlxColumn) (path : List (PathElement Bytes)) :
    (v : FlxValue) → SameHas db db' v.allLinks →
      db.addValue f col path v = db'.addValue f col path v
  | .mixed m, h => by
    rw [FlxDb.addValue, FlxDb.addValue, payload_congr ht h]
  | .object fields, h => by
    rw [FlxDb.addValue, FlxDb.addValue, ht.getTable,
      addEmbeddedValues_congr _ path fields h]
  | .list elems, h => by
    rw [FlxDb.addValue, FlxDb.addValue,
      addListItems_congr col path 0 elems h]
  | .dictionary entries, h => by
    rw [FlxDb.addValue, FlxDb.addValue,
      addEntries_congr col path entries h]
  | .set elems, h => by
    rw [FlxDb.addValue, FlxDb.addValue]
    congr 1
    apply List.map_congr_left
    intro m hm
    rw [payload_congr ht]
    exact h.mono fun ref href => List.mem_flatMap.2 ⟨m, hm, href⟩

theorem addListItems_congr (col : FlxColumn)
    (path : List (PathElement Bytes)) (i : UInt32) :
    (elems : List FlxValue) → SameHas db db' (listLinks elems) →
      db.addListItems f col path i elems
        = db'.addListItems f col path i elems
  | [], _ => by rw [FlxDb.addListItems, FlxDb.addListItems]
  | .mixed m :: elems, h => by
    rw [FlxDb.addListItems, FlxDb.addListItems, payload_congr ht h.left,
      addListItems_congr col path (i + 1) elems h.right]
  | .object fields :: elems, h => by
    rw [FlxDb.addListItems, FlxDb.addListItems, ht.getTable,
      addEmbeddedValues_congr _ _ fields h.left,
      addListItems_congr col path (i + 1) elems h.right]
  | .list _ :: elems, h | .dictionary _ :: elems, h | .set _ :: elems, h =>
    addListItems_congr col path (i + 1) elems h.right

theorem addEntries_congr (col : FlxColumn)
    (path : List (PathElement Bytes)) :
    (entries : List (Bytes × FlxValue)) →
      SameHas db db' (fieldLinks entries) →
      db.addEntries f col path entries = db'.addEntries f col path entries
  | [], _ => by rw [FlxDb.addEntries, FlxDb.addEntries]
  | (_, .mixed m) :: entries, h => by
    rw [FlxDb.addEntries, FlxDb.addEntries, payload_congr ht h.left,
      addEntries_congr col path entries h.right]
  | (_, .object fields) :: entries, h => by
    rw [FlxDb.addEntries, FlxDb.addEntries, ht.getTable,
      addEmbeddedValues_congr _ _ fields h.left,
      addEntries_congr col path entries h.right]
  | (_, .list _) :: entries, h | (_, .dictionary _) :: entries, h
  | (_, .set _) :: entries, h =>
    addEntries_congr col path entries h.right

theorem addEmbeddedValues_congr (table : Option FlxTable)
    (path : List (PathElement Bytes)) :
    (fields : List (Bytes × FlxValue)) →
      SameHas db db' (fieldLinks fields) →
      db.addEmbeddedValues f table path fields
        = db'.addEmbeddedValues f table path fields
  | [], _ => by rw [FlxDb.addEmbeddedValues, FlxDb.addEmbeddedValues]
  | (name, v) :: fields, h => by
    have hcol : ∀ t, db.bootstrapColumn t name v
        = db'.bootstrapColumn t name v :=
      fun t => bootstrapColumn_congr ht t name h.left
    have hvalue : ∀ col, db.addValue f col (path ++ [.key name]) v
        = db'.addValue f col (path ++ [.key name]) v :=
      fun col => addValue_congr col _ v h.left
    rw [FlxDb.addEmbeddedValues, FlxDb.addEmbeddedValues,
      addEmbeddedValues_congr table path fields h.right]
    simp only [hcol, hvalue]

end

end

/-- What is sent of an object depends on its links. -/
theorem fieldChanges_congr (ht : SameSchema db db') (ref : ObjectRef)
    (table : FlxTable) (h : SameHas db db' (fieldLinks fields)) :
    db.fieldChanges ref table fields
      = db'.fieldChanges ref table fields := by
  rw [fieldChanges, fieldChanges]
  apply List.filterMap_congr
  intro e he
  have hlinks := h.mono (allLinks_of_mem_fields he)
  rw [bootstrapColumn_congr ht table e.1 hlinks]
  congr 1
  funext col
  rw [addValue_congr ht _ col [] e.2 hlinks]

/-- The links that are followed are among all links. -/
theorem mem_allLinks_of_mem_links {ref : ObjectRef} (h : ref ∈ v.links) :
    ref ∈ v.allLinks := by
  cases v with
  | mixed m =>
    cases m with
    | link table key => exact h
    | _ => cases h
  | object fields => cases h
  | list elems =>
    obtain ⟨w, hw, hlink⟩ := List.mem_filterMap.1 h
    refine allLinks_of_mem hw ref ?_
    split at hlink
    · cases hlink
      exact List.mem_cons_self
    · cases hlink
  | dictionary entries =>
    obtain ⟨e, he, hlink⟩ := List.mem_filterMap.1 h
    refine allLinks_of_mem_fields he ref ?_
    split at hlink
    · cases hlink
      exact List.mem_cons_self
    · cases hlink
  | set elems =>
    obtain ⟨m, hm, hlink⟩ := List.mem_filterMap.1 h
    refine List.mem_flatMap.2 ⟨m, hm, ?_⟩
    split at hlink
    · cases hlink
      exact List.mem_cons_self
    · cases hlink

/-- So do the objects that are sent along. -/
theorem dependencies_congr (ht : SameSchema db db') (table : FlxTable)
    (h : SameHas db db' (fieldLinks fields)) :
    db.dependencies table fields = db'.dependencies table fields := by
  rw [dependencies, dependencies]
  apply List.flatMap_congr
  intro e he
  have hlinks := h.mono (allLinks_of_mem_fields he)
  have hfilter : ∀ ref ∈ e.2.links, db.has ref = db'.has ref :=
    fun ref href => hlinks ref (mem_allLinks_of_mem_links href)
  congr 1
  funext col
  rw [currentValueCanBootstrap_congr ht col hlinks,
    ht.hasSupportedLinkTarget, List.filter_congr hfilter,
    List.filter_congr (q := fun ref =>
      (db'.typedLinkTargetTable ref.1).isSome && db'.has ref)]
  intro ref href
  rw [ht.typedLinkTargetTable, hfilter ref href]

end emission

-- ===== subjects

/-- The object a CreateObject, Update or collection instruction is
about. -/
def subject : FlxInstr → Option (Bytes × PrimaryKey Bytes)
  | .createObject table key => some (table, key)
  | .path p => some (p.table, p.object)
  | _ => none

/-- Instructions about one object, schema and erasures apart. -/
def About (table : Bytes) (key : PrimaryKey Bytes)
    (instrs : List FlxInstr) : Prop :=
  ∀ instr ∈ instrs, ∀ s, subject instr = some s → s = (table, key)

section about

variable {table : Bytes} {key : PrimaryKey Bytes} {instr : FlxInstr}
  {instrs instrs' : List FlxInstr}

@[simp]
theorem about_nil : About table key [] := List.forall_mem_nil _

@[simp]
theorem about_cons : About table key (instr :: instrs)
    ↔ (∀ s, subject instr = some s → s = (table, key))
      ∧ About table key instrs :=
  List.forall_mem_cons

@[simp]
theorem about_append : About table key (instrs ++ instrs')
    ↔ About table key instrs ∧ About table key instrs' :=
  List.forall_mem_append

@[simp]
theorem about_flatMap {α : Type*} {l : List α} {g : α → List FlxInstr} :
    About table key (l.flatMap g) ↔ ∀ a ∈ l, About table key (g a) :=
  List.forall_mem_flatMap

end about

section instrs

variable {db : FlxDb} {key : PrimaryKey Bytes} {ref : ObjectRef}
  {table : Bytes}

variable (f : FlxField)

/-- An instruction on a column is about the column's object. -/
@[simp]
theorem FlxField.subject_instr (path : List (PathElement Bytes))
    (op : PathOp Bytes Bytes) :
    subject (f.instr path op) = some (f.table, f.object) := rfl

/-- An Update is about the column's object. -/
@[simp]
theorem FlxField.subject_addUpdate (path : List (PathElement Bytes))
    (p : Payload Bytes Bytes) :
    subject (f.addUpdate path p) = some (f.table, f.object) := rfl

mutual

/-- What is sent of a value is about the object that has it. -/
theorem about_addValue (col : FlxColumn)
    (path : List (PathElement Bytes)) :
    (v : FlxValue) → About f.table f.object (db.addValue f col path v)
  | .mixed m => by simp [FlxDb.addValue]
  | .object fields => by
    simp [FlxDb.addValue, about_addEmbeddedValues _ path fields]
  | .list elems => by
    simp [FlxDb.addValue, about_addListItems col path 0 elems]
  | .dictionary entries => by
    simp [FlxDb.addValue, about_addEntries col path entries]
  | .set elems => by
    rw [FlxDb.addValue, about_cons]
    refine ⟨by simp, fun instr hmem => ?_⟩
    obtain ⟨m, -, rfl⟩ := List.mem_map.1 hmem
    simp

theorem about_addListItems (col : FlxColumn)
    (path : List (PathElement Bytes)) (i : UInt32) :
    (elems : List FlxValue) →
      About f.table f.object (db.addListItems f col path i elems)
  | [] => by simp [FlxDb.addListItems]
  | .mixed m :: elems => by
    simp [FlxDb.addListItems, about_addListItems col path (i + 1) elems]
  | .object fields :: elems => by
    simp [FlxDb.addListItems, about_addEmbeddedValues _ _ fields,
      about_addListItems col path (i + 1) elems]
  | .list _ :: elems | .dictionary _ :: elems | .set _ :: elems =>
    about_addListItems col path (i + 1) elems

theorem about_addEntries (col : FlxColumn)
    (path : List (PathElement Bytes)) :
    (entries : List (Bytes × FlxValue)) →
      About f.table f.object (db.addEntries f col path entries)
  | [] => by simp [FlxDb.addEntries]
  | (_, .mixed m) :: entries => by
    simp [FlxDb.addEntries, about_addEntries col path entries]
  | (_, .object fields) :: entries => by
    simp [FlxDb.addEntries, about_addEmbeddedValues _ _ fields,
      about_addEntries col path entries]
  | (_, .list _) :: entries | (_, .dictionary _) :: entries
  | (_, .set _) :: entries => about_addEntries col path entries

theorem about_addEmbeddedValues (table : Option FlxTable)
    (path : List (PathElement Bytes)) :
    (fields : List (Bytes × FlxValue)) →
      About f.table f.object (db.addEmbeddedValues f table path fields)
  | [] => by simp [FlxDb.addEmbeddedValues]
  | (name, v) :: fields => by
    rw [FlxDb.addEmbeddedValues, about_append]
    refine ⟨?_, about_addEmbeddedValues table path fields⟩
    cases table.bind fun t => db.bootstrapColumn t name v with
    | none => exact about_nil
    | some col => exact about_addValue col _ v

end

/-- An image is about its object. -/
theorem about_image {changes : List (Bytes × List FlxInstr)}
    (h : db.image ref = some changes) :
    About (tableNameToClassName ref.1) ref.2 (changes.flatMap (·.2)) := by
  obtain ⟨table, -, h⟩ := Option.bind_eq_some_iff.1 h
  obtain ⟨fields, -, rfl⟩ := Option.map_eq_some_iff.1 h
  rw [about_flatMap]
  intro change hmem
  obtain ⟨e, -, hchange⟩ := List.mem_filterMap.1 hmem
  obtain ⟨col, -, rfl⟩ := Option.map_eq_some_iff.1 hchange
  exact about_addValue _ col [] e.2

/-- The schema is about no object. -/
theorem about_addSchemaImpl (fuel : Nat) : ∀ visiting name t,
      About table key (db.addSchemaImpl fuel visiting name t) := by
  induction fuel with
  | zero =>
    intro visiting name t
    exact about_cons.2 ⟨by rintro s ⟨⟩, about_nil⟩
  | succ fuel ih =>
    intro visiting name t
    rw [addSchemaImpl, about_cons]
    refine ⟨by rintro s ⟨⟩, ?_⟩
    split
    · exact about_nil
    rw [about_flatMap]
    intro c _
    rw [about_append]
    refine ⟨?_, about_cons.2 ⟨by rintro s ⟨⟩, about_nil⟩⟩
    split
    · cases db.getTable c.2.target with
      | none => exact about_nil
      | some t => exact ih _ _ t
    · split
      · cases db.getTable c.2.target with
        | none => exact about_nil
        | some t => exact about_cons.2 ⟨by rintro s ⟨⟩, about_nil⟩
      · exact about_nil

/-- The schema that goes along is about no object. -/
theorem about_addSchema (name : Bytes) :
    About table key (db.addSchema name) := by
  rw [addSchema]
  cases db.getTable name with
  | none => exact about_nil
  | some t => exact about_addSchemaImpl _ _ _ t

/-- A change that announces an object is about it. -/
theorem about_objectChange {body : FlxBody} {change : FlxChange}
    (h : objectChange db body ref = some change) :
    About (tableNameToClassName ref.1) ref.2 change.instrs := by
  obtain ⟨changes, himage, rfl⟩ := Option.map_eq_some_iff.1 h
  refine about_append.2 ⟨?_, about_cons.2
    ⟨fun s hs => (Option.some.inj hs).symm, about_image himage⟩⟩
  split
  · exact about_nil
  · exact about_addSchema ref.1

end instrs

end BarqSync.Flx
