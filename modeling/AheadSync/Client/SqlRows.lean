import AheadSync.Client.Cells
import AheadSync.Client.Naming
import AheadSync.Lib.SqlFile

/-! Rows in their tables (`client/src/rows.rs`): a row is stored through the parameters of its columns
    and read back through the decoder of its fields. The tables are those that opening the store made. -/

namespace AheadSync
open Sql

/-- A row with the kinds of its numbers. -/
abbrev DataRow := SortedMap String Datum

def DataRow.at (row : DataRow) (name : String) : Datum := (row.lookup name).getD .null

/-- The data of a row, one for every field. -/
def rowData (model : ModelDescriptor) (row : Value) : DataRow :=
  .ofList (model.fields.map fun f => (f.name, datum f.valueType (row.index f.name)))

/-- The row, whatever the kinds of its numbers. -/
def DataRow.value (row : DataRow) : Value := .ofEntries (row.entries.map fun e => (e.1, e.2.value))

namespace RowCodec
variable (q : RowCodec) (db : Sql.File SqlValue)

/-- `row_params`, each with its name in `columns_sql`. -/
def rowParams (model : ModelDescriptor) (row : DataRow) : Given SqlValue :=
  model.fields.map fun f => (f.name, q.parameter (row.at f.name))

/-- `identity_params`, as the comparisons of `identity_where` take them: with the affinity of the column. -/
def identityParams (t : Table) (model : ModelDescriptor) (identity : DataRow) :
    String → Option SqlValue :=
  t.made q.stored (fun _ => none) (model.identity.map fun n => (n, q.parameter (identity.at n)))

/-- `decode_row` on the columns that `columns_sql` selects. -/
def decodeRow (model : ModelDescriptor) (t : Table) (r : String → Option SqlValue) :
    Except String DataRow := do
  let entries ← model.fields.mapM fun f => do
    let c ← required (t.columns.find? (fold ·.name = fold f.name)) ("no such column: " ++ f.name)
    let field ← required (model.field c.name) ("unknown column " ++ c.name)
    return (c.name, ← q.decodeValue field.valueType (readCell (r (fold c.name))))
  return .ofList entries

/-- `row_get`. -/
def rowGet (table : String) (model : ModelDescriptor) (identity : DataRow) :
    Except String (Option DataRow) := do
  let t ← required (db.catalog.table table) ("no such table: " ++ table)
  ensure (t.knows (model.fields.map (·.name) ++ model.identity) = true) "no such column"
  match db.first table model.identity (q.identityParams t model identity) with
  | none => return none
  | some r => return some (← q.decodeRow model t r)

/-- The columns that `row_upsert` assigns to a row that is there. -/
def updates (model : ModelDescriptor) : List String :=
  (model.fields.filter fun f => f.name ∉ model.identity).map (·.name)

/-- `row_upsert`; the identity is the key of the table. -/
def rowUpsert (table : String) (model : ModelDescriptor) (row : DataRow) :
    Except String (Sql.File SqlValue) :=
  db.upsert q.stored table (q.rowParams model row) (updates model)

/-- `copy_aside`. -/
def copyAside (model : ModelDescriptor) (identity : DataRow) : Except String (Sql.File SqlValue) := do
  let t ← required (db.catalog.table model.name) ("no such table: " ++ model.name)
  ensure (t.knows (model.fields.map (·.name) ++ model.identity) = true) "no such column"
  match db.first model.name model.identity (q.identityParams t model identity) with
  | none => return db
  | some r =>
    let given := model.fields.map fun f => (f.name, r (fold f.name))
    db.insertOrIgnore q.stored (Ddl.beforeTable model.name) given

end RowCodec

namespace SqlRows

/-- The two tables of a model. -/
inductive Place where
  | main
  | before
  deriving DecidableEq

def Place.table : Place → String → String
  | .main, model => model
  | .before, model => Ddl.beforeTable model

/-- A table has a column of the right type for every field, and the identity as its key. -/
structure Fits (model : ModelDescriptor) (t : Table) : Prop where
  key : t.key = model.identity
  apart : (t.columns.map (fold ·.name)).Nodup
  columns : ∀ f ∈ model.fields, ∃ c ∈ t.columns, c.name = f.name ∧ c.type = storageType f.valueType

/-- What opening a store for a schema has checked or made. -/
structure Opened (s : Schema) (cat : Catalog) : Prop where
  tables : ∀ m ∈ s.models, ∀ p : Place, ∃ t, cat.table (p.table m.name) = some t ∧ Fits m t
  indexes : ∀ m ∈ s.models, ∀ i ∈ cat.indexes, fold i.table ≠ fold (Ddl.beforeTable m.name)

/-- `serde_json` reads a datum that it has printed. -/
def ReadsBack (json : DataJson) (d : Datum) : Prop := json.parse (json.print d) = .ok d

/-- Where the rows with a key are: the cells of its identity. -/
def keyCells (q : RowCodec) (model : ModelDescriptor) (identity : Value) (k : String) :
    Option SqlValue :=
  (model.fields.find? (fold ·.name = k)).bind fun f => q.cell f (datum f.valueType (identity.index f.name))

/-- A table has the row, in the columns of the model. -/
def Stores (q : RowCodec) (db : Sql.File SqlValue) (table : String) (model : ModelDescriptor)
    (identity : Value) (row : DataRow) : Prop :=
  ∃ r, db.first table model.identity (keyCells q model identity) = some r ∧
    ∀ f ∈ model.fields, r (fold f.name) = q.cell f (row.at f.name)

/-- What is read under a key at a place. -/
def readAt (q : RowCodec) (db : Sql.File SqlValue) (p : Place) (model : ModelDescriptor) (identity : Value) :
    Except String (Option DataRow) :=
  q.rowGet db (p.table model.name) model (rowData model identity)

/-- Nothing is read otherwise than before, but for one key at one place. -/
def SameButFor (e : Engine) (q : RowCodec) (db db' : Sql.File SqlValue) (p : Place) (key : RecordKey) : Prop :=
  ∀ m ∈ e.schema.models, ∀ identity k, e.recordKey m.name identity = .ok k → ∀ p', (k, p') ≠ (key, p) →
    readAt q db' p' m k.identity = readAt q db p' m k.identity

/-- A row of a model round-trips through the tables of a catalog, whatever they hold: what no unique
    constraint refuses is stored and read back, and copied aside where nothing is, and no other row is
    touched. -/
structure RoundTrips (e : Engine) (q : RowCodec) (cat : Catalog)
    (defaults : String → String → Option SqlValue) (model : ModelDescriptor) (key : RecordKey)
    (row : DataRow) : Prop where
  stored : ∀ rows, let db : Sql.File SqlValue := ⟨cat, defaults, rows⟩
    ∀ p : Place, (∀ t r, cat.table (p.table model.name) = some t →
      db.making q.stored t (q.rowParams model row) = .ok r →
        db.refuses t r (RowCodec.updates model) = false) →
    ∃ db', q.rowUpsert db (p.table model.name) model row = .ok db' ∧
      Stores q db' (p.table model.name) model key.identity row ∧
      readAt q db' p model key.identity = .ok (some row) ∧ SameButFor e q db db' p key
  copied : ∀ rows, let db : Sql.File SqlValue := ⟨cat, defaults, rows⟩
    Stores q db model.name model key.identity row → readAt q db .before model key.identity = .ok none →
    ∃ db', q.copyAside db model (rowData model key.identity) = .ok db' ∧
      Stores q db' (Ddl.beforeTable model.name) model key.identity row ∧
      readAt q db' .before model key.identity = .ok (some row) ∧ SameButFor e q db db' .before key
  skipped : ∀ rows, let db : Sql.File SqlValue := ⟨cat, defaults, rows⟩
    readAt q db .main model key.identity = .ok none ∨ readAt q db .before model key.identity ≠ .ok none →
    q.copyAside db model (rowData model key.identity) = .ok db

/-- Every `NOT NULL` column of a table has a value in the row, or is not the model's and has a default. -/
def Filled (defaults : String → String → Option SqlValue) (model : ModelDescriptor) (row : DataRow)
    (t : Table) : Prop :=
  ∀ c ∈ t.columns, c.notNull = true → (∃ f ∈ model.fields, f.name = c.name ∧ row.at f.name ≠ .null) ∨
    (∀ f ∈ model.fields, f.name ≠ c.name) ∧ (defaults (fold t.name) (fold c.name)).isSome = true

/-- No other record of the schema has its row in the same table under the same cells. -/
def Alone (e : Engine) (q : RowCodec) (model : ModelDescriptor) (key : RecordKey) : Prop :=
  ∀ m ∈ e.schema.models, ∀ identity k, e.recordKey m.name identity = .ok k → k ≠ key →
    fold m.name = fold model.name →
      ¬Agree model.identity (keyCells q m k.identity) (keyCells q model key.identity)

section Data
variable {e : Engine} {q : RowCodec} {model : ModelDescriptor} {name : String} {key : RecordKey}
  {identity st v : Value} {loader : Bool}

theorem rowData_at (hnd : (model.fields.map (·.name)).Nodup) (row : Value) {f : FieldDescriptor}
    (hf : f ∈ model.fields) : (rowData model row).at f.name = datum f.valueType (row.index f.name) := by
  have hlook : (rowData model row).lookup f.name = some (datum f.valueType (row.index f.name)) :=
    SortedMap.lookup_ofList_of_mem (by simpa [Function.comp_def] using hnd) (List.mem_map.mpr ⟨f, hf, rfl⟩)
  rw [DataRow.at, hlook, Option.getD_some]

/-- An accepted identity and an accepted state: every field holds a normalized value, those of the
    identity the identity's. -/
theorem mergeIdentity_index (hm : e.schema.model name = .ok model) (hk : e.recordKey name identity = .ok key)
    (hs : e.schema.state e.codecs name st loader = .ok v) :
    (∀ f ∈ model.fields, ∃ w, e.schema.normalizeValue e.codecs f w =
      .ok ((mergeIdentity key.identity v).index f.name)) ∧
    ∀ n ∈ model.identity, (mergeIdentity key.identity v).index n = key.identity.index n := by
  obtain ⟨hnd, -, -⟩ := model_valid e.valid (model_mem hm)
  obtain ⟨model', g, hm', -, hid, hg⟩ := recordKey_spec hk
  obtain ⟨model'', g', hm'', hv, hg'⟩ := state_spec hs
  obtain rfl : model = model' := Except.ok.inj (hm.symm.trans hm')
  obtain rfl : model = model'' := Except.ok.inj (hm.symm.trans hm'')
  have hio : Value.obj key.identity.entries = key.identity := by
    rw [hid]; exact (Value.ofEntries_eq_obj _).symm
  have hids : ∀ n ∈ model.identity, (mergeIdentity key.identity v).get n = some (g n) := by
    intro n hn
    have hnot : n ∉ v.entries.map Prod.fst := by
      intro h
      obtain ⟨⟨k, w⟩, he, rfl⟩ := List.mem_map.mp h
      rw [hv] at he
      obtain ⟨f, hf, heq⟩ := List.mem_map.mp (Value.mem_entries_ofEntries he)
      obtain ⟨rfl, -⟩ := Prod.mk.inj heq
      exact absurd hn (by simpa using (List.mem_filter.mp hf).2)
    rw [mergeIdentity, hio, Value.get_setAll_of_notMem hnot, hid, get_ofEntries_map hn]
  refine ⟨fun f hf => ?_, fun n hn => ?_⟩
  · by_cases hfi : f.name ∈ model.identity
    · obtain ⟨field, w, hfield, -, hnorm⟩ := hg f.name hfi
      obtain rfl : f = field := Option.some.inj ((field_of_mem hnd hf).symm.trans hfield)
      exact ⟨w, by rw [Value.index, hids _ hfi]; exact hnorm⟩
    · have hf' : f ∈ Schema.stateFields model := List.mem_filter.mpr ⟨hf, by simpa using hfi⟩
      have ho : v.Ordered := hv ▸ Value.ordered_ofEntries _
      have hget : v.get f.name = some (g' f) := by
        rw [hv, get_ofEntries_fields (nodup_stateFields hnd) hf']
      have hmem : f.name ∈ v.entries.map Prod.fst :=
        List.mem_map.mpr ⟨_, (Value.mem_entries_iff ho).mpr hget, rfl⟩
      obtain ⟨u, hu, hgu⟩ := Value.get_setAll_of_mem (Value.obj key.identity.entries) hmem
      obtain rfl : g' f = u := Option.some.inj (hget.symm.trans ((Value.mem_entries_iff ho).mp hu))
      obtain ⟨w, -, hw⟩ := hg' f hf'
      exact ⟨w, by rw [Value.index, mergeIdentity, hgu]; exact hw⟩
  · rw [Value.index, hids n hn, Value.index, hid, get_ofEntries_map hn]

/-- The datum of a normalized value of a field. -/
theorem typed_normalized {f : FieldDescriptor} {w u : Value}
    (h : e.schema.normalizeValue e.codecs f w = .ok u) :
    (datum f.valueType u = .null ∨ Typed f.valueType (datum f.valueType u)) ∧
      (datum f.valueType u).value = u := by
  unfold Schema.normalizeValue at h
  split at h
  · split at h
    · cases h
      cases f.valueType <;> exact ⟨.inl rfl, rfl⟩
    · cases h
  · exact ⟨.inr (typed_value h).1, (typed_value h).2⟩

/-- A datum is null where its value is. -/
theorem datum_eq_null {ty : ValueType} {u : Value} (h : (datum ty u).value = u) :
    datum ty u = .null ↔ u = .null := by
  constructor
  · intro hd
    rw [← h, hd]
    rfl
  · rintro rfl
    cases ty <;> rfl

/-- A cell is already as the affinity of its column leaves it. -/
theorem stored_cell {f : FieldDescriptor} {d : Datum} (h : d = .null ∨ Typed f.valueType d) :
    (q.cell f d).map (q.stored (storageType f.valueType)) = q.cell f d := by
  obtain ⟨name, ty, nullable, default⟩ := f
  rcases h with rfl | h
  · rfl
  · cases ty with
    | scalar ty =>
      cases ty <;> cases d <;> try exact h.elim
      case int.number n =>
        cases n with
        | float x => exact h.elim
        | int n =>
          have hn : n.natAbs ≤ maxSafeInteger := h
          have h64 : -2 ^ 63 ≤ n ∧ n < 2 ^ 63 := by
            unfold maxSafeInteger at hn
            omega
          simp only [RowCodec.cell, RowCodec.parameter, Datum.asI64, if_pos h64]
          rfl
      case float.number n =>
        cases n with
        | int n => exact h.elim
        | float x => rfl
      all_goals rfl
    | enum name =>
      cases d <;> try exact h.elim
      rfl
    | list element =>
      cases d <;> try exact h.elim
      rfl

theorem cell_isSome {f : FieldDescriptor} {d : Datum} : (q.cell f d).isSome = true ↔ d ≠ .null := by
  rw [RowCodec.cell, Option.isSome_map]
  cases d with
  | number n =>
    cases n with
    | int n =>
      simp only [RowCodec.parameter]
      split <;> simp
    | float x => simp [RowCodec.parameter]
  | _ => simp [RowCodec.parameter]

end Data

section Tables
variable {q : RowCodec} {model : ModelDescriptor} {t : Table}

theorem column_find (hfit : Fits model t) {f : FieldDescriptor} (hf : f ∈ model.fields) :
    ∃ c, t.columns.find? (fold ·.name = fold f.name) = some c ∧ c.name = f.name ∧
      c.type = storageType f.valueType := by
  obtain ⟨c, hc, hname, htype⟩ := hfit.columns f hf
  exact ⟨c, hname ▸ List.find?_key hfit.apart hc, hname, htype⟩

/-- Fields with columns of their own differ also without letter case. -/
theorem fold_fields (hfit : Fits model t) {f g : FieldDescriptor} (hf : f ∈ model.fields)
    (hg : g ∈ model.fields) (h : fold f.name = fold g.name) : f.name = g.name := by
  obtain ⟨c, hc, hcn, -⟩ := column_find hfit hf
  obtain ⟨d, hd, hdn, -⟩ := column_find hfit hg
  rw [← hcn, ← hdn, Option.some.inj (hc.symm.trans (h ▸ hd))]

theorem fields_nodup (hfit : Fits model t) (hnd : (model.fields.map (·.name)).Nodup) :
    (model.fields.map (fold ·.name)).Nodup :=
  List.Nodup.map_on (fun _ hf _ hg h => List.inj_on_of_nodup_map hnd hf hg (fold_fields hfit hf hg h))
    (List.Nodup.of_map _ hnd)

theorem given_map {α : Type} {label : α → String} {v : α → Option SqlValue} {l : List α} (k : String) :
    Given.at (l.map fun a => (label a, v a)) k = (l.find? fun a => fold (label a) = k).map v := by
  rw [Given.at, List.find?_map, Option.map_map]
  rfl

/-- What a statement gives for one of some things, each under its name. -/
theorem given_at {α : Type} {label : α → String} {v : α → Option SqlValue} {l : List α} {a : α}
    (ha : a ∈ l) (h : ∀ b ∈ l, fold (label b) = fold (label a) → v b = v a) :
    Given.at (l.map fun a => (label a, v a)) (fold (label a)) = some (v a) := by
  obtain ⟨b, hb⟩ : ∃ b, l.find? (fun b => fold (label b) = fold (label a)) = some b :=
    Option.isSome_iff_exists.mp (List.find?_isSome.mpr ⟨a, ha, by simp⟩)
  rw [given_map, hb]
  exact congrArg some (h b (List.mem_of_find?_eq_some hb) (by simpa using List.find?_some hb))

/-- The cell an `INSERT` of a value for every field makes. -/
theorem made_field (hfit : Fits model t) (hnd : (model.fields.map (·.name)).Nodup)
    (defaults : String → Option SqlValue) (v : FieldDescriptor → Option SqlValue) {f : FieldDescriptor}
    (hf : f ∈ model.fields) :
    t.made q.stored defaults (model.fields.map fun f => (f.name, v f)) (fold f.name) =
      (v f).map (q.stored (storageType f.valueType)) := by
  obtain ⟨c, hc, -, htype⟩ := column_find hfit hf
  rw [Table.made, hc, Option.bind_some, given_at hf fun g hg h =>
    congrArg v (List.inj_on_of_nodup_map hnd hg hf (fold_fields hfit hg hf h)), htype]

/-- Values that the columns keep alike make the same row. -/
theorem made_congr (hfit : Fits model t) (defaults : String → Option SqlValue)
    {v w : FieldDescriptor → Option SqlValue}
    (h : ∀ f ∈ model.fields, (v f).map (q.stored (storageType f.valueType)) =
      (w f).map (q.stored (storageType f.valueType))) :
    t.made q.stored defaults (model.fields.map fun f => (f.name, v f)) =
      t.made q.stored defaults (model.fields.map fun f => (f.name, w f)) := by
  funext k
  rw [Table.made, Table.made, given_map, given_map]
  cases hf : model.fields.find? fun f => decide (fold f.name = k) with
  | none => rfl
  | some f =>
    have hmem := List.mem_of_find?_eq_some hf
    obtain ⟨c, hc, -, htype⟩ := column_find hfit hmem
    have hk : fold f.name = k := by simpa using List.find?_some hf
    rw [← hk, hc]
    simp only [Option.map_some, Option.bind_some, htype]
    exact h f hmem

theorem keyCells_field (hfit : Fits model t) (hnd : (model.fields.map (·.name)).Nodup)
    (identity : Value) {f : FieldDescriptor} (hf : f ∈ model.fields) :
    keyCells q model identity (fold f.name) =
      q.cell f (datum f.valueType (identity.index f.name)) := by
  rw [keyCells, List.find?_key (fields_nodup hfit hnd) hf, Option.bind_some]

/-- The parameters of an identity are the cells of its row. -/
theorem identityParams_eq (hfit : Fits model t) (hnd : (model.fields.map (·.name)).Nodup)
    (hids : ∀ n ∈ model.identity, n ∈ model.fields.map (·.name)) (identity : Value) :
    ∀ n ∈ model.identity, q.identityParams t model (rowData model identity) (fold n) =
      keyCells q model identity (fold n) := by
  intro n hn
  obtain ⟨f, hf, rfl⟩ := List.mem_map.mp (hids n hn)
  obtain ⟨c, hc, -, htype⟩ := column_find hfit hf
  rw [keyCells_field hfit hnd identity hf, RowCodec.identityParams, Table.made, hc, Option.bind_some,
    given_at hn fun m hm h => ?_, htype, rowData_at hnd identity hf]
  · rfl
  · obtain ⟨g, hg, rfl⟩ := List.mem_map.mp (hids m hm)
    rw [fold_fields hfit hg hf h]

theorem knows_fields (hfit : Fits model t) {names : List String}
    (h : ∀ n ∈ names, n ∈ model.fields.map (·.name)) : t.knows names = true := by
  simp only [Table.knows, List.all_eq_true, List.any_eq_true, decide_eq_true_eq]
  intro n hn
  obtain ⟨f, hf, rfl⟩ := List.mem_map.mp (h n hn)
  obtain ⟨c, hc, hname, -⟩ := hfit.columns f hf
  exact ⟨c, hc, by rw [hname]⟩

/-- The row an `INSERT` makes is complete exactly when the columns are filled. -/
theorem complete_iff (hfit : Fits model t) (hnd : (model.fields.map (·.name)).Nodup)
    (defaults : String → String → Option SqlValue) (row : DataRow) :
    t.complete (t.made q.stored (defaults (fold t.name)) (q.rowParams model row)) = true ↔
      Filled defaults model row t := by
  simp only [Table.complete, List.all_eq_true, Bool.or_eq_true, Bool.not_eq_true', Filled]
  refine forall₂_congr fun c hc => ?_
  have hcell : (t.made q.stored (defaults (fold t.name)) (q.rowParams model row) (fold c.name)).isSome ↔
      (∃ f ∈ model.fields, f.name = c.name ∧ row.at f.name ≠ .null) ∨
        (∀ f ∈ model.fields, f.name ≠ c.name) ∧ (defaults (fold t.name) (fold c.name)).isSome = true := by
    by_cases h : ∃ f ∈ model.fields, f.name = c.name
    · obtain ⟨f, hf, hname⟩ := h
      rw [← hname, RowCodec.rowParams, made_field hfit hnd _ (fun f => q.parameter (row.at f.name)) hf,
        ← RowCodec.cell, cell_isSome]
      constructor
      · exact fun h => .inl ⟨f, hf, rfl, h⟩
      · rintro (⟨g, hg, hgn, h⟩ | ⟨h, -⟩)
        · rwa [hgn] at h
        · exact absurd rfl (h f hf)
    · have hnone : Given.at (q.rowParams model row) (fold c.name) = none := by
        rw [Given.at, RowCodec.rowParams, List.find?_map, Option.map_map, Option.map_eq_none_iff,
          List.find?_eq_none]
        intro f hf heq
        obtain ⟨d, hd, hdn, -⟩ := hfit.columns f hf
        obtain rfl := List.inj_on_of_nodup_map hfit.apart hd hc (by simpa [hdn] using heq)
        exact h ⟨f, hf, hdn.symm⟩
      rw [Table.made, List.find?_key hfit.apart hc, Option.bind_some, hnone]
      constructor
      · exact fun hs => .inr ⟨fun f hf hname => h ⟨f, hf, hname⟩, hs⟩
      · rintro (⟨f, hf, hname, -⟩ | ⟨-, hs⟩)
        · exact absurd ⟨f, hf, hname⟩ h
        · exact hs
  rw [hcell]
  cases c.notNull <;> simp

end Tables

/-- A row with the identity of a key, each of whose cells is decoded to its datum. -/
structure Normal (q : RowCodec) (model : ModelDescriptor) (identity : Value) (row : DataRow) : Prop where
  fields : (model.fields.map (·.name)).Nodup
  key : ∀ n ∈ model.identity, n ∈ model.fields.map (·.name)
  own : row = .ofList (model.fields.map fun f => (f.name, row.at f.name))
  decodes : ∀ f ∈ model.fields,
    q.decodeValue f.valueType (RowCodec.readCell (q.cell f (row.at f.name))) = .ok (row.at f.name)
  fixed : ∀ f ∈ model.fields, (q.cell f (row.at f.name)).map (q.stored (storageType f.valueType)) =
    q.cell f (row.at f.name)
  keyed : ∀ f ∈ model.fields, f.name ∈ model.identity →
    row.at f.name = datum f.valueType (identity.index f.name) ∧ row.at f.name ≠ .null

section Reading
variable {e : Engine} {q : RowCodec} {db db' : Sql.File SqlValue} {model : ModelDescriptor} {t : Table}
  {p : Place} {identity : Value} {row : DataRow}

theorem readAt_eq (ht : db.catalog.table (p.table model.name) = some t) (hfit : Fits model t)
    (hnd : (model.fields.map (·.name)).Nodup) (hids : ∀ n ∈ model.identity, n ∈ model.fields.map (·.name)) :
    readAt q db p model identity =
      match db.first (p.table model.name) model.identity (keyCells q model identity) with
      | none => .ok none
      | some r => (q.decodeRow model t r).map some := by
  have hknows : t.knows (model.fields.map (·.name) ++ model.identity) = true :=
    knows_fields hfit fun n hn => (List.mem_append.mp hn).elim id (hids n)
  rw [readAt, RowCodec.rowGet, required_eq_ok.mpr ht, Except.ok_bind, (ensure_eq_ok (u := ())).mpr hknows, Except.ok_bind,
    File.first_congr (identityParams_eq hfit hnd hids identity)]
  cases db.first (p.table model.name) model.identity (keyCells q model identity) with
  | none => rfl
  | some r => cases q.decodeRow model t r <;> rfl

/-- Nothing is read exactly where no row has the cells of the identity. -/
theorem readAt_none (ht : db.catalog.table (p.table model.name) = some t) (hfit : Fits model t)
    (hnd : (model.fields.map (·.name)).Nodup) (hids : ∀ n ∈ model.identity, n ∈ model.fields.map (·.name)) :
    readAt q db p model identity = .ok none ↔
      db.first (p.table model.name) model.identity (keyCells q model identity) = none := by
  rw [readAt_eq ht hfit hnd hids]
  cases db.first (p.table model.name) model.identity (keyCells q model identity) with
  | none => simp
  | some r => cases hd : q.decodeRow model t r <;> simp [hd, Except.map]

/-- A row whose cells decode is read as it is. -/
theorem readAt_stored (ht : db.catalog.table (p.table model.name) = some t) (hfit : Fits model t)
    (hrow : Normal q model identity row) (h : Stores q db (p.table model.name) model identity row) :
    readAt q db p model identity = .ok (some row) := by
  obtain ⟨r, hr, hcells⟩ := h
  have hdecode : q.decodeRow model t r = .ok row := by
    have hentry : ∀ f ∈ model.fields, (do
        let c ← required (t.columns.find? (fold ·.name = fold f.name)) ("no such column: " ++ f.name)
        let field ← required (model.field c.name) ("unknown column " ++ c.name)
        return (c.name, ← q.decodeValue field.valueType (RowCodec.readCell (r (fold c.name)))) :
          Except String (String × Datum)) = .ok (f.name, row.at f.name) := by
      intro f hf
      obtain ⟨c, hc, hname, -⟩ := column_find hfit hf
      rw [required_eq_ok.mpr hc, Except.ok_bind, hname, required_eq_ok.mpr (field_of_mem hrow.fields hf),
        Except.ok_bind, hcells f hf, hrow.decodes f hf]
      rfl
    rw [RowCodec.decodeRow, List.mapM_eq_ok_of hentry, Except.ok_bind]
    exact congrArg Except.ok hrow.own.symm
  rw [readAt_eq ht hfit hrow.fields hrow.key, hr]
  exact congrArg (Except.map some) hdecode

end Reading

theorem refuses_empty {cat : Catalog} {defaults : String → String → Option SqlValue} {t : Table}
    {r : String → Option SqlValue} {update : List String} :
    File.refuses (⟨cat, defaults, fun _ => []⟩ : Sql.File SqlValue) t r update = false := by
  simp [File.refuses, File.target, File.held, File.clashes]

theorem catalog_upsert {db db' : Sql.File SqlValue} {name : String} {model : ModelDescriptor} {row : DataRow}
    {q : RowCodec} (h : q.rowUpsert db name model row = .ok db') : db'.catalog = db.catalog := by
  obtain ⟨t, made, -, -, -, rfl⟩ := File.upsert_eq_ok.mp h
  exact File.placed_shape.1

section Writing
variable {e : Engine} {q : RowCodec} {db : Sql.File SqlValue} {model : ModelDescriptor} {t : Table}
  {p : Place} {key : RecordKey} {row : DataRow} {made : String → Option SqlValue} {update : List String}

theorem model_named (hv : e.schema.validate = .ok ()) {m : ModelDescriptor} (hm : m ∈ e.schema.models) :
    (m.fields.map (·.name)).Nodup ∧ ∀ n ∈ m.identity, n ∈ m.fields.map (·.name) := by
  obtain ⟨hnd, -, hids⟩ := model_valid hv hm
  refine ⟨hnd, fun n hn => ?_⟩
  obtain ⟨f, hf, -⟩ := hids n hn
  exact List.mem_map.mpr ⟨f, field_mem hf, field_name hf⟩

/-- The assigned columns are not the key's. -/
theorem updates_apart (hfit : Fits model t) (hids : ∀ n ∈ model.identity, n ∈ model.fields.map (·.name)) :
    ∀ c ∈ t.key, fold c ∉ (RowCodec.updates model).map fold := by
  intro c hc hmem
  rw [hfit.key] at hc
  obtain ⟨n, hn, hfold⟩ := List.mem_map.mp hmem
  obtain ⟨g, hg, rfl⟩ := List.mem_map.mp hn
  obtain ⟨f, hf, rfl⟩ := List.mem_map.mp (hids c hc)
  obtain ⟨hg, hnot⟩ := List.mem_filter.mp hg
  rw [fold_fields hfit hg hf hfold] at hnot
  exact absurd hc (by simpa using hnot)

/-- A row that is made of the cells of its data has the cells of its key. -/
theorem made_key (hfit : Fits model t) (hrow : Normal q model key.identity row)
    (hmade : ∀ f ∈ model.fields, made (fold f.name) = q.cell f (row.at f.name)) :
    Agree t.key (keyCells q model key.identity) made := by
  intro n hn
  rw [hfit.key] at hn
  obtain ⟨f, hf, rfl⟩ := List.mem_map.mp (hrow.key n hn)
  obtain ⟨heq, hne⟩ := hrow.keyed f hf hn
  obtain ⟨v, hv⟩ := Option.isSome_iff_exists.mp (cell_isSome.mpr hne)
  exact ⟨v, by rw [keyCells_field hfit hrow.fields _ hf, ← heq]; exact hv, by rw [hmade f hf]; exact hv⟩

/-- What is put in place is stored: the columns of a new row, or those assigned and those of the key. -/
theorem stores_placed (ht : db.catalog.table (p.table model.name) = some t) (hfit : Fits model t)
    (hrow : Normal q model key.identity row)
    (hmade : ∀ f ∈ model.fields, made (fold f.name) = q.cell f (row.at f.name))
    (hup : db.target t made = none ∧ update = [] ∨ update = RowCodec.updates model) :
    Stores q (db.placed t made update) (p.table model.name) model key.identity row := by
  have hkey := made_key hfit hrow hmade
  have hapart : ∀ c ∈ t.key, fold c ∉ update.map fold := by
    rcases hup with ⟨-, rfl⟩ | rfl
    · simp
    · exact updates_apart hfit hrow.key
  obtain ⟨r, hr, hcells⟩ : ∃ r, (db.placed t made update).first t.name t.key made = some r ∧
      ∀ c, db.target t made = none ∨ c ∈ t.key ∨ c ∈ update → r (fold c) = made (fold c) :=
    File.first_placed_self (hkey.symm.trans hkey) hapart
  refine ⟨r, ?_, fun f hf => ?_⟩
  · rw [← hfit.key, File.first_of_agree hkey, ← File.first_fold (fold_table ht)]
    exact hr
  · rw [hcells f.name ?_, hmade f hf]
    rcases hup with ⟨hnone, -⟩ | rfl
    · exact .inl hnone
    · by_cases hid : f.name ∈ model.identity
      · exact .inr (.inl (hfit.key ▸ hid))
      · exact .inr (.inr (List.mem_map_of_mem (List.mem_filter.mpr ⟨hf, by simpa using hid⟩)))

theorem place_fold (hv : e.schema.validate = .ok ()) {m : ModelDescriptor} (hm : m ∈ e.schema.models)
    (hmodel : model ∈ e.schema.models) {p' : Place}
    (h : fold (p'.table m.name) = fold (p.table model.name)) : p' = p ∧ fold m.name = fold model.name := by
  have hreserved := fun m hm => ((Ddl.names_valid hv).2 m hm).1
  cases p' <;> cases p
  · exact ⟨rfl, h⟩
  · exact absurd h (Ddl.fold_ne_beforeTable (hreserved m hm) _)
  · exact absurd h.symm (Ddl.fold_ne_beforeTable (hreserved model hmodel) _)
  · exact ⟨rfl, Ddl.fold_beforeTable_inj.mp h⟩

/-- A row of the model is made exactly when the columns are filled. -/
theorem making_iff (hfit : Fits model t) (hnd : (model.fields.map (·.name)).Nodup) :
    db.making q.stored t (q.rowParams model row) = .ok made ↔ Filled db.defaults model row t ∧
      t.made q.stored (db.defaults (fold t.name)) (q.rowParams model row) = made := by
  rw [File.making_eq_ok]
  constructor
  · rintro ⟨-, hc, rfl⟩
    exact ⟨(complete_iff hfit hnd _ row).mp hc, rfl⟩
  · rintro ⟨hfilled, rfl⟩
    refine ⟨knows_fields hfit fun n hn => ?_, (complete_iff hfit hnd _ row).mpr hfilled, rfl⟩
    simpa [RowCodec.rowParams, Function.comp_def] using hn

/-- `copy_aside` of a stored row where nothing has its key: the row is placed in the before table. -/
theorem copyAside_new (hmodel : model ∈ e.schema.models) (hopen : Opened e.schema db.catalog)
    (hrow : Normal q model key.identity row) (hst : Stores q db model.name model key.identity row)
    (ht : db.catalog.table (Ddl.beforeTable model.name) = some t) (hfit : Fits model t)
    (hfilled : Filled db.defaults model row t)
    (hnone : db.target t (t.made q.stored (db.defaults (fold t.name)) (q.rowParams model row)) = none) :
    q.copyAside db model (rowData model key.identity) =
      .ok (db.placed t (t.made q.stored (db.defaults (fold t.name)) (q.rowParams model row)) []) := by
  obtain ⟨t', ht', hfit'⟩ := hopen.tables model hmodel .main
  change db.catalog.table model.name = some t' at ht'
  obtain ⟨r, hr, hcells⟩ := hst
  have hknows : ∀ {t : Table}, Fits model t →
      t.knows (model.fields.map (·.name) ++ model.identity) = true := fun hfit =>
    knows_fields hfit fun n hn => (List.mem_append.mp hn).elim id (hrow.key n)
  have hsame : t.made q.stored (db.defaults (fold t.name))
      (model.fields.map fun f => (f.name, r (fold f.name))) =
      t.made q.stored (db.defaults (fold t.name)) (q.rowParams model row) :=
    made_congr hfit _ fun f hf => by
      rw [hcells f hf, hrow.fixed f hf]
      rfl
  have hclash : db.clashes t.name (t.made q.stored (db.defaults (fold t.name)) (q.rowParams model row))
      (db.held t.name) = false := by
    rw [File.clashes, List.any_eq_false]
    intro i hi h
    simp only [Bool.and_eq_true, decide_eq_true_eq] at h
    exact hopen.indexes model hmodel i hi (h.1.2.trans (fold_table ht))
  rw [RowCodec.copyAside, required_eq_ok.mpr ht', Except.ok_bind,
    (ensure_eq_ok (u := ())).mpr (hknows hfit'), Except.ok_bind,
    File.first_congr (identityParams_eq hfit' hrow.fields hrow.key key.identity), hr]
  simp only
  rw [File.insertOrIgnore, required_eq_ok.mpr ht, Except.ok_bind, (ensure_eq_ok (u := ())).mpr, Except.ok_bind, hsame]
  · exact if_pos ⟨(complete_iff hfit hrow.fields _ row).mpr hfilled, hnone, hclash⟩
  · exact knows_fields hfit fun n hn => by simpa [Function.comp_def] using hn

/-- `copy_aside` where nothing has the key, or the before table already has a row with it. -/
theorem copyAside_skip (hmodel : model ∈ e.schema.models) (hopen : Opened e.schema db.catalog)
    (hrow : Normal q model key.identity row)
    (h : readAt q db .main model key.identity = .ok none ∨
      readAt q db .before model key.identity ≠ .ok none) :
    q.copyAside db model (rowData model key.identity) = .ok db := by
  obtain ⟨t, ht, hfit⟩ := hopen.tables model hmodel .main
  obtain ⟨t', ht', hfit'⟩ := hopen.tables model hmodel .before
  rw [readAt_none ht hfit hrow.fields hrow.key, Ne, readAt_none ht' hfit' hrow.fields hrow.key] at h
  change db.catalog.table model.name = some t at ht
  change db.catalog.table (Ddl.beforeTable model.name) = some t' at ht'
  have hknows : ∀ {t : Table}, Fits model t →
      t.knows (model.fields.map (·.name) ++ model.identity) = true := fun hfit =>
    knows_fields hfit fun n hn => (List.mem_append.mp hn).elim id (hrow.key n)
  rw [RowCodec.copyAside, required_eq_ok.mpr ht, Except.ok_bind,
    (ensure_eq_ok (u := ())).mpr (hknows hfit), Except.ok_bind,
    File.first_congr (identityParams_eq hfit hrow.fields hrow.key key.identity)]
  cases hf : db.first model.name model.identity (keyCells q model key.identity) with
  | none => rfl
  | some r =>
    have hbefore := h.resolve_left (by rw [Place.table, hf]; simp)
    have hcells := File.first_agree hf
    simp only
    rw [File.insertOrIgnore, required_eq_ok.mpr ht', Except.ok_bind, (ensure_eq_ok (u := ())).mpr, Except.ok_bind]
    · -- the copied cells have the key of the row that is there
      have hkey : Agree t'.key (keyCells q model key.identity) (t'.made q.stored (db.defaults (fold t'.name))
          (model.fields.map fun f => (f.name, r (fold f.name)))) := by
        intro n hn
        rw [hfit'.key] at hn
        obtain ⟨f, hf, rfl⟩ := List.mem_map.mp (hrow.key n hn)
        obtain ⟨w, hw, hr⟩ := hcells _ hn
        refine ⟨w, hw, ?_⟩
        rw [keyCells_field hfit hrow.fields _ hf, ← (hrow.keyed f hf hn).1] at hw
        rw [made_field hfit' hrow.fields _ (fun f => r (fold f.name)) hf, hr, ← hw, hrow.fixed f hf]
      refine if_neg fun hins => hbefore ?_
      rw [← hfit'.key, File.first_of_agree hkey]
      exact (File.first_fold (fold_table ht') ..).symm.trans hins.2.1
    · exact knows_fields hfit' fun n hn => by simpa [Function.comp_def] using hn

/-- What is put in place of a row that stands alone changes no other. -/
theorem same_placed (hopen : Opened e.schema db.catalog) (hmodel : model ∈ e.schema.models)
    (halone : Alone e q model key) (ht : db.catalog.table (p.table model.name) = some t)
    (hfit : Fits model t) (hkey : Agree t.key (keyCells q model key.identity) made)
    (hapart : ∀ c ∈ t.key, fold c ∉ update.map fold) :
    SameButFor e q db (db.placed t made update) p key := by
  intro m hm identity k hk p' hne
  obtain ⟨t', ht', hfit'⟩ := hopen.tables m hm p'
  obtain ⟨hnd, hids⟩ := model_named e.valid hm
  have ht'' : (db.placed t made update).catalog.table (p'.table m.name) = some t' := by
    rw [File.placed_shape.1]
    exact ht'
  rw [readAt_eq ht' hfit' hnd hids, readAt_eq ht'' hfit' hnd hids]
  by_cases hfold : fold (p'.table m.name) = fold (p.table model.name)
  · -- the same table: the other record has other cells
    obtain ⟨rfl, hname⟩ := place_fold e.valid hm hmodel hfold
    obtain rfl : t' = t := by
      rw [Catalog.table, hfold] at ht'
      exact Option.some.inj (ht'.symm.trans ht)
    have hcells := halone m hm identity k hk (fun h => hne (by rw [h])) hname
    rw [← hfit.key] at hcells
    rw [← hfit'.key, File.first_fold (fold_table ht').symm, File.first_fold (fold_table ht').symm,
      File.first_placed_other (fun h => hcells (h.trans hkey.symm)) hapart]
  · rw [File.first, File.held_placed (by rwa [fold_table ht])]
    rfl

end Writing

section RoundTrip
variable {e : Engine} {q : RowCodec} {cat : Catalog} {defaults : String → String → Option SqlValue}
  {model : ModelDescriptor} {t : Table} {name : String} {key : RecordKey} {identity st v : Value}
  {loader : Bool}

/-- A normalized row stores and decodes each of its data. -/
theorem normal_mergeIdentity (hm : e.schema.model name = .ok model) (hk : e.recordKey name identity = .ok key)
    (hs : e.schema.state e.codecs name st loader = .ok v)
    (hj : ∀ f ∈ model.fields, f.valueType.isList → ReadsBack q.json
      ((rowData model (mergeIdentity key.identity v)).at f.name)) :
    Normal q model key.identity (rowData model (mergeIdentity key.identity v)) := by
  obtain ⟨hnd, hids⟩ := model_named e.valid (model_mem hm)
  obtain ⟨hfields, hidx⟩ := mergeIdentity_index hm hk hs
  have htyped : ∀ f ∈ model.fields, _ := fun f hf =>
    (hfields f hf).elim fun _ hw => typed_normalized hw
  refine ⟨hnd, hids, ?_, fun f hf => ?_, fun f hf => ?_, fun f hf hid => ?_⟩
  · refine congrArg SortedMap.ofList (List.map_congr_left fun f hf => ?_)
    rw [rowData_at hnd _ hf]
  · rw [rowData_at hnd _ hf]
    refine decode_cell (htyped f hf).1 fun hl _ => ?_
    have := hj f hf hl
    rwa [rowData_at hnd _ hf] at this
  · rw [rowData_at hnd _ hf]
    exact stored_cell (htyped f hf).1
  · rw [rowData_at hnd _ hf, hidx _ hid]
    refine ⟨rfl, fun hnull => ?_⟩
    have hval := (htyped f hf).2
    rw [hidx _ hid] at hval
    obtain ⟨w, hw⟩ := hfields f hf
    obtain ⟨_, -, hvalid⟩ := model_valid e.valid (model_mem hm)
    obtain ⟨g, hg, hnn⟩ := hvalid f.name hid
    obtain rfl : f = g := Option.some.inj ((field_of_mem hnd hf).symm.trans hg)
    rw [hidx _ hid] at hw
    exact normalizeValue_ne_null hw hnn ((datum_eq_null hval).mp hnull)

/-- The data of a normalized row are its values. -/
theorem rowData_value (hm : e.schema.model name = .ok model) (hk : e.recordKey name identity = .ok key)
    (hs : e.schema.state e.codecs name st loader = .ok v) :
    (rowData model (mergeIdentity key.identity v)).value = mergeIdentity key.identity v := by
  obtain ⟨hnd, -⟩ := model_named e.valid (model_mem hm)
  obtain ⟨hfields, -⟩ := mergeIdentity_index hm hk hs
  generalize hrow : mergeIdentity key.identity v = row at hfields
  have hfull : columns model row = row := hrow ▸ (rowOk_mergeIdentity hm hk hs).full
  have hkeys : ((rowData model row).entries.map fun x => (x.1, x.2.value)).map Prod.fst =
      (rowData model row).keys := by
    simp [SortedMap.keys, Function.comp_def]
  refine Value.ext_get (Value.ordered_ofEntries _) (hfull ▸ Value.ordered_ofEntries _) fun k => ?_
  rw [← hfull, get_columns, hfull]
  split
  · rename_i hk
    obtain ⟨f, hf, rfl⟩ := List.mem_map.mp hk
    obtain ⟨w, hw⟩ := hfields f hf
    have hlook : (rowData model row).lookup f.name = some (datum f.valueType (row.index f.name)) :=
      SortedMap.lookup_ofList_of_mem (by simpa [Function.comp_def] using hnd) (List.mem_map.mpr ⟨f, hf, rfl⟩)
    refine Value.get_ofEntries_of_mem (hkeys ▸ SortedMap.nodup_keys _) ?_
    refine List.mem_map.mpr ⟨_, SortedMap.lookup_eq_some_iff.mp hlook, ?_⟩
    rw [(typed_normalized hw).2]
  · rename_i hk
    refine Value.get_setAll_of_notMem fun hmem => hk ?_
    rw [hkeys] at hmem
    have hsome : ((rowData model row).lookup k).isSome := by
      by_contra hnone
      exact SortedMap.lookup_eq_none_iff.mp (Option.not_isSome_iff_eq_none.mp hnone) hmem
    simpa [Function.comp_def] using SortedMap.lookup_ofList_isSome.mp hsome

/-- A model's tables take a row exactly when their columns are filled and no other record of the schema
    has its row there. -/
theorem roundTrips_iff {row : DataRow} (hopen : Opened e.schema cat) (hmodel : model ∈ e.schema.models)
    (hrow : Normal q model key.identity row) : RoundTrips e q cat defaults model key row ↔
      (∀ p : Place, ∀ t, cat.table (p.table model.name) = some t → Filled defaults model row t) ∧
        Alone e q model key := by
  have hmade : ∀ {t : Table}, Fits model t → ∀ given, ∀ f ∈ model.fields,
      t.made q.stored given (q.rowParams model row) (fold f.name) = q.cell f (row.at f.name) :=
    fun hfit given f hf => made_field hfit hrow.fields given (fun f => q.parameter (row.at f.name)) hf
  constructor
  · intro h
    refine ⟨fun p t ht => ?_, fun m hm' i k hki hne hfold hcells => ?_⟩
    · -- an empty store takes the row, so the columns are filled
      obtain ⟨t', ht', hfit⟩ := hopen.tables model hmodel p
      obtain rfl : t' = t := Option.some.inj (ht'.symm.trans ht)
      obtain ⟨db', hup, -⟩ := h.stored (fun _ => []) p fun _ _ _ _ => refuses_empty
      obtain ⟨t'', made, ht'', hmaking, -⟩ := File.upsert_eq_ok.mp hup
      obtain rfl : t' = t'' := Option.some.inj (ht'.symm.trans ht'')
      exact ((making_iff hfit hrow.fields).mp hmaking).1
    · -- there the other record is read too
      obtain ⟨t, ht, hfit⟩ := hopen.tables model hmodel .main
      obtain ⟨t', ht', hfit'⟩ := hopen.tables m hm' .main
      obtain ⟨hnd', hids'⟩ := model_named e.valid hm'
      obtain rfl : t' = t := by
        change cat.table m.name = some t' at ht'
        rw [Catalog.table, hfold] at ht'
        exact Option.some.inj (ht'.symm.trans ht)
      obtain ⟨db', hup, ⟨r, hr, -⟩, -, hsame⟩ := h.stored (fun _ => []) .main fun _ _ _ _ => refuses_empty
      have hcat : db'.catalog = cat := catalog_upsert hup
      have hread := hsame m hm' i k hki .main (by simp [hne])
      have hnone : readAt q ⟨cat, defaults, fun _ => []⟩ .main m k.identity = .ok none :=
        (readAt_none ht' hfit' hnd' hids').mpr rfl
      rw [hnone, readAt_none (by rw [hcat]; exact ht') hfit' hnd' hids', File.first_fold (by exact hfold),
        ← hfit'.key, hfit.key, File.first_of_agree hcells] at hread
      change db'.first model.name _ _ = some r at hr
      rw [hr] at hread
      cases hread
  · rintro ⟨hfilled, halone⟩
    constructor
    · intro rows db p hfree
      obtain ⟨t, ht, hfit⟩ := hopen.tables model hmodel p
      have hmaking : db.making q.stored t (q.rowParams model row) = .ok _ :=
        (making_iff hfit hrow.fields).mpr ⟨hfilled p t ht, rfl⟩
      have hst : Stores q (db.placed t _ _) (p.table model.name) model key.identity row :=
        stores_placed ht hfit hrow (hmade hfit (defaults (fold t.name))) (.inr rfl)
      refine ⟨_, File.upsert_eq_ok.mpr ⟨t, _, ht, hmaking, hfree t _ ht hmaking, rfl⟩, hst, ?_, ?_⟩
      · exact readAt_stored (by rw [File.placed_shape.1]; exact ht) hfit hrow hst
      · exact same_placed hopen hmodel halone ht hfit (made_key hfit hrow (hmade hfit _))
          (updates_apart hfit hrow.key)
    · intro rows db hst hnone
      obtain ⟨t, ht, hfit⟩ := hopen.tables model hmodel .before
      have hkey := made_key hfit hrow (hmade hfit (defaults (fold t.name)))
      have htarget : db.target t (t.made q.stored (db.defaults (fold t.name)) (q.rowParams model row)) = none := by
        rw [readAt_none ht hfit hrow.fields hrow.key, ← hfit.key, File.first_of_agree hkey,
          ← File.first_fold (fold_table ht)] at hnone
        exact hnone
      have hst' : Stores q (db.placed t _ []) (Place.before.table model.name) model key.identity row :=
        stores_placed ht hfit hrow (hmade hfit (defaults (fold t.name))) (.inl ⟨htarget, rfl⟩)
      refine ⟨_, copyAside_new hmodel hopen hrow hst ht hfit (hfilled .before t ht) htarget, hst', ?_, ?_⟩
      · exact readAt_stored (by rw [File.placed_shape.1]; exact ht) hfit hrow hst'
      · exact same_placed hopen hmodel halone ht hfit hkey (by simp)
    · intro rows db hst
      exact copyAside_skip hmodel hopen hrow hst

/-- Opening an empty store for models whose names differ in more than letter case makes each its tables. -/
theorem opened_apart {s : Schema} (hv : s.validate = .ok ()) (hnames : (s.models.map (fold ·.name)).Nodup)
    (hcat : Ddl.reconcile s Ddl.framework = .ok cat) : Opened s cat ∧
      ∀ m ∈ s.models, ∀ p : Place, cat.table (p.table m.name) = some (Ddl.tableDdl (p.table m.name) m) := by
  obtain ⟨-, hvalid⟩ := Ddl.names_valid hv
  have hr : ∀ m ∈ s.models, reservedModelName m.name = false := fun m hm => (hvalid m hm).1
  have hshaped := Ddl.shaped_reconcile hcat
  obtain ⟨hfields, -, rfl⟩ := (Ddl.reconcile_iff hr hnames).mp hcat
  have htable : ∀ m ∈ s.models, ∀ p : Place, Catalog.table ⟨Ddl.tables s.models,
      firsts (fold ·.name) (Ddl.indexes s.models)⟩ (p.table m.name) =
        some (Ddl.tableDdl (p.table m.name) m) := fun m hm p => by
    cases p
    · exact hshaped.table_eq (Ddl.mem_tables hm).1 rfl
    · exact hshaped.table_eq (Ddl.mem_tables hm).2 rfl
  refine ⟨⟨fun m hm p => ⟨_, htable m hm p, rfl, ?_, fun f hf => ?_⟩, fun m hm i hi => ?_⟩, htable⟩
  · rw [Ddl.folded_columns]
    exact hfields m hm
  · exact ⟨_, List.mem_map_of_mem hf, rfl, rfl⟩
  · rcases List.mem_append.mp (List.mem_of_find?_eq_some ((mem_firsts _ _).mp hi)) with hi | hi
    · -- the framework's indexes are on its own tables
      have hframe : ∀ i ∈ Ddl.framework.indexes, "ahead_before_".toList.isPrefixOf (fold i.table).toList = false := by
        decide +kernel
      intro heq
      have hno := hframe i hi
      rw [heq, Ddl.fold_beforeTable, String.toList_append] at hno
      simp at hno
    · obtain ⟨m', hm', hi⟩ := List.mem_flatMap.mp hi
      obtain ⟨fields, -, rfl⟩ := List.mem_map.mp hi
      exact Ddl.fold_ne_beforeTable (hr m' hm') m.name

/-- In tables of its own every normalized row has its columns filled. -/
theorem filled_own (hm : e.schema.model name = .ok model) (hk : e.recordKey name identity = .ok key)
    (hs : e.schema.state e.codecs name st loader = .ok v) (table : String) :
    Filled defaults model (rowData model (mergeIdentity key.identity v)) (Ddl.tableDdl table model) := by
  obtain ⟨hnd, -⟩ := model_named e.valid (model_mem hm)
  obtain ⟨hfields, -⟩ := mergeIdentity_index hm hk hs
  intro c hc hnotNull
  obtain ⟨f, hf, rfl⟩ := List.mem_map.mp hc
  obtain ⟨w, hw⟩ := hfields f hf
  refine .inl ⟨f, hf, rfl, fun hnull => ?_⟩
  rw [rowData_at hnd _ hf, datum_eq_null (typed_normalized hw).2] at hnull
  exact normalizeValue_ne_null hw (by simpa [Ddl.column] using hnotNull) hnull

/-- Different identities of a model have different cells. -/
theorem alone_own (hnames : (e.schema.models.map (fold ·.name)).Nodup) (hfit : Fits model t)
    (hm : e.schema.model name = .ok model) (hk : e.recordKey name identity = .ok key) :
    Alone e q model key := by
  intro m hm' identity' k hk' hne hfold hcells
  obtain rfl : m = model := List.inj_on_of_nodup_map hnames hm' (model_mem hm) hfold
  obtain ⟨hnd, hids⟩ := model_named e.valid hm'
  obtain ⟨m₁, g, hm₁, hname, hid, hg⟩ := recordKey_spec hk
  obtain ⟨m₂, g', hm₂, hname', hid', hg'⟩ := recordKey_spec hk'
  obtain rfl : m = m₁ := Except.ok.inj (hm.symm.trans hm₁)
  rw [model_name hm] at hm₂ hname'
  obtain rfl : m = m₂ := Except.ok.inj (hm.symm.trans hm₂)
  have hgg : ∀ n ∈ m.identity, g' n = g n := by
    intro n hn
    obtain ⟨f, w, hf, -, hw⟩ := hg n hn
    obtain ⟨f', w', hf', -, hw'⟩ := hg' n hn
    obtain rfl : f = f' := Option.some.inj (hf.symm.trans hf')
    obtain rfl := field_name hf
    obtain ⟨hs, hs'⟩ := And.intro (typed_normalized hw) (typed_normalized hw')
    obtain ⟨fs, hfs, hscalar⟩ := identity_scalar e.valid hm' hn
    obtain rfl : f = fs := Option.some.inj (hf.symm.trans hfs)
    have hnl : ¬f.valueType.isList := by
      cases hty : f.valueType <;> simp_all [ValueType.isList, ValueType.isScalar]
    have hdecode := decode_cell (q := q) hs.1 fun hl => absurd hl hnl
    have hdecode' := decode_cell (q := q) hs'.1 fun hl => absurd hl hnl
    obtain ⟨x, hx, hx'⟩ := hcells f.name hn
    rw [keyCells_field hfit hnd _ (field_mem hf)] at hx hx'
    rw [hid', Value.index, get_ofEntries_map hn, Option.getD_some] at hx
    rw [hid, Value.index, get_ofEntries_map hn, Option.getD_some] at hx'
    rw [hx'] at hdecode
    rw [hx, hdecode] at hdecode'
    rw [← hs'.2, ← hs.2, Except.ok.inj hdecode']
  refine hne ?_
  obtain ⟨km, ki⟩ := k
  obtain ⟨km', ki'⟩ := key
  simp only at hid hid' hname hname'
  rw [hid, hid', hname, hname', List.map_congr_left fun n hn => by rw [hgg n hn]]

/-- A normalized row has its values, and over the tables of an opened store it round-trips exactly when
    their columns are filled and no other record of the schema has its row there. In a store that is
    opened for models whose names differ in more than letter case it always does. -/
theorem row_round_trip (hm : e.schema.model name = .ok model) (hk : e.recordKey name identity = .ok key)
    (hs : e.schema.state e.codecs name st loader = .ok v)
    (hj : ∀ f ∈ model.fields, f.valueType.isList → ReadsBack q.json
      ((rowData model (mergeIdentity key.identity v)).at f.name)) :
    (rowData model (mergeIdentity key.identity v)).value = mergeIdentity key.identity v ∧
      (Opened e.schema cat →
        (RoundTrips e q cat defaults model key (rowData model (mergeIdentity key.identity v)) ↔
          (∀ p : Place, ∀ t, cat.table (p.table model.name) = some t →
            Filled defaults model (rowData model (mergeIdentity key.identity v)) t) ∧
          Alone e q model key)) ∧
      ((e.schema.models.map (fold ·.name)).Nodup → Ddl.reconcile e.schema Ddl.framework = .ok cat →
        RoundTrips e q cat defaults model key (rowData model (mergeIdentity key.identity v))) := by
  have hrow := normal_mergeIdentity hm hk hs hj
  refine ⟨rowData_value hm hk hs, fun hopen => roundTrips_iff hopen (model_mem hm) hrow,
    fun hnames hcat => ?_⟩
  obtain ⟨hopen, htables⟩ := opened_apart e.valid hnames hcat
  obtain ⟨t, -, hfit⟩ := hopen.tables model (model_mem hm) .main
  refine (roundTrips_iff hopen (model_mem hm) hrow).mpr ⟨fun p t ht => ?_, alone_own hnames hfit hm hk⟩
  obtain rfl := Option.some.inj ((htables model (model_mem hm) p).symm.trans ht)
  exact filled_own hm hk hs _

end RoundTrip

namespace Sample

/-- A note with a body. -/
def body : ModelDescriptor where
  name := "note"
  identity := ["id"]
  fields := [⟨"id", .scalar .string, false, none⟩, ⟨"body", .scalar .string, true, none⟩]

/-- Notes with a title, and notes with a body. -/
def notes : Engine where
  codecs := AheadSync.Sample.codecs
  schema := {
    models := [
      { name := "Note", identity := ["id"]
        fields := [⟨"id", .scalar .string, false, none⟩, ⟨"title", .scalar .string, false, none⟩] }, body] }
  valid := by decide +kernel

/-- What opening an empty store for them makes: one table for both, and one before table. -/
def sharedTable (name : String) : Table :=
  ⟨name, [⟨"id", "TEXT", true⟩, ⟨"title", "TEXT", true⟩, ⟨"body", "TEXT", false⟩], ["id"]⟩

def shared : Catalog where
  tables := Ddl.framework.tables ++ ["Note", "ahead_before_Note"].map sharedTable
  indexes := Ddl.framework.indexes

theorem opened_shared : Opened notes.schema shared where
  tables := by
    have hfits : ∀ m ∈ notes.schema.models, Fits m (sharedTable "Note") := by
      intro m hm
      simp only [notes, List.mem_cons, List.not_mem_nil, or_false] at hm
      rcases hm with rfl | rfl <;> exact ⟨rfl, by decide +kernel, by decide +kernel⟩
    intro m hm p
    have htable : ∀ m ∈ notes.schema.models, shared.table m.name = some (sharedTable "Note") ∧
        shared.table (Ddl.beforeTable m.name) = some (sharedTable "ahead_before_Note") := by
      decide +kernel
    cases p
    · exact ⟨_, (htable m hm).1, hfits m hm⟩
    · exact ⟨_, (htable m hm).2, (hfits m hm).key, (hfits m hm).apart, (hfits m hm).columns⟩
  indexes := by decide +kernel

/-- A reading of a temperature sensor, which is on or off. -/
def reading : ModelDescriptor where
  name := "Reading"
  identity := ["sensor", "on"]
  fields := [⟨"sensor", .scalar .int, false, none⟩, ⟨"on", .scalar .boolean, false, none⟩,
    ⟨"degrees", .scalar .float, true, none⟩, ⟨"tags", .list (.scalar .string), false, none⟩]

def readings : Engine where
  codecs := AheadSync.Sample.codecs
  schema := { models := [reading] }
  valid := by decide +kernel

/-- Lists of one tag, printed and parsed; SQLite turns no text into numbers here. -/
def oneTag : RowCodec where
  codecs := AheadSync.Sample.codecs
  sqlite := ⟨fun _ => "", fun _ => none⟩
  json := ⟨fun _ => "[\"warm\"]", fun _ => .ok (.arr [.str "warm"])⟩

end Sample

/-- A note with a body needs a title: its table is that of the notes with a title. -/
theorem not_row_round_trip : ¬∀ (e : Engine) (q : RowCodec) (cat : Catalog)
    (defaults : String → String → Option SqlValue) (model : ModelDescriptor) (name : String)
    (key : RecordKey) (identity st v : Value) (loader : Bool),
    Ddl.reconcile e.schema Ddl.framework = .ok cat → Opened e.schema cat →
    e.schema.model name = .ok model → e.recordKey name identity = .ok key →
    e.schema.state e.codecs name st loader = .ok v →
    (∀ f ∈ model.fields, f.valueType.isList → ReadsBack q.json
      ((rowData model (mergeIdentity key.identity v)).at f.name)) →
    RoundTrips e q cat defaults model key (rowData model (mergeIdentity key.identity v)) := by
  intro h
  have hlist : ∀ f ∈ Sample.body.fields, f.valueType.isList = false := by decide
  have hrt := h Sample.notes Sample.oneTag Sample.shared (fun _ _ => none) Sample.body "note"
    ⟨"note", .ofEntries [("id", .str "1")]⟩ (.ofEntries [("id", .str "1")])
    (.ofEntries [("body", .null)]) (.ofEntries [("body", .null)]) true (by decide +kernel)
    Sample.opened_shared (by decide +kernel) (by decide +kernel) (by decide +kernel)
    fun f hf hl => absurd hl (by simp [hlist f hf])
  obtain ⟨db', hup, -⟩ := hrt.stored (fun _ => []) .main fun _ _ _ _ => refuses_empty
  have hok : _ = true := congrArg (fun r : Except String (Sql.File SqlValue) => r.toOption.isSome) hup
  exact absurd hok (by decide +kernel)

/-- A reading of a sensor that is on, with a tag. -/
theorem row_round_trip_reading : ∃ cat, Ddl.reconcile Sample.readings.schema Ddl.framework = .ok cat ∧
    RoundTrips Sample.readings Sample.oneTag cat (fun _ _ => none) Sample.reading
      ⟨"Reading", .ofEntries [("on", .bool true), ("sensor", .num 7)]⟩
      (rowData Sample.reading (mergeIdentity (.ofEntries [("on", .bool true), ("sensor", .num 7)])
        (.ofEntries [("degrees", .num (1 / 2)), ("tags", .arr [.str "warm"])]))) := by
  obtain ⟨cat, hcat⟩ : ∃ cat, Ddl.reconcile Sample.readings.schema Ddl.framework = .ok cat :=
    Except.exists_ok (by decide +kernel)
  have htags : ∀ f ∈ Sample.reading.fields, f.valueType.isList → ReadsBack Sample.oneTag.json
      ((rowData Sample.reading (mergeIdentity (.ofEntries [("on", .bool true), ("sensor", .num 7)])
        (.ofEntries [("degrees", .num (1 / 2)), ("tags", .arr [.str "warm"])]))).at f.name) := by
    intro f hf hl
    rw [rowData_at (by decide) _ hf]
    simp only [Sample.reading, List.mem_cons, List.not_mem_nil, or_false] at hf
    rcases hf with rfl | rfl | rfl | rfl <;> first | exact absurd hl (by decide) | rfl
  have hall := @row_round_trip Sample.readings Sample.oneTag cat (fun _ _ => none) Sample.reading "Reading"
    ⟨"Reading", .ofEntries [("on", .bool true), ("sensor", .num 7)]⟩
    (.ofEntries [("on", .bool true), ("sensor", .num 7)])
    (.ofEntries [("degrees", .num (1 / 2)), ("tags", .arr [.str "warm"])])
    (.ofEntries [("degrees", .num (1 / 2)), ("tags", .arr [.str "warm"])]) true
    (by decide +kernel) (by decide +kernel) (by decide +kernel) htags
  exact ⟨cat, hcat, hall.2.2 (by decide +kernel) hcat⟩

end SqlRows
end AheadSync
