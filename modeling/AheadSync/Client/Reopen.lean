import AheadSync.Client.Session

/-! Reopening a store for another compiled schema (`client/src/ddl.rs`, `client/src/lib.rs`). The
    tables hold the columns of the schema they were opened for; reconciling adds the columns the new
    schema has and refuses what cannot be added. -/

namespace AheadSync

/-- `storage_type`. -/
def storageType : ValueType → String
  | .scalar .boolean | .scalar .int => "INTEGER"
  | .scalar .float => "REAL"
  | _ => "TEXT"

/-- `literal`: the default a column that may not be null is added with. -/
def literal (field : FieldDescriptor) : Except String Value :=
  match field.default with
  | none => .error ("column " ++ field.name ++ " is not nullable and has no default")
  | some .null => .error ("column " ++ field.name ++ " default cannot be null")
  | some value => .ok value

/-- What an added column holds in the rows that are there. -/
def addedColumn (field : FieldDescriptor) : Except String (String × Value) :=
  if field.nullable then .ok (field.name, .null) else do return (field.name, ← literal field)

/-- The columns of a model that its table lacks, once the others fit. -/
def missingColumns (current model : ModelDescriptor) : Except String (List (String × Value)) := do
  let added ← model.fields.mapM fun field =>
    match current.field field.name with
    | some existing => do
      ensure (storageType existing.valueType = storageType field.valueType)
        ("column " ++ model.name ++ "." ++ field.name ++ " is " ++ storageType existing.valueType ++
          " in the database but " ++ storageType field.valueType ++ " in the schema")
      return []
    | none => do return [← addedColumn field]
  return added.flatten

/-- `ALTER TABLE … ADD COLUMN` in the rows of one model. -/
def addColumns (name : String) (added : List (String × Value)) (t : Table RecordKey Value) :
    Table RecordKey Value :=
  t.rows.foldl (fun t (key, row) =>
    if key.model = name then t.put key (some (row.setAll added)) else t) t

/-- A unique index can be made when no two rows of the model collide. -/
def indexable (model : ModelDescriptor) (t : Table RecordKey Value) : Bool :=
  t.rows.all fun (key, row) => key.model ≠ model.name || !duplicates model t key row

/-- Make the tables of one model match the schema, or fail. -/
def reconcileModel (old : Schema) (st : Store) (model : ModelDescriptor) : Except String Store :=
  match old.models.find? (·.name = model.name) with
  | none => .ok st
  | some current => do
    ensure (current.identity = model.identity)
      ("identity columns of " ++ model.name ++ " changed; cannot open")
    let added ← missingColumns current model
    let st := { st with
      main := addColumns model.name added st.main, before := addColumns model.name added st.before }
    ensure (indexable model st.main) "UNIQUE constraint failed"
    return st

/-- `reconcile`, for a store that was opened for the schema `old`. -/
def reconcile (old : Schema) (schema : Schema) (st : Store) : Except String Store :=
  schema.models.foldlM (reconcileModel old) st

/-- A schema with every enum value, model and field of another, where a model keeps its identity
    and what it adds may be missing in the rows that are there. -/
structure Additive (old new : Schema) : Prop where
  enums : ∀ en ∈ old.enums, ∃ en' ∈ new.enums, en'.name = en.name ∧ en.values ⊆ en'.values
  models : ∀ m ∈ old.models, ∃ m' ∈ new.models, m'.name = m.name ∧ m'.identity = m.identity ∧
    (∀ f ∈ m.fields, ∃ f' ∈ m'.fields, f'.name = f.name ∧ f'.valueType = f.valueType ∧
      f'.nullable = f.nullable) ∧
    ∀ f' ∈ m'.fields, (m.field f'.name).isNone → f'.nullable = true ∨ f'.default.isSome = true

/-- Close the store and open it for the schema of `e'`. When the tables cannot be reconciled the file
    stays as it was, and the runtime with the schema it has opens it again. -/
def Client.reopen (e e' : Engine) (c : Client) : Engine × Client :=
  match reconcile e.schema e'.schema c.store with
  | .ok st => (e', ⟨st, {}⟩)
  | .error _ => (e, ⟨c.store, {}⟩)

end AheadSync
