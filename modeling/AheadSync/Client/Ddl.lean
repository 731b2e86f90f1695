import AheadSync.Client.Reopen
import AheadSync.Lib.Catalog

/-! The tables a schema is given (`client/src/ddl.rs`): names are made of model and field names, and
    what exists is not created again. -/

namespace AheadSync
namespace Ddl
open Sql

/-- `before_table`. -/
def beforeTable (model : String) : String := "ahead_before_" ++ model

/-- `column`. -/
def column (field : FieldDescriptor) : Column :=
  ⟨field.name, storageType field.valueType, !field.nullable⟩

/-- `table_ddl`. -/
def tableDdl (table : String) (model : ModelDescriptor) : Table :=
  ⟨table, model.fields.map column, model.identity⟩

def indexName (model : ModelDescriptor) (fields : List String) : String :=
  model.name ++ "_" ++ "_".intercalate fields ++ "_unique"

def indexDdl (model : ModelDescriptor) (fields : List String) : Index :=
  ⟨indexName model fields, model.name, fields, true⟩

def createIndexes (model : ModelDescriptor) (cat : Catalog) : Except String Catalog :=
  model.unique.foldlM (fun cat fields => cat.createIndex (indexDdl model fields)) cat

/-- `model_ddl`: both tables, then the unique indexes. -/
def modelDdl (model : ModelDescriptor) (cat : Catalog) : Except String Catalog := do
  let cat ← cat.createTable (tableDdl model.name model)
  let cat ← cat.createTable (tableDdl (beforeTable model.name) model)
  createIndexes model cat

/-- A field of a table that exists: its column fits, or is added to both tables. -/
def reconcileField (model : ModelDescriptor) (current : Table) (cat : Catalog)
    (field : FieldDescriptor) : Except String Catalog :=
  match current.columns.find? (·.name = field.name) with
  | some c => do
    ensure (c.type = storageType field.valueType)
      ("column " ++ model.name ++ "." ++ field.name ++ " is " ++ c.type ++ " in the database but " ++
        storageType field.valueType ++ " in the schema")
    return cat
  | none => do
    let _ ← addedColumn field
    let cat ← cat.addColumn model.name (column field)
    cat.addColumn (beforeTable model.name) (column field)

def reconcileModel (cat : Catalog) (model : ModelDescriptor) : Except String Catalog :=
  match cat.table model.name with
  | none => modelDdl model cat
  | some current => do
    ensure (current.key = model.identity)
      ("identity columns of " ++ model.name ++ " changed; cannot open")
    let cat ← model.fields.foldlM (reconcileField model current) cat
    createIndexes model cat

/-- `reconcile`. -/
def reconcile (schema : Schema) (cat : Catalog) : Except String Catalog :=
  schema.models.foldlM reconcileModel cat

/-- A framework table, its columns with their types and whether they are `NOT NULL`. -/
def frameworkTable (name : String) (columns : List (String × String × Bool)) (key : List String) :
    Table :=
  ⟨name, columns.map fun (name, type, notNull) => ⟨name, type, notNull⟩, key⟩

/-- `FRAMEWORK_DDL`: what opening an empty store makes before it reconciles. -/
def framework : Catalog where
  tables := [
    frameworkTable "ahead_schema" [("descriptor", "TEXT", true), ("created_at", "TEXT", true)] [],
    frameworkTable "ahead_client" [("client_id", "TEXT", false), ("next_ordinal", "INTEGER", true),
      ("next_push", "INTEGER", true), ("generation", "INTEGER", true),
      ("last_completed_push", "INTEGER", true), ("push_models", "TEXT", false)] ["client_id"],
    frameworkTable "ahead_record" [("model", "TEXT", true), ("identity", "TEXT", true),
      ("stamp", "INTEGER", true)] ["model", "identity"],
    frameworkTable "ahead_subscription" [("channel", "TEXT", false), ("cursor", "INTEGER", true)]
      ["channel"],
    frameworkTable "ahead_mutation" [("ordinal", "INTEGER", false), ("name", "TEXT", true),
      ("version", "INTEGER", true), ("push", "INTEGER", false), ("diverged", "INTEGER", true)]
      ["ordinal"],
    frameworkTable "ahead_mutation_operation" [("ordinal", "INTEGER", true),
      ("position", "INTEGER", true), ("kind", "TEXT", true), ("model", "TEXT", true),
      ("identity", "TEXT", true), ("op", "TEXT", true), ("values", "TEXT", false)]
      ["ordinal", "position"],
    frameworkTable "ahead_mutation_dependency" [("ordinal", "INTEGER", true),
      ("depends_on", "INTEGER", true), ("kind", "TEXT", true)] ["ordinal", "depends_on"],
    frameworkTable "ahead_mutation_prerequisite" [("ordinal", "INTEGER", true),
      ("key", "TEXT", true), ("error", "TEXT", false)] ["ordinal", "key"],
    frameworkTable "ahead_rejection" [("ordinal", "INTEGER", false), ("name", "TEXT", true),
      ("code", "TEXT", true), ("detail", "TEXT", false)] ["ordinal"]]
  indexes := [⟨"ahead_mutation_operation_record", "ahead_mutation_operation",
    ["model", "identity", "ordinal", "position"], false⟩]

/-- The tables and indexes a schema declares, after the framework's. -/
def modelTables (model : ModelDescriptor) : List Table :=
  [tableDdl model.name model, tableDdl (beforeTable model.name) model]

def tables (models : List ModelDescriptor) : List Table :=
  framework.tables ++ models.flatMap modelTables

def indexes (models : List ModelDescriptor) : List Index :=
  framework.indexes ++ models.flatMap fun m => m.unique.map (indexDdl m)

/-- A catalog gives each model a main and a before table of its own with exactly its columns, and
    enforces its unique constraints. -/
structure Faithful (s : Schema) (cat : Catalog) : Prop where
  main : ∀ m ∈ s.models, cat.table m.name = some (tableDdl m.name m)
  before : ∀ m ∈ s.models, cat.table (beforeTable m.name) = some (tableDdl (beforeTable m.name) m)
  framework : ∀ m ∈ s.models, ∀ t ∈ framework.tables,
    cat.table t.name ≠ cat.table m.name ∧ cat.table t.name ≠ cat.table (beforeTable m.name)
  own : ∀ m ∈ s.models, ∀ m' ∈ s.models, cat.table m.name ≠ cat.table (beforeTable m'.name) ∧
    (m ≠ m' → cat.table m.name ≠ cat.table m'.name ∧
      cat.table (beforeTable m.name) ≠ cat.table (beforeTable m'.name))
  unique : ∀ m ∈ s.models, ∀ fields ∈ m.unique, cat.Enforced Value m.name fields

/-- The names of a schema stay apart in the database. -/
structure Nameable (s : Schema) : Prop where
  models : (s.models.map (fold ·.name)).Nodup
  fields : ∀ m ∈ s.models, (m.fields.map (fold ·.name)).Nodup
  apart : ∀ i ∈ indexes s.models, reserved i.name = false ∧
    ∀ t ∈ tables s.models, fold t.name ≠ fold i.name
  guarded : ∀ m ∈ s.models, ∀ fields ∈ m.unique, m.identity ⊆ fields ∨
    ∃ g ∈ m.unique, g ⊆ fields ∧
      (indexes s.models).find? (fold ·.name = fold (indexName m g)) = some (indexDdl m g)

end Ddl
end AheadSync
