import AheadSync.Client.LeftBehind
import AheadSync.Client.Ddl
import AheadSync.Core.Compatibility
import AheadSync.Lib.Stepwise
import Mathlib.Data.List.DropRight

/-! The file a client opens (`client/src/schema_store.rs`, `Client::open_at`): the application names a
    path, a sidecar beside it the file in use. An incompatible schema gets a fresh file with a number,
    and the sidecar moves to it. -/

namespace AheadSync
namespace Files
open Sql Stepwise

/-- A database file: its tables, the schema it recorded, and what it keeps since it was first opened to
    the end. -/
structure DbFile where
  catalog : Catalog := {}
  descriptor : Option Engine := none
  store : Option Store := none

/-- The directory of a path. -/
structure Directory where
  sidecar : Option String := none
  files : SortedMap String DbFile := .empty

inductive Layout where
  | fresh
  | current
  | legacy (what : String)
  deriving DecidableEq

def legacyTables : List String := ["ahead_claim", "ahead_push_checkpoint"]

def clientColumns : List String := ["last_completed_push", "push_models"]

/-- The steps of `Client::open`. -/
inductive OpenStep where
  | checkLayout | framework | addColumns | begin | reconcile | writeDescriptor | readClient | insertClient
  | commit
  | load (model : String)
  deriving DecidableEq

/-- The steps of opening a path, and of rebuilding in place. -/
inductive FileStep where
  | countPending
  | readSidecar | openFile | checkLayout | framework | readDescriptor | readTables | countMutations
  | countDirect (model : String)
  | listStrays
  | remove (file : String)
  | listFiles | openOld | readChannels | openNew
  | opening (step : OpenStep)
  | beginCursors
  | setCursor (channel : String)
  | commitCursors | writeSidecar | renameSidecar
  deriving DecidableEq

/-! ### The tables of a file -/

namespace DbFile
variable (db : DbFile)

/-- `check_layout`. -/
def layout : Layout :=
  match legacyTables.find? fun name => db.catalog.tables.any (·.name = name) with
  | some name => .legacy ("table " ++ name)
  | none => match db.catalog.tables.find? (·.name = "ahead_client") with
    | none => .fresh
    | some table => match clientColumns.find? fun column => !table.columns.any (·.name = column) with
      | some column => .legacy ("ahead_client lacks " ++ column)
      | none => .current

/-- `FRAMEWORK_DDL`. -/
def runFramework : Except String DbFile := do
  let cat ← Ddl.framework.tables.foldlM Catalog.createTable db.catalog
  let cat ← Ddl.framework.indexes.foldlM Catalog.createIndex cat
  return { db with catalog := cat }

/-- `add_framework_columns`. -/
def addFrameworkColumns : Except String DbFile :=
  if (db.catalog.table "ahead_mutation").any fun t => t.columns.any (·.name = "diverged") then .ok db
  else do
    let cat ← db.catalog.addColumn "ahead_mutation" ⟨"diverged", "INTEGER", true⟩
    return { db with catalog := cat }

/-- What reconciling a model does to the rows: they gain the columns that its table lacks. A unique index
    that is not there yet is refused when two rows collide. -/
def fillModel (cat : Catalog) (st : Store) (model : ModelDescriptor) : Except String Store :=
  match cat.table model.name with
  | none => .ok st
  | some current => do
    let added ← (model.fields.filter fun f => (current.columns.find? (·.name = f.name)).isNone).mapM
      addedColumn
    let st := if added = [] then st else { st with
      main := addColumns model.name added st.main, before := addColumns model.name added st.before }
    ensure ((model.unique.all fun fields => (cat.index (Ddl.indexName model fields)).isSome) ||
      indexable model st.main) "UNIQUE constraint failed"
    return st

/-- `reconcile` of one model, with its rows. -/
def reconcileRows (acc : Catalog × Store) (model : ModelDescriptor) : Except String (Catalog × Store) := do
  let cat ← Ddl.reconcileModel acc.1 model
  let st ← fillModel acc.1 acc.2 model
  return (cat, st)

/-- The transaction of `Client::open`, with the client id that is drawn for a new file. -/
def reconciled (e : Engine) (clientId : String) : Except String DbFile :=
  match db.store with
  | none => do
    let cat ← Ddl.reconcile e.schema db.catalog
    return ⟨cat, some e, some { clientId }⟩
  | some st => do
    let (cat, st) ← e.schema.models.foldlM reconcileRows (db.catalog, st)
    return ⟨cat, some e, some st⟩

/-- The reason why the column of a field does not fit. -/
def incompatibleField (model : ModelDescriptor) (current : Sql.Table) (field : FieldDescriptor) :
    Option String :=
  match current.columns.find? (·.name = field.name) with
  | some c =>
    if c.type = storageType field.valueType then none
    else some ("column " ++ model.name ++ "." ++ field.name ++ " is " ++ c.type ++ " in the database but " ++
      storageType field.valueType ++ " in the schema")
  | none =>
    if field.nullable ∨ field.default.isSome then none
    else some ("column " ++ model.name ++ "." ++ field.name ++ " is not nullable and has no default")

/-- `incompatibility`. -/
def incompatibility (schema : Schema) : Option String :=
  schema.models.findSome? fun model => (db.catalog.table model.name).bind fun current =>
    if current.key ≠ model.identity then some ("identity columns of " ++ model.name ++ " changed")
    else model.fields.findSome? (incompatibleField model current)

/-- The rows of `ahead_mutation`. -/
def mutations : ℕ := db.store.elim 0 (·.queue.length)

/-- The rows of `ahead_subscription`, by channel. -/
def channels : List String := db.store.elim [] (·.subscriptions.keys)

end DbFile

/-! ### Names -/

/-- `str::trim`. -/
def trim (s : String) : String :=
  String.ofList ((s.toList.dropWhile isWhitespace).rdropWhile isWhitespace)

/-- What follows the path and a dot in the name of a file. -/
def number (base file : String) : Option (List Char) := file.toList.dropPrefix? (base ++ ".").toList

/-- `str::parse::<u64>`. -/
def parseNumber (cs : List Char) : Option ℕ :=
  let digits := match cs with
    | '+' :: digits => digits
    | digits => digits
  if digits ≠ [] ∧ digits.all Char.isDigit ∧ Nat.ofDigitChars 10 digits 0 < 2 ^ 64 then
    some (Nat.ofDigitChars 10 digits 0)
  else none

/-- `file_number`: 0 for the path itself. -/
def fileNumber (base file : String) : ℕ := ((number base file).bind parseNumber).getD 0

/-- The name of a numbered file. -/
def numbered (base file : String) : Bool :=
  (number base file).any fun rest => !rest.isEmpty && rest.all Char.isDigit

def fileOf (base : String) (n : ℕ) : String := base ++ "." ++ toString n

namespace Directory
variable (d : Directory)

/-- The file the sidecar points at, or the path itself. -/
def current (base : String) : String :=
  match d.sidecar with
  | none => base
  | some text => if trim text = "" then base else trim text

/-- `numbered_files`. -/
def numberedFiles (base : String) : List String := d.files.keys.filter (numbered base)

/-- A file, an empty one where there is none. -/
def db (file : String) : DbFile := (d.files.lookup file).getD {}

def put (file : String) (db : DbFile) : Directory := { d with files := d.files.insert file db }

/-- SQLite opens a file, or makes one. -/
def touch (file : String) : Directory := if (d.files.lookup file).isSome then d else d.put file {}

def erase (file : String) : Directory := { d with files := d.files.erase file }

end Directory

/-! ### Opening -/

structure PendingRebuild where
  oldFile : String
  reason : String
  pending : ℕ
  direct : ℕ
  deriving DecidableEq

structure RebuildReport where
  oldFile : String
  newFile : String
  reason : String
  leftPending : ℕ
  leftDirect : ℕ
  deriving DecidableEq

structure SchemaState where
  rebuilt : Bool := false
  pending : Option PendingRebuild := none
  lastRebuild : Option RebuildReport := none
  deriving DecidableEq

/-- A client in memory: the file its store is open at, and the schema it uses. A watcher is known by its
    tables and its channel; the origin is the schema that was asked for. -/
structure Live where
  file : String
  engine : Engine
  watchers : List (List String × ℕ) := []
  session : Bool := false
  pulls : PullLedger := {}
  schemaState : SchemaState := {}
  origin : Option Engine := none

/-- The path, how SQLite writes values, the client id that is drawn for a new file, and what becomes of
    the steps. -/
structure Site where
  base : String
  row : RowCodec
  json : LeftBehind.SqliteJson
  clientId : String
  out : FileStep → Outcome

namespace Site
open Run
variable (s : Site)

/-- `count_direct` on a file. -/
def countDirect (stored : Engine) (db : DbFile) : ℕ :=
  db.store.elim 0 (LeftBehind.countDirect stored s.row s.json)

def stepOpen (step : OpenStep) : Run Directory Unit := Run.step (s.out (.opening step))

/-- `Client::open`. -/
def openClient (file : String) (e : Engine) : Run Directory Live := do
  s.stepOpen .checkLayout
  let db ← observe (·.db file)
  match db.layout with
  | .legacy what => fail ("this database was created by an earlier Ahead runtime (" ++ what ++
      "); open it through a path so it can be rebuilt beside")
  | _ =>
    s.stepOpen .framework
    let db ← lift db.runFramework
    update (·.put file db)
    s.stepOpen .addColumns
    let db ← lift db.addFrameworkColumns
    update (·.put file db)
    s.stepOpen .begin
    s.stepOpen .reconcile
    let opened ← lift (db.reconciled e s.clientId)
    s.stepOpen .writeDescriptor
    s.stepOpen .readClient
    if db.store.isNone then s.stepOpen .insertClient
    s.stepOpen .commit
    update (·.put file opened)
    each (fun model => s.stepOpen (.load model.name)) e.schema.models
    return { file, engine := e }

/-- `current_file`. -/
def currentFile : Run Directory String :=
  orElse (do Run.step (s.out .readSidecar); observe (·.current s.base)) s.base

/-- `numbered_files`; an unreadable directory has none. -/
def listFiles (step : FileStep) : Run Directory (List String) :=
  orElse (do Run.step (s.out step); observe (·.numberedFiles s.base)) []

/-- `remove_database_files`. -/
def removeDatabaseFiles (file : String) : Run Directory Unit :=
  orElse (do Run.step (s.out (.remove file)); update (·.erase file)) ()

/-- `next_free_file`. -/
def nextFreeFile : Run Directory String := do
  let files ← s.listFiles .listFiles
  let highest := (files.map (fileNumber s.base)).foldr max 0
  -- past the last `u64` the addition overflows, which stops the program
  Run.step (if highest + 1 < 2 ^ 64 then .done else .crashed)
  return fileOf s.base (highest + 1)

/-- The channels of the old file; one that cannot be read has none. -/
def oldChannels (file : String) : Run Directory (List String) :=
  orElse (do
    Run.step (s.out .openOld)
    update (·.touch file)
    Run.step (s.out .readChannels)
    observe fun d => (d.db file).channels) []

/-- `set_current_file`. -/
def setCurrentFile (file : String) : Run Directory Unit := do
  Run.step (s.out .writeSidecar)
  Run.step (s.out .renameSidecar)
  update fun d => { d with sidecar := some (file ++ "\n") }

/-- The cursors of some channels, all at 0. -/
def subscribeAll (file : String) (channels : List String) : Run Directory Unit := do
  Run.step (s.out .beginCursors)
  each (fun channel => Run.step (s.out (.setCursor channel))) channels
  Run.step (s.out .commitCursors)
  update fun d => d.put file { d.db file with
    store := (d.db file).store.map fun st => channels.foldl (fun st channel => st.setCursor channel 0) st }

/-- `rebuild_beside`. -/
def rebuildBeside (file : String) (e : Engine) (reason : String) (leftPending leftDirect : ℕ) :
    Run Directory Live := do
  let strays ← s.listFiles .listStrays
  each (fun stray => if fileNumber s.base file < fileNumber s.base stray then s.removeDatabaseFiles stray
    else pure ()) strays
  let newFile ← s.nextFreeFile
  let channels ← s.oldChannels file
  Run.step (s.out .openNew)
  update (·.touch newFile)
  let client ← s.openClient newFile e
  if channels ≠ [] then s.subscribeAll newFile channels
  s.setCurrentFile newFile
  return { client with schemaState := { client.schemaState with
    rebuilt := true
    lastRebuild := some ⟨file, newFile, reason, leftPending, leftDirect⟩ } }

/-- The file was laid out by this runtime. -/
def openCurrent (file : String) (e : Engine) (discardPending : Bool) : Run Directory Live := do
  Run.step (s.out .framework)
  let db ← observe (·.db file)
  let db ← lift db.runFramework
  update (·.put file db)
  Run.step (s.out .readDescriptor)
  match db.descriptor with
  | none =>
    Run.step (s.out .readTables)
    match db.incompatibility e.schema with
    | none => s.openClient file e
    | some reason =>
      Run.step (s.out .countMutations)
      s.rebuildBeside file e reason db.mutations 0
  | some stored => match stored.schema.compatibility e.schema with
    | .incompatible reason =>
      Run.step (s.out .countMutations)
      each (fun model => Run.step (s.out (.countDirect model.name))) stored.schema.models
      if 0 < db.mutations ∧ ¬discardPending then
        let client ← s.openClient file stored
        return { client with schemaState := { client.schemaState with
          pending := some ⟨file, reason, db.mutations, s.countDirect stored db⟩ } }
      else s.rebuildBeside file e reason db.mutations (s.countDirect stored db)
    | _ => s.openClient file e

/-- `Client::open_at`. -/
def openAt (e : Engine) (discardPending : Bool) : Run Directory Live := do
  let file ← s.currentFile
  Run.step (s.out .openFile)
  update (·.touch file)
  Run.step (s.out .checkLayout)
  let db ← observe (·.db file)
  let client ← match db.layout with
    | .fresh => s.openClient file e
    | .legacy what => do
      let pending ← orElse (do Run.step (s.out .countMutations); return db.mutations) 0
      s.rebuildBeside file e what pending 0
    | .current => s.openCurrent file e discardPending
  return { client with origin := some e }

end Site

/-! ### Rebuilding in place -/

/-- A client in its directory. -/
structure Running where
  dir : Directory
  live : Live

/-- `notify`: a watcher of one of the tables stays when somebody still listens to it. -/
def Live.notify (listens : ℕ → Bool) (l : Live) (changed : List String) : Live :=
  { l with watchers := l.watchers.filter fun (tables, channel) =>
      !tables.any (· ∈ changed) || listens channel }

/-- `Client::rebuild`. -/
def Site.rebuild (s : Site) (listens : ℕ → Bool) (discardPending : Bool) : Run Running RebuildReport :=
  fun r => match r.live.schemaState.pending with
  | none => (.error (.failed "no rebuild is pending"), r)
  | some pending =>
    if r.live.session then (.error (.failed "client transaction active"), r)
    else match Run.step (s.out .countPending) r with
    | (.error e, r) => (.error e, r)
    | (.ok _, r) =>
      let remaining := (r.dir.db r.live.file).mutations
      if 0 < remaining ∧ ¬discardPending then
        (.error (.failed (toString remaining ++ " unsent mutations remain in " ++ pending.oldFile ++
          "; send them or rebuild with discardPending")), r)
      else match r.live.origin with
      | none => (.error (.failed "client was not opened through a path"), r)
      | some target =>
        let left := { r.live with origin := none }
        match s.openAt target true r.dir with
        | (.error e, dir) => (.error e, ⟨dir, left⟩)
        | (.ok fresh, dir) => match fresh.schemaState.lastRebuild with
          | none => (.error (.failed "rebuild produced no report"), ⟨dir, left⟩)
          | some report =>
            let tables := fresh.engine.schema.models.map fun model => model.name
            (.ok report, ⟨dir, Live.notify listens { fresh with watchers := left.watchers } tables⟩)

end Files
end AheadSync
