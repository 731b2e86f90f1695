import AheadSync.Client.Store
import AheadSync.Lib.Group
import AheadSync.Lib.OrderBy

/-! The queue as the store keeps it: four tables joined by ordinal (`client/src/queue.rs` over the
    tables of `client/src/ddl.rs`). Identities and values are JSON text. -/

namespace AheadSync

/-- `serde_json::to_string` and `serde_json::from_str`. -/
structure SerdeJson where
  print : Value → String
  parse : String → Except String Value

/-- What an operation is for. -/
inductive OpKind where
  | wire | companion | effect
  deriving DecidableEq

/-- A stored operation, as the queue reads it. -/
structure StoredOp where
  ordinal : ℕ
  position : ℕ
  kind : OpKind
  op : Operation
  deriving DecidableEq

def kindText : OpKind → String
  | .wire => "wire"
  | .companion => "companion"
  | .effect => "effect"

def readKind : String → Except String OpKind
  | "wire" => .ok .wire
  | "companion" => .ok .companion
  | "effect" => .ok .effect
  | _ => .error "unknown operation kind"

def opText : OperationKind → String
  | .create => "create"
  | .update => "update"
  | .delete => "delete"

def readOp : String → Except String OperationKind
  | "create" => .ok .create
  | "update" => .ok .update
  | "delete" => .ok .delete
  | _ => .error "unknown operation"

structure MutationRow where
  ordinal : ℕ
  name : String
  version : ℕ
  push : Option ℕ := none
  diverged : Bool := false
  deriving DecidableEq

structure OperationRow where
  ordinal : ℕ
  position : ℕ
  kind : String
  model : String
  identity : String
  op : String
  values : Option String
  deriving DecidableEq

structure DependencyRow where
  ordinal : ℕ
  dependsOn : ℕ
  kind : String
  deriving DecidableEq

structure PrerequisiteRow where
  ordinal : ℕ
  key : String
  error : Option String := none
  deriving DecidableEq

/-- The tables of the queue, each with its rows in the order they were inserted. -/
structure QueueTables where
  mutations : List MutationRow := []
  operations : List OperationRow := []
  dependencies : List DependencyRow := []
  prerequisites : List PrerequisiteRow := []
  deriving DecidableEq

namespace QueueTables
variable (t : QueueTables)

def ordinals : List ℕ := t.mutations.map (·.ordinal)

/-- The primary key of an operation row, by which operations are selected in order. -/
def opPlace (row : OperationRow) : ℕ ×ₗ ℕ := toLex (row.ordinal, row.position)

def dependencyKey (row : DependencyRow) : ℕ ×ₗ ℕ := toLex (row.ordinal, row.dependsOn)

def prerequisiteKey (row : PrerequisiteRow) : ℕ ×ₗ String := toLex (row.ordinal, row.key)

def insertMutationRow (row : MutationRow) : Except String QueueTables := do
  ensure (row.ordinal ∉ t.ordinals) "UNIQUE constraint failed: ahead_mutation.ordinal"
  return { t with mutations := t.mutations ++ [row] }

def insertOperationRow (row : OperationRow) : Except String QueueTables := do
  ensure (opPlace row ∉ t.operations.map opPlace)
    "UNIQUE constraint failed: ahead_mutation_operation.ordinal, ahead_mutation_operation.position"
  ensure (row.ordinal ∈ t.ordinals) "FOREIGN KEY constraint failed"
  return { t with operations := t.operations ++ [row] }

/-- `INSERT OR IGNORE`: a row with a known key, and one that fails its check, are passed over. -/
def insertDependencyRow (row : DependencyRow) : Except String QueueTables := do
  if ¬row.dependsOn < row.ordinal ∨ dependencyKey row ∈ t.dependencies.map dependencyKey then return t
  ensure (row.ordinal ∈ t.ordinals ∧ row.dependsOn ∈ t.ordinals) "FOREIGN KEY constraint failed"
  return { t with dependencies := t.dependencies ++ [row] }

def insertPrerequisiteRow (row : PrerequisiteRow) : Except String QueueTables := do
  if prerequisiteKey row ∈ t.prerequisites.map prerequisiteKey then return t
  ensure (row.ordinal ∈ t.ordinals) "FOREIGN KEY constraint failed"
  return { t with prerequisites := t.prerequisites ++ [row] }

/-- Delete a mutation and, by `ON DELETE CASCADE`, every row that refers to it. -/
def deleteMutation (ordinal : ℕ) : QueueTables where
  mutations := t.mutations.filter (·.ordinal ≠ ordinal)
  operations := t.operations.filter (·.ordinal ≠ ordinal)
  dependencies := t.dependencies.filter fun r => r.ordinal ≠ ordinal ∧ r.dependsOn ≠ ordinal
  prerequisites := t.prerequisites.filter (·.ordinal ≠ ordinal)

def deleteMutations (ordinals : List ℕ) : QueueTables := ordinals.foldl deleteMutation t

def setDiverged (ordinal : ℕ) : QueueTables :=
  { t with mutations := t.mutations.map fun r =>
      if r.ordinal = ordinal then { r with diverged := true } else r }

def assignPush (ordinals : List ℕ) (push : ℕ) : QueueTables :=
  { t with mutations := t.mutations.map fun r =>
      if r.ordinal ∈ ordinals then { r with push := some push } else r }

def resolvePrerequisite (key : String) : QueueTables :=
  { t with prerequisites := t.prerequisites.filter (·.key ≠ key) }

/-- `fail_prerequisite`, and `reset_prerequisite` for no error. -/
def setPrerequisiteError (key : String) (error : Option String) : QueueTables :=
  { t with prerequisites := t.prerequisites.map fun r =>
      if r.key = key then { r with error := error } else r }

end QueueTables

/-- The operations of a mutation in the order of their positions. -/
def Mutation.taggedOps (m : Mutation) : List (OpKind × Operation) :=
  m.operations.map (.wire, ·) ++ m.companion.map (.companion, ·) ++ m.effects.map (.effect, ·)

/-- `as_u64` of a column bound from an unsigned integer: SQLite keeps one of 63 bits, and a greater one
    as a real number, which is not read back. -/
def readU64 (n : ℕ) : Except String ℕ :=
  if n < 2 ^ 63 then .ok n else .error "expected an unsigned integer"

/-- A client's queue: the engine that names records, and the JSON text of its columns. -/
structure SqlQueue where
  engine : Engine
  json : SerdeJson

namespace SqlQueue
variable (q : SqlQueue)

/-- `RecordKey::encoded_identity`. -/
def encodedIdentity (key : RecordKey) : String := canonicalJson q.engine.codecs key.identity

def readValues : Option String → Except String (Option Value)
  | none => .ok none
  | some text => (q.json.parse text).map some

def decodeOp (row : OperationRow) : Except String StoredOp := do
  let kind ← readKind row.kind
  let op ← readOp row.op
  let identity ← q.json.parse row.identity
  let values ← q.readValues row.values
  return ⟨row.ordinal, row.position, kind, ⟨row.model, op, identity, values⟩⟩

def insertOp (t : QueueTables) (ordinal position : ℕ) (kind : OpKind) (op : Operation) :
    Except String QueueTables := do
  let key ← q.engine.recordKey op.model op.identity
  t.insertOperationRow ⟨ordinal, position, kindText kind, op.model, q.encodedIdentity key, opText op.op,
    op.values.map q.json.print⟩

/-- Insert operations at consecutive positions. -/
def insertOps (ordinal : ℕ) : QueueTables → ℕ → List (OpKind × Operation) → Except String QueueTables
  | t, _, [] => .ok t
  | t, position, (kind, op) :: ops => do
    let t ← q.insertOp t ordinal position kind op
    insertOps ordinal t (position + 1) ops

def insertMutation (t : QueueTables) (ordinal : ℕ) (m : Mutation) : Except String QueueTables := do
  let t ← t.insertMutationRow { ordinal, name := m.name, version := m.version }
  let t ← q.insertOps ordinal t 0 m.taggedOps
  let t ← m.lifecycleDependencies.foldlM (fun t d => t.insertDependencyRow ⟨ordinal, d, "lifecycle"⟩) t
  let t ← m.sequenceDependencies.foldlM (fun t d => t.insertDependencyRow ⟨ordinal, d, "sequence"⟩) t
  m.prerequisites.foldlM (fun t key => t.insertPrerequisiteRow { ordinal, key }) t

/-- `COALESCE(MAX(position), -1) + 1`. -/
def nextPosition (t : QueueTables) (ordinal : ℕ) : ℕ :=
  match ((t.operations.filter (·.ordinal = ordinal)).map (·.position)).max? with
  | none => 0
  | some position => position + 1

def addEffect (t : QueueTables) (ordinal : ℕ) (op : Operation) : Except String QueueTables :=
  q.insertOp t ordinal (nextPosition t ordinal) .effect op

/-- The selected operations in the order of their places, grouped by ordinal. -/
def opsByOrdinal (t : QueueTables) (keep : OperationRow → Bool) :
    Except String (SortedMap ℕ (List StoredOp)) := do
  let ops ← (orderBy QueueTables.opPlace (t.operations.filter keep)).mapM q.decodeOp
  return SortedMap.group (·.ordinal) ops

/-- A mutation put together from its row and the rows selected with it. -/
def readMutation (ops : SortedMap ℕ (List StoredOp)) (dependencies : List DependencyRow)
    (prerequisites : List PrerequisiteRow) (row : MutationRow) : Except String Queued := do
  let version ← readU64 row.version
  let ops := (ops.lookup row.ordinal).getD []
  let dependencies := dependencies.filter (·.ordinal = row.ordinal)
  return { ordinal := row.ordinal, push := row.push, diverged := row.diverged, mutation := {
    name := row.name, version
    operations := (ops.filter (·.kind = .wire)).map (·.op)
    companion := (ops.filter (·.kind = .companion)).map (·.op)
    effects := (ops.filter (·.kind = .effect)).map (·.op)
    prerequisites := (prerequisites.filter (·.ordinal = row.ordinal)).map (·.key)
    lifecycleDependencies := (dependencies.filter (·.kind = "lifecycle")).map (·.dependsOn)
    sequenceDependencies := (dependencies.filter (·.kind ≠ "lifecycle")).map (·.dependsOn) } }

/-- `queued_where`, of every mutation or of one. -/
def queuedWhere (t : QueueTables) (keep : ℕ → Bool) : Except String (List Queued) := do
  let mutations := orderBy (·.ordinal) (t.mutations.filter (keep ·.ordinal))
  if mutations = [] then return []
  let ops ← q.opsByOrdinal t (keep ·.ordinal)
  mutations.mapM (readMutation ops
    (orderBy QueueTables.dependencyKey (t.dependencies.filter (keep ·.ordinal)))
    (orderBy QueueTables.prerequisiteKey (t.prerequisites.filter (keep ·.ordinal))))

def queued (t : QueueTables) : Except String (List Queued) := q.queuedWhere t fun _ => true

def queuedOne (t : QueueTables) (ordinal : ℕ) : Except String (Option Queued) := do
  return (← q.queuedWhere t (· = ordinal)).head?

/-- The stored operations of one record. -/
def opsFor (t : QueueTables) (key : RecordKey) : Except String (List StoredOp) := do
  let ops ← q.opsByOrdinal t fun r => r.model = key.model ∧ r.identity = q.encodedIdentity key
  return ops.entries.flatMap (·.2)

end SqlQueue

end AheadSync
