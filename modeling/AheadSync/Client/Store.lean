import AheadSync.Core.Protocol
import AheadSync.Lib.Reach
import AheadSync.Lib.Table

/-! The durable state of a client: the visible and before tables, the stamps, the subscriptions and
    the queue of pending mutations (`client/src/queue.rs`, `client/src/ledger.rs`). -/

namespace AheadSync

structure Mutation where
  name : String
  version : ℕ := 1
  operations : List Operation
  companion : List Operation := []
  effects : List Operation := []
  prerequisites : List String := []
  lifecycleDependencies : List ℕ := []
  sequenceDependencies : List ℕ := []
  deriving DecidableEq

/-- Operations in the order of their positions. -/
def Mutation.allOps (m : Mutation) : List Operation := m.operations ++ m.companion ++ m.effects

structure Queued where
  ordinal : ℕ
  push : Option ℕ := none
  diverged : Bool := false
  mutation : Mutation
  deriving DecidableEq

structure QueuedOp where
  ordinal : ℕ
  op : Operation
  deriving DecidableEq

/-- What the rejection inbox keeps of a removed mutation. -/
structure RejectionRow where
  name : String
  code : String
  mutation : Mutation
  records : List RecordKey
  deriving DecidableEq

/-- Every durable table. One table holds the visible rows of all models, keyed by record, and one
    their before images: every model has SQL tables of its own, and models that share one (names that
    differ in letter case alone) are outside this layer. The queue lists its mutations in ordinal order. -/
structure Store where
  clientId : String
  nextOrdinal : ℕ := 1
  nextPush : ℕ := 1
  lastCompletedPush : ℕ := 0
  pushModels : Option Models := none
  main : Table RecordKey Value := ∅
  before : Table RecordKey Value := ∅
  stamps : Table RecordKey ℕ := ∅
  subscriptions : SortedMap String ℕ := .empty
  queue : List Queued := []
  rejections : SortedMap ℕ RejectionRow := .empty
  deriving DecidableEq

/-- A client's schema, validated when the client was opened, and the codecs it was built with. -/
structure Engine where
  codecs : Codecs
  schema : Schema
  valid : schema.validate = .ok ()

namespace Engine

def recordKey (e : Engine) (model : String) (identity : Value) : Except String RecordKey :=
  e.schema.recordKey e.codecs model identity

/-- The key of an operation's record. -/
def opKey (e : Engine) (op : Operation) : Except String RecordKey := e.recordKey op.model op.identity

/-- `declared_models`. -/
def declaredModels (e : Engine) : Models :=
  .ofList (e.schema.models.map fun m => (m.name, m.version))

end Engine

namespace Store
variable (st : Store)

/-- The queued operations of one record, in ordinal and position order. -/
def opsFor (key : RecordKey) : List QueuedOp :=
  st.queue.flatMap fun q => (q.mutation.allOps.filter (·.key = key)).map (⟨q.ordinal, ·⟩)

/-- Whether a record has a queued operation. -/
def dirty (key : RecordKey) : Bool := st.queue.any fun q => q.mutation.allOps.any (·.key = key)

def queuedOne (ordinal : ℕ) : Option Queued := st.queue.find? (·.ordinal = ordinal)

/-- `bump`: the counter's value and its successor. -/
def bump (value : ℕ) : Except String (ℕ × ℕ) := do
  ensure (value + 1 ≤ maxSafeInteger) "counter exhausted"
  return (value, value + 1)

def allocateOrdinal : Except String (ℕ × Store) := do
  let (ordinal, next) ← bump st.nextOrdinal
  return (ordinal, { st with nextOrdinal := next })

def allocatePush : Except String (ℕ × Store) := do
  let (push, next) ← bump st.nextPush
  return (push, { st with nextPush := next })

/-- Change the queued mutation with an ordinal. -/
def modify (ordinal : ℕ) (f : Queued → Queued) : Store :=
  { st with queue := st.queue.map fun q => if q.ordinal = ordinal then f q else q }

def setDiverged (ordinal : ℕ) : Store := st.modify ordinal fun q => { q with diverged := true }

/-- Delete mutations with their operations, and every dependency from or on them. -/
def deleteMutations (ordinals : List ℕ) : Store :=
  { st with queue := (st.queue.filter (·.ordinal ∉ ordinals)).map fun q =>
      { q with mutation := { q.mutation with
          lifecycleDependencies := q.mutation.lifecycleDependencies.filter (· ∉ ordinals)
          sequenceDependencies := q.mutation.sequenceDependencies.filter (· ∉ ordinals) } } }

def assignPush (ordinals : List ℕ) (push : ℕ) : Store :=
  { st with queue := st.queue.map fun q =>
      if q.ordinal ∈ ordinals then { q with push := some push } else q }

/-- The push that was frozen and not completed, if any. -/
def inFlight : Except String (Option ℕ) :=
  let pushes := (st.queue.filterMap (·.push)).dedup
  if 1 < pushes.length then .error "more than one push in flight" else .ok pushes.head?

def setLastCompletedPush (push : ℕ) : Store :=
  { st with lastCompletedPush := push, pushModels := none }

def setPushModels (models : Models) : Store := { st with pushModels := some models }

/-- The outstanding prerequisites of the queue. -/
def prerequisiteKeys : List String := st.queue.flatMap (·.mutation.prerequisites)

def resolvePrerequisite (key : String) : Store :=
  { st with queue := st.queue.map fun q => { q with mutation := { q.mutation with
      prerequisites := q.mutation.prerequisites.filter (· ≠ key) } } }

def insertRejection (ordinal : ℕ) (row : RejectionRow) : Store :=
  { st with rejections := st.rejections.insert ordinal row }

def recordStamp (key : RecordKey) : ℕ := (st.stamps.lookup key).getD 0

def setRecordStamp (key : RecordKey) (stamp : ℕ) : Store :=
  { st with stamps := st.stamps.insert key stamp }

def cursor (channel : String) : Option ℕ := st.subscriptions.lookup channel

def setCursor (channel : String) (cursor : ℕ) : Store :=
  { st with subscriptions := st.subscriptions.insert channel cursor }

def deleteSubscription (channel : String) : Store :=
  { st with subscriptions := st.subscriptions.erase channel }

end Store

namespace Engine
variable (e : Engine)

/-- An operation as the queue stores it: under its normalized identity. -/
def storedOp (op : Operation) : Except String Operation := do
  return { op with identity := (← e.opKey op).identity }

/-- A dependency listed under both kinds is kept as a lifecycle one. -/
def insertMutation (st : Store) (ordinal : ℕ) (m : Mutation) : Except String Store := do
  let operations ← m.operations.mapM e.storedOp
  let companion ← m.companion.mapM e.storedOp
  let effects ← m.effects.mapM e.storedOp
  return { st with queue := st.queue ++ [{ ordinal, mutation := { m with
    operations, companion, effects
    sequenceDependencies := m.sequenceDependencies.filter (· ∉ m.lifecycleDependencies) } }] }

/-- Add an effect after the operations of a queued mutation. -/
def addEffect (st : Store) (ordinal : ℕ) (op : Operation) : Except String Store := do
  let op ← e.storedOp op
  return st.modify ordinal fun q =>
    { q with mutation := { q.mutation with effects := q.mutation.effects ++ [op] } }

end Engine

end AheadSync
