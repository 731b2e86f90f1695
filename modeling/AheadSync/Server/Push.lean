import AheadSync.Server.Readback
import AheadSync.Core.Wire

/-! Serving a batch and settling a change made outside a handler (`process_push`, `settle_external`,
    `server/src/lib.rs`). -/

namespace AheadSync

/-- An operation of an uploaded body, where a slot could take it at all. -/
def Operation.ofRaw (raw : Value) : Option Operation := do
  let model ← (raw.index "model").asStr
  let op ← match (raw.index "op").asStr with
    | some "create" => some OperationKind.create
    | some "update" => some .update
    | some "delete" => some .delete
    | _ => none
  return { model, op, identity := raw.index "identity", values := raw.get "values" }

/-- The operations before the first that no slot takes, and whether they are all. -/
def Operation.readAll : List Value → List Operation × Bool
  | [] => ([], true)
  | raw :: rest =>
    match Operation.ofRaw raw with
    | none => ([], false)
    | some op => (op :: (readAll rest).1, (readAll rest).2)

namespace RawMutation
variable (m : RawMutation)

def name : Option String := (m.raw.index "name").asStr

/-- `version`: a missing one is the first. -/
def version : Option ℕ := (((m.raw.get "version").getD (.num 1)).readCounter true).toOption

end RawMutation

namespace Backend
variable {D : Type} (b : Backend) (app : App D)

/-- `Config::descriptor` of an uploaded body. -/
def descriptorOf (m : RawMutation) : Except Failure MutationDescriptor := do
  let name ← required m.name Failure.mutationInvalid
  let version ← required m.version Failure.mutationInvalid
  required (b.config.mutations.find? fun d => d.name = name ∧ d.version = version)
    Failure.mutationInvalid

/-- `decode` of an uploaded body. -/
def decodeRaw (m : RawMutation) : Except Failure (Value × List RecordKey) := do
  let d ← b.descriptorOf m
  let schema := b.config.inputSchema d
  let raws ← required (m.raw.index "operations").asArray Failure.mutationInvalid
  let (args, targets) ← b.fillSlots d schema d.slots (Operation.readAll raws).1
  ensure (Operation.readAll raws).2 Failure.mutationInvalid
  checkBindings d schema (.ofEntries args)
  return (.ofEntries args, targets)

/-- A body of a mutation this backend serves, but not at that version. -/
def versionUnsupported (m : RawMutation) : Bool :=
  match m.name, m.version with
  | some name, some version => b.config.mutations.any (·.name = name) &&
      !b.config.mutations.any fun d => d.name = name ∧ d.version = version
  | _, _ => false

/-- What runs for a mutation: its descriptor, its arguments and its targets, or the code that rejects
    it before its handler does. -/
def accept (m : RawMutation) : Except String (MutationDescriptor × Value × List RecordKey) := do
  ensure (!b.versionUnsupported m) "mutation_version_unsupported"
  let d ← (b.descriptorOf m).mapError Failure.code
  let (args, targets) ← (b.decodeRaw m).mapError Failure.code
  return (d, args, targets)

/-- The records of a settlement: those the operations target and those the handler names. -/
def changeSet (targets : List RecordKey) (changes : List RecordRef) : Except Failure Changes := do
  let named ← changes.mapM b.resolve
  return (targets ++ named).foldl b.insertChange []

/-- What the answer of a handler comes to. -/
def answer (declared : Models) (owner : String) (targets : List RecordKey) (t : Tables D) :
    Handled → Except Failure (Outcome × Tables D)
  | .rejected rejection => .ok (.error rejection, t)
  | .failed _ => .ok (.error "handler.failed", t)
  | .settled changes publications => do
    let set ← b.changeSet targets changes
    b.readBack app declared owner set publications t

end Backend

/-- What a batch has come to: its rejections in order, and the last authority of each record. -/
structure Batch where
  rejections : List Rejection := []
  results : SortedMap String AuthorityRecord := .empty

/-- `principal`. -/
def principal (owner : String) : Except Failure Unit :=
  ensure (!blank owner) ⟨"principal.invalid", "invalid principal", .null⟩

namespace Backend
variable {D : Type} (b : Backend) (app : App D)

def collect (batch : Batch) (records : List AuthorityRecord) : Except Failure Batch :=
  records.foldlM (fun batch r => do
    let key ← (b.config.schema.recordKey b.codecs r.model r.identity).mapError Failure.internal
    return { batch with results := batch.results.insert (key.encoded b.codecs) r }) batch

/-- One mutation of a batch, in a savepoint of its own once it is admitted. -/
def pushMutation (declared : Models) (owner : String) (acc : Batch × Db D) (m : RawMutation) :
    Except Failure (Batch × Db D) :=
  let refuse (code : String) : Batch :=
    { acc.1 with rejections := acc.1.rejections ++ [⟨m.ordinal, code⟩] }
  match b.accept m with
  | .error code => .ok (refuse code, acc.2)
  | .ok (d, args, targets) => do
    let db := acc.2.savepoint m.ordinal
    let (handled, t) ← app.callHandle ⟨d.name, d.version, args, owner, m.ordinal⟩ db.tables
    match ← b.answer app declared owner targets t handled with
    | (.error code, t) => do
      let db ← { db with tables := t }.rollback m.ordinal
      return (refuse code, ← db.release m.ordinal)
    | (.ok records, t) => do
      let batch ← b.collect acc.1 records
      return (batch, ← { db with tables := t }.release m.ordinal)

/-- A batch that follows the last one accepted from its client. -/
def runBatch (j : Json) (owner : String) (request : RawPushRequest) (db : Db D) :
    Except Failure (PushReceipt × Db D) := do
  let (batch, db) ← request.mutations.foldlM (b.pushMutation app request.models owner) ({}, db)
  let receipt : PushReceipt := {
    clientId := request.clientId
    batchSequence := request.batchSequence
    rejections := batch.rejections
    records := batch.results.entries.map (·.2) }
  let _ ← (receipt.encode j).mapError Failure.internal
  let tables ← db.tables.saveReceipt owner request.clientId request.batchSequence receipt
  return (receipt, { db with tables })

/-- `process_push`. -/
def processPush (j : Json) (owner text : String) (db : Db D) :
    Except Failure (PushReceipt × Db D) := do
  principal owner
  let request ← (RawPushRequest.decode j text).mapError Failure.requestInvalid
  let (locked, tables) := db.tables.claim owner request.clientId
  ensure (locked.clientId = request.clientId) (Failure.storageInvalid "storage client mismatch")
  ensure (locked.owner = owner) (Failure.ofCode "client.owner_mismatch")
  if request.batchSequence = locked.sequence then
    let receipt ← required locked.receipt (Failure.storageInvalid "receipt missing")
    return (receipt, { db with tables })
  else
    ensure (locked.sequence ≤ request.batchSequence) (Failure.ofCode "overlap")
    ensure (request.batchSequence = locked.sequence + 1) (Failure.ofCode "gap")
    b.runBatch app j owner request { db with tables }

/-- `settle_external`: the changed records with the stamps they got. -/
def settleExternal (settlement : Handled) (t : Tables D) :
    Except Failure (List (RecordKey × ℕ) × Tables D) := do
  settlement.validate.mapError fun m => ⟨"publish.invalid", m, .null⟩
  match settlement with
  | .settled changes publications => do
    let set ← b.changeSet [] changes
    let (stamps, t) ← allocateStamps set t
    let t ← b.publishIntents set stamps publications t
    return (set.map fun key => (key, (stamps.lookup key).getD 0), t)
  | _ => .error ⟨"publish.invalid", "an external settlement carries changes and publications", .null⟩

end Backend

end AheadSync
