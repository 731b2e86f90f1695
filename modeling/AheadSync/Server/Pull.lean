import AheadSync.Lib.Group
import AheadSync.Server.Push

/-! Serving a pull (`process_pull`, `server/src/lib.rs`): each channel is scanned after its cursor,
    the changed records are loaded model by model, and the page answers each of them once. A call
    for several records that fails is made again for each of them. -/

namespace AheadSync

/-- A row of the answer to a scan. -/
structure ScanRow where
  channel : String
  cursor : ℕ
  model : String
  identity : Value
  identityKey : String
  stamp : ℕ
  deriving DecidableEq

/-- The state of a server as one pull reads it: heads and scans of its storage, and its loaders. -/
structure PullHost where
  head : String → Except Failure ℕ
  scan : String → ℕ → ℕ → Except Failure (List ScanRow)
  load : LoadRequest → Except Failure Loaded

/-- Run a loader, and check its answer. -/
def PullHost.callLoad (host : PullHost) (request : LoadRequest) : Except Failure Loaded := do
  let loaded ← host.load request
  loaded.validate.mapError fun m => ⟨"loader.invalid", "load response invalid: " ++ m, .null⟩
  return loaded

/-- The changed records of a pull, by their encodings, each with its stamp. -/
abbrev Scanned := SortedMap String (RecordKey × ℕ)

/-- What reading each record gave: its state, or the code of a read that failed. -/
abbrev States := SortedMap String (Except String Value)

/-- `refusal_code`. -/
def refusalCode : Loaded → String
  | .refused rejection => rejection
  | _ => "loader.failed"

namespace Backend
variable (b : Backend) (host : PullHost) (owner : String) (request : PullRequest)

/-- One row of a scan: in order, of a loaded model, under its canonical identity. -/
def scanRow (channel : String) (head : ℕ) (acc : ℕ × Scanned) (row : ScanRow) :
    Except Failure (ℕ × Scanned) := do
  ensure (row.channel = channel ∧ acc.1 < row.cursor ∧ row.cursor ≤ head)
    (Failure.storageInvalid "invalid invalidation order")
  ensure (row.model ∈ b.config.loaders) unregistered
  let key ← (b.config.schema.recordKey b.codecs row.model row.identity).mapError
    Failure.storageInvalid
  ensure (row.identityKey = canonicalJson b.codecs key.identity)
    (Failure.storageInvalid "noncanonical identity")
  let entry := (acc.2.lookup (key.encoded b.codecs)).getD (key, row.stamp)
  return (row.cursor, acc.2.insert (key.encoded b.codecs) (entry.1, max entry.2 row.stamp))

/-- Scan one channel after the cursor the client is at. -/
def scanChannel (acc : SortedMap String CursorRange × Scanned) (asked : String × ℕ) :
    Except Failure (SortedMap String CursorRange × Scanned) := do
  let head ← host.head asked.1
  ensure (asked.2 ≤ head) (Failure.requestInvalid ("cursor ahead of head on " ++ asked.1))
  let rows ← host.scan asked.1 asked.2 pullChanges
  ensure (rows.length ≤ pullChanges) (Failure.storageInvalid "invalid scan size")
  let (previous, records) ← rows.foldlM (b.scanRow asked.1 head) (asked.2, acc.2)
  let toCursor := if rows.length = pullChanges then previous else head
  return (acc.1.insert asked.1 ⟨asked.2, toCursor, head⟩, records)

def scanChannels : Except Failure (SortedMap String CursorRange × Scanned) :=
  request.cursors.entries.foldlM (b.scanChannel host) (.empty, .empty)

/-- The version a model is read at, and its contract. -/
def servedAt (model : String) : Except Failure (ℕ × Schema) := do
  let version ← required (request.models.lookup model) ⟨"model_version_unsupported",
    "model " ++ model ++ " is not declared by the client", .ofEntries [("model", .str model)]⟩
  let contract ← required (b.config.contract model version) (Failure.internal
    ("model " ++ model ++ " v" ++ toString version ++ " is not retained"))
  return (version, contract)

/-- A row the served contract does not accept fails alone. -/
def normalizeRow (contract : Schema) (model : String) : Option Value → Except String Value
  | none => .ok .null
  | some state => (contract.normalizeState b.codecs model state).mapError fun _ => "loader.invalid"

/-- What a call for one record answered. -/
def answerOne (contract : Schema) (model : String) : Loaded → Except String Value
  | .rows [row] => b.normalizeRow contract model row
  | .rows _ => .error "loader.invalid"
  | refused => .error (refusalCode refused)

/-- Load one record in a call of its own. -/
def loadOne (version : ℕ) (contract : Schema) (key : RecordKey) :
    Except Failure (Except String Value) := do
  let one ← host.callLoad ⟨key.model, version, [key.identity], owner⟩
  return b.answerOne contract key.model one

/-- Load the records of one model in one call, and each on its own where that cannot say which of
    them failed. -/
def loadBatch (model : String) (version : ℕ) (contract : Schema) (keys : List RecordKey) :
    Except Failure (List (Except String Value)) := do
  let loaded ← host.callLoad ⟨model, version, keys.map (·.identity), owner⟩
  match loaded with
  | .rows rows =>
    if rows.length = keys.length then return rows.map (b.normalizeRow contract model)
    else if keys.length = 1 then return [.error "loader.invalid"]
    else keys.mapM (b.loadOne host owner version contract)
  | refused =>
    if keys.length = 1 then return [.error (refusalCode refused)]
    else keys.mapM (b.loadOne host owner version contract)

/-- Load the changed records of one model. -/
def loadModel (states : States) (group : String × List (String × RecordKey)) :
    Except Failure States := do
  let (version, contract) ← b.servedAt request group.1
  let outcome ← b.loadBatch host owner group.1 version contract (group.2.map (·.2))
  return (group.2.zip outcome).foldl (fun states e => states.insert e.1.1 e.2) states

/-- A change of the page: the state of a record at its stamp, or the code of the read that failed. -/
def pageChange (key : RecordKey) (stamp : ℕ) : Option (Except String Value) → AuthorityRecord
  | some (.ok state) => { model := key.model, identity := key.identity, stamp, state }
  | some (.error code) => { model := key.model, identity := key.identity, stamp, error := some code }
  | none => { model := key.model, identity := key.identity, stamp }

/-- The request of a pull, accepted. -/
def acceptPull : Except Failure Unit := do
  principal owner
  request.validate.mapError Failure.requestInvalid
  b.config.checkDeclared request.models

/-- `process_pull`. -/
def processPull : Except Failure PullPage := do
  b.acceptPull owner request
  let (cursors, records) ← b.scanChannels host request
  let groups := SortedMap.group (fun e : String × RecordKey => e.2.model)
    (records.entries.map fun e => (e.1, e.2.1))
  let states ← groups.entries.foldlM (b.loadModel host owner request) .empty
  let changes := records.entries.map fun e => pageChange e.2.1 e.2.2 (states.lookup e.1)
  let page : PullPage := { cursors, changes }
  page.validate.mapError Failure.internal
  return page

/-- Load a changed record in a call of its own, at the version its model is read at. -/
def loadAlone (key : RecordKey) : Except Failure (Except String Value) := do
  let (version, contract) ← b.servedAt request key.model
  b.loadOne host owner version contract key

/-- A pull that loads each record in a call of its own. -/
def processPullAlone : Except Failure PullPage := do
  b.acceptPull owner request
  let (cursors, records) ← b.scanChannels host request
  let changes ← records.entries.mapM fun e => do
    return pageChange e.2.1 e.2.2 (some (← b.loadAlone host owner request e.2.1))
  let page : PullPage := { cursors, changes }
  page.validate.mapError Failure.internal
  return page

end Backend

/-- The rows of an answer that can be matched to `n` records. -/
def Loaded.matched (n : ℕ) : Loaded → Option (List (Option Value))
  | .rows answered => if answered.length = n then some answered else none
  | _ => none

/-- A loader that is pointwise on identities: a call for several is thrown back, or answered without
    a row for each, exactly when the call for one of them alone is; otherwise it answers each as the
    call for it alone does. -/
structure PullHost.Pointwise (host : PullHost) : Prop where
  thrown : ∀ model version owner identities, identities ≠ [] →
    ((∃ err, host.callLoad ⟨model, version, identities, owner⟩ = .error err) ↔
      ∃ i ∈ identities, ∃ err, host.callLoad ⟨model, version, [i], owner⟩ = .error err)
  matched : ∀ model version owner identities loaded,
    host.callLoad ⟨model, version, identities, owner⟩ = .ok loaded → ∀ rows,
      (loaded.matched identities.length = some rows ↔ List.Forall₂ (fun i row =>
        ∃ one, host.callLoad ⟨model, version, [i], owner⟩ = .ok one ∧ one.matched 1 = some [row])
        identities rows)

end AheadSync
