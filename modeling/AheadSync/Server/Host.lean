import AheadSync.Server.Config
import AheadSync.Lib.Table

/-! What the server asks of its host (`server/src/host.rs`): an application, which runs handlers and
    loaders over content of its own, and the storage of the synchronization metadata, as the
    PostgreSQL package answers it (`packages/postgres/src/persistence.mts`). -/

namespace AheadSync

/-- A record a handler names. -/
structure RecordRef where
  model : String
  identity : Value
  deriving DecidableEq

/-- One publication a handler asked for: of these records, or of everything the mutation changed. -/
structure PublicationIntent where
  channel : String
  records : Option (List RecordRef) := none
  deriving DecidableEq

/-- The answer of a handler. -/
inductive Handled where
  | settled (changes : List RecordRef) (publications : List PublicationIntent)
  | rejected (rejection : String)
  | failed (error : String)
  deriving DecidableEq

/-- The answer of a loader: one row for each identity, none for a record that is not there. -/
inductive Loaded where
  | rows (rows : List (Option Value))
  | refused (rejection : String)
  | failed (error : String)
  deriving DecidableEq

def RecordRef.wellFormed (r : RecordRef) : Bool := r.model ≠ "" && r.identity.asObject.isSome

/-- What decoding a handler's answer checks. -/
def Handled.validate : Handled → Except String Unit
  | .settled changes publications => ensure (changes.all (·.wellFormed) ∧ publications.all fun p =>
      p.channel ≠ "" && (p.records.getD []).all (·.wellFormed)) "invalid handler settlement"
  | .rejected rejection => ensure (validCode rejection) "invalid rejection code"
  | .failed _ => .ok ()

/-- What decoding a loader's answer checks. -/
def Loaded.validate : Loaded → Except String Unit
  | .rows _ => .ok ()
  | .refused rejection => ensure (validCode rejection) "invalid loader refusal code"
  | .failed _ => .ok ()

structure HandleRequest where
  name : String
  version : ℕ
  arguments : Value
  owner : String
  ordinal : ℕ
  deriving DecidableEq

structure LoadRequest where
  model : String
  version : ℕ
  identities : List Value
  owner : String
  deriving DecidableEq

/-- An application over content of type `D`: whatever its handlers and loaders answer and do to the
    content, unless they fail the delivery. -/
structure App (D : Type) where
  handle : HandleRequest → D → Except String (Handled × D)
  load : LoadRequest → D → Except String (Loaded × D)

/-- A client's row: the last batch accepted from it and the receipt of that batch. -/
structure Claimed where
  clientId : String
  owner : String
  sequence : ℕ := 0
  receipt : Option PushReceipt := none
  deriving DecidableEq

/-- A row of the invalidation table: the identity it publishes, its own cursor and the stamp it was
    published at. -/
structure InvalidationRow where
  identity : Value
  cursor : ℕ
  stamp : ℕ
  deriving DecidableEq

/-- The answer to a publication: the cursor the channel allocated and the stamp it carries. -/
structure Published where
  cursor : ℕ
  stamp : ℕ
  deriving DecidableEq

/-- The tables of a server and the content of its application. -/
structure Tables (D : Type) where
  clients : Table String Claimed := ∅
  heads : Table String ℕ := ∅
  stamps : Table RecordKey ℕ := ∅
  invalidations : Table (String × RecordKey) InvalidationRow := ∅
  content : D

/-- A transaction: the tables as they are in it, and as they were at each open savepoint. -/
structure Db (D : Type) where
  tables : Tables D
  savepoints : List (ℕ × Tables D) := []

namespace Tables
variable {D : Type} (t : Tables D)

/-- `CLAIM_INSERT` and `CLAIM_LOCK`. -/
def claim (owner clientId : String) : Claimed × Tables D :=
  match t.clients.lookup clientId with
  | some row => (row, t)
  | none => ({ clientId, owner }, { t with clients := t.clients.insert clientId { clientId, owner } })

def saveReceipt (owner clientId : String) (sequence : ℕ) (receipt : PushReceipt) :
    Except Failure (Tables D) := do
  let row ← required (t.clients.lookup clientId) (Failure.host "Receipt owner mismatch")
  ensure (row.owner = owner) (Failure.host "Receipt owner mismatch")
  return { t with clients := t.clients.insert clientId { row with sequence, receipt := some receipt } }

def head (channel : String) : ℕ := (t.heads.lookup channel).getD 0

def stamp (key : RecordKey) : ℕ := (t.stamps.lookup key).getD 0

/-- `ADVANCE_STAMP`: initialize at 1 or increment. -/
def advanceStamp (key : RecordKey) : Except Failure (ℕ × Tables D) := do
  let stamp := t.stamp key + 1
  ensure (stamp ≤ maxSafeInteger) (Failure.host "Stored counter outside safe range")
  return (stamp, { t with stamps := t.stamps.insert key stamp })

/-- `ENSURE_STAMP`: initialize at 1 only when the record has none. -/
def ensureStamp (key : RecordKey) : ℕ × Tables D :=
  match t.stamps.lookup key with
  | some stamp => (stamp, t)
  | none => (1, { t with stamps := t.stamps.insert key 1 })

/-- Publish one record on one channel at its current stamp. -/
def publish (channel : String) (key : RecordKey) (stamp : ℕ) :
    Except Failure (Published × Tables D) := do
  let current ← required (t.stamps.lookup key)
    (Failure.host ("Record metadata missing for " ++ key.model ++ ": publish needs its stamp first"))
  ensure (current = stamp) (Failure.host ("Publication names stamp " ++ toString stamp ++ " but " ++
    key.model ++ " is at stamp " ++ toString current))
  let cursor := t.head channel + 1
  ensure (cursor ≤ maxSafeInteger) (Failure.host "Stored counter outside safe range")
  return (⟨cursor, current⟩, { t with
    heads := t.heads.insert channel cursor
    invalidations := t.invalidations.insert (channel, key) ⟨key.identity, cursor, current⟩ })

end Tables

namespace Db
variable {D : Type} (db : Db D)

def savepoint (ordinal : ℕ) : Db D := { db with savepoints := (ordinal, db.tables) :: db.savepoints }

/-- `ROLLBACK TO SAVEPOINT`: the tables as they were when it was opened, which it still is. -/
def rollback (ordinal : ℕ) : Except Failure (Db D) :=
  match db.savepoints.dropWhile (·.1 ≠ ordinal) with
  | [] => .error (Failure.host "savepoint does not exist")
  | saved :: rest => .ok ⟨saved.2, saved :: rest⟩

/-- `RELEASE SAVEPOINT`: keep the tables and forget the savepoint. -/
def release (ordinal : ℕ) : Except Failure (Db D) :=
  match db.savepoints.dropWhile (·.1 ≠ ordinal) with
  | [] => .error (Failure.host "savepoint does not exist")
  | _ :: rest => .ok { db with savepoints := rest }

end Db

namespace App
variable {D : Type} (app : App D)

/-- Run a handler, and check its answer. -/
def callHandle (request : HandleRequest) (t : Tables D) : Except Failure (Handled × Tables D) := do
  let (handled, content) ← (app.handle request t.content).mapError Failure.host
  handled.validate.mapError fun m => ⟨"handler.invalid",
    "handle(ordinal " ++ toString request.ordinal ++ ") response invalid: " ++ m, .null⟩
  return (handled, { t with content })

/-- Run a loader, and check its answer. -/
def callLoad (request : LoadRequest) (t : Tables D) : Except Failure (Loaded × Tables D) := do
  let (loaded, content) ← (app.load request t.content).mapError Failure.host
  loaded.validate.mapError fun m => ⟨"loader.invalid", "load response invalid: " ++ m, .null⟩
  return (loaded, { t with content })

end App

end AheadSync
