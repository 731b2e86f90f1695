import AheadSync.Client.Transport
import AheadSync.Lib.Run
import AheadSync.Lib.Savepoints

/-! Several clients on one database file (`client/src/lib.rs`). A client caches the generation it last
    saw, and the last statement of every transaction advances the stored one from it: a client that
    another has overtaken commits nothing. -/

namespace AheadSync

/-- What the file holds durably. -/
structure File where
  store : Store
  generation : ℕ
  deriving DecidableEq

/-- An open transaction of a connection: the snapshot it began on, its content, what it was told to
    do, and the stored generation as it sees it. -/
structure Transaction where
  base : File
  body : Savepoints.Open Store
  steps : List (Savepoints.Step Store) := []
  generation : ℕ

def File.transaction (file : File) : Transaction :=
  { base := file, body := ⟨file.store, []⟩, generation := file.generation }

/-- `Session`: the subscription marks of its steps, and the savepoints the host has open. -/
structure HostSession where
  changed : List String := []
  savepoints : List String := []
  counter : ℕ := 0

/-- One `Client` value with its writing connection. While a `write` has not returned it holds the
    marks of its body. -/
structure Writer where
  generation : ℕ
  pulls : PullLedger := {}
  session : Option HostSession := none
  transaction : Option Transaction := none
  writing : Option (List String) := none

/-- What the storage refuses although nothing of the model stands against it. -/
structure Faults where
  begin : Bool := false
  fence : Bool := false
  commit : Bool := false

/-- What a host does in a transaction: its result, its marks, and what it wrote, also when it fails. -/
abbrev Body := Store → Except String Unit × List String × Store

namespace Writer
variable (w : Writer) (file : File) (faults : Faults)

/-- `ClientStore::begin`. -/
def begin : Except String Writer :=
  if faults.begin then .error "sqlite: database is locked"
  else if w.transaction.isSome then
    .error "sqlite: cannot start a transaction within a transaction"
  else .ok { w with transaction := some file.transaction }

/-- `ClientStore::rollback`. -/
def rollback : Writer := { w with transaction := none }

/-- One step of the open transaction. -/
def execute (s : Savepoints.Step Store) : Writer :=
  { w with transaction := w.transaction.map fun t =>
    { t with body := t.body.step s, steps := t.steps ++ [s] } }

/-- Run a body in the open transaction. -/
def perform (body : Body) : Except String Unit × List String × Writer :=
  match w.transaction with
  | none => (.error "no active transaction", [], w)
  | some t =>
    let (result, changed, _) := body t.body.work
    (result, changed, w.execute (.apply fun st => (body st).2.2))

/-- `fence`: advance the stored generation from the cached one. -/
def fence : Except String Writer :=
  match w.transaction with
  | none => .error "no active transaction"
  | some t =>
    if faults.fence then .error "sqlite: disk I/O error"
    else if t.generation = w.generation then
      .ok { w with transaction := some { t with generation := t.generation + 1 } }
    else .error "stale client writer; reopen runtime"

/-- `ClientStore::commit` of a serializable store: a transaction that read and wrote the generation
    is refused when another generation was committed since its snapshot. A refused one stays open. -/
def commit : Except String (File × Writer) :=
  match w.transaction with
  | none => .error "sqlite: cannot commit - no transaction is active"
  | some t =>
    if faults.commit ∨ t.base.generation ≠ file.generation then .error "sqlite: database is locked"
    else .ok (⟨t.body.work, t.generation⟩, { w with transaction := none })

/-- `notify`, as far as the ledger goes. -/
def notify (changed : List String) : Writer :=
  { w with generation := w.generation + 1, pulls := w.pulls.absorb (sortedSet changed) }

/-- `write` up to its commit. -/
def write (body : Body) : Except String Unit × Writer :=
  if w.session.isSome then (.error "client transaction active", w)
  else match w.begin file faults with
    | .error m => (.error m, w)
    | .ok w =>
      match w.perform body with
      | (.error m, _, w) => (.error m, w.rollback)
      | (.ok (), changed, w) =>
        match w.fence faults with
        | .error m => (.error m, w.rollback)
        | .ok w => (.ok (), { w with writing := some changed })

/-- The commit of a `write`. -/
def finish : Except String Unit × File × Writer :=
  match w.writing with
  | none => (.ok (), file, w)
  | some changed =>
    match w.commit file faults with
    | .error m => (.error m, file, { w.rollback with writing := none })
    | .ok (file, w) => (.ok (), file, { w.notify changed with writing := none })

/-- `begin_session`. -/
def beginSession : Except String Unit × Writer :=
  if w.session.isSome then (.error "transaction already active", w)
  else match w.begin file faults with
    | .error m => (.error m, w)
    | .ok w => (.ok (), { w with session := some {} })

/-- `session`: a body that fails keeps what it wrote before, in the open transaction. -/
def step (body : Body) : Except String Unit × Writer :=
  match w.session with
  | none => (.error "no active transaction", w)
  | some s =>
    let (result, changed, w) := w.perform body
    (result, { w with session := some { s with changed := s.changed ++ changed } })

/-- `session_savepoint`. -/
def savepoint : Except String Unit × Writer :=
  match w.session with
  | none => (.error "no active transaction", w)
  | some s =>
    let name := "session_" ++ toString (s.counter + 1)
    (.ok (), { w.execute (.save name) with
      session := some { s with savepoints := name :: s.savepoints, counter := s.counter + 1 } })

/-- End the innermost savepoint of the session. -/
def endSavepoint (how : String → Savepoints.Step Store) : Except String Unit × Writer :=
  match w.session with
  | none => (.error "no active transaction", w)
  | some s =>
    match s.savepoints with
    | [] => (.error "no savepoint", w)
    | name :: savepoints =>
      (.ok (), { w.execute (how name) with session := some { s with savepoints } })

/-- `session_release`. -/
def release : Except String Unit × Writer := w.endSavepoint .release

/-- `session_rollback_savepoint`. -/
def rollbackSavepoint : Except String Unit × Writer := w.endSavepoint .rollback

/-- `rollback_session`. -/
def rollbackSession : Except String Unit × Writer :=
  match w.session with
  | none => (.error "no active transaction", w)
  | some _ => (.ok (), { w.rollback with session := none })

/-- `commit_session`. -/
def commitSession : Except String Unit × File × Writer :=
  match w.session with
  | none => (.error "no active transaction", file, w)
  | some s =>
    let w := { w with session := none }
    if s.savepoints ≠ [] then (.error "unclosed savepoint", file, w.rollback)
    else match w.fence faults with
      | .error m => (.error m, file, w.rollback)
      | .ok w =>
        match w.commit file faults with
        | .error m => (.error m, file, w.rollback)
        | .ok (file, w) => (.ok (), file, w.notify s.changed)

end Writer

/-- A call on one client. A `write` is two of them: other clients act between its body and its
    commit. -/
inductive FenceCall where
  | write (faults : Faults) (body : Body)
  | finish (faults : Faults)
  | beginSession (faults : Faults)
  | step (body : Body)
  | savepoint | release | rollbackSavepoint | rollbackSession
  | commitSession (faults : Faults)
  | read (query : Store → Except String Unit)

/-- The answer of a call, with the file and the client after it. -/
def Writer.call (w : Writer) (file : File) : FenceCall → Except String Unit × File × Writer
  | .write faults body => let (r, w) := w.write file faults body; (r, file, w)
  | .finish faults => w.finish file faults
  | .beginSession faults => let (r, w) := w.beginSession file faults; (r, file, w)
  | .step body => let (r, w) := w.step body; (r, file, w)
  | .savepoint => let (r, w) := w.savepoint; (r, file, w)
  | .release => let (r, w) := w.release; (r, file, w)
  | .rollbackSavepoint => let (r, w) := w.rollbackSavepoint; (r, file, w)
  | .rollbackSession => let (r, w) := w.rollbackSession; (r, file, w)
  | .commitSession faults => w.commitSession file faults
  | .read query => (query file.store, file, w)

end AheadSync
