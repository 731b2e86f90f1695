import AheadSync.Client.Mutate

/-! One applier for authoritative records, whichever path delivered them (`client/src/authority.rs`).
    Content is ordered by record stamp alone; a record with pending operations takes it in its before
    image, and its visible row is replayed once the delivery has made its changes to the queue. -/

namespace AheadSync

inductive ReportKind where
  | readFailed | skipped | conflict | diverged
  deriving DecidableEq

/-- Why one record or one queued mutation could not be applied as delivered. -/
structure Report where
  kind : ReportKind
  model : String
  identity : Value
  stamp : ℕ
  code : Option String := none
  ordinal : Option ℕ := none
  detail : Value := .null
  deriving DecidableEq

structure ApplyReport where
  applied : ℕ := 0
  stale : Bool := false
  cursors : SortedMap String ℕ := .empty
  reports : List Report := []
  deriving DecidableEq

/-- How one authoritative record compared with what the client already held. -/
inductive Disposition where
  | applied | older | same
  | conflict («local» incoming : Option Value)
  deriving DecidableEq

/-- The records to replay, once each, in the order of their encodings. -/
abbrev Held := List RecordKey

/-- What staging one record left: the store, the held records, whether it landed, and the report. -/
structure Staged where
  store : Store
  held : Held
  applied : Bool := false
  entry : Option Report := none

/-- The report of a delivery: how many records landed, what could not be applied and then which
    replays failed. -/
def stagedReport (adapt : Report → Report) (staged : List Staged) (reports : List Report) :
    ApplyReport where
  applied := (staged.filter (·.applied)).length
  reports := staged.filterMap (·.entry.map adapt) ++ reports

namespace Engine
variable (e : Engine)

def hold (key : RecordKey) : Held → Held
  | [] => [key]
  | k :: ks =>
    if k = key then k :: ks
    else if key.encoded e.codecs < k.encoded e.codecs then key :: k :: ks
    else k :: hold key ks

def holdAll (held : Held) (keys : List RecordKey) : Held := keys.foldl (fun held k => e.hold k held) held

/-- The row a record's content stands for: none for a deletion. -/
def incomingRow (key : RecordKey) (r : AuthorityRecord) : Except String (Option Value) :=
  if r.state.isNull then .ok none
  else do return some (mergeIdentity key.identity (← e.schema.validateState e.codecs r.model r.state))

/-- Put content beneath the pending operations of a dirty record, or in a clean record's row. -/
def stageOne (st : Store) (held : Held) (key : RecordKey) (value : Option Value) :
    Except String (Store × Held) :=
  if st.dirty key then do return (← e.beforeSet st key value, e.hold key held)
  else do return (← e.mainSet st key value, held)

/-- The records a deletion takes with it. -/
def cascadeOf (st : Store) (key : RecordKey) (incoming : Option Value) :
    Except String (List RecordKey) :=
  if incoming = none then e.descendants st key else .ok []

/-- Stage newer content with the cascade of a deletion, and its stamp. The held records survive an
    error. -/
def stageNewer (st : Store) (held : Held) (key : RecordKey) (incoming : Option Value) (stamp : ℕ) :
    Except (String × Held) (Store × Held) := do
  let (st, held) ← (e.stageOne st held key incoming).mapError (·, held)
  let found ← (e.cascadeOf st key incoming).mapError (·, held)
  let (st, held) ← found.foldlM (fun (st, held) child =>
    (e.stageOne st held child none).mapError (·, held)) (st, held)
  return (st.setRecordStamp key stamp, held)

/-- Stage one authoritative record by stamp. -/
def stageAuthority (st : Store) (held : Held) (r : AuthorityRecord) :
    Except (String × Held) (Disposition × Store × Held) := do
  let key ← (e.recordKey r.model r.identity).mapError (·, held)
  let incoming ← (e.incomingRow key r).mapError (·, held)
  if r.stamp < st.recordStamp key then return (.older, st, held)
  else if r.stamp = st.recordStamp key then
    return (if st.truth key = incoming then .same else .conflict (st.truth key) incoming, st, held)
  else
    let (st, held) ← e.stageNewer st held key incoming r.stamp
    return (.applied, st, held)

/-- A report about a delivered record. -/
def Report.of (kind : ReportKind) (r : AuthorityRecord) : Report :=
  { kind, model := r.model, identity := r.identity, stamp := r.stamp }

/-- Stage one record in its own savepoint: one that cannot be applied is reported and leaves
    nothing written. -/
def stageIsolated (st : Store) (held : Held) (r : AuthorityRecord) : Staged :=
  match r.error with
  | some code => { store := st, held, entry := some { Report.of .readFailed r with code := some code } }
  | none =>
    match e.stageAuthority st held r with
    | .ok (.applied, st', held') => { store := st', held := held', applied := true }
    | .ok (.older, st', held') => { store := st', held := held' }
    | .ok (.same, st', held') => { store := st', held := held' }
    | .ok (.conflict l i, st', held') =>
      { store := st', held := held', entry := some { Report.of .conflict r with
          detail := .ofEntries [("local", l.getD .null), ("incoming", i.getD .null)] } }
    | .error (message, held') =>
      { store := st, held := held', entry := some { Report.of .skipped r with
          detail := .ofEntries [("error", .str message)] } }

/-- Stage every record of one delivery in order. -/
def stageAll (st : Store) (held : Held) : List AuthorityRecord → Store × Held × List Staged
  | [] => (st, held, [])
  | r :: rs =>
    let staged := e.stageIsolated st held r
    let (st, held, rest) := stageAll staged.store staged.held rs
    (st, held, staged :: rest)

/-- Rebuild one held record, reporting a replay that failed. -/
def rebuildStep (acc : List Report × Store) (key : RecordKey) : Except String (List Report × Store) := do
  let (failed, st) ← e.rebuild acc.2 key
  return (acc.1 ++ (failed.map fun ordinal => ({
    kind := .diverged, model := key.model, identity := key.identity
    stamp := st.recordStamp key, ordinal := some ordinal } : Report)).toList, st)

/-- Rebuild the held records, then extend queued deletes. -/
def rebuildHeld (st : Store) (held : Held) : Except String (List Report × Store) := do
  let (reports, st) ← held.foldlM e.rebuildStep ([], st)
  return (reports, ← e.refreshPending st)

/-- Stage every record of a page, then rebuild the held records once. -/
def applyRecords (st : Store) (records : List AuthorityRecord) : Except String (ApplyReport × Store) := do
  let (st, held, staged) := e.stageAll st [] records
  let (reports, st) ← e.rebuildHeld st held
  return (stagedReport id staged reports, st)

end Engine

end AheadSync
