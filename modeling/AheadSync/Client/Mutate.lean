import AheadSync.Client.Rows

/-! Optimistic writes, before images, replay and cascades (`client/src/mutate.rs`,
    `client/src/policies.rs`). A record with queued operations is dirty: its before image holds the
    last known server state and its visible row is that image with the operations replayed. -/

namespace AheadSync

/-- `apply_to_row`. -/
def applyToRow (row : Option Value) (op : Operation) : Except String (Option Value) :=
  match op.op, row with
  | .create, some _ => .error "create already exists"
  | .create, none => do
    let values ← required op.values "create values missing"
    return some (mergeIdentity op.identity values)
  | .update, none => .error "update row missing"
  | .update, some current => do
    let patch ← required (op.values.bind Value.asObject) "patch missing"
    return some (current.setAll patch)
  | .delete, _ => .ok none

/-- The deletion of a cascade descendant. -/
def deleteOf (key : RecordKey) : Operation := ⟨key.model, .delete, key.identity, none⟩

/-- Replay operations over a row: the row they leave, or the ordinal of the first that fails. -/
def replay : Option Value → List QueuedOp → Except ℕ (Option Value)
  | row, [] => .ok row
  | row, q :: ops =>
    match applyToRow row q.op with
    | .ok row => replay row ops
    | .error _ => .error q.ordinal

namespace Store
variable (st : Store) (key : RecordKey)

/-- The last known server state: the before image of a dirty record, else the visible row. -/
def truth : Option Value := if st.dirty key then st.before.lookup key else st.main.lookup key

/-- Set a clean record's visible row aside. -/
def holdTruth : Store := if st.dirty key then st else st.copyAside key

/-- What replaying the queued operations over the before image shows: the row they leave, or the
    before image when the replay fails. -/
def shown : Option Value :=
  match replay (st.before.lookup key) (st.opsFor key) with
  | .ok row => row
  | .error _ => st.before.lookup key

/-- The mutation whose operation fails to replay. -/
def failing : Option ℕ :=
  match replay (st.before.lookup key) (st.opsFor key) with
  | .ok _ => none
  | .error ordinal => some ordinal

/-- Mark a mutation, if one failed. -/
def mark (failed : Option ℕ) : Store :=
  match failed with
  | some ordinal => st.setDiverged ordinal
  | none => st

end Store

namespace Engine
variable (e : Engine)

def normalize (op : Operation) : Except String Operation := do
  let key ← e.opKey op
  match op.op with
  | .create => do
    let values ← required op.values "create values missing"
    let values ← e.schema.normalizeState e.codecs op.model values
    return { op with identity := key.identity, values := some values }
  | .update => do
    let values ← required op.values "update values missing"
    let values ← e.schema.validatePatch e.codecs op.model values
    return { op with identity := key.identity, values := some values }
  | .delete => do
    ensure (op.values = none) "delete cannot contain values"
    return { op with identity := key.identity }

/-- Apply one operation to the visible row. -/
def applyMain (st : Store) (op : Operation) : Except String Store := do
  let key ← e.opKey op
  match op.op with
  | .create => do
    let values ← required op.values "create values missing"
    ensure (st.main.lookup key = none) "create already exists"
    e.mainSet st key (some (mergeIdentity op.identity values))
  | .update => do
    let row ← applyToRow (st.main.lookup key) op
    let row ← required row "update row missing"
    e.mainSet st key (some row)
  | .delete => e.mainSet st key none

/-- Make a row visible, or the base when the visible table refuses the row. -/
def showRow (st : Store) (key : RecordKey) (row base : Option Value) : Except String Store :=
  match e.mainSet st key row with
  | .ok st => .ok st
  | .error _ => e.mainSet st key base

/-- Forget the before image of a record without queued operations. -/
def dropBase (st : Store) (key : RecordKey) : Except String Store :=
  if st.opsFor key = [] then e.beforeSet st key none else .ok st

/-- Replay the queued operations of one record over its before image, which a record without any
    no longer needs. The mutation that failed is answered and marked. -/
def rebuild (st : Store) (key : RecordKey) : Except String (Option ℕ × Store) := do
  let truth := st.before.lookup key
  let failed := st.failing key
  let st ← e.showRow st key (st.shown key) truth
  let st ← e.dropBase st key
  return (failed, st.mark failed)

/-- The records that reference one through a cascading relation, visibly or in a before image. -/
def children (st : Store) (parent : RecordKey) : Except String (List RecordKey) :=
  (e.schema.models.flatMap fun model =>
    (model.relations.filter fun r => r.target = parent.model ∧ r.onDelete = "delete").flatMap fun r =>
      let filter := (r.fields.zip r.targetFields).map fun (l, t) => (l, parent.identity.index t)
      (identitiesWhere st.main model filter ++ identitiesWhere st.before model filter).map
        (model.name, ·)).mapM fun (name, identity) => e.recordKey name identity

/-- Every record reachable from `parent` through declared cascading deletes. There are at most as
    many as there are rows, which bounds the search. -/
def descendants (st : Store) (parent : RecordKey) : Except String (List RecordKey) :=
  Reach.explore (e.children st) parent (st.main.rows.length + st.before.rows.length + 1) [parent] []

/-- Extend one queued delete to a descendant. -/
def extendDelete (q : Queued) (st : Store) (child : RecordKey) : Except String Store := do
  if q.mutation.effects.any (·.key = child) then return st
  let st := st.holdTruth child
  let st ← e.addEffect st q.ordinal (deleteOf child)
  let (_, st) ← e.rebuild st child
  return st

/-- Extend one queued delete to every descendant it has now. -/
def extendOp (q : Queued) (st : Store) (op : Operation) : Except String Store := do
  let parent ← e.opKey op
  let found ← e.descendants st parent
  found.foldlM (e.extendDelete q) st

/-- Extend the deletes of one queued mutation. -/
def extendQueued (st : Store) (q : Queued) : Except String Store :=
  ((q.mutation.operations ++ q.mutation.companion).filter (·.op = .delete)).foldlM (e.extendOp q) st

/-- Extend queued deletes to descendants that appeared after they were queued. -/
def refreshPending (st : Store) : Except String Store := st.queue.foldlM e.extendQueued st

/-- Hold and delete the descendants of a deleted record, collecting the deletions. -/
def cascade (st : Store) (found : List RecordKey) : Except String (Store × List Operation) :=
  found.foldlM (fun (st, effects) child => do
    let st ← e.applyMain (st.holdTruth child) (deleteOf child)
    return (st, effects ++ [deleteOf child])) (st, [])

/-- Delete the descendants of a record that an operation deletes. -/
def cascadeDelete (st : Store) (op : Operation) (key : RecordKey) :
    Except String (Store × List Operation) :=
  if op.op = .delete then do e.cascade st (← e.descendants st key) else .ok (st, [])

/-- Perform one operation of a mutation that is not queued yet. -/
def performOp (acc : Store × List Operation × List Operation) (op : Operation) :
    Except String (Store × List Operation × List Operation) := do
  let (st, done, effects) := acc
  let op ← e.normalize op
  let key ← e.opKey op
  let (st, cascaded) ← e.cascadeDelete (st.holdTruth key) op key
  let st ← e.applyMain st op
  return (st, done ++ [op], effects ++ cascaded)

/-- The record a row's relation names, if its fields hold one. -/
def reference (st : Store) (key : RecordKey) (name : String) : Except String (Option RecordKey) := do
  let model ← e.schema.model key.model
  let relation ← required (model.relations.find? (·.name = name)) "unknown relation in dependency"
  match (st.main.lookup key).or (st.truth key) with
  | none => return none
  | some row =>
    let identity := (relation.fields.zip relation.targetFields).map fun (l, t) => (t, row.index l)
    if identity.any (·.2.isNull) then return none
    return some (← e.recordKey relation.target (.ofEntries identity))

end Engine

end AheadSync
