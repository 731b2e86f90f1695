import AheadSync.Client.Authority
import AheadSync.Client.Enqueue

/-! Freezing a push from the queue and completing it from its receipt (`client/src/push.rs`). -/

namespace AheadSync

/-- The JSON of an operation as it travels. -/
def Operation.toValue (op : Operation) : Value :=
  .ofEntries ([("model", .str op.model), ("op", .str op.op.text), ("identity", op.identity)] ++
    (op.values.map (("values", ·))).toList)

/-- The JSON of a request, whose canonical text is what travels. -/
def PushRequest.toValue (r : PushRequest) : Value :=
  .ofEntries [("clientId", .str r.clientId), ("batchSequence", .num r.batchSequence),
    ("models", .ofEntries (r.models.entries.map fun m => (m.1, .num m.2))),
    ("mutations", .arr (r.mutations.map fun m => .ofEntries [("ordinal", .num m.ordinal),
      ("name", .str m.name), ("version", .num m.version),
      ("operations", .arr (m.operations.map (·.toValue)))]))]

def Queued.wire (q : Queued) : WireMutation :=
  ⟨q.ordinal, q.mutation.name, q.mutation.version, q.mutation.operations⟩

/-- Insert every mutation whose lifecycle depends on a rejected one, until there is none. -/
def closeRejected (queue : List Queued) : ℕ → SortedMap ℕ String → SortedMap ℕ String
  | 0, rejected => rejected
  | n + 1, rejected =>
    let more := queue.filter fun q => (rejected.lookup q.ordinal).isNone ∧
      q.mutation.lifecycleDependencies.any fun d => (rejected.lookup d).isSome
    if more = [] then rejected
    else closeRejected queue n
      (more.foldl (fun acc q => acc.insert q.ordinal "dependency.rejected") rejected)

/-- A report about a receipt's record also names the batch. -/
def withBatch (sequence : ℕ) (r : Report) : Report :=
  match r.detail with
  | .obj _ => { r with detail := r.detail.set "batch" (.num sequence) }
  | _ => r

namespace Store

def requestOf (st : Store) (push : ℕ) (models : Models) (mutations : List Queued) : PushRequest :=
  ⟨st.clientId, push, models, mutations.map (·.wire)⟩

/-- The push in flight, encoded again from its rows and its frozen declaration. -/
def encodePush (st : Store) (push : ℕ) : Except String PushRequest := do
  let models ← required st.pushModels "push in flight has no frozen declaration"
  let request := st.requestOf push models (st.queue.filter (·.push = some push))
  request.validate
  return request

end Store

namespace Engine
variable (e : Engine)

/-- The unsent mutations to send next: those without prerequisite or unsent dependency, as long as
    the request stays under the byte limit, and at most a full batch. -/
def select (st : Store) (maxBytes : ℕ) : List Queued → List Queued → List Queued
  | selected, [] => selected
  | selected, q :: rest =>
    let unsent := (st.queue.filter (·.push = none)).map (·.ordinal)
    if q.mutation.prerequisites.any (· ∈ st.prerequisiteKeys) then select st maxBytes selected rest
    else if q.mutation.lifecycleDependencies.any (· ∈ unsent) ∨
        q.mutation.sequenceDependencies.any fun d => d ∈ unsent ∧ d ∉ selected.map (·.ordinal) then
      select st maxBytes selected rest
    else if selected ≠ [] ∧ maxBytes < (canonicalJson e.codecs (st.requestOf st.nextPush
        e.declaredModels (selected ++ [q])).toValue).utf8ByteSize then
      select st maxBytes selected rest
    else if (selected ++ [q]).length = pushMutations then selected ++ [q]
    else select st maxBytes (selected ++ [q]) rest

def freeze (st : Store) (maxBytes : ℕ) : Except String (Option PushRequest × Store) := do
  if maxBytes = 0 then return (none, st)
  match ← st.inFlight with
  | some push => return (some (← st.encodePush push), st)
  | none =>
    let selected := e.select st maxBytes [] (st.queue.filter (·.push = none))
    if selected = [] then return (none, st)
    let (push, st) ← st.allocatePush
    let st := (st.assignPush (selected.map (·.ordinal)) push).setPushModels e.declaredModels
    return (some (← st.encodePush push), st)

/-- Record rejections, drop their mutations and lifecycle dependents, and return the records they
    touched for the caller to rebuild. -/
def markRejected (st : Store) (rejections : List Rejection) : Except String (Held × Store) := do
  let rejected := closeRejected st.queue st.queue.length
    (.ofList (rejections.map fun r => (r.ordinal, r.code)))
  let dropped := st.queue.filter fun q => (rejected.lookup q.ordinal).isSome
  let touched ← (dropped.flatMap (·.mutation.allOps)).mapM e.opKey
  let st := dropped.foldl (fun st q => st.insertRejection q.ordinal
    ⟨q.mutation.name, (rejected.lookup q.ordinal).getD "", q.mutation,
      q.mutation.allOps.map (·.key)⟩) st
  return (e.holdAll [] touched, st.deleteMutations rejected.keys)

/-- Drop rejected mutations and rebuild the rows they touched. -/
def removeRejected (st : Store) (rejections : List Rejection) : Except String Store := do
  let (affected, st) ← e.markRejected st rejections
  let (_, st) ← e.rebuildHeld st affected
  return st

/-- The companion operations of one accepted mutation, with the cascades of their deletions. -/
def localOps (st : Store) (wireRows : Held) (q : Queued) : Except String (List Operation) := do
  let deletes ← (q.mutation.companion.filter (·.op = .delete)).mapM e.opKey
  let cascades ← (deletes.filter (· ∉ wireRows)).mapM (e.descendants st)
  return q.mutation.companion ++ cascades.flatten.map deleteOf

/-- Fold one accepted companion operation into the base of a record no authority covers. -/
def settleOp (wireRows covered : Held) (acc : Store × Held) (op : Operation) :
    Except String (Store × Held) := do
  let key ← e.opKey op
  if key ∈ wireRows ∨ key ∈ covered then return acc
  match applyToRow (acc.1.before.lookup key) op with
  | .ok row => return (← e.beforeSet acc.1 key row, e.hold key acc.2)
  | .error _ => return (acc.1, e.hold key acc.2)

/-- The checks a receipt must pass for the push in flight: it answers it, rejects only mutations of
    it, and covers every record its accepted operations targeted. Answers the keys the receipt covers
    and those it had to. -/
def checkReceipt (mutations accepted : List Queued) (receipt : PushReceipt) :
    Except String (List RecordKey × Held) := do
  ensure (∀ r ∈ receipt.rejections, r.ordinal ∈ mutations.map (·.ordinal))
    "rejection ordinal not in batch"
  let covered ← receipt.records.mapM fun r => e.recordKey r.model r.identity
  let wireKeys ← (accepted.flatMap (·.mutation.operations)).mapM e.opKey
  let wireRows := e.holdAll [] wireKeys
  match wireRows.find? (· ∉ covered) with
  | some missing =>
    .error ("receipt omits the authority of accepted record " ++ missing.encoded e.codecs)
  | none => return (covered, wireRows)

/-- Fold the companion operations of one accepted mutation. -/
def settleMutation (wireRows covered : Held) (acc : Store × Held) (q : Queued) :
    Except String (Store × Held) := do
  let ops ← e.localOps acc.1 wireRows q
  ops.foldlM (e.settleOp wireRows covered) acc

/-- Fold the accepted companions into the bases no authority covers. -/
def settleCompanions (wireRows covered : Held) (acc : Store × Held) (accepted : List Queued) :
    Except String (Store × Held) :=
  accepted.foldlM (e.settleMutation wireRows covered) acc

/-- Complete a push: settle and stage beneath the queue as it was sent, then remove its mutations
    and replay what remains. -/
def complete (st : Store) (push : ℕ) (receipt : PushReceipt) : Except String (ApplyReport × Store) := do
  let mutations := st.queue.filter (·.push = some push)
  let accepted := mutations.filter (·.ordinal ∉ receipt.rejections.map (·.ordinal))
  let (covered, wireRows) ← e.checkReceipt mutations accepted receipt
  let touched ← (mutations.flatMap (·.mutation.allOps)).mapM e.opKey
  let (st, affected) ← e.settleCompanions wireRows covered (st, e.holdAll [] touched) accepted
  let (st, affected, staged) := e.stageAll st affected receipt.records
  let (marked, st) ← e.markRejected st receipt.rejections
  let st := st.deleteMutations (accepted.map (·.ordinal))
  let (reports, st) ← e.rebuildHeld st (e.holdAll affected marked)
  return (stagedReport (withBatch push) staged reports, st.setLastCompletedPush push)

/-- Complete the push in flight from its receipt. A duplicate receipt changes nothing. -/
def acknowledge (st : Store) (sequence : ℕ) (receipt : PushReceipt) :
    Except String (ApplyReport × Store) := do
  ensure (receipt.batchSequence = sequence) "receipt answers another batch"
  ensure (receipt.clientId = st.clientId) "receipt answers another client"
  if sequence ≤ st.lastCompletedPush then return ({ stale := true }, st)
  else
    let push ← required (← st.inFlight) "unknown batch receipt"
    ensure (push = sequence) "receipt does not answer the push in flight"
    e.complete st push receipt

/-- Drop a mutation that was not sent. -/
def dropMutation (st : Store) (ordinal : ℕ) : Except String Store :=
  match st.queuedOne ordinal with
  | none => .ok st
  | some q =>
    if q.push.isSome then .error "cannot drop a sent mutation with unknown/accepted outcome"
    else e.removeRejected st [⟨ordinal, "dropped"⟩]

end Engine

end AheadSync
