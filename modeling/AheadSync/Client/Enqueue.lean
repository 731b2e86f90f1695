import AheadSync.Client.Mutate

/-! Putting a mutation on the queue: its operations are applied to the visible rows at once, and the
    dependencies its schema declares are resolved from data (`client/src/mutate.rs`,
    `client/src/policies.rs`). -/

namespace AheadSync

/-- The elements once each, in order. -/
def sortedSet {α : Type} [LinearOrder α] (l : List α) : List α := l.dedup.insertionSort (· ≤ ·)

/-- The operation kinds as the wire names them. -/
def OperationKind.text : OperationKind → String
  | .create => "create"
  | .update => "update"
  | .delete => "delete"

/-- The policy a schema declares for a mutation. -/
def policyFn (s : Schema) (m : Mutation) : Option Value :=
  s.clientPolicies.find? fun p =>
    p.index "name" = .str m.name ∧ p.index "version" = .num m.version

namespace Engine
variable (e : Engine)

/-- The operations at the front that fill one slot of a policy, and the rest. -/
def takeSlot (slot : Value) : List Operation → Except String (List RecordKey × List Operation)
  | [] => .ok ([], [])
  | op :: ops => do
    if slot.index "model" = .str op.model ∧ slot.index "operation" = .str op.op.text then
      let key ← e.opKey op
      if slot.index "cardinality" = .str "list" then
        let (keys, rest) ← takeSlot slot ops
        return (key :: keys, rest)
      else return ([key], ops)
    else return ([], op :: ops)

/-- The records that fill each slot of a mutation's policy. -/
def slots (m : Mutation) (policy : Value) : Except String (SortedMap String (List RecordKey)) := do
  match policy.index "slots" with
  | .arr declared => do
    let (result, _) ← declared.foldlM (fun (result, ops) slot => do
      let name ← required (slot.index "name").asStr "slot name missing"
      let (keys, rest) ← e.takeSlot slot ops
      return (SortedMap.insert result name keys, rest)) (SortedMap.empty, m.operations)
    return result
  | _ => .error "client policy slots missing"

/-- Follow a path of relations from the one record of a slot. -/
def resolve (st : Store) (slots : SortedMap String (List RecordKey)) (path : String) :
    Except String (Option RecordKey) :=
  match (path.toList.splitOnP (· = '.')).map String.ofList with
  | [] => .error "empty path"
  | first :: parts =>
    match slots.lookup first with
    | some [key] => parts.foldlM (fun key part => match key with
      | some key => e.reference st key part
      | none => .ok none) (some key)
    | _ => .ok none

/-- Whether every argument names a record the prior mutation has in the slot. -/
def argumentsMatch (st : Store) (current targets : SortedMap String (List RecordKey)) :
    List (String × Value) → Except String Bool
  | [] => .ok true
  | (target, path) :: rest => do
    let path ← required path.asStr "invalid sequence path"
    match ← e.resolve st current path with
    | some key =>
      if key ∈ (targets.lookup target).getD [] then argumentsMatch st current targets rest
      else return false
    | none => return false

/-- The queued mutations of the declared kind that a sequence reference orders before. -/
def sequenceAfter (st : Store) (current : SortedMap String (List RecordKey)) (spec : Value) :
    Except String (List ℕ) := do
  let name ← required (spec.index "name").asStr "invalid sequence descriptor"
  let arguments ← required (spec.index "arguments").asObject "invalid sequence arguments"
  let found ← (st.queue.filter (·.mutation.name = name)).mapM fun prior =>
    match policyFn e.schema prior.mutation with
    | none => .ok []
    | some policy => do
      let targets ← e.slots prior.mutation policy
      return if ← e.argumentsMatch st current targets arguments then [prior.ordinal] else []
  return found.flatten

/-- The earlier creations of the records an operation references, and the earlier deletion of the
    record it creates. -/
def lifecycleOf (st : Store) (op : Operation) : Except String (List ℕ) := do
  let key ← e.opKey op
  let model ← e.schema.model key.model
  let targets ← model.relations.mapM fun relation => e.reference st key relation.name
  let references := key :: targets.reduceOption
  let found ← st.queue.mapM fun prior => prior.mutation.operations.mapM fun previous => do
    let previousKey ← e.opKey previous
    return if (previous.op = .create ∧ previousKey ∈ references) ∨
        (previous.op = .delete ∧ op.op = .create ∧ previousKey = key) then [prior.ordinal] else []
  return found.flatten.flatten

/-- The prerequisite invocations an operation's values call for. -/
def requirementsOf (op : Operation) : List String :=
  (e.schema.requirements.filter (·.model = op.model)).filterMap fun r =>
    match op.values.bind (·.get r.field) with
    | none | some .null => none
    | some value => some (canonicalJson e.codecs (.ofEntries [("name", .str r.name),
        ("arguments", .ofEntries (r.arguments.keys.map fun k => (k, value)))]))

/-- The queued mutations that the mutation's policy orders before it. -/
def sequenceOf (st : Store) (m : Mutation) : Except String (List ℕ) :=
  match policyFn e.schema m with
  | none => .ok []
  | some policy => do
    let current ← e.slots m policy
    match (policy.index "sequence").index "after" with
    | .arr after => return (← after.mapM (e.sequenceAfter st current)).flatten
    | _ => return []

/-- `derive`: add the dependencies and prerequisites the schema declares. -/
def derive (st : Store) (m : Mutation) : Except String Mutation := do
  let lifecycle ← m.operations.mapM (e.lifecycleOf st)
  let m := { m with
    lifecycleDependencies := sortedSet (m.lifecycleDependencies ++ lifecycle.flatten)
    prerequisites := sortedSet (m.prerequisites ++ m.operations.flatMap e.requirementsOf) }
  let sequence ← e.sequenceOf st m
  return { m with sequenceDependencies := sortedSet (m.sequenceDependencies ++ sequence) }

/-- `enqueue`: its savepoint undoes everything when it fails. -/
def enqueue (st : Store) (m : Mutation) : Except String (ℕ × Store) := do
  ensure (!blank m.name ∧ m.version ≠ 0 ∧ m.operations ≠ []) "invalid named mutation"
  forM (m.lifecycleDependencies ++ m.sequenceDependencies) fun dependency =>
    ensure (st.queuedOne dependency).isSome "unknown mutation dependency"
  let wire := m.operations.length
  let (st, all, effects) ← (m.operations ++ m.companion).foldlM e.performOp (st, [], [])
  let m ← e.derive st { m with
    operations := all.take wire, companion := all.drop wire, effects := effects }
  let (ordinal, st) ← st.allocateOrdinal
  let st ← e.insertMutation st ordinal m
  return (ordinal, st)

end Engine

end AheadSync
