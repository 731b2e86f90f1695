import AheadSync.Client.Transport

/-! Transactions of the host: optimistic mutations, direct writes and subscription changes in one
    commit (`client/src/mutate.rs`, `client/src/lib.rs`). -/

namespace AheadSync

namespace Engine
variable (e : Engine)

/-- One direct write. It moves the truth of a dirty record along with its visible row. -/
def directOne (st : Store) (op : Operation) : Except String Store := do
  let key ← e.opKey op
  let dirty := st.dirty key
  let st ← e.applyMain st op
  if !dirty then return st
  else match st.before.lookup key, op.op with
    -- the row's existence is itself pending: there is no rollback base to advance
    | none, .update => return st
    | none, .delete => return st
    | _, .delete => e.beforeSet st key none
    | truth, _ =>
      match applyToRow truth op with
      | .ok row => e.beforeSet st key row
      | .error _ => e.beforeSet st key (st.main.lookup key)

/-- The records a direct deletion takes with it. -/
def directCascade (st : Store) (op : Operation) (key : RecordKey) : Except String (List RecordKey) :=
  if op.op = .delete then e.descendants st key else .ok []

/-- `direct`: a local write that is never sent. -/
def direct (st : Store) (op : Operation) : Except String Store := do
  let op ← e.normalize op
  let key ← e.opKey op
  let children ← e.directCascade st op key
  let st ← children.foldlM (fun st child => e.directOne st (deleteOf child)) st
  e.directOne st op

end Engine

/-- One step of a transaction's body. -/
inductive TransactionStep where
  | enqueue (m : Mutation)
  | direct (op : Operation)
  | setChannel (channel : String) (subscribed : Bool)

namespace Engine
variable (e : Engine)

/-- A step in its savepoint: one that fails leaves the transaction as it was. -/
def transactionStep (acc : Store × List String) : TransactionStep → Store × List String
  | .enqueue m =>
    match e.enqueue acc.1 m with
    | .ok (_, st) => (st, acc.2)
    | .error _ => acc
  | .direct op =>
    match e.direct acc.1 op with
    | .ok st => (st, acc.2)
    | .error _ => acc
  | .setChannel channel subscribed => Store.setChannel acc (channel, subscribed)

end Engine

/-- A transaction whose body went through these steps, and committed or failed after them. -/
def Client.transaction (e : Engine) (c : Client) (body : List TransactionStep) (commits : Bool) :
    Client :=
  let (st, marks) := body.foldl e.transactionStep (c.store, [])
  if commits then ⟨st, c.pulls.absorb (sortedSet marks)⟩ else c

inductive Readiness where
  | ready | failed | pending
  deriving DecidableEq

/-- `set_readiness`. The reason a prerequisite failed for is kept beside its key; only a resolved
    one leaves the queue. -/
def Store.setReadiness (st : Store) (key : String) : Readiness → Store
  | .ready => st.resolvePrerequisite key
  | .failed | .pending => st

/-- `dismiss_rejection`. -/
def Store.deleteRejection (st : Store) (ordinal : ℕ) : Store :=
  { st with rejections := st.rejections.erase ordinal }

end AheadSync
