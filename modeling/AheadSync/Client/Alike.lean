import AheadSync.Client.Isolation

/-! Two stores that hold the same rows and stamps may list them in different orders. Finishing a
    delivery tells them apart only by the records a queued delete is extended to: those are found, and
    queued, in the order of a scan. -/

namespace AheadSync

section Alike
variable {e : Engine} {st st' t : Store} {k key parent child : RecordKey} {row : Option Value}
  {n : ℕ}

end Alike

/-- The records a queued delete is extended to that it does not cover yet. -/
def gains (q : Queued) (found : List RecordKey) : List RecordKey :=
  found.filter fun k => !q.mutation.effects.any (·.key = k)

section Finish
variable {e : Engine} {st st' t : Store} {q : Queued}

end Finish

end AheadSync
