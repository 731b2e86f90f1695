import AheadSync.Client.Alike
import AheadSync.Core.Encoded

/-! The records of one delivery in any order. Each is staged against the visible rows as the records
    before it left them, so what a unique constraint refuses depends on the order, also where the
    rows of the whole delivery fit. Where no record would be refused if it came first, every order
    lands every newer record and leaves the same store. -/

namespace AheadSync

/-- A deletion takes the record with it. -/
def Sweeps (e : Engine) (st : Store) (parent k : RecordKey) : Prop :=
  Below e (st.setTruth parent none) parent k ∧ k ≠ parent

/-- A row of `child` references `parent` through a cascading relation. -/
def RowRefers (e : Engine) (row : Value) (parent child : RecordKey) : Prop :=
  ∃ model ∈ e.schema.models, model.name = child.model ∧ ∃ r ∈ model.relations,
    r.target = parent.model ∧ r.onDelete = "delete" ∧
    ∀ lt ∈ r.fields.zip r.targetFields, row.index lt.1 = parent.identity.index lt.2

section Landings
variable {e : Engine} {st₀ st st' : Store} {given : AuthorityRecord → Prop} {held held' : Held}
  {k key parent child : RecordKey} {r : AuthorityRecord} {row : Option Value}

end Landings

section Sweep
variable {e : Engine} {st₀ st : Store} {given : AuthorityRecord → Prop} {held : Held}
  {rs : List AuthorityRecord} {r : AuthorityRecord} {key k a b p : RecordKey} {row : Value}

end Sweep

section Step
variable {e : Engine} {st₀ st : Store} {given : AuthorityRecord → Prop} {held : Held}
  {rs : List AuthorityRecord} {r : AuthorityRecord} {key k : RecordKey} {row : Option Value}

end Step

section Order
variable {e : Engine} {c : Client} {rs : List AuthorityRecord}

end Order

section Sample
open Sample

/-- The row of an item in a box. -/
def Sample.itemRow (id box : String) : Value := .ofEntries [("box", .str box), ("id", .str id)]

/-- No two items are in the same box. -/
def Sample.snug : Engine := { tight with codecs := timed }

end Sample

end AheadSync
