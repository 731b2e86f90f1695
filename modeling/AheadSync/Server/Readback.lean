import AheadSync.Server.Decode
import Mathlib.Data.List.Sort

/-! The readback of one mutation (`server/src/readback.rs`): the records it changed get their stamps,
    its loaders read them back and its publications go out at those stamps. -/

namespace AheadSync

/-- The records of a mutation, once each, in the order of their encodings. -/
abbrev Changes := List RecordKey

/-- What a readback produced: the authority of the changed records, or the code that refused it. -/
abbrev Outcome := Except String (List AuthorityRecord)

namespace Backend
variable {D : Type} (b : Backend) (app : App D)

/-- `readback::insert`. -/
def insertChange (changes : Changes) (key : RecordKey) : Changes :=
  if key ∈ changes then changes
  else changes.orderedInsert (fun k l => k.encoded b.codecs ≤ l.encoded b.codecs) key

def unregistered : Failure := ⟨"loader.unregistered", "unregistered loader", .null⟩

/-- A record the handler named, of a model this backend loads. -/
def resolve (record : RecordRef) : Except Failure RecordKey := do
  ensure (record.model ∈ b.config.loaders) unregistered
  (b.config.schema.recordKey b.codecs record.model record.identity).mapError
    fun m => ⟨"handler.invalid", m, .null⟩

/-- The version each changed model is read at, unless the client declared none that is retained. -/
def readVersions (declared : Models) : Changes → Models → Except Failure (Option Models)
  | [], versions => .ok (some versions)
  | key :: rest, versions => do
    ensure (key.model ∈ b.config.loaders) unregistered
    match declared.lookup key.model with
    | none => return none
    | some version =>
      if (b.config.contract key.model version).isSome then
        readVersions declared rest (versions.insert key.model version)
      else return none

/-- `allocate_stamps`: one stamp for each changed record. -/
def allocateStamps (changes : Changes) (t : Tables D) :
    Except Failure (Table RecordKey ℕ × Tables D) :=
  changes.foldlM (fun acc key => do
    let (stamp, t) ← acc.2.advanceStamp key
    return (acc.1.insert key stamp, t)) (∅, t)

/-- The changed records by model. -/
def groupByModel (changes : Changes) : SortedMap String (List RecordKey) :=
  changes.foldl (fun groups key =>
    groups.insert key.model ((groups.lookup key.model).getD [] ++ [key])) .empty

/-- One loaded row as the authority of its record. -/
def readRow (contract : Schema) (stamps : Table RecordKey ℕ) (entry : RecordKey × Option Value) :
    Except String AuthorityRecord := do
  let state ← match entry.2 with
    | none => .ok .null
    | some state => (contract.normalizeState b.codecs entry.1.model state).mapError fun _ =>
        "loader.invalid"
  return { model := entry.1.model, identity := entry.1.identity
           stamp := (stamps.lookup entry.1).getD 0, state }

/-- Load the changed records of one model. -/
def loadGroup (owner : String) (versions : Models) (stamps : Table RecordKey ℕ) (t : Tables D)
    (group : String × List RecordKey) : Except Failure (Outcome × Tables D) := do
  let version := (versions.lookup group.1).getD 0
  let contract ← required (b.config.contract group.1 version) (Failure.internal
    ("model " ++ group.1 ++ " v" ++ toString version ++ " is not retained"))
  let (loaded, t) ← app.callLoad ⟨group.1, version, group.2.map (·.identity), owner⟩ t
  match loaded with
  | .refused rejection => return (.error rejection, t)
  | .failed _ => return (.error "loader.failed", t)
  | .rows rows =>
    if rows.length ≠ group.2.length then return (.error "loader.invalid", t)
    else return ((group.2.zip rows).mapM (b.readRow contract stamps), t)

/-- Load model by model until one is refused. -/
def loadGroups (owner : String) (versions : Models) (stamps : Table RecordKey ℕ) :
    List (String × List RecordKey) → Tables D → Except Failure (Outcome × Tables D)
  | [], t => .ok (.ok [], t)
  | group :: groups, t => do
    let (one, t) ← b.loadGroup app owner versions stamps t group
    match one with
    | .error code => return (.error code, t)
    | .ok records => do
      let (rest, t) ← loadGroups owner versions stamps groups t
      return (rest.map (records ++ ·), t)

/-- `publish_one`: the answer must carry the stamp it was asked to. -/
def publishOne (t : Tables D) (channel : String) (key : RecordKey) (stamp : ℕ) :
    Except Failure (Tables D) := do
  let (published, t) ← t.publish channel key stamp
  ensure (published.stamp = stamp) ⟨"host.invalid", "publish response invalid: invalidation carries stamp "
    ++ toString published.stamp ++ ", record is at " ++ toString stamp, .null⟩
  return t

/-- Publish one record: at its new stamp, or at the stamp it has. -/
def publishMember (stamps : Table RecordKey ℕ) (channel : String) (t : Tables D) (key : RecordKey) :
    Except Failure (Tables D) :=
  match stamps.lookup key with
  | some stamp => publishOne t channel key stamp
  | none => publishOne (t.ensureStamp key).2 channel key (t.ensureStamp key).1

def publishIntent (changes : Changes) (stamps : Table RecordKey ℕ) (t : Tables D)
    (intent : PublicationIntent) : Except Failure (Tables D) := do
  ensure (intent.channel ≠ "") ⟨"publish.invalid", "channel must not be empty", .null⟩
  let members ← match intent.records with
    | none => .ok changes
    | some records => (·.foldl b.insertChange []) <$> records.mapM b.resolve
  members.foldlM (publishMember stamps intent.channel) t

/-- `publish_intents`. -/
def publishIntents (changes : Changes) (stamps : Table RecordKey ℕ)
    (publications : List PublicationIntent) (t : Tables D) : Except Failure (Tables D) :=
  publications.foldlM (b.publishIntent changes stamps) t

/-- `read_back`: stamp the changes, load them at the declared versions and publish. -/
def readBack (declared : Models) (owner : String) (changes : Changes)
    (publications : List PublicationIntent) (t : Tables D) : Except Failure (Outcome × Tables D) := do
  match ← b.readVersions declared changes .empty with
  | none => return (.error "model_version_unsupported", t)
  | some versions => do
    let (stamps, t) ← allocateStamps changes t
    let (outcome, t) ← b.loadGroups app owner versions stamps (groupByModel changes).entries t
    match outcome with
    | .error code => return (.error code, t)
    | .ok records => return (.ok records, ← b.publishIntents changes stamps publications t)

end Backend

end AheadSync
