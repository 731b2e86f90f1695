import AheadSync.Compiler.Validate
import AheadSync.Lib.Versions

/-! The two histories the compiler keeps beside a schema (`compiler/src/history.rs`): the inputs of
    every published mutation version, and the read contract of every published model version. The
    versions of a name are kept under their numbers. -/

namespace AheadSync
namespace Compiler

/-- One version of a mutation, as it was published. -/
structure MutationSnapshot where
  name : String
  version : ℕ
  slots : List SlotDescriptor
  models : List ModelDescriptor
  enums : List EnumDescriptor
  knownFields : SortedMap String (List String)
  requirements : List RequirementDescriptor
  prerequisites : List Value
  sequence : Value

/-- `{"formatVersion":1,"mutations":…}`. -/
abbrev MutationHistory := Registry String MutationSnapshot

/-- `{"formatVersion":1,"models":…}`. -/
abbrev ModelHistory := Registry String ModelContract

/-- A name as JSON prints it. -/
def quoted (name : String) : String := "\"" ++ name ++ "\""

/-- The greatest version of a name, 0 when there is none. -/
def latest {α : Type} (versions : SortedMap ℕ α) : ℕ := versions.keys.foldl max 0

/-! ### Mutations -/

/-- Whether a slot of a mutation reads a field of its model. -/
def SlotDescriptor.selects (s : SlotDescriptor) (field : String) : Bool :=
  match s.operation with
  | .create => true
  | .update => match s.allowedPatchFields with
    | none => true
    | some allowed => field ∈ allowed
  | .delete => false

/-- A model narrowed to the fields a mutation's slots read. -/
def captureInput (slots : List SlotDescriptor) (model : ModelDescriptor) : ModelDescriptor where
  name := model.name
  identity := model.identity
  fields := model.fields.filter fun f =>
    f.name ∈ model.identity || slots.any fun s => s.model = model.name && s.selects f.name

def namesEnum (name : String) : ValueType → Bool
  | .enum n => n = name
  | _ => false

/-- `capture`. -/
def capture (config : Compiled) (m : RenderedMutation) : MutationSnapshot :=
  let used := config.schema.models.filter fun model => m.slots.any (·.model = model.name)
  let models := used.map (captureInput m.slots)
  let requirements := config.requirements.filter fun r =>
    models.any fun model => model.name = r.model && model.fields.any (·.name = r.field)
  { name := m.name, version := m.version, slots := m.slots, models
    enums := config.schema.enums.filter fun e =>
      models.any fun model => model.fields.any fun f => namesEnum e.name f.valueType
    knownFields := .ofList (used.map fun model => (model.name, model.fields.map (·.name)))
    requirements
    prerequisites := config.prerequisites.filter fun p =>
      requirements.any fun r => p.index "name" = .str r.name
    sequence := m.sequence }

/-- A slot may allow more patch fields; nothing else of it changes. -/
def compatibleSlot (old new : SlotDescriptor) : Bool :=
  { old with allowedPatchFields := none } = { new with allowedPatchFields := none } &&
    match old.allowedPatchFields with
    | none => true
    | some fields => fields.all (· ∈ new.allowedPatchFields.getD [])

def compatibleModel (slots : List SlotDescriptor) (old new : ModelDescriptor) : Bool :=
  old.identity = new.identity &&
    old.fields.all (fun f => new.fields.find? (·.name = f.name) = some f) &&
    (!(slots.any fun s => s.model = old.name && s.operation = .create) ||
      new.fields.all fun f => (old.fields.find? (·.name = f.name)).isSome || f.nullable)

/-- `compatible`. -/
def compatible (old new : MutationSnapshot) : Bool :=
  old.slots.length = new.slots.length &&
    (old.slots.zip new.slots).all (fun (a, b) => compatibleSlot a b) &&
    old.enums.all (fun en => match new.enums.find? (·.name = en.name) with
      | none => false
      | some next => en.values.all (· ∈ next.values)) &&
    old.models.all (fun model => match new.models.find? (·.name = model.name) with
      | none => false
      | some next => compatibleModel new.slots model next) &&
    (old.requirements = new.requirements && old.sequence = new.sequence)

/-- A version that is compiled again keeps reading what it read. -/
def checkInput (m : RenderedMutation) (previous : Option MutationSnapshot)
    (snapshot : MutationSnapshot) : Except String Unit :=
  match previous with
  | none => .ok ()
  | some previous => ensure (compatible previous snapshot = true)
      (m.name ++ " v" ++ toString m.version ++ ": incompatible input change; increase @@version")

/-- Record the version a mutation is compiled at. -/
def recordMutation (current : Compiled) (history : MutationHistory) (m : RenderedMutation) :
    Except String MutationHistory := do
  let snapshot := capture current m
  let versions := (history.lookup m.name).getD .empty
  ensure (¬m.version < latest versions)
    (m.name ++ ": version cannot decrease from " ++ toString (latest versions))
  checkInput m (versions.lookup m.version) snapshot
  return history.insert m.name (versions.insert m.version snapshot)

/-- A retained input may still invoke a prerequisite, which must be declared as it was. -/
def checkPrerequisites (current : Compiled) (snapshot : MutationSnapshot) : Except String Unit :=
  forM snapshot.requirements fun r =>
    ensure (current.prerequisites.find? (·.index "name" = .str r.name) =
        snapshot.prerequisites.find? (·.index "name" = .str r.name))
      ("retained mutation still requires original prerequisite " ++ quoted r.name)

/-- `reconcile_history`. -/
def reconcileHistory (current : Compiled) (history : Option MutationHistory) :
    Except String MutationHistory := do
  let history := history.getD .empty
  forM history.keys fun name => ensure (current.mutations.any (·.name = name))
    ("retained mutation " ++ name ++ " cannot be removed")
  let history ← current.mutations.foldlM (recordMutation current) history
  forM history.entries fun (_, versions) => forM versions.entries fun (_, snapshot) =>
    checkPrerequisites current snapshot
  return history

/-! ### Models -/

/-- `capture_model`. -/
def captureModel (config : Compiled) (model : ModelDescriptor) : ModelContract where
  name := model.name
  version := model.version
  identity := model.identity
  fields := model.fields
  enums := config.schema.enums.filter fun e => model.fields.any fun f => namesEnum e.name f.valueType

/-- `model_break`: the first rule an old reader would trip over. -/
def modelBreak (old new : ModelContract) : Option String :=
  let removed := old.fields.findSome? fun f =>
    match new.fields.find? (·.name = f.name) with
    | none => some ("removing or renaming field " ++ quoted f.name)
    | some next => if next ≠ f then some ("changing the type of field " ++ quoted f.name) else none
  let added := new.fields.findSome? fun f =>
    if (old.fields.find? (·.name = f.name)).isNone ∧ ¬f.nullable then
      some ("adding required field " ++ quoted f.name) else none
  let enums := old.enums.findSome? fun en =>
    if new.enums.find? (·.name = en.name) ≠ some en then
      some ("changing the values of enum " ++ quoted en.name) else none
  (removed.or added).or enums

/-- A version that is compiled again reads as it did. -/
def checkContract (model : ModelDescriptor) (previous : Option ModelContract)
    (snapshot : ModelContract) : Except String Unit :=
  match previous.bind (modelBreak · snapshot) with
  | none => .ok ()
  | some reason => .error (model.name ++ " v" ++ toString model.version ++ ": " ++ reason ++
      " changes the read contract; increase @@version and keep the old loader")

/-- Record the version a model is compiled at. -/
def recordModel (current : Compiled) (history : ModelHistory) (model : ModelDescriptor) :
    Except String ModelHistory := do
  let snapshot := captureModel current model
  let versions := (history.lookup model.name).getD .empty
  ensure (¬model.version < latest versions)
    (model.name ++ ": version cannot decrease from " ++ toString (latest versions))
  forM versions.entries fun (_, previous) => ensure (previous.identity = snapshot.identity)
    (model.name ++ ": identity change is not supported; a model version describes the record " ++
      "structure, not its identity")
  checkContract model (versions.lookup model.version) snapshot
  return history.insert model.name (versions.insert model.version snapshot)

/-- `reconcile_model_history`. -/
def reconcileModelHistory (current : Compiled) (history : Option ModelHistory) :
    Except String ModelHistory := do
  let history := history.getD .empty
  forM history.keys fun name => ensure (current.schema.models.any (·.name = name))
    ("retained model " ++ name ++ " cannot be removed")
  current.schema.models.foldlM (recordModel current) history

/-- A chain of runs of the compiler, each with the history the one before it left. -/
def chain {α β : Type} (reconcile : α → Option β → Except String β) (history : Option β)
    (configs : List α) : Except String (Option β) :=
  configs.foldlM (fun history config => do return some (← reconcile config history)) history

end Compiler
end AheadSync
