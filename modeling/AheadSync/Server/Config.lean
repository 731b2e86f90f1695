import AheadSync.Core.Protocol
import AheadSync.Core.Valid

/-! A backend's configuration: its schema, the mutations it accepts with the input snapshots they were
    published with, its loaders and the read contracts it retains (`server/src/lib.rs`,
    `server/src/error.rs`). -/

namespace AheadSync

/-- `Error`: a stable code, a message for people, and the fields the code promises. -/
structure Failure where
  code : String
  message : String
  details : Value := .null
  deriving DecidableEq

namespace Failure

/-- `Error::code`: an error whose code is its whole meaning. -/
def ofCode (code : String) : Failure := { code, message := code }

def configInvalid (message : String) : Failure := ⟨"config.invalid", message, .null⟩

def internal (message : String) : Failure := ⟨"internal", message, .null⟩

def storageInvalid (message : String) : Failure := ⟨"storage.invalid", message, .null⟩

def requestInvalid (message : String) : Failure := ⟨"request.invalid", message, .null⟩

def mutationInvalid : Failure := ofCode "mutation.invalid"

/-- `Error::host`: the application's host callback failed. -/
def host (message : String) : Failure := ⟨"host", message, .null⟩

end Failure

inductive Cardinality where
  | single | optional | list
  deriving DecidableEq

structure Binding where
  fields : List String
  slot : String
  deriving DecidableEq

structure Slot where
  name : String
  model : String
  operation : OperationKind
  cardinality : Cardinality
  allowedPatchFields : List String := []
  bindings : List Binding := []
  deriving DecidableEq

/-- One version of a mutation: its slots and the schema its input was published under. -/
structure MutationDescriptor where
  name : String
  version : ℕ
  slots : List Slot
  input : Option Schema := none
  knownFields : SortedMap String (List String) := .empty
  deriving DecidableEq

/-- One retained read contract: the records a loader of this version returns. -/
structure ModelContract where
  name : String
  version : ℕ
  identity : List String
  fields : List FieldDescriptor
  enums : List EnumDescriptor := []
  deriving DecidableEq

/-- The contract as a schema of one model, by which loaded rows are normalized. -/
def ModelContract.schema (m : ModelContract) : Schema where
  enums := m.enums
  models := [{ name := m.name, version := m.version, identity := m.identity, fields := m.fields }]

structure Config where
  schema : Schema
  mutations : List MutationDescriptor
  loaders : List String
  models : List ModelContract := []
  deriving DecidableEq

namespace Config
variable (c : Config)

/-- The schema the input of a mutation is read under. -/
def inputSchema (m : MutationDescriptor) : Schema := m.input.getD c.schema

/-- One capability of a patch: a field of the model outside its identity, listed once. -/
def checkCapability (model : ModelDescriptor) (seen : List String) (field : String) :
    Except Failure (List String) := do
  ensure (field ∉ seen ∧ field ∉ model.identity ∧ (model.field field).isSome)
    (Failure.configInvalid "invalid patch capability")
  return field :: seen

def checkSlot (schema : Schema) (seen : List String) (slot : Slot) :
    Except Failure (List String) := do
  let model ← (schema.model slot.model).mapError Failure.configInvalid
  ensure (slot.operation = .update ∨ slot.allowedPatchFields = [])
    (Failure.configInvalid "patch capabilities require update operation")
  let _ ← slot.allowedPatchFields.foldlM (checkCapability model) []
  ensure (slot.name ∉ seen) (Failure.configInvalid "invalid slot descriptor")
  return slot.name :: seen

def checkMutation (seen : List (String × ℕ)) (m : MutationDescriptor) :
    Except Failure (List (String × ℕ)) := do
  ensure (m.name ≠ "" ∧ 0 < m.version ∧ m.version ≤ maxSafeInteger ∧ (m.name, m.version) ∉ seen)
    (Failure.configInvalid "invalid mutation descriptor")
  (c.inputSchema m).validate.mapError Failure.configInvalid
  let _ ← m.slots.foldlM (checkSlot (c.inputSchema m)) []
  return (m.name, m.version) :: seen

/-- A binding names a single slot and one field of the child for each identity field of its parent. -/
def checkBinding (m : MutationDescriptor) (slot : Slot) (binding : Binding) : Except Failure Unit := do
  let parent ← required (m.slots.find? (·.name = binding.slot))
    (Failure.configInvalid "binding target missing")
  let parentModel ← ((c.inputSchema m).model parent.model).mapError Failure.configInvalid
  let child ← ((c.inputSchema m).model slot.model).mapError Failure.configInvalid
  ensure (parent.cardinality = .single ∧ binding.fields.length = parentModel.identity.length ∧
    binding.fields.all fun n => (child.field n).isSome)
    (Failure.configInvalid "invalid binding descriptor")

/-- Without retained contracts every model is retained at the schema's own version. -/
def ownContracts : List ModelContract :=
  c.schema.models.map fun m => ⟨m.name, m.version, m.identity, m.fields,
    c.schema.enums.filter fun e => m.fields.any (·.valueType = .enum e.name)⟩

/-- A retained contract keeps the identity of its model. -/
def checkContract (seen : List (String × ℕ)) (m : ModelContract) :
    Except Failure (List (String × ℕ)) := do
  let current ← (c.schema.model m.name).mapError Failure.configInvalid
  ensure (0 < m.version ∧ m.version ≤ maxSafeInteger ∧ (m.name, m.version) ∉ seen ∧
      m.identity = current.identity)
    (Failure.configInvalid ("invalid model contract " ++ m.name ++ " v" ++ toString m.version))
  m.schema.validate.mapError Failure.configInvalid
  return (m.name, m.version) :: seen

/-- `Config::decode`. -/
def decode : Except Failure Config := do
  c.schema.validate.mapError Failure.configInvalid
  let _ ← c.mutations.foldlM c.checkMutation []
  forM c.mutations fun m => forM m.slots fun slot => forM slot.bindings (c.checkBinding m slot)
  forM c.loaders fun loader => do
    let _ ← (c.schema.model loader).mapError Failure.configInvalid
  let c := { c with models := if c.models = [] then c.ownContracts else c.models }
  let retained ← c.models.foldlM c.checkContract []
  forM c.schema.models fun model =>
    ensure ((model.name, model.version) ∈ retained) (Failure.configInvalid
      ("model " ++ model.name ++ " v" ++ toString model.version ++ " is not a retained contract"))
  return c

/-- The contract a loader of a version serves, when that version is retained. -/
def contract (model : String) (version : ℕ) : Option Schema :=
  (c.models.find? fun m => m.name = model ∧ m.version = version).map (·.schema)

/-- `check_declared`: every model a client declares exists and is retained at that version. -/
def checkDeclared (models : Models) : Except Failure Unit :=
  forM models.entries fun (name, version) => do
    let details := Value.ofEntries [("model", .str name), ("version", .num version)]
    ensure (c.schema.model name).isOk ⟨"model_version_unsupported",
      "model " ++ name ++ " is not served by this backend", details⟩
    ensure (c.contract name version).isSome ⟨"model_version_unsupported",
      "model " ++ name ++ " v" ++ toString version ++ " is not a retained read contract", details⟩

end Config

/-- A backend: its configuration, as it was decoded, and the codecs it was built with. -/
structure Backend where
  codecs : Codecs
  config : Config
  decoded : ∃ raw : Config, raw.decode = .ok config

/-- A backend is built with a valid schema. -/
theorem Backend.schema_valid (b : Backend) : b.config.schema.Valid := by
  obtain ⟨raw, hraw⟩ := b.decoded
  simp only [Config.decode, Except.bind_eq_ok, Except.mapError_eq_ok, Except.pure_eq_ok] at hraw
  obtain ⟨_, hv, _, -, _, -, _, -, retained, -, _, -, heq⟩ := hraw
  rw [← heq]
  exact Schema.validate_eq_ok.mp hv

end AheadSync
