import AheadSync.Client.Enqueue
import AheadSync.Compiler.Declarations

/-! The descriptors of a validated schema (`compiler/src/generate.rs`), as the runtimes load them. -/

namespace AheadSync

/-- `Cardinality::descriptor_name`. -/
def Cardinality.text : Cardinality → String
  | .single => "single"
  | .optional => "optional"
  | .list => "list"

/-- A JSON array of strings. -/
def Value.strings (l : List String) : Value := .arr (l.map .str)

namespace Compiler

/-- A slot as it is rendered: what a binding's relation is called is left out. -/
structure SlotDescriptor where
  name : String
  model : String
  operation : OperationKind
  cardinality : Cardinality
  allowedPatchFields : Option (List String)
  bindings : List Binding
  deriving DecidableEq

/-- A mutation as it is rendered. -/
structure RenderedMutation where
  name : String
  version : ℕ
  slots : List SlotDescriptor
  sequence : Value

def MutationSlot.rendered (s : MutationSlot) : SlotDescriptor :=
  ⟨s.name, s.model, s.operation, s.cardinality, s.allowedPatchFields,
    s.bindings.map fun b => ⟨b.fields, b.slot⟩⟩

def MutationDef.sequenceJson (m : MutationDef) : Value :=
  match m.sequence with
  | none => .null
  | some after => .ofEntries [("after", .arr (after.map fun call => .ofEntries [
      ("name", .str call.mutation),
      ("arguments", .ofEntries (call.bindings.map fun b =>
        (b.slot, .str (".".intercalate b.path))))]))]

/-- `mutation`. -/
def MutationDef.rendered (m : MutationDef) : RenderedMutation :=
  ⟨m.name, m.version, m.slots.map (·.rendered), m.sequenceJson⟩

/-- A slot as the server loads it. -/
def SlotDescriptor.slot (s : SlotDescriptor) : Slot where
  name := s.name
  model := s.model
  operation := s.operation
  cardinality := s.cardinality
  allowedPatchFields := s.allowedPatchFields.getD []
  bindings := s.bindings

/-- A slot as JSON: patch fields and bindings are there only when the slot has them. -/
def SlotDescriptor.json (s : SlotDescriptor) : Value :=
  .ofEntries ([("name", .str s.name), ("model", .str s.model),
      ("operation", .str s.operation.text), ("cardinality", .str s.cardinality.text)] ++
    (match s.allowedPatchFields with
      | none => []
      | some fields => [("allowedPatchFields", .strings fields)]) ++
    if s.bindings = [] then [] else [("bindings", .arr (s.bindings.map fun b =>
      .ofEntries [("slot", .str b.slot), ("fields", .strings b.fields)]))])

/-- What a client reads of a mutation it may enqueue. -/
def RenderedMutation.json (m : RenderedMutation) : Value :=
  .ofEntries [("name", .str m.name), ("version", .num m.version),
    ("slots", .arr (m.slots.map (·.json))), ("sequence", m.sequence)]

/-- `requirements`. -/
def Requirement.descriptor (r : Requirement) : RequirementDescriptor :=
  ⟨r.model, r.field, r.prerequisite, .ofList (r.arguments.map (·, "self"))⟩

/-- `prerequisites`. -/
def Prerequisite.json (p : Prerequisite) : Value :=
  .ofEntries [("name", .str p.name), ("fields", .arr (p.fields.map fun (name, type) =>
    .ofEntries [("name", .str name), ("type", .str type)]))]

/-- `schema`: the client descriptor. -/
def Validated.schema (v : Validated) : Schema where
  enums := v.enums
  models := v.models
  requirements := v.requirements.map (·.descriptor)
  prerequisites := v.prerequisites.map (·.json)
  clientPolicies := v.mutations.map (·.rendered.json)

/-- What a run of the compiler yields, as far as the histories and the runtimes use it. -/
structure Compiled where
  schema : Schema
  mutations : List RenderedMutation
  loaders : List String
  requirements : List RequirementDescriptor
  prerequisites : List Value

/-- `descriptors`. -/
def descriptors (v : Validated) : Compiled where
  schema := v.schema
  mutations := v.mutations.map (·.rendered)
  loaders := v.models.map (·.name)
  requirements := v.requirements.map (·.descriptor)
  prerequisites := v.prerequisites.map (·.json)

end Compiler
end AheadSync
