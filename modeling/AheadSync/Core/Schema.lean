import AheadSync.Core.Codecs
import AheadSync.Lib.Outcome
import AheadSync.Lib.SortedMap

/-! The compiled schema: descriptors, their validation, and the normalization of identities, states
    and patches (`core/src/schema.rs`). -/

namespace AheadSync

/-- The greatest integer a double holds exactly with its neighbours. -/
def maxSafeInteger : ℕ := 9007199254740991

inductive ScalarType where
  | string | boolean | int | float | dateTime | uuid
  deriving DecidableEq

inductive ValueType where
  | scalar (name : ScalarType)
  | enum (name : String)
  | list (element : ValueType)
  deriving DecidableEq

def ValueType.isScalar : ValueType → Bool
  | .scalar _ => true
  | _ => false

def ValueType.isList : ValueType → Bool
  | .list _ => true
  | _ => false

structure FieldDescriptor where
  name : String
  valueType : ValueType
  nullable : Bool
  default : Option Value := none
  deriving DecidableEq

structure RelationDescriptor where
  name : String
  target : String
  fields : List String
  targetFields : List String
  onDelete : String
  deriving DecidableEq

structure ModelDescriptor where
  name : String
  version : ℕ := 1
  identity : List String
  fields : List FieldDescriptor
  relations : List RelationDescriptor := []
  unique : List (List String) := []
  deriving DecidableEq

structure EnumDescriptor where
  name : String
  values : List String
  deriving DecidableEq

structure RequirementDescriptor where
  model : String
  field : String
  name : String
  arguments : SortedMap String String
  deriving DecidableEq

structure Schema where
  enums : List EnumDescriptor := []
  models : List ModelDescriptor
  requirements : List RequirementDescriptor := []
  prerequisites : List Value := []
  clientPolicies : List Value := []
  deriving DecidableEq

/-- The key of a record. Two keys are equal exactly when their canonical encodings are. -/
structure RecordKey where
  model : String
  identity : Value
  deriving DecidableEq, Inhabited

/-- `RecordKey::encoded`. -/
def RecordKey.encoded (c : Codecs) (key : RecordKey) : String :=
  canonicalJson c (.arr [.str key.model, key.identity])

def ModelDescriptor.field (m : ModelDescriptor) (name : String) : Option FieldDescriptor :=
  m.fields.find? (·.name = name)

/-- `ahead_` and `sqlite_` prefixes, compared without letter case. -/
def reservedModelName (name : String) : Bool :=
  let lower := name.toList.map Char.toLower
  "ahead_".toList.isPrefixOf lower || "sqlite_".toList.isPrefixOf lower

namespace Schema

def model (s : Schema) (name : String) : Except String ModelDescriptor :=
  required (s.models.find? (·.name = name)) ("unknown model " ++ name)

def validateType (s : Schema) : ValueType → Except String Unit
  | .enum name => ensure (s.enums.any (·.name = name)) "unknown enum"
  | .list element => ensure element.isScalar "list elements must be scalar"
  | .scalar _ => .ok ()

/-- The checks of one model that need no other model. -/
def validateModel (s : Schema) (model : ModelDescriptor) : Except String Unit := do
  ensure (!reservedModelName model.name) ("model name " ++ model.name ++ " uses a reserved prefix")
  ensure (model.name ≠ "" ∧ model.identity ≠ []) "invalid model descriptor"
  ensure (model.version ≠ 0 ∧ model.version ≤ maxSafeInteger) "invalid model version"
  ensure ((model.fields.map (·.name)).Nodup ∧ "" ∉ model.fields.map (·.name))
    "duplicate or empty field"
  forM model.fields fun field => do
    s.validateType field.valueType
    ensure (¬(field.valueType.isList ∧ field.nullable)) "lists cannot be nullable"
  ensure model.identity.Nodup "invalid identity descriptor"
  forM model.identity fun name => do
    let field ← required (model.field name) "identity field missing"
    ensure (!field.nullable ∧ field.valueType.isScalar) "invalid identity descriptor"

def validateRelation (s : Schema) (model : ModelDescriptor) (relation : RelationDescriptor) :
    Except String Unit := do
  let target ← s.model relation.target
  ensure (relation.name ≠ "" ∧ relation.fields.length = target.identity.length ∧
    relation.targetFields = target.identity ∧ relation.onDelete ∈ ["delete", "none"])
    "invalid reference relation"
  forM (relation.fields.zip relation.targetFields) fun (l, r) => do
    let «local» ← required (model.field l) "reference field missing"
    let remote ← required (target.field r) "target field missing"
    ensure («local».valueType = remote.valueType) "reference field type mismatch"

/-- `Schema::validate`. -/
def validate (s : Schema) : Except String Unit := do
  ensure (s.models ≠ []) "models must be nonempty"
  ensure (s.enums.map (·.name)).Nodup "invalid enum descriptor"
  forM s.enums fun en =>
    ensure (en.name ≠ "" ∧ en.values ≠ [] ∧ "" ∉ en.values ∧ en.values.Nodup)
      "invalid enum descriptor"
  ensure (s.enums.map (·.name) ++ s.models.map (·.name)).Nodup "invalid model descriptor"
  forM s.models s.validateModel
  forM s.requirements fun requirement => do
    let model ← s.model requirement.model
    ensure ((model.field requirement.field).isSome ∧
      s.prerequisites.any (·.index "name" = .str requirement.name))
      "invalid prerequisite requirement"
    ensure (requirement.arguments.entries.all (·.2 = "self"))
      "unsupported prerequisite argument expression"
  forM s.models fun model => do
    forM model.unique fun fields =>
      ensure (fields ≠ [] ∧ fields.Nodup ∧ fields.all fun name => (model.field name).isSome)
        "invalid unique constraint"
    ensure (model.relations.map (·.name)).Nodup "invalid reference relation"
    forM model.relations (s.validateRelation model)

end Schema

/-- `scalar`: check a value against a scalar type and print it canonically. -/
def scalar (c : Codecs) : ScalarType → Value → Except String Value
  | .string, .str s => .ok (.str s)
  | .boolean, .bool b => .ok (.bool b)
  | .int, .num n =>
    let f := c.f64 n
    if f.den = 1 ∧ f.num.natAbs ≤ maxSafeInteger then .ok (.num f)
    else .error "integer outside safe range"
  | .int, _ => .error "expected integer"
  | .float, .num n => .ok (.num (c.f64 n))
  | .float, _ => .error "expected finite float"
  | .uuid, .str s =>
    match c.uuid s with
    | none => .error "invalid UUID"
    | some id =>
      if s.utf8ByteSize = 36 ∧ id.rfc4122 ∧ 1 ≤ id.version ∧ id.version ≤ 8 then .ok (.str id.text)
      else .error "invalid UUID format/version"
  | .uuid, _ => .error "expected UUID"
  | .dateTime, .str s =>
    if s.utf8ByteSize < 20 ∨ s.toByteArray[10]? ≠ some 84 then .error "invalid zoned dateTime"
    else match c.dateTime s with
      | none => .error "invalid zoned dateTime"
      | some t => .ok (.str t)
  | .dateTime, _ => .error "expected zoned dateTime"
  | _, _ => .error "invalid scalar type"

namespace Schema
variable (c : Codecs) (s : Schema)

def value : ValueType → Value → Except String Value
  | .scalar name, v => scalar c name v
  | .enum name, .str v =>
    if s.enums.any fun en => en.name = name ∧ v ∈ en.values then .ok (.str v)
    else .error "invalid enum value"
  | .enum _, _ => .error "invalid enum value"
  | .list element, .arr xs => do return .arr (← xs.mapM (value element))
  | .list _, _ => .error "expected list"

def normalizeValue (field : FieldDescriptor) (v : Value) : Except String Value :=
  if v.isNull then
    if field.nullable then .ok .null else .error (field.name ++ " is not nullable")
  else s.value c field.valueType v

/-- `record_key`: exactly the identity fields, normalized. -/
def recordKey (name : String) (identity : Value) : Except String RecordKey := do
  let model ← s.model name
  let input ← required identity.asObject "identity must be an object"
  ensure (input.length = model.identity.length ∧ input.all (·.1 ∈ model.identity))
    "identity must contain exactly identity fields"
  let result ← model.identity.mapM fun name => do
    let field ← required (model.field name) "identity descriptor missing"
    let v ← required (identity.get name) "identity missing"
    return (name, ← s.normalizeValue c field v)
  return ⟨name, .ofEntries result⟩

/-- The non-identity fields of a model, which a state carries. -/
def stateFields (model : ModelDescriptor) : List FieldDescriptor :=
  model.fields.filter (·.name ∉ model.identity)

/-- What a state holds for a field: a missing nullable field is null. -/
def stateInput (st : Value) (field : FieldDescriptor) : Except String Value :=
  match st.get field.name with
  | some v => .ok v
  | none => if field.nullable then .ok .null else .error ("missing state field " ++ field.name)

/-- `state`: a loader may name identity fields and must not name unknown ones; a wire state may
    name unknown ones and must not name identity fields. -/
def state (name : String) (st : Value) (loader : Bool) : Except String Value := do
  let model ← s.model name
  let input ← required st.asObject "state must be an object"
  ensure (input.all fun e =>
      if loader then (model.field e.1).isSome else e.1 ∉ model.identity)
    "unknown or identity state field"
  let result ← (stateFields model).mapM fun field => do
    let v ← stateInput st field
    return (field.name, ← s.normalizeValue c field v)
  return .ofEntries result

def normalizeState (model : String) (st : Value) : Except String Value := s.state c model st true

def validateState (model : String) (st : Value) : Except String Value := s.state c model st false

def validatePatch (name : String) (patch : Value) : Except String Value := do
  let model ← s.model name
  let input ← required patch.asObject "patch must be an object"
  let result ← input.mapM fun e => do
    ensure (e.1 ∉ model.identity) "identity is immutable"
    let field ← required (model.field e.1) "unknown patch field"
    return (e.1, ← s.normalizeValue c field e.2)
  return .ofEntries result

end Schema

end AheadSync
