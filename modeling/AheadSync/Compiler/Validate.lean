import AheadSync.Compiler.Generate

/-! From declarations to the validated schema (`compiler/src/validate.rs`). -/

namespace AheadSync

namespace Compiler

/-- `Option::unwrap`: a value that must be there. -/
def unwrapped {α : Type} (o : Option α) : Except String α :=
  required o "called Option::unwrap() on a None value"

/-- `strings`. -/
def strings (values : List Value) : List String := values.map fun v => v.asStr.getD ""

/-- `Scalar::from_source`. -/
def scalarOf : String → Option ScalarType
  | "String" => some .string
  | "Bool" | "Boolean" => some .boolean
  | "Int" => some .int
  | "Float" => some .float
  | "UUID" => some .uuid
  | "DateTime" => some .dateTime
  | _ => none

/-- `GENERATED_NAMES`. -/
def generatedNames : List String :=
  ["Channels", "Client", "ClientSyncState", "Connection", "GeneratedClient", "GeneratedTransaction",
    "LiveModels", "LivePort", "Mutate", "MutatePort", "MutationName", "PendingMutation", "Present",
    "ReadPort", "RebuildReport", "Rejection", "RuntimeConnection", "SyncServer", "SyncState",
    "Transaction", "TxModels", "WritePort"]

def Declarations.model (d : Declarations) (name : String) : Option ModelDecl :=
  d.models.find? (·.name = name)

def ModelDecl.field (m : ModelDecl) (name : String) : Option FieldDecl :=
  m.fields.find? (·.name = name)

/-! ### Names -/

/-- The names of enums and models, in source order. -/
def declaredNames (d : Declarations) : List (String × Pos) :=
  (d.enums.map (fun e => (e.name, e.pos)) ++ d.models.map fun m => (m.name, m.pos)).mergeSort
    fun a b => a.2.line < b.2.line || a.2.line = b.2.line && a.2.col ≤ b.2.col

def checkName (seen : List String) (declared : String × Pos) : Except String (List String) := do
  ensure (declared.1 ∉ seen) (reportAt declared.2 ("duplicate declaration " ++ declared.1))
  ensure (declared.1 ∉ generatedNames) (reportAt declared.2
    (declared.1 ++ " is a name the generated client uses; choose another"))
  return declared.1 :: seen

def checkField (seen : List String) (f : FieldDecl) : Except String (List String) := do
  ensure (f.name ∉ seen) (reportAt f.pos "duplicate field")
  ensure (¬(f.isList ∧ f.nullable)) (reportAt f.pos "lists cannot be nullable")
  return f.name :: seen

def checkIdentity (m : ModelDecl) (seen : List String) (id : String) :
    Except String (List String) := do
  let f ← required (m.field id) (reportAt m.pos ("identity field " ++ id ++ " missing"))
  ensure (id ∉ seen) (reportAt m.pos ("duplicate identity field " ++ id))
  ensure (¬(f.nullable ∨ f.isList)) (reportAt f.pos "identity fields must be non-nullable scalars")
  return id :: seen

def checkModel (m : ModelDecl) : Except String Unit := do
  ensure (!reservedModelName m.name)
    (reportAt m.pos ("model name " ++ m.name ++ " uses a reserved prefix (ahead_, sqlite_)"))
  let _ ← m.fields.foldlM checkField []
  ensure (m.identity ≠ []) (reportAt m.pos "model requires an @@id identity")
  let _ ← m.identity.foldlM (checkIdentity m) []

/-! ### Models -/

/-- What a field of a model is: a reference, the other side of one, or a column. -/
inductive FieldRole where
  | relation (r : RelationDescriptor)
  | inverse
  | stored

/-- `@reference`. -/
def resolveReference (m : ModelDecl) (f : FieldDecl) (target : ModelDecl) (reference : Value) :
    Except String RelationDescriptor := do
  ensure (!f.isList) (reportAt f.pos "reference must be singular")
  let arguments ← unwrapped reference.asObject
  ensure (arguments.all (·.1 ∈ ["0", "via", "onTargetDelete"]))
    (reportAt f.pos "unknown reference argument")
  let via ← required (reference.index "via").asArray
    (reportAt f.pos "reference requires via fields")
  ensure (via.length = target.identity.length)
    (reportAt f.pos "reference identity arity mismatch")
  forM (via.zip target.identity) fun (near, remote) => do
    let lf ← required (m.fields.find? fun x => .str x.name = near)
      (reportAt f.pos "unknown reference field")
    let rf ← required (target.field remote) (reportAt f.pos "unknown target identity")
    ensure (lf.typeName = rf.typeName ∧ !lf.isList)
      (reportAt f.pos "reference field type mismatch")
  let onDelete ← match reference.get "onTargetDelete" with
    | none => .ok "none"
    | some (.str "none") => .ok "none"
    | some (.str "delete") => .ok "delete"
    | some _ => .error (reportAt f.pos "unsupported onTargetDelete")
  return ⟨f.name, target.name, strings via, target.identity, onDelete⟩

def fieldRole (d : Declarations) (m : ModelDecl) (f : FieldDecl) : Except String FieldRole :=
  match d.model f.typeName with
  | some target =>
    match f.attributes.lookup "reference" with
    | some reference => do return .relation (← resolveReference m f target reference)
    | none => .ok .inverse
  | none => do
    ensure ((f.attributes.lookup "reference").isNone ∧ (f.attributes.lookup "inverse").isNone)
      (reportAt f.pos "relation directive requires model type")
    return .stored

def fieldDescriptor (d : Declarations) (f : FieldDecl) : Except String FieldDescriptor := do
  let ty ← match scalarOf f.typeName with
    | some s => .ok (.scalar s)
    | none =>
      if d.enums.any (·.name = f.typeName) then .ok (.enum f.typeName)
      else .error (reportAt f.pos ("unknown or unsupported field type " ++ f.typeName))
  return ⟨f.name, if f.isList then .list ty else ty, f.nullable, none⟩

def relationOf : FieldRole → Option RelationDescriptor
  | .relation r => some r
  | _ => none

def isStored : FieldRole → Bool
  | .stored => true
  | _ => false

def resolveModel (d : Declarations) (m : ModelDecl) : Except String ModelDescriptor := do
  let roles ← m.fields.mapM fun f => do return (f, ← fieldRole d m f)
  let stored := (roles.filter (isStored ·.2)).map (·.1)
  let fields ← stored.mapM (fieldDescriptor d)
  forM (fields.zip stored) fun (f, decl) =>
    ensure (¬(f.name ∈ m.identity ∧ !f.valueType.isScalar))
      (reportAt decl.pos "identity fields must be non-nullable scalars")
  return { name := m.name, version := m.version.number, identity := m.identity, fields
           relations := roles.filterMap (relationOf ·.2), unique := m.unique.map (·.fields) }

/-! ### Mutations -/

def resolveBinding (models : List ModelDescriptor) (m : MutationDecl) (s : SlotDecl)
    (binding : String × Value) : Except String RelationBinding := do
  let model ← required (models.find? (·.name = s.model)) (reportAt s.pos "unknown bound model")
  let rel ← required (model.relations.find? (·.name = binding.1))
    (reportAt s.pos "unknown binding relation")
  let parent ← required (m.slots.find? fun x => binding.2.asStr = some x.name)
    (reportAt s.pos "unknown parent slot")
  ensure (parent.model = rel.target ∧ parent.cardinality = .single)
    (reportAt s.pos "binding parent must be single matching model")
  return ⟨binding.1, parent.name, rel.fields⟩

/-- The fields an update may change: the declared ones, or every field outside the identity. -/
def patchFields (models : List ModelDescriptor) (s : SlotDecl) :
    Except String (Option (List String)) :=
  if s.operation = .update ∧ s.allowedPatchFields.isNone then do
    let model ← required (models.find? (·.name = s.model))
      (reportAt s.pos "unknown mutation model")
    return some ((model.fields.filter (·.name ∉ model.identity)).map (·.name))
  else .ok s.allowedPatchFields

def resolveMutation (models : List ModelDescriptor) (m : MutationDecl) :
    Except String (List (List RelationBinding)) :=
  m.slots.mapM fun s => do
    (← unwrapped s.relationBindings.asObject).mapM (resolveBinding models m s)

def resolveSlots (models : List ModelDescriptor) (m : MutationDecl)
    (bindings : List (List RelationBinding)) : Except String MutationDef := do
  let slots ← (m.slots.zip bindings).mapM fun (s, bindings) => do
    return ⟨s.name, s.model, s.operation, s.cardinality, ← patchFields models s, bindings⟩
  return { name := m.name, version := m.version.number, slots }

/-! ### Inverses, prerequisites and requirements -/

/-- Whether a field is a reference to a model, of some name if one is given. -/
def isCandidate (m : ModelDecl) (relationName : Value) (x : FieldDecl) : Bool :=
  x.typeName = m.name && match x.attributes.lookup "reference" with
    | none => false
    | some reference => relationName = .null || reference.index "0" = relationName

/-- A field of a model type without `@reference` mirrors exactly one reference, a unique one when it
    is singular. -/
def checkInverse (models : List ModelDescriptor) (m : ModelDecl) (f : FieldDecl)
    (target : ModelDecl) : Except String Unit := do
  let relationName := ((f.attributes.lookup "inverse").map (·.index "0")).getD .null
  match target.fields.filter (isCandidate m relationName) with
  | [reference] => do
    let arguments ← unwrapped (reference.attributes.lookup "reference")
    let fields := strings (← unwrapped (arguments.index "via").asArray)
    let same := fun (values : List String) =>
      values.length = fields.length ∧ fields.all (· ∈ values)
    let normalized ← unwrapped (models.find? (·.name = target.name))
    ensure (f.isList ∨ same normalized.identity ∨ ∃ values ∈ normalized.unique, same values)
      (reportAt f.pos "singular inverse requires unique reference fields")
    ensure (relationName = .null ∨ relationName.asStr.isSome)
      (reportAt f.pos "inverse relation name must be an identifier")
  | _ => .error (reportAt f.pos
      "inverse must resolve to exactly one reference; use a shared relation name")

def checkInverses (d : Declarations) (models : List ModelDescriptor) : Except String Unit :=
  forM d.models fun m => forM m.fields fun f =>
    match d.model f.typeName with
    | some target =>
      if (f.attributes.lookup "reference").isNone then checkInverse models m f target else .ok ()
    | none => .ok ()

def prerequisiteTypes : List String :=
  ["String", "UUID", "DateTime", "Int", "Float", "Bool", "Boolean"]

def checkPrerequisite (seen : List String) (p : PrerequisiteDecl) :
    Except String (List String) := do
  ensure (p.name ∉ seen) (reportAt p.pos "duplicate prerequisite")
  let _ ← p.fields.foldlM (fun (seen : List String) f => do
    ensure (f.name ∉ seen ∧ f.typeName ∈ prerequisiteTypes)
      (reportAt f.pos "invalid prerequisite field")
    return f.name :: seen) []
  return p.name :: seen

def PrerequisiteDecl.prerequisite (p : PrerequisiteDecl) : Prerequisite :=
  ⟨p.name, p.fields.map fun f => (f.name, f.typeName)⟩

/-- `@requires`. -/
def resolveRequirement (prerequisites : List Prerequisite) (m : ModelDecl) (f : FieldDecl)
    (args : Value) : Except String Requirement := do
  let invocations ← unwrapped args.asObject
  ensure (invocations.map (·.1) = ["0"]) (reportAt f.pos "requires expects one invocation")
  let invocation := args.index "0"
  let declaration ← required
    (prerequisites.find? fun p => (invocation.index "name").asStr = some p.name)
    (reportAt f.pos "unknown prerequisite")
  let arguments ← required (invocation.index "arguments").asObject
    (reportAt f.pos "requires expects invocation arguments")
  ensure (arguments.length = declaration.fields.length)
    (reportAt f.pos "prerequisite argument mismatch")
  forM declaration.fields fun (name, type) => do
    let expression ← required (arguments.lookup name)
      (reportAt f.pos "missing prerequisite argument")
    ensure (expression = .str "self")
      (reportAt f.pos "prerequisite argument currently requires self")
    ensure (f.typeName = type) (reportAt f.pos "prerequisite argument type mismatch")
  return ⟨m.name, f.name, declaration.name, arguments.map (·.1)⟩

/-- Every `@requires`, in field order across models. -/
def resolveRequirements (d : Declarations) (prerequisites : List Prerequisite) :
    Except String (List Requirement) := do
  let found ← d.models.mapM fun m => m.fields.mapM fun f =>
    match f.attributes.lookup "requires" with
    | none => .ok none
    | some args => do return some (← resolveRequirement prerequisites m f args)
  return found.flatten.reduceOption

/-! ### Sequences -/

/-- Follow relations from the model of a slot. -/
def followPath (models : List ModelDescriptor) (pos : Pos) (current : ModelDescriptor)
    (path : List String) : Except String ModelDescriptor :=
  path.foldlM (fun (current : ModelDescriptor) part => do
    let relation ← required (current.relations.find? (·.name = part))
      (reportAt pos "unknown sequence relation path")
    unwrapped (models.find? (·.name = relation.target))) current

def resolveSequenceBinding (models : List ModelDescriptor) (m target : MutationDef)
    (decl : MutationDecl) (pos : Pos) (binding : String × Value) :
    Except String SequenceBinding := do
  let targetSlot ← required (target.slots.find? (·.name = binding.1))
    (reportAt pos "unknown sequence target slot")
  let text ← required binding.2.asStr (reportAt pos "sequence requires slot path")
  let path := (text.toList.splitOnP (· = '.')).map String.ofList
  let sourceSlot ← required (m.slots.find? fun x => path.head? = some x.name)
    (reportAt pos "unknown sequence source slot")
  let sourceDecl ← unwrapped (decl.slots.find? (·.name = sourceSlot.name))
  let source ← required (models.find? (·.name = sourceSlot.model))
    (reportAt sourceDecl.pos "unknown mutation model")
  let reached ← followPath models pos source path.tail
  ensure (reached.name = targetSlot.model) (reportAt pos "sequence target model mismatch")
  return ⟨binding.1, path⟩

def resolveSequence (models : List ModelDescriptor) (mutations : List MutationDef)
    (m : MutationDef) (decl : MutationDecl) (s : SequenceDecl) :
    Except String (List SequenceCall) := do
  let arguments ← unwrapped s.arguments.asObject
  ensure (arguments.map (·.1) = ["after"]) (reportAt s.pos "sequence requires after")
  let after ← required (s.arguments.index "after").asArray
    (reportAt s.pos "sequence after must be list")
  after.mapM fun call => do
    let target ← required (mutations.find? fun x => (call.index "name").asStr = some x.name)
      (reportAt s.pos "unknown sequence mutation")
    let args ← required (call.index "arguments").asObject
      (reportAt s.pos "sequence requires invocation")
    return ⟨target.name, ← args.mapM (resolveSequenceBinding models m target decl s.pos)⟩

def addSequence (models : List ModelDescriptor) (mutations : List MutationDef)
    (m : MutationDef × MutationDecl) : Except String MutationDef :=
  match m.2.sequence with
  | none => .ok m.1
  | some s => do
    return { m.1 with sequence := some (← resolveSequence models mutations m.1 m.2 s) }

/-! ### The checks of the result -/

def checkUnique (models : List ModelDescriptor) (m : ModelDecl) (u : UniqueDecl) :
    Except String Unit := do
  let model ← unwrapped (models.find? (·.name = m.name))
  ensure (u.fields ≠ [] ∧ u.fields.all fun f => (model.field f).isSome)
    (reportAt u.pos "invalid unique fields")

def checkSlot (models : List ModelDescriptor) (seen : List String)
    (slot : MutationSlot × SlotDecl) : Except String (List String) := do
  let (slot, decl) := slot
  ensure (slot.name ∉ seen) (reportAt decl.pos "duplicate slot")
  let model ← required (models.find? (·.name = slot.model))
    (reportAt decl.pos "unknown mutation model")
  let _ ← (slot.allowedPatchFields.getD []).foldlM (fun (seen : List String) f => do
    ensure (f ∉ seen ∧ f ∉ model.identity ∧ (model.field f).isSome)
      (reportAt decl.pos "invalid allowed patch field")
    return f :: seen) []
  return slot.name :: seen

/-- The nearest earlier slot that a later one cannot be told apart from: of the same kind and not
    single, with no single slot fixing a position in between. Earlier slots come nearest first. -/
def ambiguous (later : MutationSlot) : List MutationSlot → Option MutationSlot
  | [] => none
  | earlier :: before =>
    if earlier.model = later.model ∧ earlier.operation = later.operation ∧
        earlier.cardinality ≠ .single then some earlier
    else if earlier.cardinality = .single then none
    else ambiguous later before

def checkAmbiguous : List MutationSlot → List (MutationSlot × SlotDecl) → Except String Unit
  | _, [] => .ok ()
  | before, (later, decl) :: rest =>
    match ambiguous later before with
    | some earlier => .error (reportAt decl.pos ("ambiguous slot: " ++ later.name ++
        " cannot be told apart from " ++ earlier.name))
    | none => checkAmbiguous (later :: before) rest

def checkMutation (models : List ModelDescriptor) (seen : List String)
    (m : MutationDef × MutationDecl) : Except String (List String) := do
  let (m, decl) := m
  ensure (m.name ∉ seen) (reportAt decl.pos "duplicate mutation")
  ensure (m.slots ≠ []) (reportAt decl.pos "mutation requires slots")
  let _ ← (m.slots.zip decl.slots).foldlM (checkSlot models) []
  checkAmbiguous [] (m.slots.zip decl.slots)
  return m.name :: seen

/-- `validate`. -/
def validate (d : Declarations) : Except String Validated := do
  let _ ← (declaredNames d).foldlM checkName []
  forM d.models checkModel
  let models ← d.models.mapM (resolveModel d)
  let bindings ← d.mutations.mapM (resolveMutation models)
  let mutations ← (d.mutations.zip bindings).mapM fun (m, bindings) =>
    resolveSlots models m bindings
  checkInverses d models
  let prerequisites := d.prerequisites.map (·.prerequisite)
  let _ ← d.prerequisites.foldlM checkPrerequisite []
  let requirements ← resolveRequirements d prerequisites
  let mutations ← (mutations.zip d.mutations).mapM (addSequence models mutations)
  forM d.models fun m => forM m.unique (checkUnique models m)
  let validated : Validated :=
    { enums := d.enums.map fun e => ⟨e.name, e.values⟩, models, requirements, prerequisites
      mutations }
  validated.schema.validate.mapError (reportAt d.endPos)
  let _ ← (mutations.zip d.mutations).foldlM (checkMutation models) []
  return validated

end Compiler
end AheadSync
