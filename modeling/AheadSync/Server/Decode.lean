import AheadSync.Server.Host
import AheadSync.Core.Normal

/-! Reading an uploaded mutation into the arguments of its handler (`server/src/lib.rs`): its
    operations fill the slots of its descriptor in order, and each names a record it targets. -/

namespace AheadSync

/-- `machine_name`: words start at capital letters. -/
def machineName (name : String) : String :=
  String.ofList (name.toList.foldl (fun acc ch =>
    if ch.isUpper then (if acc = [] then acc else acc ++ ['_']) ++ [ch.toLower] else acc ++ [ch]) [])

namespace WireMutation

/-- `version`: a version that is not a positive counter is none. -/
def readVersion (m : WireMutation) : Option ℕ :=
  if 0 < m.version ∧ m.version ≤ maxSafeInteger then some m.version else none

end WireMutation

namespace MutationDescriptor
variable (d : MutationDescriptor)

def notAllowed : Failure := Failure.ofCode (machineName d.name ++ ".not_allowed")

/-- Whether a patch may carry a field: the model had it when the mutation was published. -/
def known (slot : Slot) (model : ModelDescriptor) (name : String) : Bool :=
  match d.knownFields.lookup slot.model with
  | some names => names.contains name
  | none => (model.field name).isSome

end MutationDescriptor

namespace Backend
variable (b : Backend)

/-- `descriptor`: the mutation a body names. -/
def descriptor (m : WireMutation) : Except Failure MutationDescriptor := do
  let version ← required m.readVersion Failure.mutationInvalid
  required (b.config.mutations.find? fun d => d.name = m.name ∧ d.version = version)
    Failure.mutationInvalid

/-- `invalid`: what the schema refuses makes the mutation invalid. -/
def invalid {α : Type} (r : Except String α) : Except Failure α :=
  r.mapError fun _ => Failure.mutationInvalid

/-- The data of a create: every field outside the identity, a missing nullable one as null. -/
def createData (schema : Schema) (model : ModelDescriptor) (source : Value) : Except Failure Value := do
  let entries ← (model.fields.filter (·.name ∉ model.identity)).mapM fun field => do
    let v ← required ((source.get field.name).or (if field.nullable then some .null else none))
      Failure.mutationInvalid
    return (field.name, ← invalid (schema.normalizeValue b.codecs field v))
  return .ofEntries entries

/-- The patch of an update: the allowed fields; a field unknown to this version is left out. -/
def updatePatch (d : MutationDescriptor) (schema : Schema) (slot : Slot) (model : ModelDescriptor)
    (source : Value) : Except Failure Value := do
  let entries ← source.entries.mapM fun (name, v) => do
    ensure (¬(d.known slot model name ∧ name ∉ slot.allowedPatchFields)) d.notAllowed
    match model.field name with
    | none => return none
    | some field =>
      ensure (name ∈ slot.allowedPatchFields) d.notAllowed
      return some (name, ← invalid (schema.normalizeValue b.codecs field v))
  return .ofEntries (entries.filterMap id)

/-- One operation as an argument of its slot, and the record it targets. -/
def argument (d : MutationDescriptor) (schema : Schema) (slot : Slot) (op : Operation) :
    Except Failure (Value × RecordKey) := do
  let model ← invalid (schema.model slot.model)
  let source ← required op.identity.asObject Failure.mutationInvalid
  let identity := Value.obj (source.filter (·.1 ∈ model.identity))
  let key ← invalid (schema.recordKey b.codecs slot.model identity)
  let base := Value.ofEntries [("identity", key.identity)]
  match slot.operation with
  | .delete => return (base, key)
  | .create => do
    let values ← required (op.values.filter (·.asObject.isSome)) Failure.mutationInvalid
    return (base.set "data" (← b.createData schema model values), key)
  | .update => do
    let values ← required (op.values.filter (·.asObject.isSome)) Failure.mutationInvalid
    return (base.set "patch" (← b.updatePatch d schema slot model values), key)

/-- Fill one slot with the next operations that fit it: all of them for a list, else one. -/
def fillSlot (d : MutationDescriptor) (schema : Schema) (slot : Slot) :
    List Operation → Except Failure (List (Value × RecordKey) × List Operation)
  | [] => .ok ([], [])
  | op :: ops =>
    if op.model = slot.model ∧ op.op = slot.operation then do
      let one ← b.argument d schema slot op
      if slot.cardinality = .list then do
        let (rest, left) ← fillSlot d schema slot ops
        return (one :: rest, left)
      else return ([one], ops)
    else .ok ([], op :: ops)

/-- The value of a filled slot. -/
def slotValue (slot : Slot) (values : List Value) : Except Failure Value :=
  match slot.cardinality, values with
  | .list, _ => .ok (.arr values)
  | _, [v] => .ok v
  | .optional, _ => .ok .null
  | .single, _ => .error Failure.mutationInvalid

/-- Fill every slot in order. -/
def fillSlots (d : MutationDescriptor) (schema : Schema) :
    List Slot → List Operation → Except Failure (List (String × Value) × List RecordKey)
  | [], ops => do
    ensure (ops = []) Failure.mutationInvalid
    return ([], [])
  | slot :: slots, ops => do
    let (filled, left) ← b.fillSlot d schema slot ops
    let value ← slotValue slot (filled.map (·.1))
    let (args, targets) ← fillSlots d schema slots left
    return ((slot.name, value) :: args, filled.map (·.2) ++ targets)

/-- The rows of a slot that its bindings are checked on. -/
def slotRows (slot : Slot) (value : Value) : Except Failure (List Value) :=
  match slot.cardinality, value with
  | .list, .arr rows => .ok rows
  | .list, _ => .error Failure.mutationInvalid
  | _, .null => .ok []
  | _, row => .ok [row]

/-- The bound fields of every created row name the record of the parent slot. -/
def checkBindings (d : MutationDescriptor) (schema : Schema) (args : Value) : Except Failure Unit :=
  forM (d.slots.filter (·.operation = .create)) fun slot => forM slot.bindings fun binding => do
    let parent ← required (d.slots.find? (·.name = binding.slot)) Failure.mutationInvalid
    let parentModel ← (schema.model parent.model).mapError Failure.configInvalid
    let rows ← slotRows slot (args.index slot.name)
    forM rows fun row => forM (binding.fields.zip parentModel.identity) fun (field, id) =>
      let actual := ((row.index "identity").get field).getD ((row.index "data").index field)
      ensure (actual = ((args.index parent.name).index "identity").index id)
        (Failure.ofCode (machineName d.name ++ ".invalid"))

/-- `decode`: the slot arguments and the records the operations target, in operation order. -/
def decode (m : WireMutation) : Except Failure (Value × List RecordKey) := do
  let d ← b.descriptor m
  let schema := b.config.inputSchema d
  let (args, targets) ← b.fillSlots d schema d.slots m.operations
  checkBindings d schema (.ofEntries args)
  return (.ofEntries args, targets)

end Backend

section Decode
variable {b : Backend} {d : MutationDescriptor} {schema : Schema} {slot : Slot}

theorem argument_key {op : Operation} {out : Value × RecordKey}
    (h : b.argument d schema slot op = .ok out) : ∃ model source, schema.model slot.model = .ok model ∧
      op.identity.asObject = some source ∧
      schema.recordKey b.codecs slot.model (.obj (source.filter (·.1 ∈ model.identity))) =
        .ok out.2 := by
  simp only [Backend.argument, Backend.invalid, Except.bind_eq_ok, Except.mapError_eq_ok,
    required_eq_ok] at h
  obtain ⟨model, hm, source, hs, key, hk, h⟩ := h
  refine ⟨model, source, hm, hs, ?_⟩
  split at h
  · cases h; exact hk
  · simp only [Except.bind_eq_ok, required_eq_ok, Except.pure_eq_ok] at h
    obtain ⟨_, -, _, -, rfl⟩ := h
    exact hk
  · simp only [Except.bind_eq_ok, required_eq_ok, Except.pure_eq_ok] at h
    obtain ⟨_, -, _, -, rfl⟩ := h
    exact hk

/-- A slot takes operations of its own model, one target each, and leaves the rest. -/
theorem fillSlot_spec : ∀ {ops left : List Operation} {filled : List (Value × RecordKey)},
    b.fillSlot d schema slot ops = .ok (filled, left) → ∃ taken, ops = taken ++ left ∧
      List.Forall₂ (fun op out => op.model = slot.model ∧ b.argument d schema slot op = .ok out)
        taken filled
  | [], left, filled, h => by
    cases h; exact ⟨[], rfl, .nil⟩
  | op :: ops, left, filled, h => by
    rw [Backend.fillSlot] at h
    split at h
    · rename_i hfit
      simp only [Except.bind_eq_ok] at h
      obtain ⟨one, hone, h⟩ := h
      split at h
      · simp only [Except.bind_eq_ok, Except.pure_eq_ok, Prod.mk.injEq] at h
        obtain ⟨⟨rest, left'⟩, hrest, rfl, rfl⟩ := h
        obtain ⟨taken, rfl, hall⟩ := fillSlot_spec hrest
        exact ⟨op :: taken, rfl, .cons ⟨hfit.1, hone⟩ hall⟩
      · simp only [Except.pure_eq_ok, Prod.mk.injEq] at h
        obtain ⟨rfl, rfl⟩ := h
        exact ⟨[op], rfl, .cons ⟨hfit.1, hone⟩ .nil⟩
    · cases h; exact ⟨[], rfl, .nil⟩

end Decode

end AheadSync
