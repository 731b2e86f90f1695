import AheadSync.Core.Normal

/-! How a compiled schema relates to the one a database was built for (`core/src/schema.rs`): the
    same, more that can be added in place, or something else. -/

namespace AheadSync

/-- One change the storage layer can apply in place. -/
inductive AdditiveStep where
  | addModel (model : String)
  | addField (model field : String)
  deriving DecidableEq

inductive Compatibility where
  | identical
  | additive (steps : List AdditiveStep)
  | incompatible (reason : String)
  deriving DecidableEq

namespace Schema

/-- The values of an enum, when there is one of the name. -/
def enumOf (s : Schema) (name : String) : Option (List String) :=
  (s.enums.find? (·.name = name)).map (·.values)

/-- A stored field: the incoming model has it, of the same type and nullability. -/
def compareField (stored incoming : Schema) (old new : ModelDescriptor) (field : FieldDescriptor) :
    Except String Unit := do
  let next ← required (new.field field.name)
    ("field " ++ old.name ++ "." ++ field.name ++ " was removed or renamed")
  ensure (next.valueType = field.valueType ∧ next.nullable = field.nullable)
    ("field " ++ old.name ++ "." ++ field.name ++ " changed its type or nullability")
  match field.valueType with
  | .enum name =>
    ensure (stored.enumOf name = incoming.enumOf name)
      ("enum " ++ name ++ " used by " ++ old.name ++ "." ++ field.name ++ " changed its values")
  | _ => return

/-- An incoming field: stored, or one that rows without it can be given. -/
def compareAdded (old new : ModelDescriptor) (field : FieldDescriptor) :
    Except String (List AdditiveStep) :=
  if (old.field field.name).isSome then .ok []
  else if field.nullable ∨ field.default.isSome then .ok [.addField new.name field.name]
  else .error ("field " ++ new.name ++ "." ++ field.name ++ " is required and has no default")

def compareModel (stored incoming : Schema) (old : ModelDescriptor) :
    Except String (List AdditiveStep) := do
  let new ← required (incoming.models.find? (·.name = old.name))
    ("model " ++ old.name ++ " was removed")
  ensure (new.version = old.version) ("model " ++ old.name ++ " changed version from " ++
    toString old.version ++ " to " ++ toString new.version)
  ensure (new.identity = old.identity) ("model " ++ old.name ++ " changed its identity")
  ensure (new.unique = old.unique) ("model " ++ old.name ++ " changed its unique constraints")
  ensure (old.relations.Perm new.relations) ("model " ++ old.name ++ " changed its relations")
  forM old.fields (compareField stored incoming old new)
  let steps ← new.fields.mapM (compareAdded old new)
  return steps.flatten

/-- `Schema::compatibility`. -/
def compatibility (stored incoming : Schema) : Compatibility :=
  match stored.models.mapM (compareModel stored incoming) with
  | .error reason => .incompatible reason
  | .ok steps =>
    let steps := steps.flatten ++ (incoming.models.filter fun new =>
      (stored.models.find? (·.name = new.name)).isNone).map fun new => .addModel new.name
    if steps = [] then .identical else .additive steps

end Schema

/-- Identical or additive. -/
def Compatibility.fits : Compatibility → Bool
  | .incompatible _ => false
  | _ => true

/-- A model with every field of another of its name, alike, and fields besides that rows without
    them can be given. -/
structure ModelGrows (old new : ModelDescriptor) : Prop where
  name : new.name = old.name
  identity : new.identity = old.identity
  unique : new.unique = old.unique
  kept : ∀ f ∈ old.fields, ∃ f', new.field f.name = some f' ∧ f'.valueType = f.valueType ∧
    f'.nullable = f.nullable
  added : ∀ f' ∈ new.fields, old.field f'.name = none → f'.nullable = true ∨ f'.default.isSome = true

/-- A schema that has every model of another, grown. -/
def Grows (old new : Schema) : Prop :=
  ∀ m ∈ old.models, ∃ m', new.models.find? (·.name = m.name) = some m' ∧ ModelGrows m m'

/-- A schema that is not incompatible has grown from the stored one. -/
theorem grows_of_fits {stored incoming : Schema}
    (h : (stored.compatibility incoming).fits = true) : Grows stored incoming := by
  intro m hm
  cases hall : stored.models.mapM (stored.compareModel incoming) with
  | error reason => simp [Schema.compatibility, hall, Compatibility.fits] at h
  | ok steps =>
    obtain ⟨_, hmodel⟩ := (List.mapM_ok_iff.mp ⟨steps, hall⟩) m hm
    simp only [Schema.compareModel, Except.bind_eq_ok, required_eq_ok, ensure_eq_ok,
      List.forM_eq_ok, Except.pure_eq_ok] at hmodel
    obtain ⟨new, hnew, -, -, -, hid, -, huniq, -, -, -, hfields, steps, hadded, -⟩ := hmodel
    refine ⟨new, hnew, by simpa using List.find?_some hnew, hid, huniq, fun f hf => ?_,
      fun f' hf' hno => ?_⟩
    · have hfield := hfields f hf
      simp only [Schema.compareField, Except.bind_eq_ok, required_eq_ok, ensure_eq_ok] at hfield
      obtain ⟨next, hnext, -, ⟨htype, hnull⟩, -⟩ := hfield
      exact ⟨next, hnext, htype, hnull⟩
    · obtain ⟨_, hf'⟩ := (List.mapM_ok_iff.mp ⟨steps, hadded⟩) f' hf'
      simp only [Schema.compareAdded, hno, Option.isSome_none, Bool.false_eq_true, if_false] at hf'
      split_ifs at hf' with hok
      exact hok

end AheadSync
