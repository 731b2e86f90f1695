import AheadSync.Server.Config

/-! What a schema source declares (`compiler/src/parse.rs`) and what validating it yields
    (`compiler/src/validate.rs`). What parsing guarantees of a declaration is part of its type. -/

namespace AheadSync
namespace Compiler

/-- The position of a declaration in the source. -/
structure Pos where
  line : ℕ := 0
  col : ℕ := 0
  deriving DecidableEq

/-- A diagnostic at a position. -/
def reportAt (pos : Pos) (message : String) : String :=
  toString pos.line ++ ":" ++ toString pos.col ++ ": " ++ message

/-- A version a source may declare: a positive integer in the safe range. -/
structure Version where
  number : ℕ
  positive : 0 < number
  safe : number ≤ maxSafeInteger
  deriving DecidableEq

/-- The version of a declaration that names none. -/
def Version.first : Version := ⟨1, by decide, by decide⟩

structure EnumDecl where
  name : String
  values : List String
  pos : Pos

/-- A field of a model. Its directives (`@reference`, `@inverse`, `@requires`) are kept with their
    arguments as JSON. -/
structure FieldDecl where
  name : String
  typeName : String
  isList : Bool
  nullable : Bool
  attributes : SortedMap String Value
  pos : Pos

structure UniqueDecl where
  fields : List String
  pos : Pos

structure ModelDecl where
  name : String
  version : Version
  identity : List String
  fields : List FieldDecl
  unique : List UniqueDecl
  pos : Pos

structure SequenceDecl where
  arguments : Value
  pos : Pos

/-- A slot of a mutation. Only an update may restrict the fields it changes. -/
structure SlotDecl where
  name : String
  model : String
  operation : OperationKind
  cardinality : Cardinality
  allowedPatchFields : Option (List String)
  relationBindings : Value
  pos : Pos
  restricted : allowedPatchFields.isSome → operation = .update

structure MutationDecl where
  name : String
  version : Version
  slots : List SlotDecl
  sequence : Option SequenceDecl
  pos : Pos
  named : name ≠ ""

structure PrerequisiteField where
  name : String
  typeName : String
  pos : Pos

structure PrerequisiteDecl where
  name : String
  fields : List PrerequisiteField
  pos : Pos

/-- Everything a source declares, in source order. -/
structure Declarations where
  enums : List EnumDecl := []
  models : List ModelDecl := []
  mutations : List MutationDecl := []
  prerequisites : List PrerequisiteDecl := []
  endPos : Pos := {}

/-- `Binding`: the foreign key of a relation takes the identity of a parent slot's record. -/
structure RelationBinding where
  relation : String
  slot : String
  fields : List String
  deriving DecidableEq

/-- A resolved slot; an update always has the fields it may change. -/
structure MutationSlot where
  name : String
  model : String
  operation : OperationKind
  cardinality : Cardinality
  allowedPatchFields : Option (List String) := none
  bindings : List RelationBinding := []
  deriving DecidableEq

structure SequenceBinding where
  slot : String
  path : List String
  deriving DecidableEq

structure SequenceCall where
  mutation : String
  bindings : List SequenceBinding
  deriving DecidableEq

structure MutationDef where
  name : String
  version : ℕ
  slots : List MutationSlot
  sequence : Option (List SequenceCall) := none
  deriving DecidableEq

/-- A requirement: the prerequisite of a model's field, whose fields are all the record itself. -/
structure Requirement where
  model : String
  field : String
  prerequisite : String
  arguments : List String
  deriving DecidableEq

structure Prerequisite where
  name : String
  fields : List (String × String)
  deriving DecidableEq

/-- The validated schema. Its models, fields and enums are the descriptors they are rendered as. -/
structure Validated where
  enums : List EnumDescriptor
  models : List ModelDescriptor
  requirements : List Requirement
  prerequisites : List Prerequisite
  mutations : List MutationDef
  deriving DecidableEq

end Compiler
end AheadSync
