import SpatialStore.Schema.Field

/-!
# Schemas

A schema is a list of fields with different names. Every operation that could break this reports
a `SchemaError` instead.
-/

namespace SpatialStore

/-- Why a schema cannot be built or changed. -/
inductive SchemaError where
  | duplicateField (name : String)
  | fieldOutOfBounds (index count : Nat)
  | fieldNotFound (name : String)
  deriving DecidableEq, Repr

/-- The message of a schema error. -/
def SchemaError.message : SchemaError → String
  | .duplicateField name => "Duplicate field name: " ++ name
  | .fieldOutOfBounds index count =>
    s!"Field index {index} out of bounds (field count {count})"
  | .fieldNotFound name => "Field not found: " ++ name

/-- An ordered list of fields. -/
structure Schema where
  fields : List Field
  deriving DecidableEq, Repr

namespace Schema

/-- The schema without fields. -/
def empty : Schema := ⟨[]⟩

/-- The first name that occurred before, among `names` after the ones seen already. -/
def firstDuplicate? (seen : List String) : List String → Option String
  | [] => none
  | n :: ns => if n ∈ seen then some n else firstDuplicate? (n :: seen) ns

/-- The schema over some fields, if their names are different. -/
def ofFields (fields : List Field) : Except SchemaError Schema :=
  match firstDuplicate? [] (fields.map (·.name)) with
  | some name => .error (.duplicateField name)
  | none => .ok ⟨fields⟩

/-- Number of fields. -/
def count (s : Schema) : Nat := s.fields.length

/-- The field names, in order. -/
def names (s : Schema) : List String := s.fields.map (·.name)

/-- The field at a position. -/
def field? (s : Schema) (i : Nat) : Option Field := s.fields[i]?

/-- Position of the field with a given name. -/
def indexOf? (s : Schema) (name : String) : Option Nat :=
  s.fields.findIdx? fun f => f.name == name

/-- The field with a given name, and its position. -/
def find? (s : Schema) (name : String) : Option (Nat × Field) :=
  (s.indexOf? name).bind fun i => (s.field? i).map fun f => (i, f)

/-- Whether there is a field with a given name. -/
def hasField (s : Schema) (name : String) : Bool := (s.indexOf? name).isSome

/-- Position of the first geometry field. -/
def spatialIndex? (s : Schema) : Option Nat := s.fields.findIdx? Field.isSpatial

/-- The schema with a field inserted at a position. -/
def insertField (s : Schema) (i : Nat) (f : Field) : Except SchemaError Schema :=
  if s.count < i then .error (.fieldOutOfBounds i s.count)
  else if s.hasField f.name then .error (.duplicateField f.name)
  else .ok ⟨s.fields.insertIdx i f⟩

/-- The schema with a field after the others. -/
def addField (s : Schema) (f : Field) : Except SchemaError Schema :=
  s.insertField s.count f

/-- The field at a position, and the schema without it. -/
def removeField (s : Schema) (i : Nat) : Except SchemaError (Field × Schema) :=
  match s.field? i with
  | none => .error (.fieldOutOfBounds i s.count)
  | some f => .ok (f, ⟨s.fields.eraseIdx i⟩)

/-- The old name of the field at a position, and the schema with a new name for it. -/
def renameField (s : Schema) (i : Nat) (name : String) : Except SchemaError (String × Schema) :=
  match s.field? i with
  | none => .error (.fieldOutOfBounds i s.count)
  | some f =>
    match s.indexOf? name with
    | none => .ok (f.name, ⟨s.fields.set i { f with name }⟩)
    | some j =>
      if j = i then .ok (f.name, ⟨s.fields.set i { f with name }⟩)
      else .error (.duplicateField name)

end Schema

end SpatialStore
