import SpatialStore.Editing.WorkingCopy

/-!
# Edits

An edit is one change of a working copy, with everything that is needed to take it back.
`Edit.apply` makes the change and `Edit.revert` undoes it.
-/

namespace SpatialStore

/-- A reversible change of a copy. -/
inductive Edit where
  | insertRow (position : Nat) (id : RowId) (row : Row)
  | deleteRow (position : Nat) (id : RowId) (row : Row)
  | setValue (position field : Nat) (former new : Value)
  | addField (position : Nat) (field : Field)
  | removeField (position : Nat) (field : Field) (values : List Value) (index : Option ColumnIndex)
  | renameField (position : Nat) (former new : String)

namespace Edit

/-- The copy after the edit. -/
def apply (b : WorkingCopy) : Edit → Except EditError WorkingCopy
  | .insertRow i id row => b.insertRow i id row
  | .deleteRow i _ _ => b.removeRow i
  | .setValue i field _ new => b.setValue i field new
  | .addField i f => b.insertColumn i f []
  | .removeField i _ _ _ => b.removeColumn i
  | .renameField i former new => b.renameColumn i former new

/-- The copy before the edit, from the one after it. A removed field comes back with its values
and its index. -/
def revert (b : WorkingCopy) : Edit → Except EditError WorkingCopy
  | .insertRow i _ _ => b.removeRow i
  | .deleteRow i id row => b.insertRow i id row
  | .setValue i field former _ => b.setValue i field former
  | .addField i _ => b.removeColumn i
  | .removeField i f values index => do
    let b ← b.insertColumn i f values
    match index with
    | none => return b
    | some index => return { b with indexes := b.indexes.insert f.name index }
  | .renameField i former new => b.renameColumn i new former

end Edit

end SpatialStore
