import Std.Data.ExtTreeMap
import Std.Data.ExtTreeSet
import SpatialStore.Index.Basic

/-!
# Attribute index

An attribute index finds the rows with a given key. Integers and doubles share the numeric keys,
so `1` and `1.0` find each other. Numeric keys are ordered by `Double.rank`, under which the two
zeros are one key and so is NaN.

The index keeps the key of every row and, the other way round, the rows of every key. A change
touches first one and then the other; `putRow` and `removeRow` are the changes step by step, with
their answers.
-/

namespace SpatialStore

/-- What a scalar value is found by. -/
inductive ScalarKey where
  | bool (b : Bool)
  | number (x : Float)
  | text (s : String)

namespace ScalarKey

/-- Key of a value; nulls and geometries have none. -/
def ofValue? : Value → Option ScalarKey
  | .bool b => some (.bool b)
  | .int i => some (.number (Double.ofInt i.toInt))
  | .double d => some (.number d)
  | .string s => some (.text s)
  | .null | .geometry _ => none

/-- Place of the sort of a key: truth values, numbers, texts. -/
def sort : ScalarKey → Nat
  | .bool _ => 0
  | .number _ => 1
  | .text _ => 2

/-- Rank of a truth value or number among its kind. -/
def rank : ScalarKey → Int
  | .bool b => if b then 1 else 0
  | .number x => Double.rank x
  | .text _ => 0

/-- The text of a key that has one. -/
def content : ScalarKey → String
  | .text s => s
  | _ => ""

/-- Order of keys: by sort, then truth values and numbers by rank and texts by content. -/
def order : ScalarKey → ScalarKey → Ordering :=
  compareLex (compareOn sort) (compareLex (compareOn rank) (compareOn content))

instance : Std.TransCmp order :=
  inferInstanceAs (Std.TransCmp
    (compareLex (compareOn sort) (compareLex (compareOn rank) (compareOn content))))

end ScalarKey

/-- Keys of rows, and the rows of each key. -/
structure KeyIndex where
  keys : Std.ExtTreeMap RowId ScalarKey
  rows : Std.ExtTreeMap ScalarKey (Std.ExtTreeSet RowId) ScalarKey.order

namespace KeyIndex

def empty : KeyIndex := ⟨∅, ∅⟩

/-- Number of indexed rows. -/
def size (index : KeyIndex) : Nat := index.keys.size

/-- Whether a row is indexed. -/
def contains (index : KeyIndex) (id : RowId) : Bool := index.keys.contains id

/-- The key of a row. -/
def key? (index : KeyIndex) (id : RowId) : Option ScalarKey := index.keys[id]?

/-- The index without a row, `none` when the row is not there. A key that no row has any more is
given up. -/
def erase? (index : KeyIndex) (id : RowId) : Option KeyIndex :=
  index.keys[id]?.map fun key =>
    ⟨index.keys.erase id,
      index.rows.alter key fun ids =>
        match ids with
        | none => none
        | some ids =>
          let left := ids.erase id
          if left.isEmpty then none else some left⟩

/-- The index without a row. -/
def erase (index : KeyIndex) (id : RowId) : KeyIndex :=
  (index.erase? id).getD index

/-- The index with the key of a value for a row, in place of the row's former key. A value without
key leaves the row without one. -/
def insert (index : KeyIndex) (id : RowId) (v : Value) : KeyIndex :=
  let cleared := index.erase id
  match ScalarKey.ofValue? v with
  | none => cleared
  | some key =>
    ⟨cleared.keys.insert id key,
      cleared.rows.alter key fun ids => some ((ids.getD ∅).insert id)⟩

/-- The rows whose key is that of a value, in ascending order. -/
def lookup (index : KeyIndex) (v : Value) : List RowId :=
  match (ScalarKey.ofValue? v).bind fun key => index.rows[key]? with
  | none => []
  | some ids => ids.toList

/-- Every indexed row with its key, in ascending order of the rows. -/
def entries (index : KeyIndex) : List (RowId × ScalarKey) := index.keys.toList

/-- Remove a row in place: its key, then the row from the rows of that key. The answer is whether
the row was there. -/
def removeRow (id : RowId) : StateM KeyIndex Bool := do
  match (← get).keys[id]? with
  | none => return false
  | some key =>
    modify fun index => { index with keys := index.keys.erase id }
    modify fun index => { index with
      rows := index.rows.alter key fun ids =>
        match ids with
        | none => none
        | some ids =>
          let left := ids.erase id
          if left.isEmpty then none else some left }
    return true

/-- Put a row in place: what was known of it goes, then it joins the rows of its key and is given
the key. The answer is whether the value has a key. -/
def putRow (id : RowId) (v : Value) : StateM KeyIndex Bool := do
  let _ ← removeRow id
  match ScalarKey.ofValue? v with
  | none => return false
  | some key =>
    modify fun index => { index with
      rows := index.rows.alter key fun ids => some ((ids.getD ∅).insert id) }
    modify fun index => { index with keys := index.keys.insert id key }
    return true

end KeyIndex

end SpatialStore
