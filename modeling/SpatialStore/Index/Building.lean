import SpatialStore.Index.Column
import SpatialStore.Table.Source

/-!
# Building an index from a source

`IndexBuild.run` reads a source and fills an index with a column of it. Before the first row, and
before every 1024th after it, the caller is asked whether to stop and, if not, told the fraction
of rows done; at the end the fraction 1 is reported. The caller is a function that answers the
polls by their number.
-/

namespace SpatialStore.IndexBuild

/-- Number of rows between two polls. -/
def interval : Nat := 1024

/-- Outcome of a build: the fractions reported, and the index or the reason why there is none. -/
structure Outcome where
  reports : List Float
  result : Except IndexError ColumnIndex

/-- Put rows into an index from position `i` of `total` on, polling in between. The result is
`none` when the caller stops the build. -/
def fill (cancelled : Nat → Bool) (total column : Nat) (reports : List Float)
    (index : ColumnIndex) : Nat → List Row → List Float × Option ColumnIndex
  | _, [] => (reports ++ [1], some index)
  | i, row :: rows =>
    let extended :=
      match row[column]? with
      | some v => index.insert i v
      | none => index
    if i % interval = 0 then
      if cancelled (i / interval) then (reports, none)
      else
        fill cancelled total column (reports ++ [Float.ofNat i / Float.ofNat total]) extended
          (i + 1) rows
    else fill cancelled total column reports extended (i + 1) rows

/-- Build the index of a field over the rows of a source. -/
def run (settings : NodeSettings) (table : String) (source : Source) (field : String)
    (kind : IndexKind) (cancelled : Nat → Bool) : Outcome :=
  let unreadable (e : SourceError) : Outcome :=
    ⟨[], .error (.sourceUnreadable table e.message)⟩
  match source.readSchema with
  | .error e => unreadable e
  | .ok schema =>
    match schema.find? field with
    | none => ⟨[], .error (.fieldNotFound table field)⟩
    | some (column, definition) =>
      if !kind.supports definition.type then
        ⟨[], .error (.incompatibleField table field kind definition.type)⟩
      else
        match source.readRows with
        | .error e => unreadable e
        | .ok rows =>
          match fill cancelled rows.length column [] (.empty field kind settings) 0 rows with
          | (reports, some index) => ⟨reports, .ok index⟩
          | (reports, none) => ⟨reports, .error (.cancelled table field)⟩

end SpatialStore.IndexBuild
