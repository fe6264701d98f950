import SpatialStore.Index.Building
import SpatialStore.Index.Registry

/-!
# Building an index in place

A build that works on a registry in place, next to a monitor that it talks to: the monitor is asked
whether to stop, gives one answer after the other, and is told the fraction of the rows that are
done. When a step fails, everything that was done and said before stays done and said. The index and
the fractions are those of `IndexBuild.run`.
-/

namespace SpatialStore.IndexBuild

open MonadExcept (ofExcept)

/-- What passes between a build and its monitor. -/
inductive Event where
  /-- The monitor is asked, before a row, whether to stop, and answers. -/
  | poll (row : Nat) (stop : Bool)
  /-- The monitor is told the fraction of the rows that are done. -/
  | report (fraction : Float)

/-- A registry with the monitor of a build. -/
structure Site where
  registry : IndexRegistry
  /-- The answers that the monitor gives, one after the other. -/
  answers : Nat → Bool
  /-- Number of answers given so far. -/
  polls : Nat
  events : List Event

namespace Site

/-- A registry with a monitor that was not asked anything yet. -/
def start (registry : IndexRegistry) (answers : Nat → Bool) : Site := ⟨registry, answers, 0, []⟩

/-- The fractions that were reported. -/
def reports (s : Site) : List Float :=
  s.events.filterMap fun
    | .report fraction => some fraction
    | .poll _ _ => none

end Site

/-- A step of a build. What it has done when it fails stays done. -/
abbrev Action (α : Type) : Type := EStateM IndexError Site α

/-- Ask the monitor whether to stop before a row. -/
def poll (row : Nat) : Action Bool := do
  let s ← get
  let stop := s.answers s.polls
  modify fun s => { s with polls := s.polls + 1 }
  modify fun s => { s with events := s.events ++ [.poll row stop] }
  return stop

/-- Tell the monitor a fraction. -/
def report (fraction : Float) : Action Unit :=
  modify fun s => { s with events := s.events ++ [.report fraction] }

/-- The fraction of the rows of a table that are done before a row. -/
def fraction (total row : Nat) : Float := Float.ofNat row / Float.ofNat total

/-- Put a row of a table into an index, after the monitor was asked if its turn has come. -/
def addRow (table field : String) (total column : Nat) (index : ColumnIndex) (r : Row × Nat) :
    Action ColumnIndex := do
  if r.2 % interval = 0 then
    if ← poll r.2 then
      throw (.cancelled table field)
    report (fraction total r.2)
  match r.1[column]? with
  | some v => return index.insert r.2 v
  | none => return index

/-- Put the rows of a table into a fresh index and the index into the registry. -/
def addRows (settings : NodeSettings) (table field : String) (kind : IndexKind) (column : Nat)
    (rows : List Row) : Action Unit := do
  let index ← rows.zipIdx.foldlM (addRow table field rows.length column)
    (.empty field kind settings)
  report 1
  modify fun s => { s with registry := s.registry.put table field index }

/-- Build the index of a field over the rows of a source and put it into the registry. -/
def carryOut (settings : NodeSettings) (table : String) (source : Source) (field : String)
    (kind : IndexKind) : Action Unit := do
  let unreadable (e : SourceError) : IndexError := .sourceUnreadable table e.message
  let schema ← ofExcept (source.readSchema.mapError unreadable)
  match schema.find? field with
  | none => throw (.fieldNotFound table field)
  | some (column, definition) =>
    if !kind.supports definition.type then
      throw (.incompatibleField table field kind definition.type)
    else
      let rows ← ofExcept (source.readRows.mapError unreadable)
      addRows settings table field kind column rows

end SpatialStore.IndexBuild
