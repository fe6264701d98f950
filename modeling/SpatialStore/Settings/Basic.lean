import SpatialStore.Decimal.Text

/-!
# Settings

Settings of the join search and of the nodes of the spatial index. Each has a default, and each
is checked for values that make no sense.
-/

namespace SpatialStore

/-- Settings of the join search. -/
structure JoinSettings where
  /-- By how much an index scan divides the rows that a joined table contributes. -/
  reduction : Float := 10
  /-- Whether a spatial predicate may use an index that is built for the query only. -/
  allowAdHoc : Bool := true

/-- How many entries a node of the spatial index holds. -/
structure NodeSettings where
  maxEntries : Nat := 16
  minEntries : Nat := 6
  deriving DecidableEq, Repr

/-- All settings of a store. -/
structure Settings where
  join : JoinSettings := {}
  nodes : NodeSettings := {}

/-- Why settings cannot be used. -/
inductive SettingsError where
  /-- The file cannot be read. -/
  | unreadable
  /-- The text is not a JSON document of the expected form. -/
  | malformed
  | reductionTooSmall (found : Float)
  | maxEntriesTooSmall (found : Nat)
  | minEntriesOutOfRange (largest found : Nat)

/-- The message of a settings error, for those that concern a value. -/
def SettingsError.message : SettingsError → String
  | .unreadable => "IO error"
  | .malformed => "Parse error"
  | .reductionTooSmall found =>
    "Invalid configuration: index_scan_reduction must be a finite value >= 1, got " ++
      Double.text .plain found
  | .maxEntriesTooSmall found =>
    s!"Invalid configuration: max_node_entries must be at least 4, got {found}"
  | .minEntriesOutOfRange largest found =>
    s!"Invalid configuration: min_node_entries must be between 2 and {largest}, got {found}"

/-- The reduction has to be a number, and at least one. -/
def JoinSettings.validate (s : JoinSettings) : Except SettingsError Unit :=
  if !s.reduction.isFinite || s.reduction < 1 then .error (.reductionTooSmall s.reduction)
  else .ok ()

/-- A node holds at least four entries at most, and its minimum is at most half of that. -/
def NodeSettings.validate (s : NodeSettings) : Except SettingsError Unit :=
  if s.maxEntries < 4 then .error (.maxEntriesTooSmall s.maxEntries)
  else if s.minEntries < 2 ∨ s.maxEntries / 2 < s.minEntries then
    .error (.minEntriesOutOfRange (s.maxEntries / 2) s.minEntries)
  else .ok ()

/-- The settings of the join search are checked first. -/
def Settings.validate (s : Settings) : Except SettingsError Unit := do
  s.join.validate
  s.nodes.validate

end SpatialStore
