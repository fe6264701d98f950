import SpatialStore.Settings.Basic
import SpatialStore.Settings.Json

/-!
# Reading settings

Settings come as a JSON document. A group of settings is an object whose keys may be missing, and
a missing key keeps its default; unknown keys are ignored, known ones may occur only once. A
group may also be an array of its settings in order, from which the last ones may be missing.

A reduction may be any number. It is read as its first digits, as many as fit into 64 bits, times
a power of ten, where both the conversion and the scaling round to doubles. Node entries are
non-negative integers below `2 ^ 64`, written without point and exponent.
-/

namespace SpatialStore

namespace JsonNumber

/-- Append digits to a number as long as it stays below `2 ^ 64`; the digits from the first that
does not fit are counted. -/
def accumulate (n : Nat) : List Nat → Nat × Nat
  | [] => (n, 0)
  | d :: ds => if 10 * n + d < Nat.pow 2 64 then accumulate (10 * n + d) ds else (n, ds.length + 1)

/-- A power of ten as a double. -/
def power (k : Nat) : Float := Float.ofScientific 1 false k

/-- A double times a power of ten, `none` when it leaves the range of doubles. Powers below
`10 ^ (-308)` are applied in several divisions. -/
def scale? (x : Float) (k : Int) : Option Float :=
  if 0 ≤ k then
    if 308 < k then if x == 0 then some x else none
    else
      let y := x * power k.toNat
      if y.isInf then none else some y
  else if -308 ≤ k then some (x / power (-k).toNat)
  else if x == 0 then some x
  else scale? (x / power 308) (k + 308)
termination_by (-k).toNat

/-- The double of a number, `none` when it is out of range. -/
def toDouble? (n : JsonNumber) : Option Float :=
  let fraction := n.fraction.getD []
  let (m, skipped) := accumulate 0 n.whole
  let (m, dropped) := accumulate m fraction
  let k : Int := skipped - (fraction.length - dropped : Nat) + n.exponent.getD 0
  (scale? (Float.ofNat m) k).map fun x => if n.negative then -x else x

/-- The natural number below `2 ^ 64` that is written without sign, point and exponent. -/
def toNat? (n : JsonNumber) : Option Nat :=
  match n.fraction, n.exponent, accumulate 0 n.whole with
  | none, none, (m, 0) => if n.negative then none else some m
  | _, _, _ => none

end JsonNumber

namespace Json

def toDouble? : Json → Option Float
  | .number n => n.toDouble?
  | _ => none

def toNat? : Json → Option Nat
  | .number n => n.toNat?
  | _ => none

def toBool? : Json → Option Bool
  | .bool b => some b
  | _ => none

/-- What is given for the two settings of a group with keys `first` and `second`. -/
def group? (first second : String) : Json → Option (Option Json × Option Json)
  | .array [] => some (none, none)
  | .array [a] => some (some a, none)
  | .array [a, b] => some (some a, some b)
  | .object members =>
    let given (key : String) := members.filter fun m => m.1 == some key
    if members.any (·.1.isNone) then none
    else
      match given first, given second with
      | [], [] => some (none, none)
      | [a], [] => some (some a.2, none)
      | [], [b] => some (none, some b.2)
      | [a], [b] => some (some a.2, some b.2)
      | _, _ => none
  | _ => none

/-- A setting that keeps its default when it is not given. -/
def orDefault {α : Type} (standard : α) (read : Json → Option α) : Option Json → Option α
  | none => some standard
  | some v => read v

end Json

/-- Settings of the join search from a JSON value. -/
def JoinSettings.ofJson? (v : Json) : Option JoinSettings := do
  let standard : JoinSettings := {}
  let (reduction, allowAdHoc) ← v.group? "index_scan_reduction" "allow_ad_hoc_indexes"
  return ⟨← Json.orDefault standard.reduction Json.toDouble? reduction,
    ← Json.orDefault standard.allowAdHoc Json.toBool? allowAdHoc⟩

/-- Settings of the nodes of the spatial index from a JSON value. -/
def NodeSettings.ofJson? (v : Json) : Option NodeSettings := do
  let standard : NodeSettings := {}
  let (maxEntries, minEntries) ← v.group? "max_node_entries" "min_node_entries"
  return ⟨← Json.orDefault standard.maxEntries Json.toNat? maxEntries,
    ← Json.orDefault standard.minEntries Json.toNat? minEntries⟩

/-- All settings from a JSON value, not validated. -/
def Settings.ofJson? (v : Json) : Option Settings := do
  let (join, nodes) ← v.group? "optimizer" "spatial_index"
  return ⟨← Json.orDefault {} JoinSettings.ofJson? join,
    ← Json.orDefault {} NodeSettings.ofJson? nodes⟩

/-- The settings of a JSON text. -/
def Settings.read (text : String) : Except SettingsError Settings :=
  match (Json.parse? text).bind Settings.ofJson? with
  | none => .error .malformed
  | some s => s.validate.map fun _ => s

/-- The settings of a file, given its text; a missing file has none. -/
def Settings.ofFile (text : Option String) : Except SettingsError Settings :=
  match text with
  | none => .error .unreadable
  | some text => Settings.read text

end SpatialStore
