import Std.Data.ExtTreeMap
import SpatialStore.Index.RTree.Node
import SpatialStore.Settings.Basic

/-!
# R-tree

An R-tree maps rows to envelopes and finds the rows whose envelope meets a window. Beside the
tree it keeps the envelope of each row, by which a row is found again for removal.
-/

namespace SpatialStore

/-- A tree of boxes over the rows, and the envelope of every row. -/
structure RTree where
  maxEntries : Nat
  minEntries : Nat
  height : Nat
  root : RTree.Node height
  envelopes : Std.ExtTreeMap RowId Envelope

namespace RTree

/-- The tree without rows. A node holds at least four items at most, and its minimum lies between
two and half of that. -/
def empty (settings : NodeSettings) : RTree :=
  let maxEntries := max settings.maxEntries 4
  ⟨maxEntries, max 2 (min settings.minEntries (maxEntries / 2)), 0, [], ∅⟩

/-- Number of rows. -/
def size (t : RTree) : Nat := t.envelopes.size

/-- Whether a row is there. -/
def contains (t : RTree) (id : RowId) : Bool := t.envelopes.contains id

/-- The envelope of a row. -/
def envelopeOf? (t : RTree) (id : RowId) : Option Envelope := t.envelopes[id]?

/-- The box around all rows. -/
def extent? (t : RTree) : Option Envelope := t.root.envelope?

/-- Every row with its envelope, in ascending order of the rows. -/
def entries (t : RTree) : List (RowId × Envelope) := t.envelopes.toList

/-- The rows whose envelope meets a window, in the order in which the tree is searched. -/
def query (t : RTree) (window : Envelope) : List RowId :=
  Node.query window t.height t.root

/-- The tree with one more row at the bottom. When the root is divided a new root goes above its
two parts. -/
def place (t : RTree) (x : Boxed RowId) : RTree :=
  let (kept, sibling) := Node.insert t.maxEntries t.minEntries x t.height t.root
  match sibling with
  | none => { t with root := kept }
  | some sibling =>
    { t with height := t.height + 1, root := (Node.boxed? kept).toList ++ [sibling] }

/-- The lowest node that still holds everything: a root with a single child is replaced by the
child, and one without children by an empty node of rows. -/
def collapse : (h : Nat) → Node h → (h : Nat) × Node h
  | 0, node => ⟨0, node⟩
  | h + 1, node =>
    match node with
    | [] => ⟨0, []⟩
    | [child] => collapse h child.item
    | node => ⟨h + 1, node⟩

/-- The tree without a row, `none` when the row is not there. The rows of dissolved nodes are
placed again. -/
def erase? (t : RTree) (id : RowId) : Option RTree :=
  t.envelopes[id]?.map fun e =>
    let (root, orphans) := (Node.remove t.minEntries id e t.height t.root).getD (t.root, [])
    let ⟨height, root⟩ := collapse t.height root
    orphans.foldl place { t with height, root, envelopes := t.envelopes.erase id }

/-- The tree without a row. -/
def erase (t : RTree) (id : RowId) : RTree := (t.erase? id).getD t

/-- The tree with an envelope for a row, in place of the row's former one. -/
def insert (t : RTree) (id : RowId) (e : Envelope) : RTree :=
  let t := t.erase id
  { t with envelopes := t.envelopes.insert id e }.place ⟨e, id⟩

end RTree

end SpatialStore
