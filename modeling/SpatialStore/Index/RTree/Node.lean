import SpatialStore.Index.Basic
import SpatialStore.Index.RTree.Split

/-!
# Nodes of an R-tree

A node of height 0 holds rows, a node of height `h + 1` holds nodes of height `h`; every item is
boxed in its envelope. The height is part of the type, so all rows of a tree are equally deep.

Insertion descends to the child that has to grow least and splits what becomes too large.
Removal descends only into boxes that contain the envelope of the row; a node that falls below
the minimum is dissolved, and its rows are handed back to be inserted again.
-/

namespace SpatialStore.RTree

/-- What a node of some height holds: rows, or nodes that are one lower. -/
def Item : Nat → Type
  | 0 => RowId
  | h + 1 => List (Boxed (Item h))

/-- A node of some height. -/
abbrev Node (h : Nat) : Type := List (Boxed (Item h))

namespace Node

/-- The node over some rows. -/
def ofRows (rows : List (Boxed RowId)) : Node 0 := rows

/-- The rows that a node of height 0 holds. -/
def toRows (node : Node 0) : List (Boxed RowId) := node

/-- The box around a node; an empty node has none. -/
def envelope? {h : Nat} (node : Node h) : Option Envelope :=
  Envelope.unionAll (node.map (·.envelope))

/-- A node as an item of a node above it. -/
def boxed? {h : Nat} (node : Node h) : Option (Boxed (Item (h + 1))) :=
  node.envelope?.map fun e => ⟨e, node⟩

/-- The rows of a node, from left to right. -/
def rows : (h : Nat) → Node h → List (Boxed RowId)
  | 0, node => toRows node
  | h + 1, node => node.flatMap fun child => rows h child.item

/-- The ids of the rows whose envelope meets a window. Children are visited from right to left. -/
def query (window : Envelope) : (h : Nat) → Node h → List RowId
  | 0, node => ((toRows node).filter (·.envelope.intersects window)).map (·.item)
  | h + 1, node =>
    (node.filter (·.envelope.intersects window)).reverse.flatMap fun child =>
      query window h child.item

/-- Position of the child that grows least by an envelope, the smallest of several, the first of
equal ones. -/
def choose {α : Type} (children : List (Boxed α)) (e : Envelope) : Nat :=
  (children.zipIdx.foldl
    (fun best child =>
      let growth := child.1.envelope.enlargement e
      let area := child.1.envelope.area
      if growth < best.2.1 || (growth == best.2.1 && area < best.2.2) then
        (child.2, growth, area)
      else best)
    (0, Double.infinity, Double.infinity)).1

/-- A node, divided if it holds more than `max` items; the second part comes boxed. -/
def divide (max min : Nat) {h : Nat} (node : Node h) : Node h × Option (Boxed (Item (h + 1))) :=
  if node.length ≤ max then (node, none)
  else
    let (kept, moved) := Split.quadratic min node
    (kept, boxed? moved)

/-- The node with a row below it, and a new sibling when the node had to be divided. -/
def insert (max min : Nat) (x : Boxed RowId) :
    (h : Nat) → Node h → Node h × Option (Boxed (Item (h + 1)))
  | 0, node => divide max min (ofRows (toRows node ++ [x]))
  | h + 1, node =>
    let i := choose node x.envelope
    match node[i]? with
    | none => (node, none)
    | some child =>
      let grown := child.envelope.union x.envelope
      let (kept, sibling) := insert max min x h child.item
      match sibling with
      | none => divide max min (node.set i ⟨grown, kept⟩)
      | some sibling =>
        divide max min (node.set i ⟨(envelope? kept).getD grown, kept⟩ ++ [sibling])

/-- The first item for which `f` gives a replacement is replaced by it. -/
def replaceFirst {α β : Type} (f : α → Option (List α × β)) : List α → Option (List α × β)
  | [] => none
  | x :: xs =>
    match f x with
    | some (ys, b) => some (ys ++ xs, b)
    | none => (replaceFirst f xs).map fun r => (x :: r.1, r.2)

/-- The node without a row, looked for where its envelope fits, and the rows of the nodes that
were dissolved on the way; `none` when the row is not found. -/
def remove (min : Nat) (id : RowId) (e : Envelope) :
    (h : Nat) → Node h → Option (Node h × List (Boxed RowId))
  | 0, node =>
    if (toRows node).any (·.item == id) then
      some (ofRows ((toRows node).eraseP (·.item == id)), [])
    else none
  | h + 1, node =>
    replaceFirst
      (fun child =>
        if child.envelope.contains e then
          (remove min id e h child.item).map fun (left, orphans) =>
            if left.length < min then ([], orphans ++ rows h left)
            else ([⟨(envelope? left).getD child.envelope, left⟩], orphans)
        else none)
      node

end Node

end SpatialStore.RTree
