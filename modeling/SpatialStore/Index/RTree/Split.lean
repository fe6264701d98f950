import SpatialStore.Geometry.Envelope

/-!
# Splitting a full node

`Split.quadratic` divides the entries of a node that has become too large into two groups. The
two entries that would waste the most area in one box start the groups. Of the others, always the
one with the strongest preference joins the group that grows less by it, until one group needs
all that is left to reach the minimum.

The entries stay boxed items of any kind, so that rows and nodes are divided alike.
-/

namespace SpatialStore

/-- An item with its envelope. -/
structure Boxed (α : Type) where
  envelope : Envelope
  item : α

namespace Split

variable {α : Type}

/-- The element at a position, and the list without it; the last element fills the gap. -/
def takeOut {β : Type} (xs : List β) (i : Nat) : Option (β × List β) :=
  xs[i]?.map fun x => (x, (xs.set i (xs.getLastD x)).dropLast)

/-- The area that one box around two envelopes has in excess of both. -/
def waste (a b : Envelope) : Float := (a.union b).area - a.area - b.area

/-- The pair of positions with the largest waste, the earliest of them, if it exceeds the waste
found so far. -/
def seedsFrom (best : (Nat × Nat) × Float) : List (Boxed α × Nat) → (Nat × Nat) × Float
  | [] => best
  | (a, i) :: rest =>
    seedsFrom
      (rest.foldl
        (fun best b =>
          let w := waste a.envelope b.1.envelope
          if best.2 < w then ((i, b.2), w) else best)
        best)
      rest

/-- Positions of the two entries that start the groups, in ascending order. -/
def seeds (entries : List (Boxed α)) : Nat × Nat :=
  (seedsFrom ((0, 1), -Double.infinity) entries.zipIdx).1

/-- Entries that share a box. -/
structure Group (α : Type) where
  envelope : Envelope
  members : List (Boxed α)

/-- The group of one entry. -/
def Group.single (x : Boxed α) : Group α := ⟨x.envelope, [x]⟩

/-- The group with another entry. -/
def Group.add (g : Group α) (x : Boxed α) : Group α :=
  ⟨g.envelope.union x.envelope, g.members ++ [x]⟩

/-- Position of the entry that the two groups differ most about, the first of several. -/
def mostDecided (a b : Group α) (entries : List (Boxed α)) : Nat :=
  (entries.zipIdx.foldl
    (fun best x =>
      let e := x.1.envelope
      let difference := (a.envelope.enlargement e - b.envelope.enlargement e).abs
      if best.2 < difference then (x.2, difference) else best)
    (0, -Double.infinity)).1

/-- Whether an entry joins the first group: the one that grows less, then the one with the smaller
area, then the one with fewer members. -/
def joinsFirst (a b : Group α) (e : Envelope) : Bool :=
  let growA := a.envelope.enlargement e
  let growB := b.envelope.enlargement e
  if growA != growB then growA < growB
  else if a.envelope.area != b.envelope.area then a.envelope.area < b.envelope.area
  else a.members.length ≤ b.members.length

/-- Hand out the remaining entries, at most `n` of them. -/
def distribute (min : Nat) : Nat → Group α → Group α → List (Boxed α) →
    List (Boxed α) × List (Boxed α)
  | 0, a, b, _ => (a.members, b.members)
  | n + 1, a, b, rest =>
    if rest.isEmpty then (a.members, b.members)
    else if a.members.length + rest.length ≤ min then (a.members ++ rest, b.members)
    else if b.members.length + rest.length ≤ min then (a.members, b.members ++ rest)
    else
      match takeOut rest (mostDecided a b rest) with
      | none => (a.members, b.members)
      | some (x, rest) =>
        if joinsFirst a b x.envelope then distribute min n (a.add x) b rest
        else distribute min n a (b.add x) rest

/-- Divide entries into two groups of at least `min` members each. Fewer than two entries cannot
be divided and stay in the first group. -/
def quadratic (min : Nat) (entries : List (Boxed α)) : List (Boxed α) × List (Boxed α) :=
  let (i, j) := seeds entries
  match takeOut entries j with
  | none => (entries, [])
  | some (second, others) =>
    match takeOut others i with
    | none => (entries, [])
    | some (first, rest) =>
      distribute min rest.length (.single first) (.single second) rest

end Split

end SpatialStore
