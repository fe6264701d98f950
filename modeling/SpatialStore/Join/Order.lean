import SpatialStore.Join.Cost

/-!
# Join orders

A join prefix joins some of the tables of a query, one after the other; the others are pending. A
table is joined through every access path whose lookup refers to joined tables only, one for each
predicate, where standing indexes take precedence over those built for the query.

`JoinPrefix.search` finds an order of all tables by branch and bound. It extends prefixes table by
table in the order of the input, and gives a prefix up when it costs more than the best complete
order so far. Of complete orders with equal cost the first one wins.
-/

namespace SpatialStore

/-- A table to be joined. -/
structure JoinInput where
  scan : Scan
  rowCount : Nat

/-- A joined table. -/
structure JoinStep where
  scanId : ScanId
  rowCount : Nat
  /-- The access paths that lead to the table. -/
  paths : List AccessPath

/-- The beginning of a join order. -/
structure JoinPrefix where
  /-- The joined tables, the first one first. -/
  steps : List JoinStep
  /-- The tables that are not joined yet, in input order. -/
  pending : List ScanId
  cost : JoinCost

namespace JoinPrefix

/-- Nothing is joined yet. -/
def root (inputs : List JoinInput) : JoinPrefix := ⟨[], inputs.map (·.scan.id), .initial⟩

/-- The joined tables in order. -/
def order (p : JoinPrefix) : List ScanId := p.steps.map (·.scanId)

/-- Whether a table is joined. -/
def joins (p : JoinPrefix) (id : ScanId) : Bool := p.steps.any (·.scanId == id)

/-- Whether all tables are joined. -/
def complete (p : JoinPrefix) : Bool := p.pending.isEmpty

/-- Paths are added one by one, unless there is one for the same predicate already or the lookup
refers to a table that is not joined. -/
def addPaths (p : JoinPrefix) (chosen : List AccessPath) (offered : List AccessPath) :
    List AccessPath :=
  offered.foldl
    (fun chosen c =>
      if chosen.any (·.predicateId == c.predicateId) || !c.lookupScans.all p.joins then chosen
      else chosen ++ [c])
    chosen

/-- The access paths to a table once the tables of the prefix are joined. -/
def pathsTo (p : JoinPrefix) (candidates : List AccessPath) (id : ScanId) : List AccessPath :=
  let offered := candidates.filter (·.scanId == id)
  p.addPaths (p.addPaths [] (offered.filter fun c => !c.adHoc)) (offered.filter (·.adHoc))

/-- The prefix with one more table. -/
def extend (inputs : List JoinInput) (candidates : List AccessPath) (reduction : Float)
    (p : JoinPrefix) (id : ScanId) : Except PlanError JoinPrefix :=
  if id ∉ p.pending then .error (.fault (.notPending id))
  else
    match inputs.find? fun i => i.scan.id == id with
    | none => .error (.fault (.noInput id))
    | some input =>
      let paths := p.pathsTo candidates id
      .ok ⟨p.steps ++ [⟨id, input.rowCount, paths⟩], p.pending.erase id,
        p.cost.join reduction input.rowCount paths⟩

end JoinPrefix

/-- What a search went through. -/
structure SearchCounts where
  /-- Prefixes that were made. -/
  expanded : Nat
  /-- Prefixes that were given up for their cost. -/
  pruned : Nat
  /-- Complete orders that were reached. -/
  complete : Nat
  deriving DecidableEq, Repr

namespace SearchCounts

def zero : SearchCounts := ⟨0, 0, 0⟩

/-- The statistics of two searches together. -/
def add (s t : SearchCounts) : SearchCounts :=
  ⟨s.expanded + t.expanded, s.pruned + t.pruned, s.complete + t.complete⟩

end SearchCounts

/-- The state of a search. -/
structure JoinSearch where
  /-- The cheapest complete order so far. -/
  best : Option JoinPrefix
  stats : SearchCounts

namespace JoinSearch

/-- Whether a prefix costs more than the best order so far. -/
def prunes (s : JoinSearch) (p : JoinPrefix) : Bool :=
  s.best.any fun b => b.cost.total < p.cost.total

/-- Whether a complete order costs less than the best so far. -/
def improvedBy (s : JoinSearch) (p : JoinPrefix) : Bool :=
  s.best.all fun b => p.cost.total < b.cost.total

/-- Go through the extensions of a prefix, of which at most `n` tables are pending. -/
def explore (inputs : List JoinInput) (candidates : List AccessPath) (reduction : Float) :
    Nat → JoinPrefix → JoinSearch → Except PlanError JoinSearch
  | 0, _, s => .ok s
  | n + 1, p, s =>
    p.pending.foldlM
      (fun s id => do
        let child ← p.extend inputs candidates reduction id
        let stats := { s.stats with expanded := s.stats.expanded + 1 }
        if s.prunes child then
          return ⟨s.best, { stats with pruned := stats.pruned + 1 }⟩
        else if child.complete then
          let stats := { stats with complete := stats.complete + 1 }
          return ⟨if s.improvedBy child then some child else s.best, stats⟩
        else explore inputs candidates reduction n child ⟨s.best, stats⟩)
      s

end JoinSearch

namespace JoinPrefix

/-- The cheapest order of all tables, with the statistics of the search. -/
def search (inputs : List JoinInput) (candidates : List AccessPath) (reduction : Float) :
    Except PlanError (JoinPrefix × SearchCounts) :=
  if inputs.isEmpty then .error (.fault .nothingToJoin)
  else do
    let s ← JoinSearch.explore inputs candidates reduction inputs.length (root inputs)
      ⟨none, .zero⟩
    match s.best with
    | some best => return (best, s.stats)
    | none => throw (.fault .noCompleteOrder)

end JoinPrefix

end SpatialStore
