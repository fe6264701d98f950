import Mathlib
import SpatialStore.Proofs.Double.Products
import SpatialStore.Proofs.Join.Optimality

/-!
# Searching without access paths

Without access paths an order costs the product of the rows of its tables, whatever the order is.
As long as the product is a double, so is the product for every beginning of an order, and none of
them is rounded: all orders cost exactly the same and no beginning costs more. The search then gives
nothing up, goes through all orders and keeps the first one, which is the order of the input
(`JoinPrefix.search_unindexed`).

The counts follow the recursion of the search. Below a prefix with `m + 1` pending tables there are
`m + 1` extensions, and below each of them what there is for `m` pending tables
(`SearchCounts.exhaustive_succ`).
-/

namespace SpatialStore

open scoped Nat

/-! ### Counts -/

namespace SearchCounts

/-- What a search adds up to that goes the same way several times. -/
def times (n : Nat) (c : SearchCounts) : SearchCounts :=
  ⟨n * c.expanded, n * c.pruned, n * c.complete⟩

/-- All orders of `n` tables, with all their beginnings. -/
def exhaustive (n : Nat) : SearchCounts :=
  ⟨∑ k ∈ Finset.Icc 1 n, n ! / (n - k)!, 0, n !⟩

theorem add_assoc (a b c : SearchCounts) : (a.add b).add c = a.add (b.add c) := by
  simp only [add, Nat.add_assoc]

theorem zero_add (c : SearchCounts) : zero.add c = c := by
  simp only [add, zero, Nat.zero_add]

theorem times_one (c : SearchCounts) : c.times 1 = c := by
  simp only [times, Nat.one_mul]

theorem times_succ (n : Nat) (c : SearchCounts) : c.times (n + 1) = c.add (c.times n) := by
  simp only [times, add, Nat.succ_mul, Nat.add_comm]

/-- The beginnings with `i + 1` tables are the arrangements of so many tables. -/
private theorem exhaustive_eq (n : Nat) :
    exhaustive n = ⟨∑ i ∈ Finset.range n, n.descFactorial (i + 1), 0, n !⟩ := by
  have hrange : Finset.Icc 1 n = Finset.Ico 1 (n + 1) := rfl
  rw [exhaustive, hrange, Finset.sum_Ico_eq_sum_range, Nat.add_sub_cancel]
  congr 1
  refine Finset.sum_congr rfl fun i hi => ?_
  rw [Nat.add_comm 1 i, Nat.descFactorial_eq_div (Finset.mem_range.mp hi)]

/-- Any of the tables comes first, and then come all orders of the others. -/
theorem exhaustive_succ (n : Nat) :
    exhaustive (n + 1) = (SearchCounts.add ⟨1, 0, 0⟩ (exhaustive n)).times (n + 1) := by
  have hsum : ∑ i ∈ Finset.range (n + 1), (n + 1).descFactorial (i + 1) =
      (n + 1) * (1 + ∑ i ∈ Finset.range n, n.descFactorial (i + 1)) := by
    simp only [Nat.succ_descFactorial_succ]
    rw [← Finset.mul_sum, Finset.sum_range_succ', Nat.descFactorial_zero,
      Nat.add_comm (Finset.sum _ _)]
  rw [exhaustive_eq, exhaustive_eq, hsum, Nat.factorial_succ]
  simp only [add, times, Nat.zero_add, Nat.mul_zero]

end SearchCounts

/-! ### Products of rows -/

namespace JoinInput

variable {inputs : List JoinInput} {input : JoinInput}

/-- The rows that a table contributes when it is scanned. -/
def rows (input : JoinInput) : Nat := max input.rowCount 1

/-- The rows of a table of the input. -/
def rowsOf (inputs : List JoinInput) (id : ScanId) : Nat :=
  ((inputs.find? fun i => i.scan.id == id).map rows).getD 1

/-- The rows of all tables. -/
def product (inputs : List JoinInput) : Nat := (inputs.map rows).prod

theorem rowsOf_pos (inputs : List JoinInput) (id : ScanId) : 0 < rowsOf inputs id := by
  rw [rowsOf]
  cases inputs.find? fun i => i.scan.id == id with
  | none => exact Nat.one_pos
  | some i => exact Nat.le_max_right i.rowCount 1

theorem prod_rowsOf_pos (inputs : List JoinInput) (ids : List ScanId) :
    0 < (ids.map (rowsOf inputs)).prod := by
  refine List.prod_pos fun k hk => ?_
  obtain ⟨id, -, rfl⟩ := List.mem_map.mp hk
  exact rowsOf_pos inputs id

theorem rowsOf_eq (hdistinct : (inputs.map (·.scan.id)).Nodup) (hinput : input ∈ inputs) :
    rowsOf inputs input.scan.id = input.rows := by
  rw [rowsOf, find?_of_mem hdistinct hinput]
  rfl

/-- The rows of all tables, in whatever order they are taken. -/
theorem prod_rowsOf {ids : List ScanId} (hdistinct : (inputs.map (·.scan.id)).Nodup)
    (hids : ids.Perm (inputs.map (·.scan.id))) :
    (ids.map (rowsOf inputs)).prod = product inputs := by
  rw [(hids.map _).prod_eq, List.map_map, product]
  exact congrArg List.prod (List.map_congr_left fun i hi => rowsOf_eq hdistinct hi)

end JoinInput

namespace JoinPrefix

open JoinInput (product rowsOf prod_rowsOf prod_rowsOf_pos)

variable {inputs : List JoinInput} {reduction : Float} {p q : JoinPrefix} {id : ScanId}

/-- The cost of joining all tables by scans. -/
def scanCost (inputs : List JoinInput) : JoinCost := ⟨Float.ofNat (product inputs), 0⟩

/-- A prefix in which all tables are joined by scans, at the cost of their rows. -/
structure Scanned (inputs : List JoinInput) (p : JoinPrefix) : Prop where
  sound : p.Sound inputs []
  cost : p.cost = ⟨Float.ofNat (p.order.map (rowsOf inputs)).prod, 0⟩

theorem scanned_root (inputs : List JoinInput) : (root inputs).Scanned inputs :=
  ⟨sound_root inputs [], rfl⟩

/-- The rows of the joined and those of the pending tables make up the product. -/
theorem Scanned.product_eq (hp : p.Scanned inputs)
    (hdistinct : (inputs.map (·.scan.id)).Nodup) :
    (p.order.map (rowsOf inputs)).prod * (p.pending.map (rowsOf inputs)).prod =
      product inputs := by
  rw [← prod_rowsOf hdistinct hp.sound.perm, List.map_append, List.prod_append]

theorem Scanned.exists_extend (hp : p.Scanned inputs) (reduction : Float)
    (hdistinct : (inputs.map (·.scan.id)).Nodup) (hproduct : product inputs ≤ 2 ^ 53)
    (hid : id ∈ p.pending) :
    ∃ child, p.extend inputs [] reduction id = .ok child ∧ child.Scanned inputs ∧
      child.pending = p.pending.erase id := by
  obtain ⟨child, hchild, hsound, hpending⟩ := hp.sound.exists_extend reduction hid
  have horder := order_extend hchild
  obtain ⟨-, input, hinput, rfl, hq⟩ := extend_eq_ok hchild
  refine ⟨child, hchild, ⟨hsound, ?_⟩, hpending⟩
  -- what is joined now is a factor of the product of all rows
  have hjoined := prod_rowsOf_pos inputs p.order
  have hle : (p.order.map (rowsOf inputs)).prod * rowsOf inputs input.scan.id ≤ 2 ^ 53 := by
    have hrest := prod_rowsOf_pos inputs (p.pending.erase input.scan.id)
    have hsplit := ((List.perm_cons_erase hid).map (rowsOf inputs)).prod_eq
    rw [← hp.product_eq hdistinct, hsplit, List.map_cons, List.prod_cons, ← Nat.mul_assoc]
      at hproduct
    exact Nat.le_trans (Nat.le_mul_of_pos_right _ hrest) hproduct
  have hmul := Double.ofNat_mul hjoined (JoinInput.rowsOf_pos inputs input.scan.id) hle
  rw [horder, List.map_append, List.prod_append, List.map_singleton, List.prod_singleton, ← hmul,
    JoinInput.rowsOf_eq hdistinct hinput, hq, hp.cost]
  rfl

/-- Nothing costs more than joining all tables. -/
theorem Scanned.total_le (hp : p.Scanned inputs) (hdistinct : (inputs.map (·.scan.id)).Nodup)
    (hproduct : product inputs ≤ 2 ^ 53) : p.cost.total ≤ (scanCost inputs).total := by
  have hjoined := prod_rowsOf_pos inputs p.order
  have hrest := prod_rowsOf_pos inputs p.pending
  have hsplit := hp.product_eq hdistinct
  have hjoinedle := Nat.le_mul_of_pos_right (p.order.map (rowsOf inputs)).prod hrest
  have hrestle := Nat.le_mul_of_pos_left (p.pending.map (rowsOf inputs)).prod hjoined
  have hle := Double.le_mul (Double.one_le_ofNat hjoined (by omega))
    (Double.one_le_ofNat hrest (by omega))
  rw [Double.ofNat_mul hjoined hrest (hsplit ▸ hproduct), hsplit] at hle
  rw [hp.cost, scanCost, JoinCost.total, JoinCost.total,
    Double.ofNat_add_zero hjoined (by omega), Double.ofNat_add_zero (by omega) hproduct]
  exact hle

/-- A complete order costs what all orders cost. -/
theorem Scanned.cost_eq (hp : p.Scanned inputs) (hdistinct : (inputs.map (·.scan.id)).Nodup)
    (hcomplete : p.complete = true) : p.cost = scanCost inputs := by
  rw [hp.cost, prod_rowsOf hdistinct (hp.sound.order_perm hcomplete), scanCost]

end JoinPrefix

/-! ### Searching -/

namespace JoinSearch

open JoinInput (product)
open JoinPrefix (scanCost)

variable {inputs : List JoinInput} {reduction : Float} {p : JoinPrefix} {id : ScanId}
  {ids first : List ScanId} {s t u : JoinSearch} {counts more : SearchCounts} {cost : JoinCost}

/-- A search has counted so much, and its best order is the one from before or, if there was none, a
given one. -/
structure Covers (cost : JoinCost) (counts : SearchCounts) (first : List ScanId)
    (s t : JoinSearch) : Prop where
  stats : t.stats = s.stats.add counts
  best : ∃ b, t.best = some b ∧ b.cost = cost ∧ (s.best = some b ∨ s.best = none ∧ b.order = first)

theorem Covers.trans {next : List ScanId} (hst : Covers cost counts first s t)
    (htu : Covers cost more next t u) : Covers cost (counts.add more) first s u := by
  obtain ⟨b, hb, hcost, hfirst⟩ := hst.best
  obtain ⟨c, hc, -, hsame | ⟨hnone, -⟩⟩ := htu.best
  · obtain rfl := Option.some.inj (hb.symm.trans hsame)
    refine ⟨?_, b, hc, hcost, hfirst⟩
    rw [htu.stats, hst.stats, SearchCounts.add_assoc]
  · rw [hb] at hnone
    cases hnone

/-- Steps that each count the same: the first one decides on the order. -/
theorem exists_covers {f : JoinSearch → ScanId → Except PlanError JoinSearch}
    (order : ScanId → List ScanId) (hstep : ∀ id ∈ ids, ∀ s : JoinSearch,
      (∀ b ∈ s.best, b.cost = cost) → ∃ t, f s id = .ok t ∧ Covers cost counts (order id) s t)
    (hs : ∀ b ∈ s.best, b.cost = cost) {next : ScanId} {rest : List ScanId}
    (hids : ids = next :: rest) :
    ∃ t, ids.foldlM f s = .ok t ∧ Covers cost (counts.times ids.length) (order next) s t := by
  induction rest generalizing ids next s with
  | nil =>
    subst hids
    obtain ⟨t, ht, hcovers⟩ := hstep next List.mem_cons_self s hs
    refine ⟨t, ?_, ?_⟩
    · rw [List.foldlM_cons, Result.bind_of_eq_ok ht]
      rfl
    · rwa [List.length_singleton, SearchCounts.times_one]
  | cons after rest ih =>
    subst hids
    obtain ⟨hnext, hrest⟩ := List.forall_mem_cons.mp hstep
    obtain ⟨t, ht, hcovers⟩ := hnext s hs
    have hheld : ∀ b ∈ t.best, b.cost = cost := by
      obtain ⟨b, hb, hcost, -⟩ := hcovers.best
      intro c hc
      obtain rfl := Option.some.inj (hb.symm.trans hc)
      exact hcost
    obtain ⟨u, hu, hlater⟩ := ih hrest hheld rfl
    refine ⟨u, ?_, ?_⟩
    · rw [List.foldlM_cons, Result.bind_of_eq_ok ht, hu]
    · rw [List.length_cons, SearchCounts.times_succ]
      exact hcovers.trans hlater

/-- Going through the extensions of a prefix goes through all orders that continue it, and discovers
first the one that joins the pending tables as they are listed. -/
theorem explore_covers (reduction : Float) (hdistinct : (inputs.map (·.scan.id)).Nodup)
    (hproduct : product inputs ≤ 2 ^ 53) {n : Nat} (hp : p.Scanned inputs)
    (hn : p.pending.length ≤ n) (hpending : p.pending ≠ [])
    (hs : ∀ b ∈ s.best, b.cost = scanCost inputs) :
    ∃ t, explore inputs [] reduction n p s = .ok t ∧
      Covers (scanCost inputs) (.exhaustive p.pending.length) (p.order ++ p.pending) s t := by
  induction n generalizing p s with
  | zero => exact absurd (List.length_eq_zero_iff.mp (Nat.le_zero.mp hn)) hpending
  | succ n ih =>
    obtain ⟨next, rest, hnext⟩ := List.exists_cons_of_ne_nil hpending
    have hfirst : p.order ++ p.pending = p.order ++ next :: p.pending.erase next := by
      rw [hnext, List.erase_cons_head]
    have hlength : p.pending.length = rest.length + 1 := congrArg List.length hnext
    rw [explore_succ, hfirst, hlength, SearchCounts.exhaustive_succ, ← hlength]
    refine exists_covers (fun id => p.order ++ id :: p.pending.erase id)
      (fun id hid s hs => ?_) hs hnext
    obtain ⟨child, hchild, hscanned, herase⟩ := hp.exists_extend reduction hdistinct hproduct hid
    have hle := hscanned.total_le hdistinct hproduct
    have hsize : child.pending.length = rest.length := by
      rw [herase, List.length_erase_of_mem hid, hlength, Nat.add_sub_cancel]
    have horder : p.order ++ id :: p.pending.erase id = child.order ++ child.pending := by
      rw [JoinPrefix.order_extend hchild, herase, List.append_assoc, List.singleton_append]
    have hvisited := visited hchild n s
    rw [horder]
    generalize visit inputs [] reduction n p s id = result at hvisited ⊢
    cases hvisited with
    | pruned hb hlt =>
      rw [hs _ hb] at hlt
      exact absurd hlt (Double.not_lt_of_le hle)
    | better hcomplete hlt =>
      have hnone := List.isEmpty_iff.mp hcomplete
      have hcost := hscanned.cost_eq hdistinct hcomplete
      rw [hnone, List.length_nil] at hsize
      rw [← hsize, hnone, List.append_nil]
      refine ⟨_, rfl, rfl, child, rfl, hcost, ?_⟩
      cases hbest : s.best with
      | none => exact .inr ⟨rfl, rfl⟩
      | some b =>
        have hcheaper := hlt b hbest
        rw [hs b hbest] at hcheaper
        rw [hcost] at hcheaper hle
        exact absurd hcheaper (Double.not_lt_of_le hle)
    | worse hcomplete hb hnlt =>
      have hnone := List.isEmpty_iff.mp hcomplete
      rw [hnone, List.length_nil] at hsize
      rw [← hsize]
      exact ⟨_, rfl, rfl, _, hb, hs _ hb, .inl hb⟩
    | further hne =>
      have hshorter : child.pending.length ≤ n := by omega
      let stats := { s.stats with expanded := s.stats.expanded + 1 }
      obtain ⟨t, ht, hstats, hbest⟩ := ih (s := ⟨s.best, stats⟩) hscanned hshorter hne hs
      refine ⟨t, ht, ?_, hbest⟩
      rw [hstats, hsize, ← SearchCounts.add_assoc]
      rfl

end JoinSearch

namespace JoinPrefix

variable {inputs : List JoinInput}

/-- Without access paths all orders cost the product of the rows, so the order of the input is the
result. Every order is reached and nothing is given up. -/
theorem search_unindexed (reduction : Float) (hinputs : inputs ≠ [])
    (hdistinct : (inputs.map (·.scan.id)).Nodup)
    (hproduct : (inputs.map fun i => max i.rowCount 1).prod ≤ 2 ^ 53) :
    ∃ best stats, search inputs [] reduction = .ok (best, stats) ∧
      best.order = inputs.map (·.scan.id) ∧
      best.cost = ⟨Float.ofNat (inputs.map fun i => max i.rowCount 1).prod, 0⟩ ∧
      stats.complete = inputs.length ! ∧ stats.pruned = 0 ∧
      stats.expanded = ∑ k ∈ Finset.Icc 1 inputs.length,
        inputs.length ! / (inputs.length - k)! := by
  have hlength := length_pending_root inputs
  obtain ⟨s, hs, hstats, b, hb, hcost, hbest⟩ :=
    JoinSearch.explore_covers reduction hdistinct hproduct (scanned_root inputs)
      (Nat.le_of_eq hlength) (pending_root_ne_nil hinputs) (s := ⟨none, .zero⟩)
      fun _ h => by cases h
  rw [hlength, SearchCounts.zero_add] at hstats
  obtain h | ⟨-, horder⟩ := hbest
  · cases h
  refine ⟨b, s.stats, search_of_explore hinputs hs hb, horder, hcost, ?_⟩
  rw [hstats]
  exact ⟨rfl, rfl, rfl⟩

/-- Three tables are joined in six orders, with nine proper beginnings. -/
theorem search_unindexed_parcels :
    ∃ best stats, search sampleInputs [] 10 = .ok (best, stats) ∧ best.order = [0, 1, 2] ∧
      stats.complete = 6 ∧ stats.pruned = 0 ∧ stats.expanded = 15 := by
  have hinputs : sampleInputs ≠ [] := List.cons_ne_nil _ _
  obtain ⟨best, stats, hsearch, horder, -, hcomplete, hpruned, hexpanded⟩ :=
    search_unindexed 10 hinputs (by decide) (by decide)
  exact ⟨best, stats, hsearch, horder, hcomplete, hpruned, hexpanded.trans (by decide)⟩

end JoinPrefix

end SpatialStore
