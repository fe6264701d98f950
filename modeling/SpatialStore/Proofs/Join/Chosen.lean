import SpatialStore.Proofs.Join.Order

/-!
# The access paths of a join order

A path is *eligible* when its lookup refers to tables only that are joined before. For every
predicate with an eligible path the step of a table takes exactly one: the first whose index stands,
or else the first whose index is built for the query (`AccessPath.preferred?`). The steps of an
order are *chosen* when each takes the rows of its table and these paths (`JoinStep.Chosen`).

What the search yields is a chosen order of all tables, and its cost is that of joining them one
after the other (`JoinPrefix.search_chosen`). Costs decide which order it is, and nothing else, so
this holds for any reduction, zero and NaN among them.
-/

namespace SpatialStore

namespace AccessPath

/-- Whether a path leads to a table, takes over a predicate, and looks up tables joined before. -/
def eligible (before : List ScanId) (id : ScanId) (predicateId : Nat) (c : AccessPath) : Bool :=
  c.scanId == id && c.predicateId == predicateId && c.lookupScans.all (· ∈ before)

/-- The path to a table that takes over a predicate: standing indexes take precedence over those
that are built, and earlier candidates over later ones. -/
def preferred? (candidates : List AccessPath) (before : List ScanId) (id : ScanId)
    (predicateId : Nat) : Option AccessPath :=
  (candidates.find? fun c => c.eligible before id predicateId && !c.adHoc).or
    (candidates.find? fun c => c.eligible before id predicateId && c.adHoc)

/-- Of paths for different predicates, at most one is for a given predicate. -/
theorem filter_predicateId {paths : List AccessPath} (h : (paths.map (·.predicateId)).Nodup)
    (k : Nat) : paths.filter (·.predicateId == k) =
      (paths.find? (·.predicateId == k)).toList := by
  induction paths with
  | nil => rfl
  | cons path paths ih =>
    obtain ⟨hnew, hpaths⟩ := List.nodup_cons.mp h
    rw [List.filter_cons, List.find?_cons]
    split_ifs with hk
    · rw [hk, Option.toList_some]
      congr 1
      refine List.filter_eq_nil_iff.mpr fun other hother hsame => hnew ?_
      have heq : path.predicateId = other.predicateId := by
        rw [beq_iff_eq.mp hk, beq_iff_eq.mp hsame]
      exact List.mem_map.mpr ⟨other, hother, heq.symm⟩
    · rw [Bool.eq_false_iff.mpr hk]
      exact ih hpaths

end AccessPath

/-- The step of a table after others: its rows, and the preferred path for every predicate. -/
structure JoinStep.Chosen (inputs : List JoinInput) (candidates : List AccessPath)
    (before : List ScanId) (step : JoinStep) : Prop extends step.Sound candidates before where
  rowCount : ∀ input ∈ inputs, input.scan.id = step.scanId → step.rowCount = input.rowCount
  preferred : ∀ k, step.paths.filter (·.predicateId == k) =
    (AccessPath.preferred? candidates before step.scanId k).toList

/-- The first step of an order has no paths, as every lookup refers to some table. -/
theorem JoinStep.Chosen.paths_eq_nil {inputs : List JoinInput} {candidates : List AccessPath}
    {step : JoinStep} (h : step.Chosen inputs candidates [])
    (hlookup : ∀ c ∈ candidates, c.lookupScans ≠ []) : step.paths = [] := by
  refine List.eq_nil_iff_forall_not_mem.mpr fun path hpath => ?_
  obtain ⟨id, hid⟩ := List.exists_mem_of_ne_nil _ (hlookup path (h.candidate path hpath))
  exact absurd (h.lookup path hpath id hid) List.not_mem_nil

namespace JoinPrefix

variable {inputs : List JoinInput} {candidates : List AccessPath} {reduction : Float}
  {p q : JoinPrefix} {id : ScanId}

theorem joins_eq (p : JoinPrefix) (id : ScanId) : p.joins id = decide (id ∈ p.order) := by
  rw [Bool.eq_iff_iff, joins, List.any_eq_true, decide_eq_true_iff, order, List.mem_map]
  simp only [beq_iff_eq]

/-! ### Adding paths -/

/-- The path for a predicate is one that is there already, or else the first one that is offered
and looks up joined tables. -/
theorem find?_addPaths (p : JoinPrefix) (chosen offered : List AccessPath) (k : Nat) :
    (p.addPaths chosen offered).find? (·.predicateId == k) =
      (chosen.find? (·.predicateId == k)).or
        (offered.find? fun c => c.predicateId == k && c.lookupScans.all p.joins) := by
  induction offered generalizing chosen with
  | nil => rw [addPaths, List.foldl_nil, List.find?_nil, Option.or_none]
  | cons c offered ih =>
    rw [addPaths, List.foldl_cons, ← addPaths, ih, List.find?_cons]
    split_ifs with hskip
    · -- left out, for a path that is there or for a lookup of tables that are not joined
      cases htest : c.predicateId == k && c.lookupScans.all p.joins with
      | false => rfl
      | true =>
        rw [Bool.and_eq_true, beq_iff_eq] at htest
        obtain ⟨rfl, hjoined⟩ := htest
        rw [hjoined, Bool.not_true, Bool.or_false, List.any_eq_true, ← List.find?_isSome] at hskip
        obtain ⟨there, hthere⟩ := Option.isSome_iff_exists.mp hskip
        rw [hthere, Option.some_or, Option.some_or]
    · rw [Bool.or_eq_true, not_or, Bool.not_eq_true', Bool.not_eq_false] at hskip
      rw [List.find?_append, Option.or_assoc, List.find?_singleton, hskip.2, Bool.and_true]
      cases c.predicateId == k <;> rfl

/-- Of the paths to a table, the one for a predicate is the preferred one. -/
theorem find?_pathsTo (p : JoinPrefix) (candidates : List AccessPath) (id : ScanId) (k : Nat) :
    (p.pathsTo candidates id).find? (·.predicateId == k) =
      AccessPath.preferred? candidates p.order id k := by
  have hjoins : p.joins = fun id => decide (id ∈ p.order) := funext p.joins_eq
  rw [pathsTo, find?_addPaths, find?_addPaths, List.find?_nil, Option.none_or, List.find?_filter,
    List.find?_filter, List.find?_filter, List.find?_filter, AccessPath.preferred?, hjoins]
  congr 2 <;>
  · funext c
    simp only [AccessPath.eligible, Bool.decide_and, Bool.decide_eq_true]
    ac_rfl

/-! ### Extending -/

/-- All steps are chosen, each after those before it. -/
def Chosen (inputs : List JoinInput) (candidates : List AccessPath) (p : JoinPrefix) : Prop :=
  ∀ before step after, p.steps = before ++ step :: after →
    step.Chosen inputs candidates (before.map (·.scanId))

theorem chosen_root : (root inputs).Chosen inputs candidates := by
  intro before step after h
  cases List.append_eq_nil_iff.mp h.symm |>.2

/-- The table that is joined takes its rows and the preferred paths. -/
theorem Chosen.extend (hdistinct : (inputs.map (·.scan.id)).Nodup)
    (hp : p.Chosen inputs candidates) (h : p.extend inputs candidates reduction id = .ok q) :
    q.Chosen inputs candidates := by
  obtain ⟨-, input, hinput, hid, rfl⟩ := extend_eq_ok h
  intro before step after hsteps
  rcases List.eq_nil_or_concat after with rfl | ⟨after, last, rfl⟩
  · obtain ⟨rfl, hstep⟩ := List.append_inj' hsteps rfl
    cases hstep
    have hsound := sound_pathsTo p candidates id input.rowCount
    refine ⟨hsound, fun other hother hsame => ?_, fun k => ?_⟩
    · rw [List.inj_on_of_nodup_map hdistinct hother hinput (hsame.trans hid.symm)]
    · rw [AccessPath.filter_predicateId hsound.distinct, find?_pathsTo]
      rfl
  · rw [List.concat_eq_append, ← List.cons_append, ← List.append_assoc] at hsteps
    exact hp before step after (List.append_inj_left' hsteps rfl)

/-- A prefix costs what joining its tables one after the other does. -/
def Costed (reduction : Float) (p : JoinPrefix) : Prop :=
  p.cost = p.steps.foldl (fun cost step => cost.join reduction step.rowCount step.paths) .initial

theorem Costed.extend (hp : p.Costed reduction)
    (h : p.extend inputs candidates reduction id = .ok q) : q.Costed reduction := by
  obtain ⟨-, input, -, -, rfl⟩ := extend_eq_ok h
  rw [Costed, List.foldl_append, ← hp]
  rfl

/-! ### Searching -/

/-- The search yields an order of all tables. Every table is joined with its rows, through exactly
the preferred access paths to it from tables joined before; the first one is read by a scan. The
cost of the order is that of its steps. -/
theorem search_chosen (reduction : Float) (hinputs : inputs ≠ [])
    (hdistinct : (inputs.map (·.scan.id)).Nodup)
    (hlookup : ∀ c ∈ candidates, c.lookupScans ≠ []) :
    ∃ best stats, search inputs candidates reduction = .ok (best, stats) ∧
      best.complete = true ∧ best.order.Perm (inputs.map (·.scan.id)) ∧
      (∀ before step after, best.steps = before ++ step :: after →
        step.Chosen inputs candidates (before.map (·.scanId))) ∧
      (∀ first steps, best.steps = first :: steps → first.paths = []) ∧
      best.cost = best.steps.foldl
        (fun cost step => cost.join reduction step.rowCount step.paths) .initial := by
  obtain ⟨best, stats, hsearch, hsound, hcomplete⟩ := search_spec candidates reduction hinputs
  have hchosen : best.Chosen inputs candidates :=
    search_keeps (fun hp h => hp.extend hdistinct h) chosen_root hsearch
  have hcost : best.Costed reduction := search_keeps (fun hp h => hp.extend h) rfl hsearch
  refine ⟨best, stats, hsearch, hcomplete, hsound.order_perm hcomplete, hchosen,
    fun first steps hsteps => ?_, hcost⟩
  exact (hchosen [] first steps hsteps).paths_eq_nil hlookup

def zonedInputs : List JoinInput :=
  [⟨⟨0, "zone", none, ⟨[⟨"area", .geometry, []⟩]⟩⟩, 10⟩,
    ⟨⟨1, "parcel", none, ⟨[⟨"shape", .geometry, []⟩]⟩⟩, 1000⟩]

/-- The parcels in a zone are found by an index built for the query or by a standing one. -/
def zonedCandidates : List AccessPath :=
  let shape : Predicate := .column ⟨some "parcel", "shape"⟩
  let area : Predicate := .column ⟨some "zone", "area"⟩
  [⟨0, .spatial .intersects shape area, 1, "shape", .spatial, true, area, [0]⟩,
    ⟨0, .spatial .intersects shape area, 1, "shape", .spatial, false, area, [0]⟩]

/-- The standing index is taken, whichever way the costs compare. -/
theorem search_chosen_zoned :
    (AccessPath.preferred? zonedCandidates [0] 1 0).map (·.adHoc) = some false ∧
    ∃ best stats, search zonedInputs zonedCandidates 0 = .ok (best, stats) ∧
      best.complete = true ∧
      ∀ before step after, best.steps = before ++ step :: after →
        step.Chosen zonedInputs zonedCandidates (before.map (·.scanId)) := by
  have hlookup : ∀ c ∈ zonedCandidates, c.lookupScans ≠ [] := by
    simp [zonedCandidates]
  have hne : zonedInputs ≠ [] := List.cons_ne_nil _ _
  obtain ⟨best, stats, hsearch, hcomplete, -, hchosen, -⟩ :=
    search_chosen 0 hne (by decide) hlookup
  exact ⟨rfl, best, stats, hsearch, hcomplete, hchosen⟩

end JoinPrefix

end SpatialStore
