import SpatialStore.Proofs.Join.Conservation
import SpatialStore.Proofs.Join.Faults
import SpatialStore.Proofs.Join.Optimizer
import SpatialStore.Proofs.Join.Repeated

/-!
# Optimizing an optimized plan

Optimizing a plan that was optimized before changes nothing (`Plan.optimize_idempotent`).

A selection that was turned into a join is no product, so it makes no selection above it a join.
Below it are products grouped to the left. If one of them looks something up, the selection stays as
it is. Otherwise it is joined again: its scans are now listed in the order that was found, all
predicates are still there, and they offer the same access paths, since names designate the same
columns however the columns are arranged. The search then finds the same order again.
-/

namespace SpatialStore

/-! ### Predicates and candidates -/

namespace Expr

theorem conjunctsOfAll_append (es es' : List Predicate) :
    conjunctsOfAll (es ++ es') = conjunctsOfAll es ++ conjunctsOfAll es' := by
  induction es with
  | nil => rfl
  | cons e es ih => rw [List.cons_append, conjunctsOfAll, conjunctsOfAll, ih, List.append_assoc]

mutual

/-- Conjuncts are no conjunctions themselves. -/
theorem conjunctsOfAll_conjuncts : ∀ e : Predicate, conjunctsOfAll e.conjuncts = e.conjuncts
  | .conj items => by rw [conjuncts, conjunctsOfAll_idem items]
  | .column _ | .literal _ | .compare _ _ _ | .spatial _ _ _ | .disj _ | .negate _ | .call _ _ =>
    List.append_nil _

theorem conjunctsOfAll_idem :
    ∀ es : List Predicate, conjunctsOfAll (conjunctsOfAll es) = conjunctsOfAll es
  | [] => rfl
  | e :: es => by
    rw [conjunctsOfAll, conjunctsOfAll_append, conjunctsOfAll_conjuncts e, conjunctsOfAll_idem es]

end

end Expr

namespace AccessPath

variable {indexes : IndexRegistry} {settings : JoinSettings} {l l' : Layout}

theorem ofSide?_congr {target lookup : Predicate}
    (htarget : ∀ f ∈ target.columns, l.columnOf f = l'.columnOf f)
    (hlookup : ∀ f ∈ lookup.columns, l.columnOf f = l'.columnOf f) (id : Nat)
    (predicate : Predicate) (kind : IndexKind) :
    ofSide? indexes settings l id predicate kind target lookup =
      ofSide? indexes settings l' id predicate kind target lookup := by
  cases target with
  | column f =>
    have hreferred : (lookup.columns.mapM fun g => (l.columnOf g).map (·.scanId)) =
        lookup.columns.mapM fun g => (l'.columnOf g).map (·.scanId) :=
      Result.mapM_congr fun g hg => by rw [hlookup g hg]
    rw [ofSide?, ofSide?, htarget f (List.mem_singleton_self f), hreferred]
  | _ => rfl

/-- The paths that predicates offer depend on the columns that their names designate, and not on
where these are. -/
theorem candidates_congr {ps : List Predicate} (indexes : Option IndexRegistry)
    (h : ∀ f ∈ Expr.columnsOfAll ps, l.columnOf f = l'.columnOf f) :
    candidates indexes settings l ps = candidates indexes settings l' ps := by
  cases indexes with
  | none => rfl
  | some indexes =>
    have hoffers : ps.zipIdx.mapM (ofPredicate indexes settings l) =
        ps.zipIdx.mapM (ofPredicate indexes settings l') := by
      refine Result.mapM_congr fun p hp => ?_
      have hmem := List.mem_of_getElem? (List.mem_zipIdx_iff_getElem?.mp hp)
      have hcolumns : ∀ f ∈ p.1.columns, l.columnOf f = l'.columnOf f :=
        fun f hf => h f (Expr.mem_columnsOfAll.mpr ⟨p.1, hmem, hf⟩)
      rw [ofPredicate, ofPredicate]
      cases hsides : sides? p.1 with
      | none => rfl
      | some sides =>
        obtain ⟨kind, a, b⟩ := sides
        rw [columns_of_sides? hsides, List.forall_mem_append] at hcolumns
        obtain ⟨ha, hb⟩ := hcolumns
        dsimp only
        rw [ofSide?_congr ha hb, ofSide?_congr hb ha]
    rw [candidates, candidates, hoffers]

end AccessPath

/-! ### Products of scans -/

/-- Optimizing leaves products alone that are grouped to the left. -/
theorem Plan.LeftDeep.optimize_eq {tree : Plan} (h : tree.LeftDeep) (o : Optimizer) :
    tree.optimize o = .ok ⟨tree, [], .zero⟩ := by
  induction h with
  | scan s => rfl
  | product s _ ih =>
    rw [Plan.optimize, Result.bind_of_eq_ok ih]
    rfl
  | lookup right paths _ ih =>
    rw [Plan.optimize, Result.bind_of_eq_ok ih]
    rfl

namespace JoinPrefix

variable {scans os : List Scan} {ps : List Predicate} {p q : JoinPrefix}

/-- The tree of an order is grouped to the left, with a scan for every table. -/
structure Grown (scans : List Scan) (steps : List JoinStep)
    (state state' : Plan × List (Option Predicate)) : Prop where
  leftDeep : state.1.LeftDeep → state'.1.LeftDeep
  ids : state'.1.scans.map (·.id) = state.1.scans.map (·.id) ++ steps.map (·.scanId)
  subset : state.1.scans ⊆ scans → state'.1.scans ⊆ scans
  /-- It is a product of scans only if no table takes over predicates. -/
  product : ∀ leaves, state'.1.productLeaves? = some leaves →
    (∀ step ∈ steps, step.paths = []) ∧ state'.2 = state.2 ∧
      ∃ before, state.1.productLeaves? = some before

theorem grown_joinStep {step : JoinStep} {state state' : Plan × List (Option Predicate)}
    (h : joinStep scans state step = .ok state') : Grown scans [step] state state' := by
  obtain ⟨right, hright, h⟩ := Result.bind_eq_ok.mp h
  obtain ⟨hmem, hid⟩ := scanOf_eq_ok hright
  have hsubset : state.1.scans ⊆ scans → state.1.scans ++ [right] ⊆ scans := fun hstate =>
    List.append_subset.mpr ⟨hstate, List.cons_subset.mpr ⟨hmem, List.nil_subset _⟩⟩
  have hids : (state.1.scans ++ [right]).map (·.id) =
      state.1.scans.map (·.id) ++ [step].map (·.scanId) := by
    rw [List.map_append, List.map_singleton, List.map_singleton, hid]
  split_ifs at h with hpaths
  · obtain rfl := Except.ok.inj h
    refine ⟨.product right, hids, hsubset, fun leaves hleaves => ?_⟩
    refine ⟨List.forall_mem_singleton.mpr (List.isEmpty_iff.mp hpaths), rfl, ?_⟩
    change Plan.productLeaves? (.product state.1 (.scan right)) = _ at hleaves
    rw [Plan.productLeaves?] at hleaves
    cases hbefore : state.1.productLeaves? with
    | none =>
      rw [hbefore] at hleaves
      cases hleaves
    | some before => exact ⟨before, rfl⟩
  · obtain ⟨rest, -, h⟩ := Result.bind_eq_ok.mp h
    obtain rfl := Except.ok.inj h
    exact ⟨.lookup right step.paths, hids, hsubset, fun _ hleaves => by cases hleaves⟩

theorem grown_run {steps : List JoinStep} {state state' : Plan × List (Option Predicate)}
    (h : steps.foldlM (joinStep scans) state = .ok state') : Grown scans steps state state' := by
  induction steps generalizing state with
  | nil =>
    cases h
    exact ⟨id, (List.append_nil _).symm, id, fun leaves hleaves =>
      ⟨fun _ hstep => absurd hstep List.not_mem_nil, rfl, leaves, hleaves⟩⟩
  | cons step steps ih =>
    obtain ⟨next, hnext, h⟩ := Result.bind_eq_ok.mp h
    have hone := grown_joinStep hnext
    have hmore := ih h
    refine ⟨hmore.leftDeep ∘ hone.leftDeep, ?_, hmore.subset ∘ hone.subset,
      fun leaves hleaves => ?_⟩
    · rw [hmore.ids, hone.ids, List.append_assoc]
      rfl
    · obtain ⟨hpaths, hrest, before, hbefore⟩ := hmore.product leaves hleaves
      obtain ⟨hpath, hrest', hstart⟩ := hone.product before hbefore
      exact ⟨List.forall_mem_cons.mpr ⟨hpath step List.mem_cons_self, hpaths⟩,
        hrest.trans hrest', hstart⟩

theorem paths_of_toPlan {plan : Plan} {first : JoinStep} {steps : List JoinStep}
    (h : p.toPlan scans ps = .ok plan) (hsteps : p.steps = first :: steps) : first.paths = [] := by
  rw [toPlan, hsteps] at h
  dsimp only at h
  split_ifs at h with _ _ hpaths
  rw [Bool.not_eq_true', Bool.not_eq_false] at hpaths
  exact List.isEmpty_iff.mp hpaths

/-- The plan of an order: if its tree is a product of scans, these are the scans in the order of the
tables, and no table takes over predicates. -/
theorem tree_of_toPlan {plan : Plan} (horder : p.order.Perm (scans.map (·.id)))
    (hdistinct : (scans.map (·.id)).Nodup) (h : p.toPlan scans ps = .ok plan) :
    ∃ rest tree, plan = .select rest tree ∧ tree.LeftDeep ∧
      ∀ os, tree.productLeaves? = some os → rest = ps ∧ (∀ step ∈ p.steps, step.paths = []) ∧
        os.map (·.id) = p.order ∧ os.Perm scans := by
  obtain ⟨-, hlength, first, steps, leading, state, hsteps, hleading, hid, hstate, rfl⟩ :=
    toPlan_eq_ok h
  have hgrown := grown_run hstate
  refine ⟨_, state.1, rfl, hgrown.leftDeep (.scan leading), fun os hos => ?_⟩
  obtain ⟨hpaths, hrest, -⟩ := hgrown.product os hos
  obtain rfl := Plan.scans_of_productLeaves? hos
  have hids : state.1.scans.map (·.id) = p.order := by
    rw [hgrown.ids, order, hsteps, List.map_cons, ← hid]
    rfl
  refine ⟨?_, ?_, hids, ?_⟩
  · rw [hrest, List.filterMap_map]
    exact List.filterMap_some
  · rw [hsteps]
    exact List.forall_mem_cons.mpr ⟨paths_of_toPlan h hsteps, hpaths⟩
  · have hsubset := hgrown.subset (List.cons_subset.mpr ⟨hleading, List.nil_subset _⟩)
    have hnodup : (state.1.scans.map (·.id)).Nodup := hids ▸ horder.nodup_iff.mpr hdistinct
    refine ((List.Nodup.of_map _ hnodup).subperm hsubset).perm_of_length_le (Nat.le_of_eq ?_)
    rw [← hlength, ← List.length_map (f := fun s : Scan => s.id), hids, order, List.length_map]

/-- Scans are found by their ids, in whatever order they are listed. -/
theorem scanOf_perm (hdistinct : (scans.map (·.id)).Nodup) (hperm : os.Perm scans) (id : ScanId) :
    scanOf os id = scanOf scans id := by
  cases hfound : scanOf scans id with
  | ok s =>
    obtain ⟨hs, rfl⟩ := scanOf_eq_ok hfound
    exact scanOf_of_mem ((hperm.map _).nodup_iff.mpr hdistinct) (hperm.mem_iff.mpr hs)
  | error e =>
    cases hother : scanOf os id with
    | ok s =>
      obtain ⟨hs, rfl⟩ := scanOf_eq_ok hother
      rw [scanOf_of_mem hdistinct (hperm.mem_iff.mp hs)] at hfound
      cases hfound
    | error e' =>
      rw [scanOf] at hfound hother
      split at hfound
      · cases hfound
      · split at hother
        · cases hother
        · rw [← hfound, ← hother]

/-- The plan of an order depends on its steps, and not on the order in which the scans are
listed. -/
theorem toPlan_congr (hdistinct : (scans.map (·.id)).Nodup) (hperm : os.Perm scans)
    (hsteps : q.steps = p.steps) (hpending : q.pending = p.pending) :
    q.toPlan os ps = p.toPlan scans ps := by
  have hscan := scanOf_perm hdistinct hperm
  have hjoin : joinStep os = joinStep scans := by
    funext state step
    rw [joinStep, joinStep, hscan]
  rw [toPlan, toPlan, complete, complete, hsteps, hpending, hperm.length_eq, hjoin]
  simp only [hscan]

end JoinPrefix

/-! ### Joins -/

/-- Names designate the same columns when the columns come in another order. -/
theorem Layout.columnOf_perm {l l' : Layout} (hperm : l'.Perm l) {f : FieldName} {c : Column}
    (h : l.columnOf f = .ok c) : l'.columnOf f = .ok c := by
  obtain ⟨σ, hσ, rfl⟩ := exists_project_of_perm hperm
  exact columnOf_project hσ h

namespace Optimizer

variable {o : Optimizer} {ps : List Predicate} {scans os : List Scan} {out : Optimized}

theorem joinScans_eq_ok : o.joinScans ps scans = .ok out ↔
    duplicateId? [] scans = none ∧ ∃ positions inputs candidates best stats plan,
      (Layout.ofScans scans).resolveAll (Expr.columnsOfAll (Expr.conjunctsOfAll ps)) =
        .ok positions ∧
      scans.mapM o.inputOf = .ok inputs ∧
      AccessPath.candidates o.indexes o.settings (Layout.ofScans scans) (Expr.conjunctsOfAll ps) =
        .ok candidates ∧
      JoinPrefix.search inputs candidates o.settings.reduction = .ok (best, stats) ∧
      best.toPlan scans (Expr.conjunctsOfAll ps) = .ok plan ∧
      out = ⟨plan, [best.cost], stats⟩ := by
  rw [joinScans]
  constructor
  · intro h
    cases hids : duplicateId? [] scans with
    | some id =>
      rw [hids] at h
      cases h
    | none =>
      rw [hids] at h
      obtain ⟨positions, hpositions, h⟩ := Result.bind_eq_ok.mp h
      obtain ⟨inputs, hinputs, h⟩ := Result.bind_eq_ok.mp h
      obtain ⟨candidates, hcandidates, h⟩ := Result.bind_eq_ok.mp h
      obtain ⟨⟨best, stats⟩, hsearch, h⟩ := Result.bind_eq_ok.mp h
      obtain ⟨plan, hplan, h⟩ := Result.bind_eq_ok.mp h
      exact ⟨rfl, positions, inputs, candidates, best, stats, plan, hpositions, hinputs,
        hcandidates, hsearch, hplan, (Except.ok.inj h).symm⟩
  · rintro ⟨hids, positions, inputs, candidates, best, stats, plan, hpositions, hinputs,
      hcandidates, hsearch, hplan, rfl⟩
    rw [hids]
    exact (Result.bind_of_eq_ok hpositions).trans ((Result.bind_of_eq_ok hinputs).trans
      ((Result.bind_of_eq_ok hcandidates).trans ((Result.bind_of_eq_ok hsearch).trans
        (Result.bind_of_eq_ok hplan))))

/-- Costs are made from row counts of 64 bits and from a reduction that is a positive number. -/
structure Finite (o : Optimizer) : Prop where
  rowCount : ∀ table n, o.rowCount table = .ok (some n) → n < 2 ^ 64
  reduction : Double.FinitePositive o.settings.reduction

theorem Finite.countable (h : o.Finite) {inputs : List JoinInput}
    (hinputs : scans.mapM o.inputOf = .ok inputs) :
    JoinPrefix.Countable inputs o.settings.reduction := by
  refine ⟨fun input hinput => ?_, h.reduction⟩
  obtain ⟨s, -, hs⟩ := Result.exists_of_mem_result hinputs hinput
  rw [inputOf] at hs
  split at hs
  · cases hs
  · cases hs
  · rename_i n hn
    cases hs
    exact h.rowCount s.table n hn

/-- The plan that a join results in: a join of its scans has the same plan. -/
theorem joinScans_again (hfinite : o.Finite) (h : o.joinScans ps scans = .ok out) :
    ∃ rest tree, out.plan = .select rest tree ∧ tree.LeftDeep ∧
      ∀ os, tree.productLeaves? = some os →
        ∃ again, o.joinScans rest os = .ok again ∧ again.plan = out.plan := by
  obtain ⟨hids, positions, inputs, candidates, best, stats, plan, hpositions, hinputs,
    hcandidates, hsearch, hplan, rfl⟩ := joinScans_eq_ok.mp h
  obtain ⟨hdistinct, -⟩ := nodup_of_duplicateId? hids
  have hcount := hfinite.countable hinputs
  have hinputIds := ids_of_inputs hinputs
  obtain ⟨hbest, hcomplete, -⟩ := JoinPrefix.least_of_search hcount hsearch
  have horder := hbest.sound.order_perm hcomplete
  rw [hinputIds] at horder
  obtain ⟨rest, tree, rfl, hleft, htree⟩ := JoinPrefix.tree_of_toPlan horder hdistinct hplan
  refine ⟨rest, tree, rfl, hleft, fun os hos => ?_⟩
  obtain ⟨rfl, hscans, hosOrder, hosPerm⟩ := htree os hos
  -- the second join has the same predicates, and its scans in the order that was found
  have hlayout : (Layout.ofScans os).Perm (Layout.ofScans scans) := hosPerm.flatMap_right _
  have hfound := Result.exists_mapM_iff.mp ⟨positions, hpositions⟩
  have hcolumns : ∀ f ∈ Expr.columnsOfAll (Expr.conjunctsOfAll ps),
      (Layout.ofScans scans).columnOf f = (Layout.ofScans os).columnOf f := by
    intro f hf
    obtain ⟨i, hi⟩ := hfound f hf
    obtain ⟨c, hc⟩ := Layout.exists_columnOf hi
    rw [hc, Layout.columnOf_perm hlayout hc]
  obtain ⟨positions', hpositions'⟩ : ∃ positions', (Layout.ofScans os).resolveAll
      (Expr.columnsOfAll (Expr.conjunctsOfAll ps)) = .ok positions' := by
    refine Result.exists_mapM_iff.mpr fun f hf => ?_
    obtain ⟨i, hi⟩ := hfound f hf
    obtain ⟨c, hc⟩ := Layout.exists_columnOf hi
    obtain ⟨j, hj, -⟩ := Layout.columnOf_eq_ok.mp (Layout.columnOf_perm hlayout hc)
    exact ⟨j, hj⟩
  obtain ⟨inputs', hforall, hperm⟩ :=
    List.perm_comp_forall₂ hosPerm (Result.mapM_eq_ok.mp hinputs)
  have hinputs' := Result.mapM_eq_ok.mpr hforall
  obtain ⟨again, stats', hagain, hsteps, hpending⟩ := JoinPrefix.search_repeats hcount
    (hinputIds ▸ hdistinct) hperm.symm hsearch hscans ((ids_of_inputs hinputs').trans hosOrder)
  refine ⟨⟨_, [again.cost], stats'⟩, ?_, rfl⟩
  refine joinScans_eq_ok.mpr ⟨duplicateId?_eq_none ((hosPerm.map _).nodup_iff.mpr hdistinct)
    fun _ _ => List.not_mem_nil, positions', inputs', candidates, again, stats',
    .select (Expr.conjunctsOfAll ps) tree, ?_⟩
  rw [Expr.conjunctsOfAll_idem, ← AccessPath.candidates_congr o.indexes hcolumns,
    JoinPrefix.toPlan_congr hdistinct hosPerm hsteps hpending]
  exact ⟨hpositions', hinputs', hcandidates, hagain, hplan, rfl⟩

end Optimizer

/-! ### Plans -/

namespace Plan

variable {o : Optimizer} {p : Plan} {out : Optimized}

/-- A join that is planned is not planned otherwise when its plan is optimized. -/
private theorem optimize_join {ps : List Predicate} {scans : List Scan} {joined : Optimized}
    (hfinite : o.Finite) (h : o.joinScans ps scans = .ok joined) :
    ∃ again, joined.plan.optimize o = .ok again ∧ again.plan = joined.plan := by
  obtain ⟨rest, tree, hplan, hleft, htree⟩ := Optimizer.joinScans_again hfinite h
  rw [hplan, optimize, Result.bind_of_eq_ok (hleft.optimize_eq o)]
  dsimp only
  cases hjoinable : tree.joinable? with
  | none => exact ⟨_, rfl, rfl⟩
  | some os =>
    obtain ⟨hleaves, -⟩ := Option.filter_eq_some_iff.mp hjoinable
    obtain ⟨again, hagain, hsame⟩ := htree os hleaves
    exact ⟨_, Result.bind_of_eq_ok hagain, hsame.trans hplan⟩

/-- Optimizing an optimized plan succeeds and yields the same plan, as long as the row counts and
the indexes are the same. -/
theorem optimize_idempotent (hfinite : o.settings.reduction.isFinite = true)
    (hreduction : 1 ≤ o.settings.reduction)
    (hrows : ∀ table n, o.rowCount table = .ok (some n) → n < 2 ^ 64)
    (h : p.optimize o = .ok out) :
    ∃ again, out.plan.optimize o = .ok again ∧ again.plan = out.plan := by
  have hnumbers : o.Finite :=
    ⟨hrows, Double.finitePositive_of_not_lt_one hfinite (Double.not_lt_of_le hreduction)⟩
  induction p generalizing out with
  | scan s =>
    cases h
    exact ⟨_, rfl, rfl⟩
  | select ps p ih =>
    obtain ⟨input, hinput, h⟩ := Result.bind_eq_ok.mp h
    obtain ⟨again, hagain, hsame⟩ := ih hinput
    cases hjoinable : input.plan.joinable? with
    | none =>
      rw [hjoinable] at h
      cases h
      refine ⟨{ again with plan := .select ps again.plan }, ?_, congrArg (Plan.select ps) hsame⟩
      rw [optimize, Result.bind_of_eq_ok hagain, hsame, hjoinable]
      rfl
    | some scans =>
      rw [hjoinable] at h
      obtain ⟨joined, hjoined, h⟩ := Result.bind_eq_ok.mp h
      cases h
      obtain ⟨again, hagain, hsame⟩ := optimize_join hnumbers hjoined
      exact ⟨again, hagain, hsame⟩
  | project fields p ih =>
    obtain ⟨input, hinput, h⟩ := Result.bind_eq_ok.mp h
    cases h
    obtain ⟨again, hagain, hsame⟩ := ih hinput
    exact ⟨_, Result.bind_of_eq_ok hagain, congrArg (Plan.project fields) hsame⟩
  | product p q ihp ihq =>
    obtain ⟨left, hleft, h⟩ := Result.bind_eq_ok.mp h
    obtain ⟨right, hright, h⟩ := Result.bind_eq_ok.mp h
    cases h
    obtain ⟨again, hagain, hsame⟩ := ihp hleft
    obtain ⟨again', hagain', hsame'⟩ := ihq hright
    exact ⟨_, (Result.bind_of_eq_ok hagain).trans (Result.bind_of_eq_ok hagain'),
      congrArg₂ Plan.product hsame hsame'⟩
  | lookup p s paths ih =>
    obtain ⟨input, hinput, h⟩ := Result.bind_eq_ok.mp h
    cases h
    obtain ⟨again, hagain, hsame⟩ := ih hinput
    exact ⟨_, Result.bind_of_eq_ok hagain, congrArg (Plan.lookup · s paths) hsame⟩

/-- An optimizer without indexes, for tables of two rows. -/
def sampleOptimizer : Optimizer := ⟨{}, fun _ => .ok (some 2), none⟩

/-- Without indexes the towns and the sites are a product, which is joined again. -/
theorem optimize_idempotent_towns :
    ∃ out again, samplePlan.optimize sampleOptimizer = .ok out ∧
      out.plan.optimize sampleOptimizer = .ok again ∧ again.plan = out.plan := by
  have hrows : ∀ table n, sampleOptimizer.rowCount table = .ok (some n) → n < 2 ^ 64 := by
    rintro _ _ ⟨⟩
    decide
  have hfinite : sampleOptimizer.settings.reduction.isFinite = true := by decide +kernel
  have hok : (samplePlan.optimize sampleOptimizer).toBool = true := by decide +kernel
  cases hout : samplePlan.optimize sampleOptimizer with
  | error e =>
    rw [hout] at hok
    cases hok
  | ok out =>
    obtain ⟨again, hagain, hsame⟩ := optimize_idempotent hfinite (by decide +kernel) hrows hout
    exact ⟨out, again, rfl, hagain, hsame⟩

end Plan

end SpatialStore
