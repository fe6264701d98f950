import SpatialStore.Join.Optimizer
import SpatialStore.Proofs.Join.Tree
import SpatialStore.Proofs.Query.ProductTree

/-!
# Optimized plans

Optimizing a plan that can be executed succeeds, and the optimized plan yields the same rows, with
the columns rearranged (`Plan.optimize_sound`). A selection over a product of scans is replaced by
the plan of a join order (`Optimizer.joinScans_spec`); all other operators respect rearrangements.

The database has to be in order: scans carry present schemas, rows conform to them, standing indexes
are up to date. Of geometries it is assumed that they only meet where their envelopes do
(`Plan.Meets`).
-/

namespace SpatialStore

open Layout (ofScans)

/-! ### Selections of a plan -/

namespace Plan

/-- Something holds of every selection in a plan. -/
def AtSelections (P : List Predicate → Plan → Prop) : Plan → Prop
  | .scan _ => True
  | .select ps p => P ps p ∧ p.AtSelections P
  | .project _ p | .lookup p _ _ => p.AtSelections P
  | .product p q => p.AtSelections P ∧ q.AtSelections P

/-- The scans below every selection that can be optimized have different ids. -/
def DistinctScans (p : Plan) : Prop :=
  p.AtSelections fun _ p => ∀ scans, p.joinable? = some scans → (scans.map (·.id)).Nodup

/-- Where a spatial predicate of a selection that can be optimized is true, it is so of geometries
that have envelopes, and the envelopes meet. -/
def Meets (db : Database) (p : Plan) : Prop :=
  p.AtSelections fun ps p => ∀ scans, p.joinable? = some scans →
    ∀ r, p.execute db = .ok r → ∀ row ∈ r.rows, ∀ e ∈ Expr.conjunctsOfAll ps,
      e.Meets (r.layout.read row)

end Plan

/-! ### Joins -/

namespace Optimizer

theorem duplicateId?_eq_none {seen : List ScanId} {scans : List Scan}
    (hdistinct : (scans.map (·.id)).Nodup) (hseen : ∀ s ∈ scans, s.id ∉ seen) :
    duplicateId? seen scans = none := by
  induction scans generalizing seen with
  | nil => rfl
  | cons s scans ih =>
    obtain ⟨hs, hdistinct⟩ := List.nodup_cons.mp hdistinct
    obtain ⟨hnew, hseen⟩ := List.forall_mem_cons.mp hseen
    rw [duplicateId?, if_neg hnew]
    refine ih hdistinct fun t ht hmem => ?_
    rcases List.mem_cons.mp hmem with heq | hmem
    · exact hs (List.mem_map.mpr ⟨t, ht, heq⟩)
    · exact hseen t ht hmem

variable {db : Database} {s : Scan} {scans : List Scan} {ps : List Predicate}

theorem exists_inputOf {rows : List Row} (hrows : db.readScan s = .ok rows) :
    ∃ n, (ofDatabase db).inputOf s = .ok ⟨s, n⟩ := by
  obtain ⟨source, hsource, havailable, rfl⟩ := Database.readScan_eq_ok.mp hrows
  refine ⟨source.rows.length, ?_⟩
  rw [inputOf]
  simp [ofDatabase, Database.rowCount, hsource, Source.rowCount, Source.whenAvailable, havailable,
    Except.map]

/-- Scans that can be read are inputs of a join. -/
theorem exists_inputs (hread : ∀ s ∈ scans, ∃ rows, db.readScan s = .ok rows) :
    ∃ inputs, scans.mapM (ofDatabase db).inputOf = .ok inputs ∧
      inputs.map (·.scan) = scans := by
  induction scans with
  | nil => exact ⟨[], rfl, rfl⟩
  | cons s scans ih =>
    obtain ⟨⟨rows, hrows⟩, hread⟩ := List.forall_mem_cons.mp hread
    obtain ⟨n, hn⟩ := exists_inputOf hrows
    obtain ⟨inputs, hinputs, hscans⟩ := ih hread
    refine ⟨⟨s, n⟩ :: inputs, ?_, congrArg (s :: ·) hscans⟩
    rw [List.mapM_cons, Result.bind_of_eq_ok hn, Result.bind_of_eq_ok hinputs]
    rfl

/-- A rearrangement of ids is the ids of a rearrangement. -/
theorem exists_perm_of_ids {ids : List ScanId} (h : ids.Perm (scans.map (·.id))) :
    ∃ os : List Scan, os.Perm scans ∧ ids = os.map (·.id) := by
  have hids : List.Forall₂ (fun (i : ScanId) (s : Scan) => i = s.id) (scans.map (·.id)) scans :=
    List.forall₂_map_left_iff.mpr (List.forall₂_same.mpr fun _ _ => rfl)
  obtain ⟨os, hos, hperm⟩ := List.perm_comp_forall₂ h hids
  refine ⟨os, hperm, ?_⟩
  rwa [← List.forall₂_eq_eq_eq, List.forall₂_map_right_iff]

/-- What is known of a join does not depend on the order of its tables. -/
theorem join_of_perm {candidates : List AccessPath} {os : List Scan}
    (hjoin : Join db ps candidates scans) (hperm : os.Perm scans) :
    Join db ps candidates os := by
  obtain ⟨σ, hσ⟩ := Database.rearranges_scannedAll hperm hjoin.current
  have hlayout : ofScans os = (ofScans scans).project σ := by
    rw [← db.layout_scannedAll, hσ.layout, db.layout_scannedAll]
  have hcolumns := hσ.perm
  rw [db.layout_scannedAll] at hcolumns
  refine ⟨(hperm.map _).nodup_iff.mpr hjoin.distinct, ?_, ?_, hjoin.indexed, ?_, ?_, ?_⟩
  · exact fun s hs => hjoin.current s (hperm.mem_iff.mp hs)
  · exact fun s hs => hjoin.readable s (hperm.mem_iff.mp hs)
  · intro f hf
    obtain ⟨i, hi⟩ := hjoin.found f hf
    obtain ⟨j, hj, -⟩ := Layout.resolve_project hcolumns hi
    exact ⟨j, hlayout ▸ hj⟩
  · exact fun path hpath => hlayout ▸ (hjoin.offered path hpath).project hcolumns
  · intro row' hrow' e he
    obtain ⟨row, hrow, rfl⟩ := List.mem_map.mp (hσ.rows.mem_iff.mp hrow')
    refine (Expr.meets_congr fun f hf => ?_).mpr (hjoin.meets row hrow e he)
    obtain ⟨i, hi⟩ := hjoin.found f (Expr.mem_columnsOfAll.mpr ⟨e, he, hf⟩)
    rw [hlayout]
    exact Layout.read_project hcolumns (Database.length_of_mem_scannedAll hjoin.current hrow) hi

/-- The best join order yields the rows of the selection. -/
theorem joinScans_spec {bs : List RowExpr} (hne : scans ≠ [])
    (hdistinct : (scans.map (·.id)).Nodup) (hcurrent : ∀ s ∈ scans, db.Current s)
    (hread : ∀ s ∈ scans, ∃ rows, db.readScan s = .ok rows) (hindexed : db.Indexed)
    (hmeets : ∀ row ∈ (db.scannedAll scans).rows, ∀ e ∈ Expr.conjunctsOfAll ps,
      e.Meets ((ofScans scans).read row))
    (hbs : Plan.bindAll (ofScans scans) ps = .ok bs) :
    ∃ out s, (ofDatabase db).joinScans ps scans = .ok out ∧ out.plan.productLeaves? = none ∧
      out.plan.execute db = .ok s ∧
      s.Rearranges ⟨ofScans scans, (db.scannedAll scans).rows.filter (Plan.allTrue bs)⟩ := by
  -- every step of the optimizer succeeds
  have hfound := Plan.exists_bindAll_iff.mp ⟨bs, hbs⟩
  rw [← Expr.columnsOfAll_conjunctsOfAll] at hfound
  obtain ⟨positions, hpositions⟩ : ∃ positions, (ofScans scans).resolveAll
      (Expr.columnsOfAll (Expr.conjunctsOfAll ps)) = .ok positions :=
    Result.exists_mapM_iff.mpr hfound
  obtain ⟨inputs, hinputs, hscans⟩ := exists_inputs hread
  obtain ⟨candidates, hcandidates, hoffered⟩ :=
    AccessPath.candidates_spec db.indexes db.settings.join hfound
  obtain ⟨best, stats, hsearch, hsound, hcomplete⟩ :=
    JoinPrefix.search_spec candidates db.settings.join.reduction
      (fun h : inputs = [] => hne (hscans.symm.trans (congrArg _ h)))
  -- the best order is one of the scans
  have horder : best.order.Perm (scans.map (·.id)) := by
    have hids : inputs.map (·.scan.id) = scans.map (·.id) := by
      rw [← hscans, List.map_map]
      rfl
    exact hids ▸ hsound.order_perm hcomplete
  obtain ⟨os, hperm, hids⟩ := exists_perm_of_ids horder
  have hjoin : Join db (Expr.conjunctsOfAll ps) candidates os :=
    join_of_perm ⟨hdistinct, hcurrent, hread, hindexed, hfound, hoffered, hmeets⟩ hperm
  have hos : os ≠ [] := fun h => hne (List.nil_perm.mp (h ▸ hperm))
  obtain ⟨rest, input, rows, hplan, hexecute, hrows⟩ :=
    hjoin.toPlan_spec hperm hos hsound.steps hids hcomplete
  refine ⟨⟨.select rest input, [best.cost], stats⟩, ⟨ofScans os, rows⟩, ?_, rfl, hexecute, ?_⟩
  · rw [joinScans, duplicateId?_eq_none hdistinct fun _ _ => List.not_mem_nil]
    exact (Result.bind_of_eq_ok hpositions).trans ((Result.bind_of_eq_ok hinputs).trans
      ((Result.bind_of_eq_ok hcandidates).trans ((Result.bind_of_eq_ok hsearch).trans
        (Result.bind_of_eq_ok hplan))))
  · -- its rows are the selected ones of the product of the scans in the new order
    have hproduct := Database.rearranges_scannedAll hperm hcurrent
    obtain ⟨bs', hbs', hselect⟩ := hproduct.select (Database.regular_scannedAll hcurrent)
      (by rwa [db.layout_scannedAll])
    rw [db.layout_scannedAll] at hbs'
    rw [db.layout_scannedAll, db.layout_scannedAll] at hselect
    refine hselect.of_perm rfl (hrows.trans (.of_eq (List.filter_congr fun row _ => ?_)))
    rw [Bool.eq_iff_iff, decide_eq_true_iff, Plan.allTrue_iff hbs',
      Expr.holdsAll_conjunctsOfAll]

end Optimizer

/-! ### Plans -/

namespace Plan

variable {db : Database}

/-- The optimized plan of a plan that yields a result: it is a product of scans if the plan is, and
yields the same rows with rearranged columns. -/
private def Optimizes (db : Database) (p : Plan) (r : ResultSet) : Prop :=
  ∃ out s, p.optimize (.ofDatabase db) = .ok out ∧ out.plan.productLeaves? = p.productLeaves? ∧
    out.plan.execute db = .ok s ∧ s.Rearranges r

variable {p q : Plan} {ps : List Predicate} {r input left right : ResultSet}

/-- A selection that is no join is kept above the optimized input. -/
private theorem Optimizes.select (h : Optimizes db p input) (hinput : input.Regular)
    {bs : List RowExpr} (hbs : bindAll input.layout ps = .ok bs) (hno : p.joinable? = none) :
    Optimizes db (.select ps p) ⟨input.layout, input.rows.filter (allTrue bs)⟩ := by
  obtain ⟨out, s, hout, hleaves, hs, hrearranges⟩ := h
  obtain ⟨bs', hbs', hselect⟩ := hrearranges.select hinput hbs
  refine ⟨{ out with plan := .select ps out.plan }, _, ?_, rfl,
    execute_select_eq_ok.mpr ⟨s, bs', hs, hbs', rfl⟩, hselect⟩
  -- whether a selection is a join is decided on the optimized input, which is no other product
  rw [joinable?, ← hleaves] at hno
  rw [optimize, Result.bind_of_eq_ok hout, joinable?, hno]
  rfl

/-- A selection over a product of scans becomes a join. -/
private theorem Optimizes.join (h : Optimizes db p input) (hp : p.execute db = .ok input)
    (hscans : ∀ s ∈ p.scans, db.Current s) (hindexed : db.Indexed) {bs : List RowExpr}
    (hbs : bindAll input.layout ps = .ok bs) {scans : List Scan}
    (hjoinable : p.joinable? = some scans) (hdistinct : (scans.map (·.id)).Nodup)
    (hmeets : ∀ row ∈ input.rows, ∀ e ∈ Expr.conjunctsOfAll ps,
      e.Meets (input.layout.read row)) :
    Optimizes db (.select ps p) ⟨input.layout, input.rows.filter (allTrue bs)⟩ := by
  obtain ⟨out, -, hout, hleaves, -⟩ := h
  obtain ⟨hproduct, htwo⟩ := Option.filter_eq_some_iff.mp hjoinable
  obtain ⟨rfl, hread⟩ := execute_of_productLeaves? hproduct hp
  rw [scans_of_productLeaves? hproduct] at hscans
  have hne : scans ≠ [] := by
    rintro rfl
    exact absurd htwo (by decide)
  rw [db.layout_scannedAll] at hbs hmeets ⊢
  obtain ⟨joined, s, hjoined, hnone, hs, hrearranges⟩ :=
    Optimizer.joinScans_spec hne hdistinct hscans hread hindexed hmeets hbs
  refine ⟨⟨joined.plan, out.costs ++ joined.costs, out.stats.add joined.stats⟩, s, ?_, hnone, hs,
    hrearranges⟩
  rw [joinable?, ← hleaves] at hjoinable
  rw [optimize, Result.bind_of_eq_ok hout, joinable?, hjoinable]
  exact Result.bind_of_eq_ok hjoined

private theorem Optimizes.project (h : Optimizes db p input) (hinput : input.Regular)
    {fs : List FieldName} {positions : List Nat}
    (hpositions : input.layout.resolveAll fs = .ok positions) :
    Optimizes db (.project fs p)
      ⟨input.layout.project positions, input.rows.map (Row.project · positions)⟩ := by
  obtain ⟨out, s, hout, -, hs, hrearranges⟩ := h
  obtain ⟨positions', hpositions', hproject⟩ := hrearranges.project hinput hpositions
  exact ⟨{ out with plan := .project fs out.plan }, _, Result.bind_of_eq_ok hout, rfl,
    execute_project_eq_ok.mpr ⟨s, positions', hs, hpositions', rfl⟩, hproject⟩

private theorem Optimizes.product (hp : Optimizes db p left) (hq : Optimizes db q right)
    (hleft : left.Regular) : Optimizes db (.product p q) (left.product right) := by
  obtain ⟨out, s, hout, hleaves, hs, hrearranges⟩ := hp
  obtain ⟨out', s', hout', hleaves', hs', hrearranges'⟩ := hq
  refine ⟨⟨.product out.plan out'.plan, out.costs ++ out'.costs, out.stats.add out'.stats⟩, _,
    (Result.bind_of_eq_ok hout).trans (Result.bind_of_eq_ok hout'), ?_,
    execute_product_eq_ok.mpr ⟨s, s', hs, hs', rfl⟩, hrearranges.product hrearranges' hleft⟩
  rw [productLeaves?, productLeaves?, hleaves, hleaves']

private theorem Optimizes.lookup (h : Optimizes db p left) (hleft : left.Regular) {s : Scan}
    (hs : db.Current s) {first : AccessPath} {paths : List AccessPath}
    (hr : executeLookup db left s first paths = .ok r) :
    Optimizes db (.lookup p s (first :: paths)) r := by
  obtain ⟨out, left', hout, -, hleft', hrearranges⟩ := h
  obtain ⟨r', hr', hlookup⟩ := executeLookup_rearranged hrearranges hleft hs hr
  exact ⟨{ out with plan := .lookup out.plan s (first :: paths) }, r',
    Result.bind_of_eq_ok hout, rfl, (Result.bind_of_eq_ok hleft').trans hr', hlookup⟩

private theorem optimizes (hscans : ∀ s ∈ p.scans, db.Current s)
    (hindexed : db.Indexed) (hdistinct : p.DistinctScans) (hmeets : p.Meets db)
    (h : p.execute db = .ok r) : Optimizes db p r := by
  induction p generalizing r with
  | scan s =>
    exact ⟨⟨.scan s, [], .zero⟩, r, rfl, rfl, h, (regular_execute hscans h).rearranges_refl⟩
  | select ps p ih =>
    obtain ⟨input, bs, hinput, hbs, rfl⟩ := execute_select_eq_ok.mp h
    have hp := ih hscans hdistinct.2 hmeets.2 hinput
    cases hjoinable : p.joinable? with
    | none => exact hp.select (regular_execute (p := p) hscans hinput) hbs hjoinable
    | some scans =>
      exact hp.join hinput hscans hindexed hbs hjoinable (hdistinct.1 scans hjoinable)
        (hmeets.1 scans hjoinable input hinput)
  | project fs p ih =>
    obtain ⟨input, positions, hinput, hpositions, rfl⟩ := execute_project_eq_ok.mp h
    have hp := ih hscans hdistinct hmeets hinput
    exact hp.project (regular_execute (p := p) hscans hinput) hpositions
  | product p q ihp ihq =>
    obtain ⟨left, right, hleft, hright, rfl⟩ := execute_product_eq_ok.mp h
    obtain ⟨hpscans, hqscans⟩ := List.forall_mem_append.mp hscans
    have hp := ihp hpscans hdistinct.1 hmeets.1 hleft
    exact hp.product (ihq hqscans hdistinct.2 hmeets.2 hright) (regular_execute hpscans hleft)
  | lookup p s paths ih =>
    cases paths with
    | nil => cases h
    | cons first paths =>
      obtain ⟨left, hleft, hr⟩ := Result.bind_eq_ok.mp h
      obtain ⟨hpscans, hs⟩ := List.forall_mem_append.mp hscans
      have hp := ih hpscans hdistinct hmeets hleft
      exact hp.lookup (regular_execute hpscans hleft) (hs s (List.mem_singleton_self s)) hr

/-- Optimizing a plan that can be executed succeeds. The optimized plan can be executed, and a
permutation of the columns takes the rows of the plan to its rows, none lost and none added. -/
theorem optimize_sound (hscans : ∀ s ∈ p.scans, db.Current s) (hindexed : db.Indexed)
    (hdistinct : p.DistinctScans) (hmeets : p.Meets db) (h : p.execute db = .ok r) :
    ∃ out s, p.optimize (.ofDatabase db) = .ok out ∧ out.plan.execute db = .ok s ∧
      s.Rearranges r := by
  obtain ⟨out, s, hout, -, hs, hrearranges⟩ := optimizes hscans hindexed hdistinct hmeets h
  exact ⟨out, s, hout, hs, hrearranges⟩

/-- Towns, and sites that belong to them; the place of a site may be missing. -/
def sampleTables : Database :=
  ⟨{},
    [⟨"town", ⟨[⟨"id", .int, []⟩, ⟨"at", .geometry, []⟩]⟩,
      [[.int 1, .geometry (.point ⟨0, 0⟩)], [.int 2, .geometry (.point ⟨3, 1⟩)]], true, 0⟩,
    ⟨"site", ⟨[⟨"town", .int, []⟩, ⟨"place", .geometry, []⟩]⟩,
      [[.int 1, .geometry (.point ⟨0, 0⟩)], [.int 2, .null]], true, 0⟩],
    (∅ : Std.ExtTreeMap String Nat).insertMany [("town", 0), ("site", 1)], .empty⟩

/-- The tables with an index on the ids of the towns. -/
def sampleById : Database :=
  ((sampleTables.buildIndex "town" "id" .attribute fun _ => false).2.toOption).getD sampleTables

/-- The tables with indexes on the ids and the places of the towns. -/
def sampleDatabase : Database :=
  ((sampleById.buildIndex "town" "at" .spatial fun _ => false).2.toOption).getD sampleById

/-- The sites at the place of their town. The optimizer joins the towns last. -/
def samplePlan : Plan :=
  .select
    [.conj [.compare .eq (.column ⟨some "town", "id"⟩) (.column ⟨some "site", "town"⟩),
      .spatial .intersects (.column ⟨none, "at"⟩) (.column ⟨none, "place"⟩)]]
    (.product
      (.scan ⟨0, "town", none, ⟨[⟨"id", .int, []⟩, ⟨"at", .geometry, []⟩]⟩⟩)
      (.scan ⟨1, "site", none, ⟨[⟨"town", .int, []⟩, ⟨"place", .geometry, []⟩]⟩⟩))

theorem indexed_sampleDatabase : sampleDatabase.Indexed := by
  have hid : (sampleTables.buildIndex "town" "id" .attribute fun _ => false).2 = .ok sampleById :=
    rfl
  have hat : (sampleById.buildIndex "town" "at" .spatial fun _ => false).2 = .ok sampleDatabase :=
    rfl
  exact ((Database.indexed_of_empty rfl).buildIndex hid).buildIndex hat

theorem current_sampleDatabase : ∀ s ∈ samplePlan.scans, sampleDatabase.Current s := by
  intro s hs source hsource
  rw [samplePlan, scans, scans, scans, scans, List.singleton_append, List.mem_pair] at hs
  rcases hs with rfl | rfl
  · cases hsource
    exact ⟨rfl, by decide⟩
  · cases hsource
    exact ⟨rfl, by decide⟩

theorem optimize_sound_towns :
    ∃ r out s, samplePlan.execute sampleDatabase = .ok r ∧ r.rows.length = 1 ∧
      samplePlan.optimize (.ofDatabase sampleDatabase) = .ok out ∧
      out.plan.execute sampleDatabase = .ok s ∧ s.Rearranges r := by
  have hdistinct : samplePlan.DistinctScans := by
    refine ⟨fun scans hscans => ?_, trivial, trivial⟩
    cases hscans
    decide
  have hmeets : samplePlan.Meets sampleDatabase := by
    refine ⟨fun scans _ r hr => ?_, trivial, trivial⟩
    cases hr
    decide +kernel
  obtain ⟨r, hr, hone⟩ : ∃ r, samplePlan.execute sampleDatabase = .ok r ∧ r.rows.length = 1 :=
    ⟨_, rfl, by decide +kernel⟩
  obtain ⟨out, s, hout, hs, hrearranges⟩ :=
    optimize_sound current_sampleDatabase indexed_sampleDatabase hdistinct hmeets hr
  exact ⟨r, out, s, hr, hone, hout, hs, hrearranges⟩

end Plan

end SpatialStore
