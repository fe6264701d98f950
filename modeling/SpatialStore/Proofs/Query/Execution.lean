import SpatialStore.Proofs.Query.Arrangement

/-!
# Execution

What each operator does to the results of its inputs, and when it does not fail. A lookup product
joins to every left row the rows that the index finds for it, as far as the predicates are true on
the pair (`executeLookup_eq_ok`). No operator loses a value, so the rows of a plan are as wide as
its layout if the stored rows are as wide as the schemas of the scans (`regular_of_aligned`).
Rearranged inputs lead to a rearranged result.
-/

namespace SpatialStore

/-- Every row has one value for each field, of a type that fits it. -/
def Source.Conforms (s : Source) : Prop :=
  ∀ row ∈ s.rows, List.Forall₂ (fun v f => Value.fits v f.type = true) row s.schema.fields

instance (s : Source) : Decidable s.Conforms :=
  inferInstanceAs (Decidable (∀ row ∈ s.rows, List.Forall₂ _ row s.schema.fields))

namespace Database

/-- The scan has the present schema of the source it reads, and the rows of the source conform. -/
def Current (db : Database) (s : Scan) : Prop :=
  ∀ source, db.source? s.table = some source → source.schema = s.schema ∧ source.Conforms

variable {db : Database} {s : Scan} {rows : List Row}

theorem readScan_eq_ok : db.readScan s = .ok rows ↔
    ∃ source, db.source? s.table = some source ∧ source.available = true ∧ source.rows = rows := by
  rw [readScan]
  cases db.source? s.table with
  | none => simp
  | some source => cases h : source.available <;> simp [Source.readRows, Source.whenAvailable, h]

theorem Current.fits (hs : db.Current s) (h : db.readScan s = .ok rows) :
    ∀ row ∈ rows, List.Forall₂ (fun v f => Value.fits v f.type = true) row s.schema.fields := by
  rw [readScan_eq_ok] at h
  obtain ⟨source, hsource, -, rfl⟩ := h
  obtain ⟨hschema, hrows⟩ := hs source hsource
  exact hschema ▸ hrows

/-- The rows of the source that the scan reads have as many values as its schema has fields. -/
def Aligned (db : Database) (s : Scan) : Prop :=
  ∀ source, db.source? s.table = some source → ∀ row ∈ source.rows, row.length = s.schema.count

theorem Current.aligned (hs : db.Current s) : db.Aligned s := by
  intro source hsource row hrow
  obtain ⟨hschema, hrows⟩ := hs source hsource
  rw [← hschema]
  exact (hrows row hrow).length_eq

theorem Aligned.length_of_mem_stored (hs : db.Aligned s) (h : db.readScan s = .ok rows) :
    ∀ row ∈ rows, row.length = (Layout.ofScan s).length := by
  intro row hrow
  rw [readScan_eq_ok] at h
  obtain ⟨source, hsource, -, rfl⟩ := h
  rw [hs source hsource row hrow]
  simp [Layout.ofScan, Schema.count]

/-- The result of a scan. A table that cannot be read has no rows. -/
def scanned (db : Database) (s : Scan) : ResultSet :=
  ⟨.ofScan s, match db.readScan s with
    | .ok rows => rows
    | .error _ => []⟩

theorem scanned_of_readScan (h : db.readScan s = .ok rows) : db.scanned s = ⟨.ofScan s, rows⟩ := by
  rw [scanned, h]

theorem Aligned.regular (hs : db.Aligned s) : (db.scanned s).Regular := by
  rw [scanned]
  cases h : db.readScan s with
  | error => exact fun row hrow => absurd hrow List.not_mem_nil
  | ok rows => exact hs.length_of_mem_stored h

theorem Current.regular (hs : db.Current s) : (db.scanned s).Regular := hs.aligned.regular

/-- The product of the rows that some scans read. -/
def scannedAll (db : Database) (scans : List Scan) : ResultSet :=
  .productAll (scans.map db.scanned)

theorem scannedAll_append (db : Database) (ss ts : List Scan) :
    db.scannedAll (ss ++ ts) = (db.scannedAll ss).product (db.scannedAll ts) := by
  rw [scannedAll, List.map_append, ResultSet.productAll_append]
  rfl

theorem layout_scannedAll (db : Database) (scans : List Scan) :
    (db.scannedAll scans).layout = .ofScans scans := by
  induction scans with
  | nil => rfl
  | cons s scans ih => exact congrArg (Layout.ofScan s ++ ·) ih

theorem regular_scannedAll {scans : List Scan} (hscans : ∀ s ∈ scans, db.Current s) :
    (db.scannedAll scans).Regular := by
  refine ResultSet.regular_productAll fun r hr => ?_
  obtain ⟨s, hs, rfl⟩ := List.mem_map.mp hr
  exact (hscans s hs).regular

theorem length_of_mem_scannedAll {scans : List Scan} {a : Row}
    (hscans : ∀ s ∈ scans, db.Current s) (ha : a ∈ (db.scannedAll scans).rows) :
    a.length = (Layout.ofScans scans).length := by
  rw [regular_scannedAll hscans a ha, layout_scannedAll]

theorem length_of_mem_stored {b : Row} (hs : db.Current s) (hrows : db.readScan s = .ok rows)
    (hb : b ∈ rows) : b.length = (Layout.ofScan s).length :=
  hs.aligned.length_of_mem_stored hrows b hb

/-- The scans of a product may change places. -/
theorem rearranges_scannedAll {scans others : List Scan} (h : others.Perm scans)
    (hscans : ∀ s ∈ scans, db.Current s) :
    (db.scannedAll others).Rearranges (db.scannedAll scans) := by
  refine ResultSet.rearranges_productAll (h.map _) fun r hr => ?_
  obtain ⟨s, hs, rfl⟩ := List.mem_map.mp hr
  exact (hscans s hs).regular

theorem rows_scannedAll_concat {scans : List Scan} (h : db.readScan s = .ok rows) :
    (db.scannedAll (scans ++ [s])).rows =
      (db.scannedAll scans).rows.flatMap fun a => rows.map (a ++ ·) := by
  rw [scannedAll, List.map_append, List.map_singleton, ResultSet.productAll_concat,
    scanned_of_readScan h]
  rfl

theorem rows_scannedAll_cons {scans : List Scan} (h : db.readScan s = .ok rows) :
    (db.scannedAll (s :: scans)).rows =
      rows.flatMap fun a => (db.scannedAll scans).rows.map (a ++ ·) := by
  rw [scannedAll, List.map_cons, ResultSet.productAll, scanned_of_readScan h]
  rfl

end Database

namespace Plan

variable {db : Database} {r t : ResultSet} {p q : Plan} {ps : List Predicate}

/-! ### Operators -/

theorem execute_scan_eq_ok {s : Scan} :
    (scan s).execute db = .ok r ↔ (∃ rows, db.readScan s = .ok rows) ∧ r = db.scanned s := by
  constructor
  · intro h
    obtain ⟨rows, hrows, h⟩ := Result.bind_eq_ok.mp h
    cases h
    exact ⟨⟨rows, hrows⟩, (Database.scanned_of_readScan hrows).symm⟩
  · rintro ⟨⟨rows, hrows⟩, rfl⟩
    exact Result.bind_eq_ok.mpr
      ⟨rows, hrows, congrArg Except.ok (Database.scanned_of_readScan hrows).symm⟩

theorem execute_select_eq_ok : (select ps p).execute db = .ok r ↔
    ∃ input bs, p.execute db = .ok input ∧ bindAll input.layout ps = .ok bs ∧
      r = ⟨input.layout, input.rows.filter (allTrue bs)⟩ := by
  constructor
  · intro h
    obtain ⟨input, hinput, h⟩ := Result.bind_eq_ok.mp h
    obtain ⟨bs, hbs, h⟩ := Result.bind_eq_ok.mp h
    exact ⟨input, bs, hinput, hbs, (Except.ok.inj h).symm⟩
  · rintro ⟨input, bs, hinput, hbs, rfl⟩
    exact Result.bind_eq_ok.mpr ⟨input, hinput, Result.bind_eq_ok.mpr ⟨bs, hbs, rfl⟩⟩

theorem execute_project_eq_ok {fs : List FieldName} : (project fs p).execute db = .ok r ↔
    ∃ input positions, p.execute db = .ok input ∧ input.layout.resolveAll fs = .ok positions ∧
      r = ⟨input.layout.project positions, input.rows.map (Row.project · positions)⟩ := by
  constructor
  · intro h
    obtain ⟨input, hinput, h⟩ := Result.bind_eq_ok.mp h
    obtain ⟨positions, hpositions, h⟩ := Result.bind_eq_ok.mp h
    exact ⟨input, positions, hinput, hpositions, (Except.ok.inj h).symm⟩
  · rintro ⟨input, positions, hinput, hpositions, rfl⟩
    exact Result.bind_eq_ok.mpr
      ⟨input, hinput, Result.bind_eq_ok.mpr ⟨positions, hpositions, rfl⟩⟩

theorem execute_product_eq_ok : (product p q).execute db = .ok r ↔
    ∃ left right, p.execute db = .ok left ∧ q.execute db = .ok right ∧ r = left.product right := by
  constructor
  · intro h
    obtain ⟨left, hleft, h⟩ := Result.bind_eq_ok.mp h
    obtain ⟨right, hright, h⟩ := Result.bind_eq_ok.mp h
    exact ⟨left, right, hleft, hright, (Except.ok.inj h).symm⟩
  · rintro ⟨left, right, hleft, hright, rfl⟩
    exact Result.bind_eq_ok.mpr ⟨left, hleft, Result.bind_eq_ok.mpr ⟨right, hright, rfl⟩⟩

/-! ### Lookups -/

/-- The index has an answer to the query for a value of the lookup, if there is one. -/
def Answers (path : AccessPath) (index : ColumnIndex) (v : Value) : Prop :=
  ∀ q, path.indexQuery? v = some q → ∃ ids, index.query q = .ok ids

/-- The rows that the index finds for a value of the lookup. -/
def hits (path : AccessPath) (index : ColumnIndex) (right : List Row) (v : Value) : List Row :=
  match path.indexQuery? v with
  | none => []
  | some q =>
    match index.query q with
    | .error _ => []
    | .ok ids => ids.filterMap fun id => right[id]?

theorem mem_of_mem_hits {path : AccessPath} {index : ColumnIndex} {right : List Row} {v : Value}
    {row : Row} (h : row ∈ hits path index right v) : row ∈ right := by
  rw [hits] at h
  split at h
  · cases h
  · split at h
    · cases h
    · obtain ⟨id, -, hid⟩ := List.mem_filterMap.mp h
      exact List.mem_of_getElem? hid

theorem probe_eq_ok {path : AccessPath} {lookup : RowExpr} {bs : List RowExpr}
    {index : ColumnIndex} {right : List Row} {left : Row} {rows : List Row} :
    probe path lookup bs index right.toArray left = .ok rows ↔
      Answers path index (lookup.evaluate left) ∧
        rows = ((hits path index right (lookup.evaluate left)).filter fun b =>
          allTrue bs (left ++ b)).map (left ++ ·) := by
  rw [probe, Answers, hits]
  cases path.indexQuery? (lookup.evaluate left) with
  | none => simp [eq_comm]
  | some q =>
    cases hq : index.query q with
    | error => simp [hq]
    | ok ids => simp [hq, List.filter_map, Function.comp_def, eq_comm]

/-- The rows that a lookup product joins to a left row. -/
def matching (path : AccessPath) (index : ColumnIndex) (right : List Row) (lookup : RowExpr)
    (bs : List RowExpr) (left : Row) : List Row :=
  (hits path index right (lookup.evaluate left)).filter fun b => allTrue bs (left ++ b)

theorem executeLookup_eq_ok {left : ResultSet} {right : Scan} {first : AccessPath}
    {paths : List AccessPath} :
    executeLookup db left right first paths = .ok r ↔
      ∃ rows lookup bs index, db.readScan right = .ok rows ∧
        first.lookup.bind left.layout = .ok lookup ∧
        bindAll (left.layout ++ Layout.ofScan right) ((first :: paths).map (·.predicate)) = .ok bs ∧
        db.indexFor right first rows = .ok index ∧
        (∀ row ∈ left.rows, Answers first index (lookup.evaluate row)) ∧
        r = left.join (.ofScan right) (matching first index rows lookup bs) := by
  have hjoin {rows : List Row} {lookup : RowExpr} {bs : List RowExpr} {index : ColumnIndex}
      {joined : List (List Row)} :
      left.rows.mapM (probe first lookup bs index rows.toArray) = .ok joined ↔
        (∀ row ∈ left.rows, Answers first index (lookup.evaluate row)) ∧
          joined = left.rows.map fun row =>
            (matching first index rows lookup bs row).map (row ++ ·) :=
    Result.mapM_eq_ok_of fun _ _ => probe_eq_ok
  constructor
  · intro h
    obtain ⟨rows, hrows, h⟩ := Result.bind_eq_ok.mp h
    obtain ⟨lookup, hlookup, h⟩ := Result.bind_eq_ok.mp h
    obtain ⟨bs, hbs, h⟩ := Result.bind_eq_ok.mp h
    obtain ⟨index, hindex, h⟩ := Result.bind_eq_ok.mp h
    obtain ⟨joined, hjoined, h⟩ := Result.bind_eq_ok.mp h
    obtain ⟨hanswers, rfl⟩ := hjoin.mp hjoined
    refine ⟨rows, lookup, bs, index, hrows, hlookup, hbs, hindex, hanswers, ?_⟩
    rw [ResultSet.join, List.flatMap_def]
    exact (Except.ok.inj h).symm
  · rintro ⟨rows, lookup, bs, index, hrows, hlookup, hbs, hindex, hanswers, rfl⟩
    rw [ResultSet.join, List.flatMap_def]
    refine Result.bind_eq_ok.mpr ⟨rows, hrows, Result.bind_eq_ok.mpr ⟨lookup, hlookup, ?_⟩⟩
    refine Result.bind_eq_ok.mpr ⟨bs, hbs, Result.bind_eq_ok.mpr ⟨index, hindex, ?_⟩⟩
    exact Result.bind_eq_ok.mpr ⟨_, hjoin.mpr ⟨hanswers, rfl⟩, rfl⟩

theorem mem_of_mem_matching {path : AccessPath} {index : ColumnIndex} {right : List Row}
    {lookup : RowExpr} {bs : List RowExpr} {left row : Row}
    (h : row ∈ matching path index right lookup bs left) : row ∈ right :=
  mem_of_mem_hits (List.mem_of_mem_filter h)

/-! ### Whole plans -/

/-- A plan yields rows as wide as the layout if the stored rows are as wide as the schemas. -/
theorem regular_of_aligned (hscans : ∀ s ∈ p.scans, db.Aligned s) (h : p.execute db = .ok r) :
    r.Regular := by
  induction p generalizing r with
  | scan s =>
    obtain ⟨-, rfl⟩ := execute_scan_eq_ok.mp h
    exact (hscans s (List.mem_singleton_self s)).regular
  | select ps p ih =>
    obtain ⟨input, bs, hinput, -, rfl⟩ := execute_select_eq_ok.mp h
    exact (ih hscans hinput).filter _
  | project fs p ih =>
    obtain ⟨input, positions, hinput, hpositions, rfl⟩ := execute_project_eq_ok.mp h
    exact (ih hscans hinput).project hpositions
  | product p q ihp ihq =>
    obtain ⟨left, right, hleft, hright, rfl⟩ := execute_product_eq_ok.mp h
    have hp := ihp (fun s hs => hscans s (List.mem_append_left _ hs)) hleft
    exact hp.product (ihq (fun s hs => hscans s (List.mem_append_right _ hs)) hright)
  | lookup p s paths ih =>
    cases paths with
    | nil => cases h
    | cons first paths =>
      obtain ⟨left, hleft, h⟩ := Result.bind_eq_ok.mp h
      rw [executeLookup_eq_ok] at h
      obtain ⟨rows, lookup, bs, index, hrows, -, -, -, -, rfl⟩ := h
      have hp := ih (fun s hs => hscans s (List.mem_append_left _ hs)) hleft
      have hs := hscans s (List.mem_append_right _ (List.mem_singleton_self s))
      exact hp.join fun row _ b hb => hs.length_of_mem_stored hrows b (mem_of_mem_matching hb)

/-- A plan over present tables yields rows as wide as the layout. -/
theorem regular_execute (hscans : ∀ s ∈ p.scans, db.Current s) (h : p.execute db = .ok r) :
    r.Regular :=
  regular_of_aligned (fun s hs => (hscans s hs).aligned) h

/-- A lookup product finds the same rows for rearranged left rows. -/
theorem executeLookup_rearranged {left left' : ResultSet} {right : Scan} {first : AccessPath}
    {paths : List AccessPath} (hleft : left'.Rearranges left) (hregular : left.Regular)
    (hright : db.Current right) (h : executeLookup db left right first paths = .ok r) :
    ∃ r', executeLookup db left' right first paths = .ok r' ∧ r'.Rearranges r := by
  rw [executeLookup_eq_ok] at h
  obtain ⟨rows, lookup, bs, index, hrows, hlookup, hbs, hindex, hanswers, rfl⟩ := h
  obtain ⟨σ, hσ⟩ := hleft
  have hlt := Layout.lt_of_perm hσ.perm
  have hm : ∀ row ∈ left.rows, ∀ b ∈ matching first index rows lookup bs row,
      b.length = (Layout.ofScan right).length :=
    fun row _ b hb => Database.length_of_mem_stored hright hrows (mem_of_mem_matching hb)
  -- the joined columns stay where they are
  obtain ⟨lookup', hlookup', hvalue⟩ := Layout.bind_project hσ.perm hlookup
  have hwiden := append_perm_range hσ.perm (.refl (List.range (Layout.ofScan right).length))
  rw [← List.length_append] at hwiden
  obtain ⟨bs', hbs', htrue⟩ := Layout.bindAll_project hwiden hbs
  rw [Layout.project_eq_pick, pick_widen rfl rfl hlt, ← Layout.project_eq_pick, ← hσ.layout]
    at hbs'
  rw [← hσ.layout] at hlookup'
  have hfound : ∀ row ∈ left.rows,
      matching first index rows lookup' bs' (Row.project row σ) =
        matching first index rows lookup bs row := by
    intro row hrow
    rw [matching, matching, hvalue row (hregular row hrow)]
    refine List.filter_congr fun b hb => ?_
    have hb := Database.length_of_mem_stored hright hrows (mem_of_mem_hits hb)
    have hwide : (row ++ b).length = (left.layout ++ Layout.ofScan right).length := by
      rw [List.length_append, List.length_append, hregular row hrow, hb]
    rw [← htrue (row ++ b) hwide, Row.project_eq_pick, Row.project_eq_pick,
      pick_widen (hregular row hrow) hb hlt]
  refine ⟨_, ?_, hσ.join_same hregular hm hfound⟩
  rw [executeLookup_eq_ok]
  refine ⟨rows, lookup', bs', index, hrows, hlookup', hbs', hindex, fun row' hrow' => ?_, rfl⟩
  obtain ⟨row, hrow, rfl⟩ := List.mem_map.mp (hσ.rows.mem_iff.mp hrow')
  rw [hvalue row (hregular row hrow)]
  exact hanswers row hrow

end Plan

end SpatialStore
