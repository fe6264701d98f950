import SpatialStore.Proofs.Join.Candidates
import SpatialStore.Proofs.Query.Scans
import SpatialStore.Proofs.Query.Standing

/-!
# Lookup products are filtered products

A lookup product goes by the index of its first access path and then looks at the predicates of all
its paths. When the first path leads to a field of the right table (`AccessPath.LeadsTo`) and the
index holds what is stored in the field, every pair of rows on which the predicates are true is
found; so the lookup product has the rows of the product of both sides on which they are
(`Plan.Probing.same_rows`). Nothing is asked of the left side but that it has a result.
-/

namespace SpatialStore

open Layout (ofScan)

/-! ### Names on both sides -/

namespace Layout

variable {l m : Layout} {f : FieldName} {a u : Row}

/-- A name that designates a column of the beginning and one of the whole reads the same value from
both, as there is only one of them. -/
theorem read_append_of_resolve {i j : Nat} (hl : l.resolve f = .ok i)
    (h : (l ++ m).resolve f = .ok j) (ha : a.length = l.length) :
    (l ++ m).read (a ++ u) f = l.read a f := by
  obtain ⟨⟨c, hc, hname⟩, -⟩ := resolve_eq_ok.mp hl
  obtain ⟨-, hunique⟩ := resolve_eq_ok.mp h
  have hlt := (List.getElem?_eq_some_iff.mp hc).1
  obtain rfl := hunique i c ((List.getElem?_append_left hlt).trans hc) hname
  exact read_append_left h hlt ha

/-- An expression that can be bound to the beginning and to the whole has the same value on both. -/
theorem denote_append_of_bind {e : Predicate} {b : RowExpr} (hb : e.bind l = .ok b)
    (hfound : ∀ f ∈ e.columns, ∃ j, (l ++ m).resolve f = .ok j) (ha : a.length = l.length) :
    e.denote ((l ++ m).read (a ++ u)) = e.denote (l.read a) := by
  refine Expr.denote_congr e fun f hf => ?_
  obtain ⟨i, hi⟩ := (Expr.exists_bind_iff e).mp ⟨b, hb⟩ f hf
  obtain ⟨j, hj⟩ := hfound f hf
  exact read_append_of_resolve hi hj ha

end Layout

/-! ### Access paths to a scan -/

namespace AccessPath

variable {path : AccessPath} {l : Layout} {s : Scan} {lookup : RowExpr}

/-- One side of the predicate designates the field of the path among the columns of the scan, which
come behind those of the layout. An index of the kind can be on the field. -/
def LeadsTo (path : AccessPath) (l : Layout) (s : Scan) : Prop :=
  ∃ f j x, path.Sides f ∧ (l ++ ofScan s).resolve f = .ok (l.length + j) ∧
    s.schema.fields[j]? = some x ∧ x.name = path.field ∧ path.kind.supports x.type = true

/-- Where the predicate is true on a pair of rows, the lookup reaches the right one. -/
theorem LeadsTo.reaches (h : path.LeadsTo l s) (hlookup : path.lookup.bind l = .ok lookup)
    (hfound : ∀ f ∈ path.predicate.columns, ∃ i, (l ++ ofScan s).resolve f = .ok i) :
    ∃ j, s.schema.indexOf? path.field = some j ∧ ∀ a b : Row, a.length = l.length →
      List.Forall₂ (fun v f => Value.fits v f.type = true) b s.schema.fields →
        path.predicate.Meets ((l ++ ofScan s).read (a ++ b)) →
          path.predicate.Holds ((l ++ ofScan s).read (a ++ b)) →
            ∃ w, b[j]? = some w ∧ path.Reaches (lookup.evaluate a) w := by
  obtain ⟨f, j, x, hsides, hresolve, hx, hname, hsupports⟩ := h
  rw [← List.append_nil (l ++ ofScan s)] at hresolve
  refine ⟨j, hname ▸ Layout.indexOf?_of_resolve hresolve hx, fun a b ha hb hmeets hholds => ?_⟩
  obtain ⟨w, hw, hfits, hread⟩ := Layout.read_of_resolve (u := []) hresolve hx ha hb
  rw [List.append_nil, List.append_nil] at hread
  have hreaches := hsides.reaches hsupports (hread.symm ▸ hfits) hmeets hholds
  -- the lookup has the value that it has on the left row
  have hvalue : path.lookup.denote ((l ++ ofScan s).read (a ++ b)) = lookup.evaluate a := by
    rw [Expr.evaluate_bind a hlookup]
    exact Layout.denote_append_of_bind hlookup
      (fun g hg => hfound g (hsides.mem_columns.mpr (.inr hg))) ha
  rw [hvalue, hread] at hreaches
  exact ⟨w, hw, hreaches⟩

end AccessPath

/-! ### Lookup products -/

namespace Plan

variable {db : Database} {p : Plan} {right : Scan} {first : AccessPath} {paths : List AccessPath}
  {left : ResultSet} {rows : List Row}

/-- Looking up in an index that holds the stored values finds the pairs of rows on which the
predicates are true. -/
theorem executeLookup_perm {lookup : RowExpr} {bs : List RowExpr} (hleft : left.Regular)
    (hright : db.Current right) (hstored : db.readScan right = .ok rows)
    (hleads : first.LeadsTo left.layout right) (hlookup : first.lookup.bind left.layout = .ok lookup)
    (hbs : bindAll (left.layout ++ ofScan right) ((first :: paths).map (·.predicate)) = .ok bs)
    (hmeets : ∀ a ∈ left.rows, ∀ b ∈ rows,
      first.predicate.Meets ((left.layout ++ ofScan right).read (a ++ b)))
    (hindex : ∀ i, right.schema.indexOf? first.field = some i →
      ∃ index, db.indexFor right first rows = .ok index ∧ index.Intact ∧
        index.field = first.field ∧ index.kind = first.kind ∧
          index.Holds (ColumnIndex.column rows i)) :
    ∃ r, executeLookup db left right first paths = .ok r ∧
      r.layout = left.layout ++ ofScan right ∧
      r.rows.Perm ((left.rows.flatMap fun a => rows.map (a ++ ·)).filter (allTrue bs)) := by
  have hfound : ∀ f ∈ first.predicate.columns,
      ∃ i, (left.layout ++ ofScan right).resolve f = .ok i := fun f hf =>
    exists_bindAll_iff.mp ⟨bs, hbs⟩ f
      (Expr.mem_columnsOfAll.mpr ⟨first.predicate, List.mem_cons_self, hf⟩)
  obtain ⟨i, hi, hreaches⟩ := hleads.reaches hlookup hfound
  obtain ⟨index, hfor, hintact, hfield, hkind, hholds⟩ := hindex i hi
  refine ⟨left.join (ofScan right) (matching first index rows lookup bs),
    executeLookup_eq_ok.mpr ⟨rows, lookup, bs, index, hstored, hlookup, hbs, hfor,
      fun _ _ => answers_of_intact hintact hfield hkind, rfl⟩, rfl, ?_⟩
  dsimp only [ResultSet.join]
  rw [List.filter_flatMap]
  refine List.Perm.flatMap_left _ fun a ha => ?_
  rw [List.filter_map]
  -- a row that passes all predicates passes the first one, and so is reached
  refine (filter_hits hintact hfield hkind hholds fun b hb htrue => ?_).map _
  have hall := (allTrue_iff hbs (a ++ b)).mp htrue
  exact hreaches a b (hleft a ha) (hright.fits hstored b hb) (hmeets a ha b hb)
    (hall first.predicate List.mem_cons_self)

/-- The product of both sides, with the predicates looked at afterwards. -/
theorem execute_filtered_product {ps : List Predicate} {bs : List RowExpr}
    (hleft : p.execute db = .ok left) (hstored : db.readScan right = .ok rows)
    (hbs : bindAll (left.layout ++ ofScan right) ps = .ok bs) :
    (select ps (product p (scan right))).execute db = .ok ⟨left.layout ++ ofScan right,
      (left.rows.flatMap fun a => rows.map (a ++ ·)).filter (allTrue bs)⟩ := by
  have hscan : (scan right).execute db = .ok ⟨ofScan right, rows⟩ :=
    execute_scan_eq_ok.mpr ⟨⟨rows, hstored⟩, (Database.scanned_of_readScan hstored).symm⟩
  exact execute_select_eq_ok.mpr ⟨left.product ⟨ofScan right, rows⟩, bs,
    execute_product_eq_ok.mpr ⟨left, _, hleft, hscan, rfl⟩, hbs, rfl⟩

/-- A lookup product over rows that can be read: the predicates can be bound, and the first access
path leads to a field of the right scan. Where its predicate is a true spatial one, the envelopes of
the geometries meet. -/
structure Probing (db : Database) (p : Plan) (right : Scan) (first : AccessPath)
    (paths : List AccessPath) (left : ResultSet) (rows : List Row) : Prop where
  current : ∀ s ∈ (lookup p right (first :: paths)).scans, db.Current s
  executed : p.execute db = .ok left
  stored : db.readScan right = .ok rows
  leads : first.LeadsTo left.layout right
  bound : ∃ b, first.lookup.bind left.layout = .ok b
  predicates : ∃ bs, bindAll (left.layout ++ ofScan right)
    ((first :: paths).map (·.predicate)) = .ok bs
  meets : ∀ a ∈ left.rows, ∀ b ∈ rows,
    first.predicate.Meets ((left.layout ++ ofScan right).read (a ++ b))

/-- A lookup product through an index that holds the stored values has the rows of the product on
which the predicates of all its access paths are true. -/
theorem Probing.same_rows (h : Probing db p right first paths left rows)
    (hindex : ∀ i, right.schema.indexOf? first.field = some i →
      ∃ index, db.indexFor right first rows = .ok index ∧ index.Intact ∧
        index.field = first.field ∧ index.kind = first.kind ∧
          index.Holds (ColumnIndex.column rows i)) :
    ∃ r r', (Plan.lookup p right (first :: paths)).execute db = .ok r ∧
      (select ((first :: paths).map (·.predicate)) (product p (scan right))).execute db = .ok r' ∧
        r.layout = r'.layout ∧ r.rows.Perm r'.rows := by
  obtain ⟨hleftCurrent, hrightCurrent⟩ := List.forall_mem_append.mp h.current
  have hright := hrightCurrent right (List.mem_singleton_self right)
  obtain ⟨lookup, hlookup⟩ := h.bound
  obtain ⟨bs, hbs⟩ := h.predicates
  obtain ⟨r, hr, hlayout, hrows⟩ := executeLookup_perm (regular_execute hleftCurrent h.executed)
    hright h.stored h.leads hlookup hbs h.meets hindex
  exact ⟨r, _, (Result.bind_of_eq_ok h.executed).trans hr,
    execute_filtered_product h.executed h.stored hbs, hlayout, hrows⟩

end Plan

end SpatialStore
