import SpatialStore.Proofs.Join.Registration

/-!
# Lookup products and nested loops

A lookup product is a filtered nested loop: a selection with the predicates of all its access paths
above the product of both sides has the same outcome (`Plan.lookup_filters`). The sides are any plan
on the left and any scan on the right. Either both plans fail with the same error, because a side
cannot be read, or both have results with the same layout and the same rows.

Whether an index stands on the field does not matter. An index of the kind of the first path is
used and has to mirror the present source; one of the other kind is left alone, and without one the
index is built over the rows that were read. The other paths only contribute their predicates.
-/

namespace SpatialStore

open Layout (ofScan)
open Database (sampleListing sampleTowns sampleVisits visitScan townScan townPath probing_towns
  inStep_sampleListing)

/-- The same error, or results with the same columns and the same rows, each as often, in any
order. -/
inductive SameOutcome : Except PlanError ResultSet → Except PlanError ResultSet → Prop
  | error (e : PlanError) : SameOutcome (.error e) (.error e)
  | ok {r s : ResultSet} : r.layout = s.layout → r.rows.Perm s.rows → SameOutcome (.ok r) (.ok s)

namespace Plan

/-- The access paths fit the rows on the left: the first one leads to a field of the right scan, its
lookup can be bound to the left columns and all predicates to the columns of both sides. Where the
first predicate is a true spatial one, the envelopes of the geometries meet. -/
structure Fits (db : Database) (right : Scan) (first : AccessPath) (paths : List AccessPath)
    (left : ResultSet) : Prop where
  regular : left.Regular
  leads : first.LeadsTo left.layout right
  bound : ∃ b, first.lookup.bind left.layout = .ok b
  predicates : ∃ bs, bindAll (left.layout ++ ofScan right)
    ((first :: paths).map (·.predicate)) = .ok bs
  meets : ∀ rows, db.readScan right = .ok rows → ∀ a ∈ left.rows, ∀ b ∈ rows,
    first.predicate.Meets ((left.layout ++ ofScan right).read (a ++ b))

/-- A lookup product that can be carried out if its sides can be read. -/
structure Lookable (db : Database) (p : Plan) (right : Scan) (first : AccessPath)
    (paths : List AccessPath) : Prop where
  current : db.Current right
  standing : ∀ index, db.indexes.get? right.table first.field = some index →
    index.kind = first.kind → ∀ source, db.source? right.table = some source →
      index.Mirrors source first.field
  fits : ∀ left, p.execute db = .ok left → Fits db right first paths left

variable {db : Database} {p : Plan} {right : Scan} {first : AccessPath} {paths : List AccessPath}
  {left : ResultSet} {rows : List Row} {i : Nat}

/-- The index that is used holds the stored values of the field, whether it stands or not. -/
theorem Lookable.exists_indexFor (h : Lookable db p right first paths)
    (hstored : db.readScan right = .ok rows) (hi : right.schema.indexOf? first.field = some i) :
    ∃ index, db.indexFor right first rows = .ok index ∧ index.Intact ∧
      index.field = first.field ∧ index.kind = first.kind ∧
        index.Holds (ColumnIndex.column rows i) := by
  obtain ⟨source, hsource, -, rfl⟩ := Database.readScan_eq_ok.mp hstored
  obtain ⟨hschema, -⟩ := h.current source hsource
  refine Database.exists_indexFor hi fun index hget hkind => ?_
  obtain ⟨hfield, hintact, j, hj, hholds⟩ := h.standing index hget hkind source hsource
  obtain rfl := Option.some.inj ((hschema ▸ hi).symm.trans hj)
  exact ⟨hintact, hfield, hholds⟩

/-- A lookup product has the outcome of the selection with the predicates of all its access paths
above the product of both sides. It has a result if both sides can be read. -/
theorem lookup_filters (h : Lookable db p right first paths) :
    SameOutcome ((Plan.lookup p right (first :: paths)).execute db)
      ((select ((first :: paths).map (·.predicate)) (product p (scan right))).execute db) ∧
    ∀ left rows, p.execute db = .ok left → db.readScan right = .ok rows →
      ∃ r, (Plan.lookup p right (first :: paths)).execute db = .ok r := by
  have hresult : ∀ left rows, p.execute db = .ok left → db.readScan right = .ok rows →
      ∃ r r', (Plan.lookup p right (first :: paths)).execute db = .ok r ∧
        (select ((first :: paths).map (·.predicate)) (product p (scan right))).execute db = .ok r' ∧
          r.layout = r'.layout ∧ r.rows.Perm r'.rows := by
    intro left rows hleft hstored
    obtain ⟨hregular, hleads, ⟨lookup, hlookup⟩, ⟨bs, hbs⟩, hmeets⟩ := h.fits left hleft
    obtain ⟨r, hr, hlayout, hrows⟩ := executeLookup_perm hregular h.current hstored hleads hlookup
      hbs (hmeets rows hstored) fun _ hi => h.exists_indexFor hstored hi
    exact ⟨r, _, (Result.bind_of_eq_ok hleft).trans hr,
      execute_filtered_product hleft hstored hbs, hlayout, hrows⟩
  refine ⟨?_, fun left rows hleft hstored => ?_⟩
  · -- the left side is read first, then the right one
    cases hleft : p.execute db with
    | error e =>
      have hlookup : (Plan.lookup p right (first :: paths)).execute db = .error e :=
        Result.bind_of_eq_error hleft
      have hproduct : (product p (scan right)).execute db = .error e :=
        Result.bind_of_eq_error hleft
      rw [hlookup, execute, Result.bind_of_eq_error hproduct]
      exact .error e
    | ok left =>
      cases hstored : db.readScan right with
      | error e =>
        have hlookup : (Plan.lookup p right (first :: paths)).execute db = .error e :=
          (Result.bind_of_eq_ok hleft).trans (Result.bind_of_eq_error hstored)
        have hscan : (scan right).execute db = .error e := Result.bind_of_eq_error hstored
        have hproduct : (product p (scan right)).execute db = .error e :=
          (Result.bind_of_eq_ok hleft).trans (Result.bind_of_eq_error hscan)
        rw [hlookup, execute, Result.bind_of_eq_error hproduct]
        exact .error e
      | ok rows =>
        obtain ⟨r, r', hr, hr', hlayout, hrows⟩ := hresult left rows hleft hstored
        rw [hr, hr']
        exact .ok hlayout hrows
  · obtain ⟨r, -, hr, -⟩ := hresult left rows hleft hstored
    exact ⟨r, hr⟩

/-- The towns of the visits, found through the index that stands on their names. -/
theorem lookup_filters_towns :
    SameOutcome
      ((Plan.lookup (.scan visitScan) townScan [townPath]).execute sampleListing)
      ((select [townPath.predicate] (product (.scan visitScan) (scan townScan))).execute
        sampleListing) ∧
    ∃ r, (Plan.lookup (.scan visitScan) townScan [townPath]).execute sampleListing = .ok r := by
  have hprobing : Probing sampleListing (.scan visitScan) townScan townPath []
      ⟨Layout.ofScan visitScan, sampleVisits.rows⟩ sampleTowns.rows :=
    probing_towns sampleTowns rfl rfl rfl (by decide) rfl
  have hlookable : Lookable sampleListing (.scan visitScan) townScan townPath [] := by
    refine ⟨hprobing.current townScan (List.mem_append_right _ (List.mem_singleton_self _)),
      fun index hget _ source hsource => ?_, fun left hleft => ?_⟩
    · obtain ⟨other, hother, hmirrors⟩ := inStep_sampleListing "town" "name" index hget
      obtain rfl := Option.some.inj (hsource.symm.trans hother)
      exact hmirrors
    · obtain rfl := Except.ok.inj (hprobing.executed.symm.trans hleft)
      have hregular := regular_execute (p := .scan visitScan)
        (fun s hs => hprobing.current s (List.mem_append_left _ hs)) hprobing.executed
      exact ⟨hregular, hprobing.leads, hprobing.bound, hprobing.predicates,
        fun _ _ _ _ _ _ => trivial⟩
  obtain ⟨hsame, hresult⟩ := lookup_filters hlookable
  exact ⟨hsame, hresult _ _ hprobing.executed hprobing.stored⟩

end Plan

end SpatialStore
