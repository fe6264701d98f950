import SpatialStore.Proofs.Editing.Equality
import SpatialStore.Proofs.Editing.Regular
import SpatialStore.Proofs.Editing.Unindexed

/-!
# Window queries and extents of an open session

The geometries of a session are read in two ways: the rows whose envelope meets a window, and the
union of all envelopes in the first geometry field. A working spatial index answers from its tree,
without one every row is looked at. As long as no side of an envelope is NaN, both give the same
(`EditSession.reads_spatially`), whatever shape the tree has got by the edits before.

For windows this is what an intact index that serves the rows finds, entry by entry. The extent of
a tree is the hull of its envelopes, which are those of the rows in another order. The union of the
rows is the hull of the same family, so the two are equal; only which of two equal zeros a side is
depends on the order (`Envelope.same`).
-/

namespace SpatialStore

/-! ### Extents -/

/-- The envelope in an entry. -/
def IndexEntry.envelope? : IndexEntry → Option Envelope
  | .envelope e => some e
  | .key _ => none

/-- The same extent: none, or equal sides. -/
def Envelope.SameExtent : Option Envelope → Option Envelope → Prop :=
  Option.Rel fun u v => u.same v = true

/-- The envelopes of the geometries in a column. -/
def NumberedRow.envelopes (rows : List NumberedRow) (c : Nat) : List Envelope :=
  rows.filterMap fun r => r.values[c]?.bind Value.envelope?

/-- The envelopes of the geometries in the first geometry field, if there is one. -/
def WorkingCopy.envelopes (b : WorkingCopy) : List Envelope :=
  match b.schema.spatialIndex? with
  | none => []
  | some c => NumberedRow.envelopes b.rows c

/-- The envelopes among the entries of a column are those of its geometries. -/
theorem IndexEntry.filterMap_ofValues (rows : List NumberedRow) (c : Nat) :
    (ofValues .spatial (NumberedRow.cells rows c)).filterMap (·.2.envelope?) =
      NumberedRow.envelopes rows c := by
  rw [ofValues, NumberedRow.cells, List.filterMap_filterMap, List.filterMap_filterMap,
    NumberedRow.envelopes]
  refine List.filterMap_congr fun r _ => ?_
  cases r.values[c]? with
  | none => rfl
  | some v => cases hv : v.envelope? <;> simp [ofValue?, hv, envelope?]

/-- The extent of a regular spatial index over a column is the union of the column's envelopes. -/
theorem ColumnIndex.Regular.sameExtent {index : ColumnIndex} {rows : List NumberedRow} {c : Nat}
    (h : index.Regular) (hkind : index.kind = .spatial)
    (hentries : index.entries.Perm (IndexEntry.ofValues index.kind (NumberedRow.cells rows c))) :
    Envelope.SameExtent index.extent? (Envelope.unionAll (NumberedRow.envelopes rows c)) := by
  obtain ⟨field, t | _⟩ := index
  swap
  · cases hkind
  have ht : t.Exact := h.intact
  have hobserves := ht.observes fun id e he =>
    h.envelopes (congrArg (Option.map IndexEntry.envelope) he)
  have henvelopes : (NumberedRow.envelopes rows c).Perm (t.envelopes.toList.map (·.2)) := by
    have hperm := hentries.filterMap (·.2.envelope?)
    rw [hkind, IndexEntry.filterMap_ofValues, entries, List.filterMap_map] at hperm
    exact hperm.symm.trans (.of_eq (congrFun List.filterMap_eq_map _))
  change Envelope.SameExtent t.extent? _
  cases hu : t.extent? with
  | none =>
    rw [hobserves.extent?_eq_none.mp hu, Std.ExtTreeMap.toList_eq_nil_iff.mpr rfl] at henvelopes
    rw [henvelopes.eq_nil]
    exact .none
  | some u =>
    obtain ⟨v, hv, hsame⟩ := hobserves.extent? u hu _ henvelopes
    rw [hv]
    exact .some hsame

/-- Numeric envelopes have the same extent as themselves. -/
theorem Envelope.sameExtent_unionAll {es : List Envelope} (h : ∀ e ∈ es, e.Numeric) :
    SameExtent (unionAll es) (unionAll es) := by
  cases hu : unionAll es with
  | none => exact .none
  | some u =>
    have hull := hull_of_unionAll hu
    exact .some (hull.same hull h)

/-! ### Workspaces -/

/-- The value is a geometry whose envelope meets a window. -/
def Value.MeetsWindow (view : Envelope) (v : Value) : Prop :=
  ∃ e, v.envelope? = some e ∧ e.intersects view = true

namespace Value

variable {v : Value} {name : String} {view : Envelope}

theorem accepts_window : (IndexQuery.window name view).accepts v = true ↔ v.MeetsWindow view := by
  rw [IndexQuery.accepts, MeetsWindow]
  cases v.envelope? <;> simp

/-- What a spatial index finds are the geometries that meet the window. -/
theorem finds_window :
    (∃ x, IndexEntry.ofValue? .spatial v = some x ∧ (IndexQuery.window name view).Finds x) ↔
      v.MeetsWindow view := by
  rw [IndexEntry.ofValue?, MeetsWindow]
  cases v.envelope? <;> simp [IndexQuery.Finds]

end Value

namespace Workspace

open NumberedRow (Locates)

variable {w : Workspace} {name : String} {c : Nat}

/-- A window query finds the rows whose envelope meets the window. -/
theorem Regular.query_window (hregular : w.Regular) (hfresh : w.copy.Fresh)
    (hc : w.copy.schema.indexOf? name = some c) (view : Envelope) :
    ∃ hits, w.query (.window name view) = .ok hits ∧
      Locates w.copy.rows c (Value.MeetsWindow view) hits := by
  by_cases hspatial : ∃ index, w.copy.indexes[name]? = some index ∧ index.kind = .spatial
  · obtain ⟨index, hindex, hkind⟩ := hspatial
    obtain ⟨hits, hquery, hhits⟩ := query_indexed (q := .window name view) hfresh.proper.ids hc
      hindex hkind (hfresh.serves hindex) (hregular.copy.indexes hindex).intact
    simp only [hkind, Value.finds_window] at hhits
    exact ⟨hits, hquery, hhits⟩
  · obtain ⟨hits, hquery, hhits⟩ := query_scan (q := .window name view) hc
      fun index hindex hkind => hspatial ⟨index, hindex, hkind⟩
    simp only [Value.accepts_window] at hhits
    exact ⟨hits, hquery, hhits⟩

/-- Without indexes the same rows are found. -/
theorem query_window_unindexed (hc : w.copy.schema.indexOf? name = some c) (view : Envelope)
    {hits : List Nat} (hhits : Locates w.copy.rows c (Value.MeetsWindow view) hits) :
    w.unindexed.query (.window name view) = .ok hits := by
  obtain ⟨scan, hquery, hscan⟩ := query_scan (w := w.unindexed) (q := .window name view) hc
    fun index hindex => by cases (Std.ExtTreeMap.getElem?_empty).symm.trans hindex
  simp only [Value.accepts_window] at hscan
  rw [hquery, (hscan.eq_iff hhits).mpr fun _ _ _ _ => Iff.rfl]

/-- Without a spatial index of the first geometry field every row is looked at. -/
theorem extent?_scan
    (hother : ∀ {c : Nat} {f : Field} {index : ColumnIndex},
      w.copy.schema.spatialIndex? = some c → w.copy.schema.field? c = some f →
      w.copy.indexes[f.name]? = some index → index.kind ≠ .spatial) :
    w.extent? = Envelope.unionAll w.copy.envelopes := by
  rw [extent?, WorkingCopy.envelopes]
  dsimp only
  cases hc : w.copy.schema.spatialIndex? with
  | none => rfl
  | some c =>
    dsimp only
    split
    · next index hindex =>
      obtain ⟨f, hf, hindex⟩ := Option.bind_eq_some_iff.mp hindex
      exact if_neg (hother hc hf hindex)
    · rfl

/-- A spatial index of the first geometry field is asked for its extent. -/
theorem extent?_indexed {f : Field} {index : ColumnIndex}
    (hc : w.copy.schema.spatialIndex? = some c) (hf : w.copy.schema.field? c = some f)
    (hindex : w.copy.indexes[f.name]? = some index) (hkind : index.kind = .spatial) :
    w.extent? = index.extent? := by
  have hfound : (w.copy.schema.field? c).bind (fun f => w.copy.indexes[f.name]?) = some index := by
    rw [hf, Option.bind_some, hindex]
  rw [extent?]
  dsimp only
  rw [hc]
  dsimp only
  rw [hfound]
  exact if_pos hkind

theorem extent?_unindexed : w.unindexed.extent? = Envelope.unionAll w.copy.envelopes :=
  extent?_scan fun _ _ hindex => by cases (Std.ExtTreeMap.getElem?_empty).symm.trans hindex

theorem Regular.numeric_envelopes (h : w.Regular) : ∀ e ∈ w.copy.envelopes, e.Numeric := by
  rw [WorkingCopy.envelopes]
  split
  · exact fun e he => absurd he List.not_mem_nil
  · intro e he
    obtain ⟨r, hr, hvalue⟩ := List.mem_filterMap.mp he
    obtain ⟨v, hv, he⟩ := Option.bind_eq_some_iff.mp hvalue
    exact h.copy.rows r hr v (List.mem_of_getElem? hv) e he

/-- The extent is the union of the envelopes in the first geometry field. -/
theorem Regular.sameExtent (hregular : w.Regular) (hfresh : w.copy.Fresh) :
    Envelope.SameExtent w.extent? (Envelope.unionAll w.copy.envelopes) := by
  by_cases hspatial : ∃ c f index, w.copy.schema.spatialIndex? = some c ∧
      w.copy.schema.field? c = some f ∧ w.copy.indexes[f.name]? = some index ∧
      index.kind = .spatial
  · obtain ⟨c, f, index, hc, hf, hindex, hkind⟩ := hspatial
    obtain ⟨d, hd, hentries⟩ := (hfresh.serves hindex).entries
    obtain rfl : d = c := by
      have hposition := hfresh.schema_proper.indexOf?_eq_some_iff.mpr ⟨f, hf, rfl⟩
      exact Option.some.inj (hd.symm.trans hposition)
    rw [extent?_indexed hc hf hindex hkind, WorkingCopy.envelopes, hc]
    exact (hregular.copy.indexes hindex).sameExtent hkind hentries
  · rw [extent?_scan fun hc hf hindex hkind => hspatial ⟨_, _, _, hc, hf, hindex, hkind⟩]
    exact Envelope.sameExtent_unionAll hregular.numeric_envelopes

end Workspace

/-! ### Sessions -/

namespace EditSession

open NumberedRow (Locates)

variable {db : Database} {former e e₁ : EditSession} {source : Source} {w : Workspace}

theorem run_query {q : IndexQuery} {hits : List Nat} (hw : e.workspace? = some w)
    (h : w.query q = .ok hits) (db : Database) :
    e.run db (.query q) = .ok (db, e, .positions hits) := by
  rw [run, workspace_eq_ok.mpr hw]
  change (w.query q >>= _) = _
  rw [h]
  rfl

theorem run_extent (hw : e.workspace? = some w) (db : Database) :
    e.run db .extent = .ok (db, e, .extent w.extent?) := by
  rw [run, workspace_eq_ok.mpr hw]
  rfl

theorem workspace?_unindexed (hw : e.workspace? = some w) :
    e.unindexed.workspace? = some w.unindexed := by
  rw [← withWorkspace_eq hw]
  rfl

/-- Geometries are read as they are in the rows, with the working indexes and without them. -/
structure ReadsSpatially (e : EditSession) (w : Workspace) : Prop where
  /-- A window query gives the positions of the rows whose envelope meets the window. -/
  window : ∀ (db : Database) {name : String} {c : Nat} (view : Envelope),
    w.copy.schema.indexOf? name = some c → ∃ hits,
      Locates w.copy.rows c (Value.MeetsWindow view) hits ∧
      e.run db (.query (.window name view)) = .ok (db, e, .positions hits) ∧
      e.unindexed.run db (.query (.window name view)) = .ok (db, e.unindexed, .positions hits)
  /-- The extent is the union of the envelopes in the first geometry field. -/
  extent : ∀ db : Database, ∃ u,
    Envelope.SameExtent u (Envelope.unionAll w.copy.envelopes) ∧
    e.run db .extent = .ok (db, e, .extent u) ∧
    e.unindexed.run db .extent =
      .ok (db, e.unindexed, .extent (Envelope.unionAll w.copy.envelopes))

/-- Geometries are read as they are in the rows, in every session that is reached from one that was
opened on regular rows by requests that bring in regular values. -/
theorem reads_spatially (hopened : OpenedRegular db former e₁ source)
    (h : e₁.ReachesBy EditRequest.Regular e) :
    ∃ w, e.workspace? = some w ∧ e.ReadsSpatially w := by
  obtain ⟨w₁, hw₁, hregular₁⟩ := hopened.exists_regular
  obtain ⟨w, hw, hregular⟩ := h.exists_regular hw₁ hregular₁
  obtain ⟨v, hv, hsound⟩ := h.reaches.exists_sound hopened.toOpenedOn
  obtain rfl := Option.some.inj (hw.symm.trans hv)
  have hunindexed := workspace?_unindexed hw
  refine ⟨w, hw, fun db {name c} view hc => ?_, fun db => ?_⟩
  · obtain ⟨hits, hquery, hhits⟩ := hregular.query_window hsound.fresh hc view
    have hscan := Workspace.query_window_unindexed hc view hhits
    exact ⟨hits, hhits, run_query hw hquery db, run_query hunindexed hscan db⟩
  · refine ⟨w.extent?, hregular.sameExtent hsound.fresh, run_extent hw db, ?_⟩
    rw [run_extent hunindexed, Workspace.extent?_unindexed]

/-- A table of points. -/
def pointSource : Source :=
  ⟨"points", ⟨[⟨"name", .string, []⟩, ⟨"at", .geometry, []⟩]⟩,
    [[.string "a", .geometry (.point ⟨1, 2⟩)], [.string "b", .null]], true, 0⟩

/-- A database with a spatial index on the points. -/
def pointDatabase : Database :=
  let index := ColumnIndex.build "at" .spatial {} (ColumnIndex.column pointSource.rows 1)
  ⟨{}, [pointSource], ∅, ⟨(∅ : Std.ExtTreeMap String TableIndexes).insert "points"
    ((∅ : TableIndexes).insert "at" index)⟩⟩

/-- A session that was just opened on the table. -/
def pointSession : EditSession :=
  (create "points" 0).withWorkspace (.ofRows pointSource.schema pointSource.rows
    (pointDatabase.indexes.ofTable "points"))

theorem openedRegular_points :
    OpenedRegular pointDatabase (create "points" 0) pointSession pointSource := by
  have hstanding {name : String} {index : ColumnIndex}
      (h : (pointDatabase.indexes.ofTable "points")[name]? = some index) :
      name = "at" ∧
        index = .build "at" .spatial {} (ColumnIndex.column pointSource.rows 1) := by
    have htable : pointDatabase.indexes.ofTable "points" = (∅ : TableIndexes).insert "at"
        (.build "at" .spatial {} (ColumnIndex.column pointSource.rows 1)) := by
      simp [pointDatabase, IndexRegistry.ofTable]
    rw [htable, Maps.getElem?_insert] at h
    split_ifs at h with hname
    · exact ⟨hname, (Option.some.inj h).symm⟩
    · simp at h
  refine ⟨⟨rfl, rfl, ⟨by decide, by decide⟩, fun {name index} _ hindex => ?_⟩, by decide +kernel,
    fun {name index} _ hindex => ?_⟩
  · obtain ⟨rfl, rfl⟩ := hstanding hindex
    exact ColumnIndex.serves_build rfl .spatial {} pointSource.rows
  · obtain ⟨rfl, rfl⟩ := hstanding hindex
    exact ColumnIndex.intact_build _ _ _ (ColumnIndex.nodup_column pointSource.rows 1)

/-- A point is moved, its row is deleted, and this is taken back. -/
theorem reads_spatially_moved :
    let moved := (pointSession.perform pointDatabase
      (.setValue 0 1 (.geometry (.point ⟨3, 4⟩)))).2.1
    let deleted := (moved.perform pointDatabase (.deleteRow 0)).2.1
    let undone := (deleted.perform pointDatabase .undo).2.1
    ∃ w, undone.workspace? = some w ∧ undone.ReadsSpatially w := by
  intro moved deleted undone
  have hpoint : (Value.geometry (.point ⟨3, 4⟩)).Regular := by decide +kernel
  have hreaches : pointSession.ReachesBy EditRequest.Regular undone :=
    .step pointDatabase (.step pointDatabase (.step pointDatabase .refl hpoint rfl) trivial rfl)
      trivial rfl
  exact reads_spatially openedRegular_points hreaches

end EditSession

end SpatialStore
