import SpatialStore.Proofs.Index.Lookup
import SpatialStore.Proofs.Index.Registry
import SpatialStore.Proofs.Query.Execution

/-!
# Standing indexes

A database is *indexed* when its standing indexes are up to date (`Database.Indexed`). Building an
index keeps it so (`Database.Indexed.buildIndex`). The index that a lookup uses, whether it stands
or is built for the query, then holds the stored values of its field
(`Database.Indexed.exists_indexFor`).
-/

namespace SpatialStore

/-! ### Building an index -/

namespace IndexBuild

variable {settings : NodeSettings} {cancelled : Nat → Bool}

/-- Rows that are put in without being cancelled are inserted one after the other. -/
theorem fill_eq_some {total column i : Nat} {reports : List Float} {index built : ColumnIndex}
    {rows : List Row} (h : (fill cancelled total column reports index i rows).2 = some built) :
    built = ((rows.zipIdx i).filterMap fun r => r.1[column]?.map fun v => (r.2, v)).foldl
      (fun index v => index.insert v.1 v.2) index := by
  induction rows generalizing i reports index with
  | nil =>
    cases h
    rfl
  | cons row rows ih =>
    rw [List.zipIdx_cons, List.filterMap_cons]
    rw [fill] at h
    cases hv : row[column]? with
    | none =>
      rw [hv] at h
      split_ifs at h with hpoll hcancel
      · exact ih h
      · exact ih h
    | some v =>
      rw [hv] at h
      split_ifs at h with hpoll hcancel
      · exact ih h
      · exact ih h

/-- A build that succeeds yields the index over the rows of the source, on a field that can have
it. -/
theorem run_eq_ok {table field : String} {kind : IndexKind} {source : Source}
    {index : ColumnIndex}
    (h : (run settings table source field kind cancelled).result = .ok index) :
    ∃ i f, source.schema.indexOf? field = some i ∧ source.schema.fields[i]? = some f ∧
      kind.supports f.type = true ∧
      index = .build field kind settings (ColumnIndex.column source.rows i) := by
  have hcontent {α : Type} {a b : α} (h : source.whenAvailable a = .ok b) : b = a := by
    rw [Source.whenAvailable] at h
    split_ifs at h
    exact (Except.ok.inj h).symm
  rw [run] at h
  split at h
  · cases h
  next schema hschema =>
  split at h
  · cases h
  next i definition hfind =>
  split_ifs at h with hsupports
  split at h
  · cases h
  next rows hrows =>
  split at h
  · next reports built hfill =>
    cases h
    obtain rfl := hcontent hschema
    obtain rfl := hcontent hrows
    obtain ⟨_, hi, hpair⟩ := Option.bind_eq_some_iff.mp hfind
    obtain ⟨_, hf, hpair⟩ := Option.map_eq_some_iff.mp hpair
    cases hpair
    exact ⟨_, _, hi, hf, by simpa using hsupports, fill_eq_some (congrArg Prod.snd hfill)⟩
  · cases h

end IndexBuild

/-! ### Up-to-date indexes -/

namespace Database

/-- Every standing index is found under the name of its field and holds exactly what an index has
that is built over the present rows of the field: its entries are the same, and its nodes or keys
lead to these entries and to no others. -/
structure Indexed (db : Database) : Prop where
  field : ∀ {table field index}, db.indexes.get? table field = some index → index.field = field
  intact : ∀ {table field index}, db.indexes.get? table field = some index → index.Intact
  entries : ∀ {table field index source i}, db.indexes.get? table field = some index →
    db.source? table = some source → source.schema.indexOf? field = some i →
    index.entries = (ColumnIndex.build field index.kind db.settings.nodes
      (ColumnIndex.column source.rows i)).entries

variable {db : Database} {s : Scan} {rows : List Row} {path : AccessPath} {i : Nat}

/-- If the standing index for an access path is intact and holds some stored values, then so does
the index that is used, which is otherwise built from them. An index of the other kind is not
used. -/
theorem exists_indexFor (hi : s.schema.indexOf? path.field = some i)
    (hstanding : ∀ index, db.indexes.get? s.table path.field = some index →
      index.kind = path.kind → index.Intact ∧ index.field = path.field ∧ index.Holds (ColumnIndex.column rows i)) :
    ∃ index, db.indexFor s path rows = .ok index ∧ index.Intact ∧ index.field = path.field ∧
      index.kind = path.kind ∧ index.Holds (ColumnIndex.column rows i) := by
  rw [indexFor, hi]
  cases hfound : (db.indexes.get? s.table path.field).filter (·.kind == path.kind) with
  | some index =>
    obtain ⟨hget, hkind⟩ := Option.filter_eq_some_iff.mp hfound
    obtain ⟨hintact, hfield, hholds⟩ := hstanding index hget (beq_iff_eq.mp hkind)
    exact ⟨index, rfl, hintact, hfield, beq_iff_eq.mp hkind, hholds⟩
  | none =>
    have hnodup := ColumnIndex.nodup_column rows i
    obtain ⟨hholds, hfield, hkind⟩ :=
      ColumnIndex.holds_build path.field path.kind db.settings.nodes hnodup
    exact ⟨_, rfl, ColumnIndex.intact_build _ _ _ hnodup, hfield, hkind, hholds⟩

/-- The index for an access path is intact and holds the stored values of the field. -/
theorem Indexed.exists_indexFor (hdb : db.Indexed) (hs : db.Current s)
    (hrows : db.readScan s = .ok rows) (hi : s.schema.indexOf? path.field = some i) :
    ∃ index, db.indexFor s path rows = .ok index ∧ index.Intact ∧ index.field = path.field ∧
      index.kind = path.kind ∧ index.Holds (ColumnIndex.column rows i) := by
  obtain ⟨source, hsource, -, rfl⟩ := readScan_eq_ok.mp hrows
  obtain ⟨hschema, -⟩ := hs source hsource
  have hnodup := ColumnIndex.nodup_column source.rows i
  refine Database.exists_indexFor hi fun index hget _ => ⟨hdb.intact hget, hdb.field hget, ?_⟩
  -- the standing index has the entries of a built one, and these are the stored values
  obtain ⟨hholds, -, hkind⟩ :=
    ColumnIndex.holds_build path.field index.kind db.settings.nodes hnodup
  rw [ColumnIndex.holds_iff_perm hnodup, hdb.entries hget hsource (hschema ▸ hi)]
  have hperm := (ColumnIndex.holds_iff_perm hnodup).mp hholds
  rwa [hkind] at hperm

theorem indexed_of_empty (h : db.indexes = .empty) : db.Indexed := by
  have hnone (table field : String) : db.indexes.get? table field = none := by
    rw [h]
    simp [IndexRegistry.get?, IndexRegistry.ofTable, IndexRegistry.empty]
  refine ⟨fun hget => ?_, fun hget => ?_, fun hget => ?_⟩ <;> rw [hnone] at hget <;> cases hget

/-- Building an index on a field that can have it changes nothing else. -/
theorem buildIndex_eq_ok {db' : Database} {table field : String} {kind : IndexKind}
    {cancelled : Nat → Bool}
    (h : (db.buildIndex table field kind cancelled).2 = .ok db') :
    ∃ source i f, db.source? table = some source ∧ source.schema.indexOf? field = some i ∧
      source.schema.fields[i]? = some f ∧ kind.supports f.type = true ∧ db' = { db with
        indexes := db.indexes.put table field
          (.build field kind db.settings.nodes (ColumnIndex.column source.rows i)) } := by
  rw [Database.buildIndex] at h
  cases hsource : db.source? table with
  | none =>
    rw [hsource] at h
    cases h
  | some source =>
    rw [hsource] at h
    obtain ⟨index, hindex, rfl⟩ := Result.map_eq_ok.mp h
    obtain ⟨i, f, hi, hf, hsupports, rfl⟩ := IndexBuild.run_eq_ok hindex
    exact ⟨source, i, f, rfl, hi, hf, hsupports, rfl⟩

/-- Building an index keeps the indexes up to date. -/
theorem Indexed.buildIndex (hdb : db.Indexed) {table field : String} {kind : IndexKind}
    {cancelled : Nat → Bool} {db' : Database}
    (h : (db.buildIndex table field kind cancelled).2 = .ok db') : db'.Indexed := by
  obtain ⟨source, i, -, hsource, hi, -, -, rfl⟩ := buildIndex_eq_ok h
  have hnodup := ColumnIndex.nodup_column source.rows i
  obtain ⟨-, hfield, hkind⟩ := ColumnIndex.holds_build field kind db.settings.nodes hnodup
  constructor
  · intro t f other hget
    rw [IndexRegistry.get?_put] at hget
    split_ifs at hget with hsame
    · cases hget
      rw [hfield, hsame.2]
    · exact hdb.field hget
  · intro t f other hget
    rw [IndexRegistry.get?_put] at hget
    split_ifs at hget with hsame
    · cases hget
      exact ColumnIndex.intact_build _ _ _ hnodup
    · exact hdb.intact hget
  · intro t f other present j hget hpresent hj
    rw [IndexRegistry.get?_put] at hget
    split_ifs at hget with hsame
    · cases hget
      obtain ⟨rfl, rfl⟩ := hsame
      change db.source? t = some present at hpresent
      rw [hsource] at hpresent
      cases hpresent
      rw [hi] at hj
      cases hj
      rw [hkind]
    · exact hdb.entries hget hpresent hj

end Database

end SpatialStore
