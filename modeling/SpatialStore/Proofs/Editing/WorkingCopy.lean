import Mathlib.Data.List.Perm.Basic
import SpatialStore.Editing.WorkingCopy
import SpatialStore.Proofs.Index.Entries
import SpatialStore.Proofs.Schema.Names

/-!
# Fresh working copies

The *view* of a working copy is what can be seen of it from outside: its schema, its rows with
their ids, and which fields are indexed by what kind of index. A copy is *fresh* when its view is
proper and every index holds the values of its field (`WorkingCopy.Fresh`). The entries of a fresh
copy are determined by its view, so two fresh copies with the same view are the same for every
reader (`Fresh.alike`).

Each operation on a fresh copy succeeds under the conditions that the editing session checks, and
leaves a fresh copy with a view that is given in the theorem. Nothing more is needed of the
operations later on.
-/

namespace SpatialStore

/-! ### Columns of numbered rows -/

/-- The values in a column, with the ids of their rows. -/
def NumberedRow.cells (rows : List NumberedRow) (c : Nat) : List (RowId × Value) :=
  rows.filterMap fun r => r.values[c]?.map fun v => (r.id, v)

namespace NumberedRow

variable {rows rest : List NumberedRow} {r : NumberedRow} {c i : Nat} {id : RowId} {v : Value}

theorem mem_cells : (id, v) ∈ cells rows c ↔ ∃ r ∈ rows, r.id = id ∧ r.values[c]? = some v := by
  simp [cells, List.mem_filterMap, and_comm]

theorem cells_perm (h : rows.Perm rest) (c : Nat) : (cells rows c).Perm (cells rest c) :=
  h.filterMap _

theorem cells_cons (h : r.values[c]? = some v) :
    cells (r :: rest) c = (r.id, v) :: cells rest c := by
  rw [cells, List.filterMap_cons, h]
  rfl

theorem ne_of_mem_cells (h : (id, v) ∈ cells rows c) (hr : r.id ∉ rows.map (·.id)) :
    id ≠ r.id := by
  obtain ⟨s, hs, rfl, -⟩ := mem_cells.mp h
  exact fun heq => hr (List.mem_map.mpr ⟨s, hs, heq⟩)

theorem filter_cells (hr : r.id ∉ rows.map (·.id)) :
    (cells rows c).filter (·.1 != r.id) = cells rows c :=
  List.filter_eq_self.mpr fun _ hv => bne_iff_ne.mpr (ne_of_mem_cells hv hr)

theorem nodup_cells (h : (rows.map (·.id)).Nodup) (c : Nat) : ((cells rows c).map (·.1)).Nodup :=
  h.sublist (tags_sublist _ _ rows)

/-- A changed row that has the same value in a column. -/
theorem cells_set (new : NumberedRow) (hi : i < rows.length) (hid : new.id = rows[i].id)
    (hnew : new.values[c]? = rows[i].values[c]?) : cells (rows.set i new) c = cells rows c := by
  let cell (r : NumberedRow) : Option (RowId × Value) := r.values[c]?.map fun v => (r.id, v)
  have hi' : i < (rows.map cell).length := by rwa [List.length_map]
  have hcell : cell new = (rows.map cell)[i] := by
    rw [List.getElem_map]
    simp only [cell, hid, hnew]
  have hmap : (rows.set i new).map cell = rows.map cell := by
    rw [List.map_set, hcell, List.set_getElem_self]
  have hcells (rows : List NumberedRow) : cells rows c = (rows.map cell).filterMap (fun x => x) := by
    rw [List.filterMap_map]
    rfl
  rw [hcells, hcells, hmap]

/-- Stored rows, whose ids are their positions. -/
def byPosition (rows : List Row) : List NumberedRow := rows.zipIdx.map fun r => ⟨r.2, r.1⟩

theorem length_byPosition (rows : List Row) : (byPosition rows).length = rows.length := by
  rw [byPosition, List.length_map, List.length_zipIdx]

theorem ids_byPosition (rows : List Row) :
    (byPosition rows).map (·.id) = List.range rows.length := by
  rw [byPosition, List.map_map, List.range_eq_range', ← List.zipIdx_map_snd]
  rfl

theorem values_byPosition (rows : List Row) : (byPosition rows).map (·.values) = rows := by
  rw [byPosition, List.map_map]
  exact List.zipIdx_map_fst 0 rows

theorem cells_byPosition (rows : List Row) (c : Nat) :
    cells (byPosition rows) c = ColumnIndex.column rows c := by
  rw [cells, ColumnIndex.column, byPosition, List.filterMap_map]
  rfl

/-- A change of the values that leaves a column alone. -/
theorem cells_map {change : NumberedRow → Row} {d : Nat}
    (h : ∀ r ∈ rows, (change r)[d]? = r.values[c]?) :
    cells (rows.map fun r => { r with values := change r }) d = cells rows c := by
  rw [cells, cells, List.filterMap_map]
  refine List.filterMap_congr fun r hr => ?_
  change Option.map _ (change r)[d]? = _
  rw [h r hr]

end NumberedRow

namespace ColumnIndex

open NumberedRow (cells)

variable {index : ColumnIndex} {rest : List NumberedRow} {r : NumberedRow} {c : Nat} {v : Value}

theorem Holds.insert_row (h : index.Holds (cells rest c)) (hr : r.id ∉ rest.map (·.id))
    (hv : r.values[c]? = some v) : (index.insert r.id v).Holds (cells (r :: rest) c) := by
  rw [NumberedRow.cells_cons hv, ← NumberedRow.filter_cells hr]
  exact h.insert r.id v

theorem Holds.erase_row (h : index.Holds (cells (r :: rest) c)) (hr : r.id ∉ rest.map (·.id))
    (hv : r.values[c]? = some v) : (index.erase r.id).Holds (cells rest c) := by
  have herase := h.erase r.id
  rwa [NumberedRow.cells_cons hv, List.filter_cons_of_neg (by simp),
    NumberedRow.filter_cells hr] at herase

theorem Holds.replace_row {former : Value} {values : Row} (h : index.Holds (cells (r :: rest) c))
    (hr : r.id ∉ rest.map (·.id)) (hformer : r.values[c]? = some former)
    (hv : values[c]? = some v) :
    (index.insert r.id v).Holds (cells ({ r with values } :: rest) c) := by
  have hinsert := h.insert r.id v
  rw [NumberedRow.cells_cons hformer, List.filter_cons_of_neg (by simp),
    NumberedRow.filter_cells hr] at hinsert
  rwa [NumberedRow.cells_cons (r := { r with values }) hv]

theorem Holds.perm {values others : List (RowId × Value)} (h : index.Holds values)
    (hperm : values.Perm others) : index.Holds others :=
  h.of_mem_iff fun _ => hperm.mem_iff

end ColumnIndex

/-! ### Views -/

/-- What can be seen of a working copy: schema, rows, and the kinds of the indexes by field. -/
structure WorkingCopy.View where
  schema : Schema
  rows : List NumberedRow
  kinds : String → Option IndexKind

/-- The field names are different, the rows as wide as the schema, and their ids different. -/
structure WorkingCopy.View.Proper (x : WorkingCopy.View) : Prop where
  schema : x.schema.Proper
  width : ∀ r ∈ x.rows, r.values.length = x.schema.count
  ids : (x.rows.map (·.id)).Nodup

/-- Without one of them the rows still have different ids, and none has that of the missing one. -/
theorem WorkingCopy.View.Proper.ids_eraseIdx {x : WorkingCopy.View} {i : Nat} (hx : x.Proper)
    (hi : i < x.rows.length) :
    x.rows[i].id ∉ (x.rows.eraseIdx i).map (·.id) ∧ ((x.rows.eraseIdx i).map (·.id)).Nodup := by
  have hperm : (x.rows[i] :: x.rows.eraseIdx i).Perm x.rows := List.getElem_cons_eraseIdx_perm hi
  have hids : ((x.rows[i] :: x.rows.eraseIdx i).map (·.id)).Nodup :=
    (hperm.map _).nodup_iff.mpr hx.ids
  exact List.nodup_cons.mp hids

/-- The index goes by the name of its field, which is one of the schema, and has exactly the entries
of the rows with a value in the column that leads to one. -/
structure ColumnIndex.Serves (index : ColumnIndex) (schema : Schema) (rows : List NumberedRow)
    (name : String) : Prop where
  field : index.field = name
  entries : ∃ c, schema.indexOf? name = some c ∧
    index.entries.Perm (IndexEntry.ofValues index.kind (NumberedRow.cells rows c))

/-- An index that is built over a column of stored rows serves it. -/
theorem ColumnIndex.serves_build {schema : Schema} {name : String} {c : Nat}
    (hc : schema.indexOf? name = some c) (kind : IndexKind) (settings : NodeSettings)
    (rows : List Row) :
    (build name kind settings (column rows c)).Serves schema (NumberedRow.byPosition rows)
      name := by
  have hnodup := nodup_column rows c
  obtain ⟨hholds, hfield, -⟩ := holds_build name kind settings hnodup
  refine ⟨hfield, c, hc, ?_⟩
  rw [NumberedRow.cells_byPosition]
  exact (holds_iff_perm hnodup).mp hholds

namespace WorkingCopy

open NumberedRow (cells)

/-- The view of a working copy. -/
def view (b : WorkingCopy) : View :=
  ⟨b.schema, b.rows, fun name => b.indexes[name]?.map (·.kind)⟩

theorem view_eq {b : WorkingCopy} {y : View} (hschema : b.schema = y.schema)
    (hrows : b.rows = y.rows)
    (hkinds : ∀ name : String, b.indexes[name]?.map (·.kind) = y.kinds name) : b.view = y := by
  rw [view, hschema, hrows, funext hkinds]

/-- The view is proper, and every index holds the values of its field. -/
structure Fresh (b : WorkingCopy) : Prop where
  proper : b.view.Proper
  field : ∀ {name : String} {index : ColumnIndex}, b.indexes[name]? = some index →
    index.field = name
  holds : ∀ {name : String} {index : ColumnIndex}, b.indexes[name]? = some index →
    ∃ c f, b.schema.fields[c]? = some f ∧ f.name = name ∧ index.Holds (cells b.rows c)

/-- Two copies that no reader can tell apart: schema, rows with ids, and the indexes with their
field names and entries. -/
structure Alike (a b : WorkingCopy) : Prop where
  schema : a.schema = b.schema
  rows : a.rows = b.rows
  indexes : ∀ name : String,
    a.indexes[name]?.map (fun index => (index.kind, index.field, index.entries)) =
      b.indexes[name]?.map fun index => (index.kind, index.field, index.entries)

variable {a b : WorkingCopy} {i c : Nat} {id : RowId} {row : Row} {r : NumberedRow} {f : Field}
  {name : String} {index : ColumnIndex}

theorem Fresh.schema_proper (hb : b.Fresh) : b.schema.Proper := hb.proper.schema

theorem Fresh.serves (hb : b.Fresh) (h : b.indexes[name]? = some index) :
    index.Serves b.schema b.rows name := by
  obtain ⟨c, f, hf, hname, hholds⟩ := hb.holds h
  refine ⟨hb.field h, c, hb.schema_proper.indexOf?_eq_some_iff.mpr ⟨f, hf, hname⟩, ?_⟩
  exact (ColumnIndex.holds_iff_perm (NumberedRow.nodup_cells hb.proper.ids c)).mp hholds

/-- The other way round, indexes that serve their fields make a copy fresh. -/
theorem fresh_of_serves (hproper : b.view.Proper)
    (h : ∀ {name : String} {index : ColumnIndex}, b.indexes[name]? = some index →
      index.Serves b.schema b.rows name) :
    b.Fresh := by
  refine ⟨hproper, fun hindex => (h hindex).field, fun hindex => ?_⟩
  obtain ⟨c, hc, hperm⟩ := (h hindex).entries
  obtain ⟨f, hf, hname⟩ := Schema.exists_field_of_indexOf? hc
  refine ⟨c, f, hf, hname, ?_⟩
  exact (ColumnIndex.holds_iff_perm (NumberedRow.nodup_cells hproper.ids c)).mpr hperm

/-- Only fields of the schema are indexed. -/
theorem Fresh.mem_names (hb : b.Fresh) (h : b.indexes[name]? = some index) :
    name ∈ b.schema.names := by
  obtain ⟨c, f, hf, rfl, -⟩ := hb.holds h
  exact Schema.mem_names_of_getElem? hf

theorem Fresh.getElem?_eq_none (hb : b.Fresh) (h : name ∉ b.schema.names) :
    b.indexes[name]? = none :=
  Option.eq_none_iff_forall_ne_some.mpr fun _ hindex => h (hb.mem_names hindex)

theorem Fresh.kinds_eq_none (hb : b.Fresh) (h : name ∉ b.schema.names) :
    b.view.kinds name = none :=
  congrArg (Option.map ColumnIndex.kind) (hb.getElem?_eq_none h)

/-- An index with some values is determined by its kind. -/
private theorem entries_eq {x y : ColumnIndex} {values : List (RowId × Value)}
    (hx : x.Holds values) (hy : y.Holds values) (hkind : x.kind = y.kind) :
    x.entries = y.entries := by
  refine ColumnIndex.entries_congr fun id => ?_
  by_cases hid : ∃ v ∈ values, v.1 = id
  · obtain ⟨v, hv, rfl⟩ := hid
    rw [hx.known v hv, hy.known v hv, hkind]
  · have hunknown : ∀ v ∈ values, v.1 ≠ id := fun v hv hvid => hid ⟨v, hv, hvid⟩
    rw [hx.unknown id hunknown, hy.unknown id hunknown]

/-- Fresh copies with the same view are alike. -/
theorem Fresh.alike (ha : a.Fresh) (hb : b.Fresh) (h : a.view = b.view) : a.Alike b := by
  have hschema : a.schema = b.schema := congrArg View.schema h
  have hrows : a.rows = b.rows := congrArg View.rows h
  refine ⟨hschema, hrows, fun name => ?_⟩
  have hkind : a.indexes[name]?.map (·.kind) = b.indexes[name]?.map (·.kind) :=
    congrFun (congrArg View.kinds h) name
  cases hx : a.indexes[name]? with
  | none =>
    rw [hx, Option.map_none, eq_comm, Option.map_eq_none_iff] at hkind
    rw [hkind]
  | some x =>
    rw [hx, Option.map_some, eq_comm, Option.map_eq_some_iff] at hkind
    obtain ⟨y, hy, hkind⟩ := hkind
    obtain ⟨c, f, hf, hname, hholds⟩ := ha.holds hx
    obtain ⟨d, g, hg, hname', hholds'⟩ := hb.holds hy
    rw [← hschema] at hg
    obtain rfl := ha.schema_proper.inj hf hg (hname.trans hname'.symm)
    rw [← hrows] at hholds'
    rw [hy, Option.map_some, Option.map_some, hkind, ha.field hx, hb.field hy,
      entries_eq hholds hholds' hkind.symm]

/-! ### Operations -/

/-- The operation succeeds with a fresh copy of a given view, and uses up no id. -/
def Yields (b : WorkingCopy) (result : Except EditError WorkingCopy) (y : View) : Prop :=
  ∃ b', result = .ok b' ∧ b'.Fresh ∧ b'.view = y ∧ b'.nextId = b.nextId

theorem Fresh.row_width (hb : b.Fresh) (hr : r ∈ b.rows) : r.values.length = b.schema.count :=
  hb.proper.width r hr

/-- Every row has a value in the column of a field. -/
theorem Fresh.exists_value (hb : b.Fresh) (hf : b.schema.fields[c]? = some f) (hr : r ∈ b.rows) :
    ∃ v, r.values[c]? = some v := by
  obtain ⟨hlt, -⟩ := List.getElem?_eq_some_iff.mp hf
  exact ⟨_, List.getElem?_eq_getElem ((hb.row_width hr).symm ▸ hlt)⟩

theorem Fresh.insertRow (hb : b.Fresh) (hi : i ≤ b.rows.length) (hid : id ∉ b.rows.map (·.id))
    (hwidth : row.length = b.schema.count) :
    b.Yields (b.insertRow i id row)
      { b.view with rows := b.rows.insertIdx i ⟨id, row⟩ } := by
  have hperm : (b.rows.insertIdx i ⟨id, row⟩).Perm (⟨id, row⟩ :: b.rows) :=
    List.perm_insertIdx _ _ hi
  -- every index is on a field, so the new row has a value for it
  have hindex {name : String} {index : ColumnIndex} (h : b.indexes[name]? = some index) :
      ∃ c f v, b.schema.fields[c]? = some f ∧ f.name = name ∧ row[c]? = some v ∧
        b.schema.indexOf? name = some c ∧ index.Holds (cells b.rows c) := by
    obtain ⟨c, f, hf, hname, hholds⟩ := hb.holds h
    obtain ⟨hlt, -⟩ := List.getElem?_eq_some_iff.mp hf
    exact ⟨c, f, _, hf, hname, List.getElem?_eq_getElem (hwidth.symm ▸ hlt),
      hb.schema_proper.indexOf?_eq_some_iff.mpr ⟨f, hf, hname⟩, hholds⟩
  rw [Yields, WorkingCopy.insertRow, rowCount, if_neg (Nat.not_lt.mpr hi)]
  refine ⟨_, rfl, ⟨⟨hb.proper.schema, fun r hr => ?_, ?_⟩, fun {name index} h => ?_,
    fun {name index} h => ?_⟩, ?_, rfl⟩
  · rcases List.mem_cons.mp (hperm.mem_iff.mp hr) with rfl | hr
    · exact hwidth
    · exact hb.row_width hr
  · exact (hperm.map _).nodup_iff.mpr (List.nodup_cons.mpr ⟨hid, hb.proper.ids⟩)
  · rw [Std.ExtTreeMap.getElem?_map] at h
    obtain ⟨former, hformer, rfl⟩ := Option.map_eq_some_iff.mp h
    obtain ⟨c, f, v, -, -, hv, hc, -⟩ := hindex hformer
    simp only [hc, Option.bind_some, hv, ColumnIndex.field_insert]
    exact hb.field hformer
  · rw [Std.ExtTreeMap.getElem?_map] at h
    obtain ⟨former, hformer, rfl⟩ := Option.map_eq_some_iff.mp h
    obtain ⟨c, f, v, hf, hname, hv, hc, hholds⟩ := hindex hformer
    refine ⟨c, f, hf, hname, ?_⟩
    simp only [hc, Option.bind_some, hv]
    exact (ColumnIndex.Holds.insert_row (r := ⟨id, row⟩) hholds hid hv).perm
      (NumberedRow.cells_perm hperm.symm c)
  · refine view_eq rfl rfl fun name => ?_
    change Option.map _ _ = b.indexes[name]?.map (·.kind)
    rw [Std.ExtTreeMap.getElem?_map, Option.map_map]
    cases h : b.indexes[name]? with
    | none => rfl
    | some index =>
      obtain ⟨c, f, v, -, -, hv, hc, -⟩ := hindex h
      simp [hc, hv]

theorem Fresh.removeRow (hb : b.Fresh) (hr : b.rows[i]? = some r) :
    b.Yields (b.removeRow i) { b.view with rows := b.rows.eraseIdx i } := by
  obtain ⟨hlt, rfl⟩ := List.getElem?_eq_some_iff.mp hr
  have hperm : (b.rows[i] :: b.rows.eraseIdx i).Perm b.rows := List.getElem_cons_eraseIdx_perm hlt
  obtain ⟨hid, hids⟩ := hb.proper.ids_eraseIdx hlt
  have hremove : b.removeRow i = .ok { b with
      rows := b.rows.eraseIdx i
      indexes := b.indexes.map fun _ index => index.erase b.rows[i].id } := by
    rw [WorkingCopy.removeRow, WorkingCopy.row, hr]
    rfl
  refine ⟨_, hremove, ⟨⟨hb.proper.schema, fun r hr => ?_, hids⟩, fun {name index} h => ?_,
    fun {name index} h => ?_⟩, ?_, rfl⟩
  · exact hb.row_width (List.mem_of_mem_eraseIdx hr)
  · rw [Std.ExtTreeMap.getElem?_map] at h
    obtain ⟨former, hformer, rfl⟩ := Option.map_eq_some_iff.mp h
    rw [ColumnIndex.field_erase, hb.field hformer]
  · rw [Std.ExtTreeMap.getElem?_map] at h
    obtain ⟨former, hformer, rfl⟩ := Option.map_eq_some_iff.mp h
    obtain ⟨c, f, hf, hname, hholds⟩ := hb.holds hformer
    obtain ⟨v, hv⟩ := hb.exists_value hf (List.mem_of_getElem? hr)
    refine ⟨c, f, hf, hname, ?_⟩
    exact (hholds.perm (NumberedRow.cells_perm hperm.symm c)).erase_row hid hv
  · refine view_eq rfl rfl fun name => ?_
    rw [Std.ExtTreeMap.getElem?_map, Option.map_map]
    exact congrArg (Option.map · _) (funext fun index => ColumnIndex.kind_erase index _)

/-- After a value was stored, the index of the field has taken it, and the others still hold the
values of their fields. -/
private theorem Fresh.holds_setValue (hb : b.Fresh) (hlt : i < b.rows.length)
    (hc : c < b.rows[i].values.length) (hf : b.schema.fields[c]? = some f) {v : Value}
    (h : (b.indexes.modify f.name fun index => index.insert b.rows[i].id v)[name]? = some index) :
    index.field = name ∧ ∃ d g, b.schema.fields[d]? = some g ∧ g.name = name ∧
      index.Holds (cells
        (b.rows.set i { b.rows[i] with values := b.rows[i].values.set c v }) d) := by
  have hperm : (b.rows[i] :: b.rows.eraseIdx i).Perm b.rows := List.getElem_cons_eraseIdx_perm hlt
  have hperm' : ({ b.rows[i] with values := b.rows[i].values.set c v } ::
      b.rows.eraseIdx i).Perm (b.rows.set i { b.rows[i] with values := b.rows[i].values.set c v }) :=
    (List.set_perm_cons_eraseIdx hlt _).symm
  obtain ⟨hid, -⟩ := hb.proper.ids_eraseIdx hlt
  rw [Maps.getElem?_modify] at h
  split_ifs at h with hname
  · obtain ⟨former, hformer, rfl⟩ := Option.map_eq_some_iff.mp h
    subst hname
    refine ⟨(ColumnIndex.field_insert _ _ _).trans (hb.field hformer), c, f, hf, rfl, ?_⟩
    obtain ⟨d, g, hg, hgname, hholds⟩ := hb.holds hformer
    obtain rfl := hb.schema_proper.inj hg hf hgname
    have hold : b.rows[i].values[d]? = some b.rows[i].values[d] := List.getElem?_eq_getElem hc
    have hnew : (b.rows[i].values.set d v)[d]? = some v := List.getElem?_set_self hc
    have hfirst := hholds.perm (NumberedRow.cells_perm hperm.symm d)
    exact (hfirst.replace_row hid hold hnew).perm (NumberedRow.cells_perm hperm' d)
  · obtain ⟨d, g, hg, hgname, hholds⟩ := hb.holds h
    refine ⟨hb.field h, d, g, hg, hgname, ?_⟩
    have hd : c ≠ d := by
      rintro rfl
      rw [hf] at hg
      obtain rfl := Option.some.inj hg
      exact hname hgname.symm
    have hcells := NumberedRow.cells_set
      { b.rows[i] with values := b.rows[i].values.set c v } hlt rfl (List.getElem?_set_ne hd)
    rwa [hcells]

theorem Fresh.setValue {former : Value} (hb : b.Fresh) (hr : b.rows[i]? = some r)
    (hformer : r.values[c]? = some former) (v : Value) :
    b.Yields (b.setValue i c v)
      { b.view with rows := b.rows.set i { r with values := r.values.set c v } } := by
  obtain ⟨hlt, rfl⟩ := List.getElem?_eq_some_iff.mp hr
  obtain ⟨hc, -⟩ := List.getElem?_eq_some_iff.mp hformer
  have hwidth := hb.row_width (List.mem_of_getElem? hr)
  obtain ⟨f, hf⟩ : ∃ f, b.schema.fields[c]? = some f :=
    ⟨_, List.getElem?_eq_getElem (Nat.lt_of_lt_of_eq hc hwidth)⟩
  have hset : b.setValue i c v = .ok { b with
      rows := b.rows.set i { b.rows[i] with values := b.rows[i].values.set c v }
      indexes := b.indexes.modify f.name fun index => index.insert b.rows[i].id v } := by
    have hfield : b.schema.field? c = some f := hf
    rw [WorkingCopy.setValue, WorkingCopy.row, hr]
    simp only [bind, Except.bind]
    rw [hformer, hfield]
    rfl
  have hids : (b.rows.set i { b.rows[i] with values := b.rows[i].values.set c v }).map (·.id) =
      b.rows.map (·.id) := by
    have hlt' : i < (b.rows.map (·.id)).length := by rwa [List.length_map]
    have hself : (b.rows.map (·.id))[i] = b.rows[i].id := List.getElem_map _
    rw [List.map_set, ← hself, List.set_getElem_self]
  refine ⟨_, hset, ⟨⟨hb.proper.schema, fun r hr => ?_, hids.symm ▸ hb.proper.ids⟩,
    fun {name index} h => (hb.holds_setValue hlt hc hf h).1,
    fun {name index} h => (hb.holds_setValue hlt hc hf h).2⟩, ?_, rfl⟩
  · rcases List.mem_or_eq_of_mem_set hr with hr | rfl
    · exact hb.row_width hr
    · exact List.length_set.trans hwidth
  · refine view_eq rfl rfl fun name => ?_
    rw [Maps.getElem?_modify]
    split_ifs with hname
    · rw [Option.map_map]
      exact congrArg (Option.map · _) (funext fun index => ColumnIndex.kind_insert index _ v)
    · rfl

theorem Fresh.insertColumn (hb : b.Fresh) (hi : i ≤ b.schema.count) (hf : f.name ∉ b.schema.names)
    (values : List Value) :
    b.Yields (b.insertColumn i f values)
      { b.view with
        schema := ⟨b.schema.fields.insertIdx i f⟩
        rows := b.rows.zipIdx.map fun r =>
          { r.1 with values := r.1.values.insertIdx i (padded values r.2) } } := by
  have hids : ((b.rows.zipIdx.map fun r =>
      { r.1 with values := r.1.values.insertIdx i (padded values r.2) : NumberedRow }).map (·.id)) =
        b.rows.map (·.id) := by
    rw [List.map_map, ← List.zipIdx_map_fst 0 b.rows, List.map_map, List.zipIdx_map_fst]
    rfl
  have hmem {r : NumberedRow} {k : Nat} (h : (r, k) ∈ b.rows.zipIdx) : r ∈ b.rows :=
    List.mem_of_getElem? (List.mem_zipIdx_iff_getElem?.mp h)
  rw [Yields, WorkingCopy.insertColumn, Schema.insertField_eq_ok_iff.mpr ⟨hi, hf, rfl⟩]
  refine ⟨_, rfl, ⟨⟨hb.schema_proper.insertIdx hi hf, fun r hr => ?_, hids.symm ▸ hb.proper.ids⟩,
    hb.field, fun {name index} h => ?_⟩, rfl, rfl⟩
  · obtain ⟨⟨r, k⟩, hrk, rfl⟩ := List.mem_map.mp hr
    have hwidth := hb.row_width (hmem hrk)
    refine (List.length_insertIdx_of_le_length (hwidth ▸ hi) _).trans ?_
    rw [hwidth]
    exact (List.length_insertIdx_of_le_length hi _).symm
  · obtain ⟨c, g, hg, hname, hholds⟩ := hb.holds h
    -- columns from the new one on have moved by one
    refine ⟨if c < i then c else c + 1, g, ?_, hname, ?_⟩
    · rw [List.getElem?_insertIdx]
      split_ifs with hlt hge hge <;> first | exact hg | omega
    · have hcells : cells (b.rows.zipIdx.map fun r =>
          { r.1 with values := r.1.values.insertIdx i (padded values r.2) })
            (if c < i then c else c + 1) = cells b.rows c := by
        rw [cells, cells, List.filterMap_map]
        conv_rhs => rw [← List.zipIdx_map_fst 0 b.rows, List.filterMap_map]
        refine List.filterMap_congr fun ⟨r, k⟩ hr => ?_
        have hwidth := hb.row_width (hmem hr)
        simp only [Function.comp_apply]
        rw [List.getElem?_insertIdx]
        split_ifs with hlt hge hge <;> first | rfl | omega
      rwa [hcells]

theorem Fresh.removeColumn (hb : b.Fresh) (hf : b.schema.fields[i]? = some f) :
    b.Yields (b.removeColumn i)
      { schema := ⟨b.schema.fields.eraseIdx i⟩
        rows := b.rows.map fun r => { r with values := r.values.eraseIdx i }
        kinds := fun name => if name = f.name then none else b.view.kinds name } := by
  have hfield : b.schema.removeField i = .ok (f, ⟨b.schema.fields.eraseIdx i⟩) := by
    have hfield : b.schema.field? i = some f := hf
    rw [Schema.removeField, hfield]
  have hget := Maps.getElem?_erase b.indexes f.name
  obtain ⟨hlt, -⟩ := List.getElem?_eq_some_iff.mp hf
  rw [Yields, WorkingCopy.removeColumn, hfield]
  refine ⟨_, rfl, ⟨⟨hb.schema_proper.eraseIdx i, fun r hr => ?_, ?_⟩, fun {name index} h => ?_,
    fun {name index} h => ?_⟩, ?_, rfl⟩
  · obtain ⟨s, hs, rfl⟩ := List.mem_map.mp hr
    have hwidth := hb.row_width hs
    refine (List.length_eraseIdx_of_lt (Nat.lt_of_lt_of_eq hlt hwidth.symm)).trans ?_
    rw [hwidth]
    exact (List.length_eraseIdx_of_lt hlt).symm
  · have hids : (b.rows.map fun r => { r with values := r.values.eraseIdx i }).map (·.id) =
        b.rows.map (·.id) := List.map_map
    exact hids.symm ▸ hb.proper.ids
  · rw [hget] at h
    split_ifs at h
    exact hb.field h
  · rw [hget] at h
    split_ifs at h with hne
    obtain ⟨c, g, hg, hname, hholds⟩ := hb.holds h
    have hci : c ≠ i := by
      rintro rfl
      rw [hf] at hg
      obtain rfl := Option.some.inj hg
      exact hne hname.symm
    -- columns behind the removed one have moved by one
    refine ⟨if c < i then c else c - 1, g, ?_, hname, ?_⟩
    · rw [List.getElem?_eraseIdx]
      split_ifs with hlt'
      · exact hg
      · omega
      · have hback : c - 1 + 1 = c := by omega
        rwa [hback]
    · rw [NumberedRow.cells_map (c := c)]
      · exact hholds
      · intro r hr
        rw [List.getElem?_eraseIdx]
        split_ifs with hlt'
        · rfl
        · omega
        · have hback : c - 1 + 1 = c := by omega
          rw [hback]
  · refine view_eq rfl rfl fun name => ?_
    rw [hget]
    dsimp only
    split_ifs <;> rfl

/-- After a renaming the index of the former name goes by the new one, the others by their own. -/
private theorem Fresh.getElem?_renamed (hb : b.Fresh)
    (hname : name = f.name ∨ name ∉ b.schema.names) (k : String) :
    (match b.indexes[f.name]? with
      | none => b.indexes
      | some index => (b.indexes.erase f.name).insert name { index with field := name })[k]? =
    if k = name then b.indexes[f.name]?.map fun index => { index with field := name }
    else if k = f.name then none else b.indexes[k]? := by
  cases h : b.indexes[f.name]? with
  | none =>
    dsimp only
    split_ifs with hk hk'
    · rw [hk]
      rcases hname with rfl | hname
      · exact h
      · exact hb.getElem?_eq_none hname
    · rw [hk', h]
    · rfl
  | some index =>
    dsimp only
    rw [Maps.getElem?_insert, Maps.getElem?_erase]
    rfl

theorem Fresh.renameColumn (hb : b.Fresh) (hf : b.schema.fields[i]? = some f)
    (hname : name = f.name ∨ name ∉ b.schema.names) :
    b.Yields (b.renameColumn i f.name name)
      { b.view with
        schema := ⟨b.schema.fields.set i { f with name }⟩
        kinds := fun k =>
          if k = name then b.view.kinds f.name
          else if k = f.name then none else b.view.kinds k } := by
  obtain ⟨hlt, -⟩ := List.getElem?_eq_some_iff.mp hf
  have hget := hb.getElem?_renamed hname
  rw [Yields, WorkingCopy.renameColumn, hb.schema_proper.renameField_eq_ok hf hname]
  refine ⟨_, rfl, ⟨⟨hb.schema_proper.rename hf hname, fun r hr => ?_, hb.proper.ids⟩,
    fun {k index} h => ?_, fun {k index} h => ?_⟩, ?_, rfl⟩
  · exact (hb.row_width hr).trans List.length_set.symm
  · replace h := (hget k).symm.trans h
    split_ifs at h with hk
    · obtain ⟨former, -, rfl⟩ := Option.map_eq_some_iff.mp h
      exact hk.symm
    · exact hb.field h
  · replace h := (hget k).symm.trans h
    split_ifs at h with hk hk'
    · obtain ⟨former, hformer, rfl⟩ := Option.map_eq_some_iff.mp h
      obtain ⟨c, g, hg, hgname, hholds⟩ := hb.holds hformer
      obtain rfl := hb.schema_proper.inj hg hf hgname
      exact ⟨c, { f with name }, List.getElem?_set_self hlt, hk.symm,
        ⟨hholds.known, hholds.unknown⟩⟩
    · obtain ⟨c, g, hg, hgname, hholds⟩ := hb.holds h
      have hic : i ≠ c := by
        rintro rfl
        rw [hf] at hg
        obtain rfl := Option.some.inj hg
        exact hk' hgname.symm
      exact ⟨c, g, (List.getElem?_set_ne hic).trans hg, hgname, hholds⟩
  · refine view_eq rfl rfl fun k => (congrArg (Option.map _) (hget k)).trans ?_
    dsimp only
    split_ifs
    · rw [Option.map_map]
      rfl
    · rfl
    · rfl

/-- An index that holds the values of a field without index can be put there. -/
theorem Fresh.insertIndex (hb : b.Fresh) (hf : b.schema.fields[i]? = some f)
    (hfield : index.field = f.name) (hholds : index.Holds (cells b.rows i)) :
    b.Yields (.ok { b with indexes := b.indexes.insert f.name index })
      { b.view with
        kinds := fun k => if k = f.name then some index.kind else b.view.kinds k } := by
  have hget (name : String) := Maps.getElem?_insert b.indexes f.name name index
  refine ⟨_, rfl, ⟨⟨hb.proper.schema, hb.proper.width, hb.proper.ids⟩, fun {name former} h => ?_,
    fun {name former} h => ?_⟩, ?_, rfl⟩
  · rw [hget] at h
    split_ifs at h with hname
    · obtain rfl := Option.some.inj h
      rw [hname, hfield]
    · exact hb.field h
  · rw [hget] at h
    split_ifs at h with hname
    · obtain rfl := Option.some.inj h
      exact ⟨i, f, hf, hname.symm, hholds⟩
    · exact hb.holds h
  · refine view_eq rfl rfl fun name => ?_
    rw [hget]
    dsimp only
    split_ifs <;> rfl

end WorkingCopy

end SpatialStore
