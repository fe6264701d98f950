import Mathlib.Tactic.SplitIfs
import SpatialStore.Proofs.Maps
import SpatialStore.Proofs.Table.Source
import SpatialStore.Table.Database

/-!
# The sources that names stand for

What a name stands for after a source was registered, replaced or changed. Sources are never taken
out, so a name that stands for a source keeps it unless another source is registered under it.
-/

namespace SpatialStore.Database

variable {db : Database} {table name : String} {i : Nat} {s source : Source}

theorem source?_eq_some :
    db.source? table = some s ↔ ∃ i, db.tables[table]? = some i ∧ db.sources[i]? = some s :=
  Option.bind_eq_some_iff

theorem mem_sources_of_source? (h : db.source? table = some s) : s ∈ db.sources := by
  obtain ⟨i, -, hi⟩ := source?_eq_some.mp h
  exact List.mem_of_getElem? hi

theorem source?_register_self (db : Database) (source : Source) :
    (db.register source).source? source.name = some source := by
  refine source?_eq_some.mpr ⟨db.sources.length, ?_, ?_⟩
  · exact (Maps.getElem?_insert _ _ _ _).trans (if_pos rfl)
  · exact List.getElem?_concat_length

theorem source?_register (h : db.source? table = some s) (hne : table ≠ source.name) :
    (db.register source).source? table = some s := by
  obtain ⟨i, hi, hs⟩ := source?_eq_some.mp h
  refine source?_eq_some.mpr ⟨i, ?_, ?_⟩
  · exact ((Maps.getElem?_insert _ _ _ _).trans (if_neg hne)).trans hi
  · obtain ⟨hlt, -⟩ := List.getElem?_eq_some_iff.mp hs
    exact (List.getElem?_append_left hlt).trans hs

theorem source?_setSource_self (hname : db.tables[name]? = some i) (hi : i < db.sources.length) :
    (db.setSource i source).source? name = some source :=
  source?_eq_some.mpr ⟨i, hname, List.getElem?_set_self hi⟩

theorem source?_setSource (h : db.source? table = some s) (hne : db.tables[table]? ≠ some i) :
    (db.setSource i source).source? table = some s := by
  obtain ⟨j, hj, hs⟩ := source?_eq_some.mp h
  refine source?_eq_some.mpr ⟨j, hj, ?_⟩
  rw [← hs]
  refine List.getElem?_set_ne ?_
  rintro rfl
  exact hne hj

section ModifySource

variable (db : Database) (table : String) (f : Source → Source)

/-- At most one source is changed, and it stays where it is. -/
theorem modifySource_cases : db.modifySource table f = db ∨
    ∃ i, db.modifySource table f = { db with sources := db.sources.modify i f } := by
  rw [modifySource]
  split
  · exact .inl rfl
  · exact .inr ⟨_, rfl⟩

theorem indexes_modifySource : (db.modifySource table f).indexes = db.indexes := by
  obtain h | ⟨i, h⟩ := modifySource_cases db table f <;> rw [h]

theorem settings_modifySource : (db.modifySource table f).settings = db.settings := by
  obtain h | ⟨i, h⟩ := modifySource_cases db table f <;> rw [h]

theorem tables_modifySource : (db.modifySource table f).tables = db.tables := by
  obtain h | ⟨i, h⟩ := modifySource_cases db table f <;> rw [h]

theorem length_modifySource :
    (db.modifySource table f).sources.length = db.sources.length := by
  obtain h | ⟨i, h⟩ := modifySource_cases db table f
  · rw [h]
  · rw [h]
    exact List.length_modify ..

end ModifySource

/-- Switching a source on or off changes nothing else. -/
theorem source?_switch (h : db.source? table = some s) (name : String) (available : Bool) :
    ∃ other, (db.modifySource name fun s => { s with available }).source? table = some other ∧
      other.schema = s.schema ∧ other.rows = s.rows := by
  obtain hsame | ⟨i, hchanged⟩ := modifySource_cases db name fun s => { s with available }
  · rw [hsame]
    exact ⟨s, h, rfl, rfl⟩
  rw [hchanged]
  obtain ⟨j, hj, hs⟩ := source?_eq_some.mp h
  refine ⟨if i = j then { s with available } else s, source?_eq_some.mpr ⟨j, hj, ?_⟩, ?_, ?_⟩
  · dsimp only
    rw [List.getElem?_modify, hs]
    split_ifs <;> rfl
  · split_ifs <;> rfl
  · split_ifs <;> rfl

theorem proper_switch (h : ∀ source ∈ db.sources, source.Proper) (name : String)
    (available : Bool) :
    ∀ source ∈ (db.modifySource name fun s => { s with available }).sources, source.Proper := by
  obtain hsame | ⟨i, hchanged⟩ := modifySource_cases db name fun s => { s with available }
  · rw [hsame]
    exact h
  rw [hchanged]
  intro source hsource
  obtain ⟨j, hj⟩ := List.mem_iff_getElem?.mp hsource
  rw [List.getElem?_modify] at hj
  obtain ⟨former, hformer, rfl⟩ := Option.map_eq_some_iff.mp hj
  have hproper := h former (List.mem_of_getElem? hformer)
  split_ifs
  · exact ⟨hproper.schema, hproper.width⟩
  · exact hproper

end SpatialStore.Database
