import SpatialStore.Index.Registry
import SpatialStore.Proofs.Maps

/-!
# Registry of standing indexes

Every operation of the registry replaces the indexes of one table. A table without indexes is not
kept, but that cannot be seen from outside (`ofTable_replaceTable`), so the registry finds what was
put there last and nothing that was dropped (`get?_put`, `get?_drop`).
-/

namespace SpatialStore.IndexRegistry

variable (r : IndexRegistry) (table field t f : String)

theorem ofTable_replaceTable (indexes : TableIndexes) :
    (r.replaceTable table indexes).ofTable t = if t = table then indexes else r.ofTable t := by
  have heq : compare table t = .eq ↔ t = table := by
    rw [Std.LawfulEqCmp.compare_eq_iff_eq, eq_comm]
  rw [replaceTable]
  split_ifs with hempty ht ht
  · rw [ofTable, Std.ExtTreeMap.getD_erase, if_pos (heq.mpr ht)]
    exact (Std.ExtTreeMap.isEmpty_iff.mp hempty).symm
  · rw [ofTable, Std.ExtTreeMap.getD_erase, if_neg (mt heq.mp ht), ofTable]
  · rw [ofTable, Std.ExtTreeMap.getD_insert, if_pos (heq.mpr ht)]
  · rw [ofTable, Std.ExtTreeMap.getD_insert, if_neg (mt heq.mp ht), ofTable]

theorem get?_replaceTable (indexes : TableIndexes) :
    (r.replaceTable table indexes).get? t f =
      if t = table then indexes[f]? else r.get? t f := by
  rw [get?, ofTable_replaceTable]
  split_ifs <;> rfl

/-- The registry finds the index that was put last under a name. -/
theorem get?_put (index : ColumnIndex) :
    (r.put table field index).get? t f =
      if t = table ∧ f = field then some index else r.get? t f := by
  rw [put, get?_replaceTable, Maps.getElem?_insert]
  by_cases ht : t = table
  · subst ht
    simp only [if_true, true_and]
    rfl
  · rw [if_neg ht, if_neg fun h => ht h.1]

/-- The registry does not find an index that was dropped. -/
theorem get?_drop :
    (r.drop table field).get? t f = if t = table ∧ f = field then none else r.get? t f := by
  rw [drop, get?_replaceTable, Maps.getElem?_erase]
  by_cases ht : t = table
  · subst ht
    simp only [if_true, true_and]
    rfl
  · rw [if_neg ht, if_neg fun h => ht h.1]

/-- The fields of a table that are listed are those that are indexed. -/
theorem mem_fields {r : IndexRegistry} {table name : String} {kind : IndexKind} :
    (name, kind) ∈ r.fields table ↔ r.kind? table name = some kind := by
  simp only [fields, List.mem_map, Prod.exists, Prod.mk.injEq,
    Std.ExtTreeMap.mem_toList_iff_getElem?_eq_some, kind?, get?, Option.map_eq_some_iff]
  constructor
  · rintro ⟨name, index, hindex, rfl, rfl⟩
    exact ⟨index, hindex, rfl⟩
  · rintro ⟨index, hindex, rfl⟩
    exact ⟨name, index, hindex, rfl, rfl⟩

/-- The list of indexed fields has the kind of each once. -/
theorem lookup_fields (name : String) : (r.fields table).lookup name = r.kind? table name := by
  have mem_of_lookup {kind : IndexKind} (h : (r.fields table).lookup name = some kind) :
      r.kind? table name = some kind := by
    obtain ⟨l, l', hfields, -⟩ := List.lookup_eq_some_iff.mp h
    exact mem_fields.mp (hfields ▸ List.mem_append_right l List.mem_cons_self)
  cases hkind : r.kind? table name with
  | none =>
    rw [Option.eq_none_iff_forall_ne_some]
    intro kind h
    rw [mem_of_lookup h] at hkind
    cases hkind
  | some kind =>
    have hsome : ((r.fields table).lookup name).isSome = true :=
      List.lookup_isSome_iff.mpr ⟨_, mem_fields.mpr hkind, beq_self_eq_true name⟩
    obtain ⟨other, hother⟩ := Option.isSome_iff_exists.mp hsome
    rw [hother, ← mem_of_lookup hother, hkind]

end SpatialStore.IndexRegistry
