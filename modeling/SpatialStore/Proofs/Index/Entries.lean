import SpatialStore.Index.Column
import SpatialStore.Proofs.Index.RTree.Map

/-!
# Entries of an index

An index knows one entry of each row, `ColumnIndex.entryOf?`, and its list of entries is nothing but
that (`mem_entries`). Inserting and removing a row changes the entry of this row and no other
(`entryOf?_insert`, `entryOf?_erase`), so what is true of the entries never depends on the shape of
a tree.

`ColumnIndex.Holds` says that an index knows the values of some rows and nothing else. For rows with
different ids this is a statement about the list of entries (`holds_iff_perm`), and an index that is
built from values holds them (`holds_build`).
-/

namespace SpatialStore

/-- The entries that the values of some rows lead to in an index of some kind. -/
def IndexEntry.ofValues (kind : IndexKind) (values : List (RowId × Value)) :
    List (RowId × IndexEntry) :=
  values.filterMap fun v => (ofValue? kind v.2).map fun x => (v.1, x)

/-- Pairs that are made for some elements have no tags but those of the elements. -/
theorem tags_sublist {α β : Type} (tag : α → RowId) (f : α → Option β) (xs : List α) :
    ((xs.filterMap fun x => (f x).map fun y => (tag x, y)).map (·.1)).Sublist (xs.map tag) := by
  induction xs with
  | nil => exact .slnil
  | cons x xs ih =>
    rw [List.filterMap_cons, List.map_cons]
    cases f x with
    | none => exact ih.cons _
    | some y => exact ih.cons_cons _

/-! ### Rows of an attribute index -/

namespace KeyIndex

variable (index : KeyIndex) (id k : RowId)

theorem getElem?_keys_erase :
    (index.erase id).keys[k]? = if k = id then none else index.keys[k]? := by
  rw [erase, erase?]
  cases hid : index.keys[id]? with
  | some key =>
    exact Maps.getElem?_erase index.keys id k
  | none =>
    change index.keys[k]? = _
    split_ifs with hk
    · rw [hk, hid]
    · rfl

theorem getElem?_keys_insert (v : Value) :
    (index.insert id v).keys[k]? =
      if k = id then ScalarKey.ofValue? v else index.keys[k]? := by
  rw [insert]
  cases ScalarKey.ofValue? v with
  | none => exact getElem?_keys_erase index id k
  | some key =>
    change ((index.erase id).keys.insert id key)[k]? = _
    rw [Maps.getElem?_insert, getElem?_keys_erase]
    split_ifs <;> rfl

end KeyIndex

/-! ### Rows of any index -/

namespace ColumnIndex

variable (index : ColumnIndex) (id k : RowId)

/-- The entry of a row. -/
def entryOf? (index : ColumnIndex) (id : RowId) : Option IndexEntry :=
  match index.content with
  | .spatial t => t.envelopes[id]?.map .envelope
  | .attribute a => a.keys[id]?.map .key

@[simp]
theorem field_insert (v : Value) : (index.insert id v).field = index.field := by
  rw [insert]
  split
  · split <;> rfl
  · rfl

@[simp]
theorem kind_insert (v : Value) : (index.insert id v).kind = index.kind := by
  obtain ⟨field, t | a⟩ := index
  · rw [insert]
    dsimp only
    split <;> rfl
  · rfl

/-- Inserting a row gives it the entry of its value. -/
theorem entryOf?_insert (v : Value) :
    (index.insert id v).entryOf? k =
      if k = id then IndexEntry.ofValue? index.kind v else index.entryOf? k := by
  obtain ⟨field, t | a⟩ := index
  · rw [insert]
    simp only [IndexEntry.ofValue?, kind, entryOf?]
    cases v.envelope? with
    | some e =>
      simp only [RTree.insert_envelopes, Maps.getElem?_insert]
      split_ifs <;> rfl
    | none =>
      simp only [RTree.erase_envelopes, Maps.getElem?_erase]
      split_ifs <;> rfl
  · simp only [insert, entryOf?, KeyIndex.getElem?_keys_insert, IndexEntry.ofValue?, kind]
    split_ifs <;> rfl

/-- Removing from an index is removing from its tree or from its keys. -/
theorem erase_eq : index.erase id = match index.content with
    | .spatial t => { index with content := .spatial (t.erase id) }
    | .attribute a => { index with content := .attribute (a.erase id) } := by
  obtain ⟨field, t | a⟩ := index
  · simp only [erase, erase?, RTree.erase]
    cases t.erase? id <;> rfl
  · simp only [erase, erase?, KeyIndex.erase]
    cases a.erase? id <;> rfl

@[simp]
theorem field_erase : (index.erase id).field = index.field := by
  rw [erase_eq]
  split <;> rfl

@[simp]
theorem kind_erase : (index.erase id).kind = index.kind := by
  obtain ⟨field, t | a⟩ := index <;> rw [erase_eq] <;> rfl

/-- Removing a row leaves it without entry. -/
theorem entryOf?_erase :
    (index.erase id).entryOf? k = if k = id then none else index.entryOf? k := by
  rw [erase_eq]
  obtain ⟨field, t | a⟩ := index
  · simp only [entryOf?, RTree.erase_envelopes, Maps.getElem?_erase]
    split_ifs <;> rfl
  · simp only [entryOf?, KeyIndex.getElem?_keys_erase]
    split_ifs <;> rfl

/-! ### The list of entries -/

variable {index id}

theorem mem_entries {x : IndexEntry} : (id, x) ∈ index.entries ↔ index.entryOf? id = some x := by
  obtain ⟨field, t | a⟩ := index
  · simp only [entries, entryOf?, RTree.entries, List.mem_map, Prod.exists, Prod.mk.injEq,
      Std.ExtTreeMap.mem_toList_iff_getElem?_eq_some, Option.map_eq_some_iff]
    constructor
    · rintro ⟨id, e, he, rfl, rfl⟩
      exact ⟨e, he, rfl⟩
    · rintro ⟨e, he, rfl⟩
      exact ⟨id, e, he, rfl, rfl⟩
  · simp only [entries, entryOf?, KeyIndex.entries, List.mem_map, Prod.exists, Prod.mk.injEq,
      Std.ExtTreeMap.mem_toList_iff_getElem?_eq_some, Option.map_eq_some_iff]
    constructor
    · rintro ⟨id, e, he, rfl, rfl⟩
      exact ⟨e, he, rfl⟩
    · rintro ⟨e, he, rfl⟩
      exact ⟨id, e, he, rfl, rfl⟩

/-- The entries come in ascending order of their rows. -/
theorem entries_ascending : index.entries.Pairwise fun x y => x.1 < y.1 := by
  obtain ⟨field, t | a⟩ := index
  · exact List.pairwise_map.mpr (t.envelopes.ordered_keys_toList.imp Nat.compare_eq_lt.mp)
  · exact List.pairwise_map.mpr (a.keys.ordered_keys_toList.imp Nat.compare_eq_lt.mp)

/-- No row has two entries. -/
theorem nodup_entries : (index.entries.map (·.1)).Nodup :=
  List.pairwise_map.mpr (List.Pairwise.imp Nat.ne_of_lt entries_ascending)

theorem entries_nodup : index.entries.Nodup := List.Nodup.of_map _ nodup_entries

/-- Only one list of given entries is in ascending order of the rows. -/
theorem eq_of_perm_ascending {xs ys : List (RowId × IndexEntry)} (h : xs.Perm ys)
    (hxs : xs.Pairwise fun x y => x.1 < y.1) (hys : ys.Pairwise fun x y => x.1 < y.1) :
    xs = ys :=
  h.eq_of_pairwise (fun _ _ _ _ hxy hyx => absurd hxy (Nat.lt_asymm hyx)) hxs hys

/-- Indexes with the same entry for every row have the same list of entries. -/
theorem entries_congr {a b : ColumnIndex} (h : ∀ id, a.entryOf? id = b.entryOf? id) :
    a.entries = b.entries := by
  have hperm : a.entries.Perm b.entries :=
    (List.perm_ext_iff_of_nodup entries_nodup entries_nodup).mpr fun x => by
      rw [mem_entries, mem_entries, h]
  exact eq_of_perm_ascending hperm entries_ascending entries_ascending

/-! ### Holding values -/

/-- The index knows the values of some rows, and no others. -/
structure Holds (index : ColumnIndex) (values : List (RowId × Value)) : Prop where
  known : ∀ v ∈ values, index.entryOf? v.1 = IndexEntry.ofValue? index.kind v.2
  unknown : ∀ id, (∀ v ∈ values, v.1 ≠ id) → index.entryOf? id = none

variable {values others : List (RowId × Value)}

/-- Only membership counts. -/
theorem Holds.of_mem_iff (h : index.Holds values) (hmem : ∀ v, v ∈ values ↔ v ∈ others) :
    index.Holds others :=
  ⟨fun v hv => h.known v ((hmem v).mpr hv),
    fun id hid => h.unknown id fun v hv => hid v ((hmem v).mp hv)⟩

/-- Inserting a row replaces its value. -/
theorem Holds.insert (h : index.Holds values) (id : RowId) (v : Value) :
    (index.insert id v).Holds ((id, v) :: values.filter (·.1 != id)) := by
  constructor
  · intro w hw
    rw [entryOf?_insert, kind_insert]
    rcases List.mem_cons.mp hw with rfl | hw
    · exact if_pos rfl
    · obtain ⟨hw, hne⟩ := List.mem_filter.mp hw
      rw [if_neg (bne_iff_ne.mp hne)]
      exact h.known w hw
  · intro k hk
    have hne : k ≠ id := fun heq => hk (id, v) List.mem_cons_self heq.symm
    rw [entryOf?_insert, if_neg hne]
    refine h.unknown k fun w hw hwk => ?_
    refine hk w (List.mem_cons_of_mem _ (List.mem_filter.mpr ⟨hw, ?_⟩)) hwk
    rw [hwk]
    exact bne_iff_ne.mpr hne

/-- Removing a row removes its value. -/
theorem Holds.erase (h : index.Holds values) (id : RowId) :
    (index.erase id).Holds (values.filter (·.1 != id)) := by
  constructor
  · intro w hw
    obtain ⟨hw, hne⟩ := List.mem_filter.mp hw
    rw [entryOf?_erase, kind_erase, if_neg (bne_iff_ne.mp hne)]
    exact h.known w hw
  · intro k hk
    rw [entryOf?_erase]
    split_ifs with hki
    · rfl
    · refine h.unknown k fun w hw hwk => hk w (List.mem_filter.mpr ⟨hw, ?_⟩) hwk
      rw [hwk]
      exact bne_iff_ne.mpr hki

theorem mem_ofValues {kind : IndexKind} {x : IndexEntry} :
    (id, x) ∈ IndexEntry.ofValues kind values ↔
      ∃ v, (id, v) ∈ values ∧ IndexEntry.ofValue? kind v = some x := by
  simp [IndexEntry.ofValues, List.mem_filterMap]

/-- For different rows, holding their values is having their entries. -/
theorem holds_iff_perm (hnodup : (values.map (·.1)).Nodup) :
    index.Holds values ↔ index.entries.Perm (IndexEntry.ofValues index.kind values) := by
  have hids : ((IndexEntry.ofValues index.kind values).map (·.1)).Nodup :=
    hnodup.sublist (tags_sublist _ _ values)
  constructor
  · intro h
    refine (List.perm_ext_iff_of_nodup entries_nodup (hids.of_map _)).mpr ?_
    rintro ⟨id, x⟩
    rw [mem_entries, mem_ofValues]
    constructor
    · intro hx
      -- only rows with a value are known
      by_cases hid : ∃ v ∈ values, v.1 = id
      · obtain ⟨v, hv, rfl⟩ := hid
        exact ⟨v.2, hv, (h.known v hv).symm.trans hx⟩
      · rw [h.unknown id fun v hv hvid => hid ⟨v, hv, hvid⟩] at hx
        cases hx
    · rintro ⟨v, hv, hx⟩
      exact (h.known _ hv).trans hx
  · intro h
    have hmem {id : RowId} {x : IndexEntry} :
        index.entryOf? id = some x ↔
          ∃ v, (id, v) ∈ values ∧ IndexEntry.ofValue? index.kind v = some x := by
      rw [← mem_entries, h.mem_iff, mem_ofValues]
    constructor
    · intro v hv
      refine Option.ext fun x => hmem.trans ⟨?_, fun hx => ⟨v.2, hv, hx⟩⟩
      rintro ⟨w, hw, hx⟩
      have hvw := List.inj_on_of_nodup_map hnodup hv hw rfl
      rwa [hvw]
    · intro id hid
      refine Option.eq_none_iff_forall_ne_some.mpr fun x hx => ?_
      obtain ⟨v, hv, -⟩ := hmem.mp hx
      exact hid _ hv rfl

/-- For rows in ascending order, the entries are found in the order of the values. -/
theorem Holds.entries_eq (h : index.Holds values)
    (hascending : (values.map (·.1)).Pairwise (· < ·)) :
    index.entries = IndexEntry.ofValues index.kind values := by
  have hids : (IndexEntry.ofValues index.kind values).Pairwise fun x y => x.1 < y.1 :=
    List.pairwise_map.mp (hascending.sublist (tags_sublist _ _ values))
  have hperm := (holds_iff_perm (hascending.imp Nat.ne_of_lt)).mp h
  exact eq_of_perm_ascending hperm entries_ascending hids

/-! ### Built indexes -/

variable (field : String) (kind : IndexKind) (settings : NodeSettings)

theorem kind_empty : (empty field kind settings).kind = kind := by
  cases kind <;> rfl

theorem holds_empty : (empty field kind settings).Holds [] := by
  refine ⟨fun v hv => absurd hv List.not_mem_nil, fun id _ => ?_⟩
  cases kind <;> simp [empty, entryOf?, RTree.empty, KeyIndex.empty]

private theorem foldl_insert (hindex : index.Holds others) (hnodup : (values.map (·.1)).Nodup)
    (hnew : ∀ v ∈ values, ∀ w ∈ others, w.1 ≠ v.1) :
    let result := values.foldl (fun index v => index.insert v.1 v.2) index
    result.Holds (values ++ others) ∧ result.field = index.field ∧ result.kind = index.kind := by
  induction values generalizing index others with
  | nil => exact ⟨hindex, rfl, rfl⟩
  | cons v values ih =>
    obtain ⟨hv, htail⟩ := List.nodup_cons.mp hnodup
    have hinsert : (index.insert v.1 v.2).Holds (v :: others) := by
      refine (hindex.insert v.1 v.2).of_mem_iff fun w => ?_
      rw [List.filter_eq_self.mpr fun w hw => bne_iff_ne.mpr (hnew v List.mem_cons_self w hw)]
    obtain ⟨hholds, hfield, hkind⟩ := ih hinsert htail fun w hw u hu => by
      rcases List.mem_cons.mp hu with rfl | hu
      · exact fun heq => hv (List.mem_map.mpr ⟨w, hw, heq.symm⟩)
      · exact hnew w (List.mem_cons_of_mem v hw) u hu
    refine ⟨hholds.of_mem_iff fun w => List.perm_middle.mem_iff, ?_, ?_⟩
    · exact hfield.trans (field_insert index v.1 v.2)
    · exact hkind.trans (kind_insert index v.1 v.2)

/-- An index built from the values of different rows holds them. -/
theorem holds_build (hnodup : (values.map (·.1)).Nodup) :
    (build field kind settings values).Holds values ∧
      (build field kind settings values).field = field ∧
        (build field kind settings values).kind = kind := by
  obtain ⟨hholds, hfield, hkind⟩ := foldl_insert (holds_empty field kind settings) hnodup
    fun _ _ w hw => absurd hw List.not_mem_nil
  rw [List.append_nil] at hholds
  refine ⟨hholds, hfield.trans ?_, hkind.trans (kind_empty field kind settings)⟩
  cases kind <;> rfl

/-- The rows of a column come in ascending order. -/
theorem ascending_column (rows : List Row) (i : Nat) :
    ((column rows i).map (·.1)).Pairwise (· < ·) := by
  refine List.Pairwise.sublist (tags_sublist _ _ _) ?_
  rw [List.zipIdx_map_snd]
  exact List.pairwise_lt_range'

/-- The rows of a column are different. -/
theorem nodup_column (rows : List Row) (i : Nat) : ((column rows i).map (·.1)).Nodup :=
  (ascending_column rows i).imp Nat.ne_of_lt

end ColumnIndex

end SpatialStore
