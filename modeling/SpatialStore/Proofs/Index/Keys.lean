import SpatialStore.Proofs.Index.Lookup

/-!
# The attribute index as a map

An attribute index keeps the key of every row and, the other way round, the rows of every key. A
change touches both, one after the other: a row that is inserted again leaves the rows of its former
key, whose set may become empty, and joins those of its new one, which may be the same key in
another guise, as `1` and `1.0` are. After any run of changes the two are still inverse to each
other (`KeyIndex.Observes.rows`), no key is kept without rows, and from outside the index cannot be
told from a plain map of rows to keys, neither by what the changes answer nor by what is read
afterwards (`KeyIndex.observes_runIndex`). Step by step the changes come to what `insert` and
`erase` say (`KeyIndex.run_putRow`, `KeyIndex.run_removeRow`).

Keys are found by an order that is computed from the bits of doubles. What it takes to be one key is
`ScalarKey.Same`: the same truth value, the same text, equal numbers, or NaN both times.
-/

namespace SpatialStore

/-! ### Equal keys -/

namespace ScalarKey

/-- Keys that find each other. Numbers are compared as doubles, so that both zeros are one key; NaN
is a key of its own. -/
inductive Same : ScalarKey → ScalarKey → Prop
  | bool (b : Bool) : Same (.bool b) (.bool b)
  | number {x y : Float} : (x == y) = true → Same (.number x) (.number y)
  | nan {x y : Float} : x.isNaN = true → y.isNaN = true → Same (.number x) (.number y)
  | text (s : String) : Same (.text s) (.text s)

/-- Numbers of one rank are equal or NaN. -/
theorem same_number_iff {x y : Float} :
    Same (.number x) (.number y) ↔ Double.rank x = Double.rank y := by
  rw [Double.rank_eq_iff]
  constructor
  · rintro (_ | h | ⟨hx, hy⟩ | _)
    · exact .inl h
    · exact .inr ⟨hx, hy⟩
  · rintro (h | ⟨hx, hy⟩)
    · exact .number h
    · exact .nan hx hy

/-- The order of keys takes no other keys for one. -/
theorem order_eq_iff {k k' : ScalarKey} : order k k' = .eq ↔ k.Same k' := by
  constructor
  · intro h
    match k, k' with
    | .bool true, .bool true | .bool false, .bool false => exact .bool _
    | .number x, .number y => exact same_number_iff.mpr (order_number.mp h)
    | .text s, .text t =>
      have hst : s = t := by
        simpa [order, compareLex, compareOn, sort, rank, content] using h
      exact hst ▸ .text s
  · intro h
    cases h with
    | bool b => exact order_self _
    | number h => exact order_number.mpr (same_number_iff.mp (.number h))
    | nan hx hy => exact order_number.mpr (same_number_iff.mp (.nan hx hy))
    | text s => exact order_self _

end ScalarKey

/-! ### Both maps -/

namespace KeyIndex

variable {index : KeyIndex}

/-- No key is kept without rows. -/
def Tidy (index : KeyIndex) : Prop :=
  ∀ (key : ScalarKey) (ids : Std.ExtTreeSet RowId), index.rows[key]? = some ids → ids ≠ ∅

theorem tidy_empty : KeyIndex.empty.Tidy := by
  intro key ids h
  simp [KeyIndex.empty] at h

theorem Tidy.erase (h : index.Tidy) (id : RowId) : (index.erase id).Tidy := by
  rw [KeyIndex.erase, erase?]
  cases index.keys[id]? with
  | none => exact h
  | some key =>
    intro key' ids hids
    change (index.rows.alter key _)[key']? = some ids at hids
    rw [Std.ExtTreeMap.getElem?_alter] at hids
    split_ifs at hids with hkey
    · -- the rows that are left are only kept if there are some
      cases hrows : index.rows[key]? with
      | none => simp [hrows] at hids
      | some before =>
        rw [hrows] at hids
        dsimp only at hids
        split_ifs at hids with hempty
        rintro rfl
        simp [Option.some.inj hids] at hempty
    · exact h key' ids hids

theorem Tidy.insert (h : index.Tidy) (id : RowId) (v : Value) : (index.insert id v).Tidy := by
  have herase := h.erase id
  rw [KeyIndex.insert]
  cases ScalarKey.ofValue? v with
  | none => exact herase
  | some key =>
    intro key' ids hids
    change ((index.erase id).rows.alter key _)[key']? = some ids at hids
    rw [Std.ExtTreeMap.getElem?_alter] at hids
    split_ifs at hids with hkey
    · rintro rfl
      simp at hids
    · exact herase key' ids hids

/-- The rows of a key are found under it exactly if there are any. -/
theorem Consistent.getElem?_rows (h : index.Consistent) (htidy : index.Tidy) {key : ScalarKey}
    {ids : Std.ExtTreeSet RowId} :
    index.rows[key]? = some ids ↔
      ids ≠ ∅ ∧ ∀ id, id ∈ ids ↔ ∃ k : ScalarKey, index.keys[id]? = some k ∧ k.Same key := by
  simp only [← ScalarKey.order_eq_iff]
  constructor
  · intro hids
    refine ⟨htidy key ids hids, fun id => ?_⟩
    rw [← h key id, hids, Option.getD_some]
  · rintro ⟨hne, hmem⟩
    have hsame : (index.rows[key]?).getD ∅ = ids :=
      Std.ExtTreeSet.ext_mem fun id => (h key id).trans (hmem id).symm
    cases hrows : index.rows[key]? with
    | none => exact absurd (by rw [← hsame, hrows, Option.getD_none]) hne
    | some found => rw [← hsame, hrows, Option.getD_some]

/-! ### Changes in place -/

/-- Step by step, a row is removed as `erase` does. -/
theorem run_removeRow (index : KeyIndex) (id : RowId) :
    (removeRow id).run index = ((index.erase? id).isSome, index.erase id) := by
  have hget {f : KeyIndex → StateM KeyIndex Bool} : (get >>= f).run index = (f index).run index :=
    rfl
  rw [removeRow, hget, KeyIndex.erase, erase?]
  cases index.keys[id]? <;> rfl

/-- Step by step, a row is put as `insert` does. -/
theorem run_putRow (index : KeyIndex) (id : RowId) (v : Value) :
    (putRow id v).run index = ((ScalarKey.ofValue? v).isSome, index.insert id v) := by
  have hremove {f : Bool → StateM KeyIndex Bool} : (removeRow id >>= f).run index =
      (f (index.erase? id).isSome).run (index.erase id) := by
    rw [StateT.run_bind, run_removeRow]
    rfl
  rw [putRow, hremove, KeyIndex.insert]
  cases ScalarKey.ofValue? v <;> rfl

/-! ### Runs of changes -/

/-- A change of the rows of an index. -/
inductive Change where
  | insert (id : RowId) (v : Value)
  | erase (id : RowId)

/-- Change an index. -/
def Change.onIndex : Change → StateM KeyIndex Bool
  | insert id v => putRow id v
  | erase id => removeRow id

/-- Change a plain map. The last value of a row decides on its key, and one without key removes
the row. -/
def Change.onMap : Change → StateM (Std.ExtTreeMap RowId ScalarKey) Bool
  | insert id v =>
    match ScalarKey.ofValue? v with
    | some key => do
      modify fun m => m.insert id key
      return true
    | none => do
      modify fun m => m.erase id
      return false
  | erase id => do
    let present := (← get).contains id
    modify fun m => m.erase id
    return present

/-- The answers to some changes and the index after them. -/
def runIndex (changes : List Change) : List Bool × KeyIndex :=
  (changes.mapM Change.onIndex).run .empty

/-- The answers to some changes and the plain map after them. -/
def runMap (changes : List Change) : List Bool × Std.ExtTreeMap RowId ScalarKey :=
  (changes.mapM Change.onMap).run ∅

/-- An index that cannot be told from a map of rows to keys, with the inverse of the map beside
it. -/
structure Observes (index : KeyIndex) (m : Std.ExtTreeMap RowId ScalarKey) : Prop where
  size : index.size = m.size
  contains : ∀ id, index.contains id = m.contains id
  key? : ∀ id, index.key? id = m[id]?
  entries : index.entries = m.toList
  /-- Rows are found in ascending order, and so none is found twice. -/
  ascending : ∀ v, (index.lookup v).Pairwise (· < ·)
  /-- The rows that are found for a value are those whose key is that of the value. -/
  mem_lookup : ∀ v id, id ∈ index.lookup v ↔
    ∃ key k : ScalarKey, ScalarKey.ofValue? v = some key ∧ m[id]? = some k ∧ k.Same key
  lookup_of_none : ∀ v, ScalarKey.ofValue? v = none → index.lookup v = []
  /-- What is kept for a key are all rows that have it, and nothing if there are none. -/
  rows : ∀ (key : ScalarKey) (ids : Std.ExtTreeSet RowId), index.rows[key]? = some ids ↔
    ids ≠ ∅ ∧ ∀ id, id ∈ ids ↔ ∃ k : ScalarKey, m[id]? = some k ∧ k.Same key

/-- An index whose two maps agree observes its map of keys. -/
theorem Consistent.observes (h : index.Consistent) (htidy : index.Tidy) :
    index.Observes index.keys where
  size := rfl
  contains _ := rfl
  key? _ := rfl
  entries := rfl
  ascending := index.ascending_lookup
  mem_lookup v id := by
    rw [h.mem_lookup]
    simp only [ScalarKey.order_eq_iff]
  lookup_of_none v hv := by simp [lookup, hv]
  rows _ _ := h.getElem?_rows htidy

/-- What every change preserves: the two maps of the index agree, and its keys are the plain map. -/
private structure Follows (index : KeyIndex) (m : Std.ExtTreeMap RowId ScalarKey) : Prop where
  consistent : index.Consistent
  tidy : index.Tidy
  keys : index.keys = m

variable {m : Std.ExtTreeMap RowId ScalarKey}

theorem keys_erase (index : KeyIndex) (id : RowId) :
    (index.erase id).keys = index.keys.erase id := by
  refine Std.ExtTreeMap.ext_getElem? fun k => ?_
  rw [getElem?_keys_erase, Maps.getElem?_erase]

theorem keys_insert_of_some {v : Value} {key : ScalarKey} (hv : ScalarKey.ofValue? v = some key)
    (id : RowId) : (index.insert id v).keys = index.keys.insert id key := by
  refine Std.ExtTreeMap.ext_getElem? fun k => ?_
  rw [getElem?_keys_insert, hv, Maps.getElem?_insert]

theorem keys_insert_of_none {v : Value} (hv : ScalarKey.ofValue? v = none) (id : RowId) :
    (index.insert id v).keys = index.keys.erase id := by
  refine Std.ExtTreeMap.ext_getElem? fun k => ?_
  rw [getElem?_keys_insert, hv, Maps.getElem?_erase]

/-- A change answers the same to the index and to the map, and keeps them together. -/
private theorem Follows.change (h : index.Follows m) (c : Change) :
    ((c.onIndex).run index).1 = ((c.onMap).run m).1 ∧
      ((c.onIndex).run index).2.Follows ((c.onMap).run m).2 := by
  obtain ⟨hconsistent, htidy, rfl⟩ := h
  cases c with
  | insert id v =>
    have hc := hconsistent.insert id v
    have ht := htidy.insert id v
    rw [Change.onIndex, run_putRow, Change.onMap]
    cases hv : ScalarKey.ofValue? v with
    | some key => exact ⟨rfl, hc, ht, keys_insert_of_some hv id⟩
    | none => exact ⟨rfl, hc, ht, keys_insert_of_none hv id⟩
  | erase id =>
    rw [Change.onIndex, run_removeRow]
    refine ⟨?_, hconsistent.erase id, htidy.erase id, keys_erase index id⟩
    change (index.erase? id).isSome = index.keys.contains id
    rw [erase?, Option.isSome_map, Std.ExtTreeMap.contains_eq_isSome_getElem?]

private theorem Follows.run (h : index.Follows m) (changes : List Change) :
    ((changes.mapM Change.onIndex).run index).1 = ((changes.mapM Change.onMap).run m).1 ∧
      ((changes.mapM Change.onIndex).run index).2.Follows
        ((changes.mapM Change.onMap).run m).2 := by
  induction changes generalizing index m with
  | nil => exact ⟨rfl, h⟩
  | cons c changes ih =>
    obtain ⟨hanswer, hfollows⟩ := h.change c
    obtain ⟨hanswers, hend⟩ := ih hfollows
    rw [List.mapM_cons, List.mapM_cons]
    exact ⟨congrArg₂ List.cons hanswer hanswers, hend⟩

/-- Whatever rows are inserted and removed, the changes answer as those of the plain map of rows to
keys do, and the index observes the map that they lead to. -/
theorem observes_runIndex (changes : List Change) :
    (runIndex changes).1 = (runMap changes).1 ∧
      (runIndex changes).2.Observes (runMap changes).2 := by
  have hempty : KeyIndex.empty.Follows ∅ := ⟨consistent_empty, tidy_empty, rfl⟩
  obtain ⟨hanswers, hconsistent, htidy, hkeys⟩ := hempty.run changes
  refine ⟨hanswers, ?_⟩
  rw [runMap, ← hkeys]
  exact hconsistent.observes htidy

/-- Integers and doubles of one key are found together, and a row that is given a null is gone. -/
example : (runIndex [.insert 3 (.int 1), .insert 0 (.double 1), .insert 2 (.string "1"),
      .insert 2 .null, .erase 2]).1 = [true, true, true, false, false] ∧
    (runIndex [.insert 3 (.int 1), .insert 0 (.double 1), .insert 2 (.string "1"),
      .insert 2 .null, .erase 2]).2.lookup (.int 1) = [0, 3] := by
  decide +kernel

end KeyIndex

end SpatialStore
