import SpatialStore.Proofs.Index.Entries

/-!
# What an index finds

An index is *intact* when what it searches agrees with what it knows of each row: the nodes of its
tree hold the rows of the tree's map, or the rows of every key are those that have it. Inserting
keeps an index intact, so that a built one is (`intact_build`). An intact index answers every
query about its field and of its kind with the rows whose entry the query finds, each once
(`Intact.query`).

A value equal to the given one has a key that is found (`ScalarKey.order_of_queryEq`). The converse
fails, as different integers may share a key.
-/

namespace SpatialStore

/-! ### Keys -/

namespace ScalarKey

theorem order_comm {k k' : ScalarKey} : order k k' = .eq ↔ order k' k = .eq :=
  ⟨Std.OrientedCmp.eq_symm, Std.OrientedCmp.eq_symm⟩

theorem order_self (k : ScalarKey) : order k k = .eq := Std.ReflCmp.compare_self

theorem order_number {x y : Float} :
    order (.number x) (.number y) = .eq ↔ Double.rank x = Double.rank y := by
  simp [order, compareLex, compareOn, sort, rank, content]

/-- Values that are equal in the sense of a query have equal keys, unless both are geometries. -/
theorem order_of_queryEq {a b : Value} (h : a.queryEq b = true)
    (hscalar : (∀ g, a ≠ .geometry g) ∨ ∀ g, b ≠ .geometry g) :
    ∃ k k', ofValue? a = some k ∧ ofValue? b = some k' ∧ order k k' = .eq := by
  have hnumber {x y : Float} (hxy : Double.compare? x y = some .eq) :
      order (.number x) (.number y) = .eq :=
    order_number.mpr (Double.beq_iff_rank.mp (Double.compare?_eq_iff.mp hxy)).2.2
  -- values of types that do not compare are not equal, and numbers compare as doubles
  cases a <;> cases b <;> simp [Value.queryEq, Value.compare?, Value.toDouble?] at h
  case bool.bool x y =>
    subst h
    exact ⟨_, _, rfl, rfl, order_self _⟩
  case int.int i j =>
    obtain rfl := Int64.toInt_inj.mp h
    exact ⟨_, _, rfl, rfl, order_self _⟩
  case string.string s t =>
    subst h
    exact ⟨_, _, rfl, rfl, order_self _⟩
  case int.double | double.int | double.double => exact ⟨_, _, rfl, rfl, hnumber h⟩
  case geometry.geometry f g =>
    rcases hscalar with ha | hb
    · exact absurd rfl (ha f)
    · exact absurd rfl (hb g)

end ScalarKey

/-! ### Rows of a key -/

namespace KeyIndex

/-- The rows of each key are those that have it. -/
def Consistent (index : KeyIndex) : Prop :=
  ∀ key id, id ∈ (index.rows[key]?).getD ∅ ↔
    ∃ k, index.keys[id]? = some k ∧ ScalarKey.order k key = .eq

variable {index : KeyIndex}

theorem consistent_empty : KeyIndex.empty.Consistent := by
  intro key id
  simp [KeyIndex.empty]

/-- Removing a row removes it from the rows of its key, and so from those of every key. -/
theorem Consistent.mem_rows_erase (h : index.Consistent) {id j : RowId} {key' : ScalarKey} :
    j ∈ ((index.erase id).rows[key']?).getD ∅ ↔ j ≠ id ∧ j ∈ (index.rows[key']?).getD ∅ := by
  have helsewhere (hkey : ∀ k, index.keys[id]? = some k → k.order key' ≠ .eq) :
      j ∈ (index.rows[key']?).getD ∅ → j ≠ id := by
    rintro hj rfl
    obtain ⟨k, hk, horder⟩ := (h key' j).mp hj
    exact hkey k hk horder
  rw [KeyIndex.erase, erase?]
  cases hid : index.keys[id]? with
  | none =>
    refine (and_iff_right_of_imp (helsewhere fun k hk => ?_)).symm
    rw [hid] at hk
    cases hk
  | some key =>
    change j ∈ ((index.rows.alter key _)[key']?).getD ∅ ↔ _
    rw [Std.ExtTreeMap.getElem?_alter]
    split_ifs with hkey
    · -- the rows of the key of `id`, which are dropped when none is left
      rw [← Std.ExtTreeMap.getElem?_congr hkey]
      cases index.rows[key]? with
      | none => simp
      | some ids =>
        have hmem : j ∈ ids.erase id ↔ j ≠ id ∧ j ∈ ids := by
          rw [Std.ExtTreeSet.mem_erase, ne_eq, Nat.compare_eq_eq, eq_comm]
        dsimp only
        split_ifs with hempty
        · rw [Std.ExtTreeSet.isEmpty_iff.mp hempty] at hmem
          simpa using hmem
        · exact hmem
    · refine (and_iff_right_of_imp (helsewhere fun k hk => ?_)).symm
      rw [hid] at hk
      cases hk
      exact hkey

theorem Consistent.erase (h : index.Consistent) (id : RowId) : (index.erase id).Consistent := by
  intro key j
  rw [h.mem_rows_erase, h key j, getElem?_keys_erase]
  split_ifs with hj
  · simp [hj]
  · simp [hj]

theorem Consistent.insert (h : index.Consistent) (id : RowId) (v : Value) :
    (index.insert id v).Consistent := by
  intro key' j
  have herase := h.erase id key' j
  rw [getElem?_keys_insert, KeyIndex.insert]
  rw [getElem?_keys_erase] at herase
  cases hv : ScalarKey.ofValue? v with
  | none => exact herase
  | some key =>
    change j ∈ (((index.erase id).rows.alter key _)[key']?).getD ∅ ↔ _
    rw [Std.ExtTreeMap.getElem?_alter]
    have hsame (hkey : key.order key' = .eq) :
        (index.erase id).rows[key]? = (index.erase id).rows[key']? :=
      Std.ExtTreeMap.getElem?_congr hkey
    -- the key is the new one of `id` or not, and the row is `id` or not
    split_ifs at herase ⊢ with hkey hj hj
    · simp [hj, hkey]
    · rw [hsame hkey, Option.getD_some, Std.ExtTreeSet.mem_insert, Nat.compare_eq_eq]
      exact (or_iff_right (Ne.symm hj)).trans herase
    · rw [herase]
      simpa using hkey
    · exact herase

theorem ascending_lookup (index : KeyIndex) (v : Value) :
    (index.lookup v).Pairwise (· < ·) := by
  rw [lookup]
  split
  · exact .nil
  · next ids _ => exact ids.ordered_toList.imp Nat.compare_eq_lt.mp

theorem nodup_lookup (index : KeyIndex) (v : Value) : (index.lookup v).Nodup :=
  (index.ascending_lookup v).imp Nat.ne_of_lt

theorem Consistent.mem_lookup (h : index.Consistent) {id : RowId} {v : Value} :
    id ∈ index.lookup v ↔ ∃ key k, ScalarKey.ofValue? v = some key ∧ index.keys[id]? = some k ∧
      ScalarKey.order k key = .eq := by
  have hlookup : id ∈ index.lookup v ↔
      ∃ key, ScalarKey.ofValue? v = some key ∧ id ∈ (index.rows[key]?).getD ∅ := by
    rw [lookup]
    cases ScalarKey.ofValue? v with
    | none => simp
    | some key =>
      cases hrows : index.rows[key]? with
      | none => simp [hrows]
      | some ids => simp [hrows]
  rw [hlookup]
  simp only [h _ id, exists_and_left]

end KeyIndex

/-! ### Intact indexes -/

/-- Whether a query finds rows with an entry. -/
def IndexQuery.Finds (q : IndexQuery) (x : IndexEntry) : Prop :=
  match q, x with
  | .window _ w, .envelope e => e.intersects w = true
  | .equals _ v, .key k => ∃ key, ScalarKey.ofValue? v = some key ∧ ScalarKey.order k key = .eq
  | _, _ => False

namespace ColumnIndex

/-- What the index searches agrees with what it knows of each row. -/
def Intact (index : ColumnIndex) : Prop :=
  match index.content with
  | .spatial t => t.Exact
  | .attribute a => a.Consistent

variable {index : ColumnIndex} {id : RowId}

theorem intact_empty (field : String) (kind : IndexKind) (settings : NodeSettings) :
    (empty field kind settings).Intact := by
  cases kind
  · exact RTree.exact_empty settings
  · exact KeyIndex.consistent_empty

/-- Inserting keeps an index intact if the row's former envelope, if any, is numeric. -/
theorem Intact.insert (h : index.Intact)
    (hnum : ∀ e, index.entryOf? id = some (.envelope e) → e.Numeric) (v : Value) :
    (index.insert id v).Intact := by
  obtain ⟨field, t | a⟩ := index
  · have hnum : ∀ e ∈ t.envelopes[id]?, e.Numeric := fun e he =>
      hnum e (congrArg (Option.map IndexEntry.envelope) he)
    rw [ColumnIndex.insert]
    cases v.envelope? with
    | some e => exact RTree.Exact.insert h hnum e
    | none => exact RTree.Exact.erase h hnum
  · exact KeyIndex.Consistent.insert h id v

/-- Removing keeps an index intact if the row's envelope, if any, is numeric. -/
theorem Intact.erase (h : index.Intact)
    (hnum : ∀ e, index.entryOf? id = some (.envelope e) → e.Numeric) : (index.erase id).Intact := by
  rw [erase_eq]
  obtain ⟨field, t | a⟩ := index
  · exact RTree.Exact.erase h fun e he => hnum e (congrArg (Option.map IndexEntry.envelope) he)
  · exact KeyIndex.Consistent.erase h id

private theorem intact_foldl {values : List (RowId × Value)} (h : index.Intact)
    (hnodup : (values.map (·.1)).Nodup) (hnew : ∀ v ∈ values, index.entryOf? v.1 = none) :
    (values.foldl (fun index v => index.insert v.1 v.2) index).Intact := by
  induction values generalizing index with
  | nil => exact h
  | cons v values ih =>
    obtain ⟨hv, hnodup⟩ := List.nodup_cons.mp hnodup
    obtain ⟨hfresh, hnew⟩ := List.forall_mem_cons.mp hnew
    refine ih (h.insert (fun e he => ?_) v.2) hnodup fun w hw => ?_
    · rw [hfresh] at he
      cases he
    · have hne : w.1 ≠ v.1 := fun heq => hv (List.mem_map.mpr ⟨w, hw, heq⟩)
      rw [entryOf?_insert, if_neg hne]
      exact hnew w hw

/-- A built index is intact. -/
theorem intact_build (field : String) (kind : IndexKind) (settings : NodeSettings)
    {values : List (RowId × Value)} (hnodup : (values.map (·.1)).Nodup) :
    (build field kind settings values).Intact :=
  intact_foldl (intact_empty field kind settings) hnodup fun v _ =>
    (holds_empty field kind settings).unknown v.1 fun _ hw => absurd hw List.not_mem_nil

/-- An intact index answers a query about its field and of its kind with the rows whose entry the
query finds, each once. -/
theorem Intact.query (h : index.Intact) {q : IndexQuery} (hfield : q.field = index.field)
    (hkind : q.kind = index.kind) :
    ∃ ids, index.query q = .ok ids ∧ ids.Nodup ∧
      ∀ id, id ∈ ids ↔ ∃ x, index.entryOf? id = some x ∧ q.Finds x := by
  obtain ⟨field, t | a⟩ := index
  · cases q with
    | window f w =>
      have ht : t.Exact := h
      refine ⟨t.query w, if_pos hfield, ht.nodup_query w, fun id => ht.mem_query.trans ?_⟩
      simp only [entryOf?, Option.map_eq_some_iff]
      constructor
      · rintro ⟨e, he, hmeets⟩
        exact ⟨.envelope e, ⟨e, he, rfl⟩, hmeets⟩
      · rintro ⟨_, ⟨e, he, rfl⟩, hmeets⟩
        exact ⟨e, he, hmeets⟩
    | equals => cases hkind
  · cases q with
    | window => cases hkind
    | equals f v =>
      have ha : a.Consistent := h
      refine ⟨a.lookup v, if_pos hfield, a.nodup_lookup v, fun id => ha.mem_lookup.trans ?_⟩
      simp only [entryOf?, Option.map_eq_some_iff]
      constructor
      · rintro ⟨key, k, hkey, hk, horder⟩
        exact ⟨.key k, ⟨k, hk, rfl⟩, key, hkey, horder⟩
      · rintro ⟨_, ⟨k, hk, rfl⟩, key, hkey, horder⟩
        exact ⟨key, k, hkey, hk, horder⟩

end ColumnIndex

end SpatialStore
