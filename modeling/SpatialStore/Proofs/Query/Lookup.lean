import SpatialStore.Proofs.Index.Lookup
import SpatialStore.Proofs.Query.Execution

/-!
# Lookups find every match

An access path *reaches* a value of its field from a value of the lookup when the entry of the one
is found by the query for the other (`AccessPath.Reaches`). The rows that a lookup finds need not
match, but the predicate is looked at again; so it suffices that every row on which it is true is
reached (`Plan.filter_hits`).
-/

namespace SpatialStore

/-! ### Spatial predicates -/

/-- Both values are geometries that have an envelope, and the two envelopes meet. -/
def Value.meets (v w : Value) : Bool :=
  match v.envelope?, w.envelope? with
  | some e, some f => e.intersects f
  | _, _ => false

/-- If the expression is a spatial predicate and true, it is so of geometries whose envelopes
meet. -/
def Expr.Meets (env : FieldName → Value) : Predicate → Prop
  | .spatial op l r =>
    (op.apply (l.denote env) (r.denote env)).isBool true = true →
      (l.denote env).meets (r.denote env) = true
  | _ => True

instance (env : FieldName → Value) (e : Predicate) : Decidable (e.Meets env) :=
  match e with
  | .spatial _ _ _ => inferInstanceAs (Decidable (_ → _))
  | .column _ | .literal _ | .compare _ _ _ | .conj _ | .disj _ | .negate _ | .call _ _ =>
    inferInstanceAs (Decidable True)

theorem Expr.meets_congr {env env' : FieldName → Value} {e : Predicate}
    (h : ∀ f ∈ e.columns, env f = env' f) : e.Meets env ↔ e.Meets env' := by
  cases e with
  | spatial op l r =>
    rw [Meets, Meets, denote_congr l fun f hf => h f (List.mem_append_left _ hf),
      denote_congr r fun f hf => h f (List.mem_append_right _ hf)]
  | _ => exact Iff.rfl

theorem Value.meets_iff {v w : Value} : v.meets w = true ↔
    ∃ e f, v.envelope? = some e ∧ w.envelope? = some f ∧ e.intersects f = true := by
  rw [meets]
  cases v.envelope? <;> cases w.envelope? <;> simp

theorem Envelope.intersects_comm (e f : Envelope) : e.intersects f = f.intersects e := by
  rw [Bool.eq_iff_iff]
  simp only [intersects, Bool.and_eq_true]
  tauto

theorem Value.meets_comm (v w : Value) : v.meets w = w.meets v := by
  rw [meets, meets]
  cases v.envelope? with
  | none => cases w.envelope? <;> rfl
  | some e =>
    cases w.envelope? with
    | none => rfl
    | some f => exact e.intersects_comm f

/-! ### Queries of an access path -/

namespace AccessPath

variable {path : AccessPath} {v w : Value} {q : IndexQuery}

theorem indexQuery?_spec (h : path.indexQuery? v = some q) :
    q.field = path.field ∧ q.kind = path.kind := by
  rw [indexQuery?] at h
  split at h
  · next hkind =>
    obtain ⟨e, -, rfl⟩ := Option.map_eq_some_iff.mp h
    exact ⟨rfl, hkind.symm⟩
  · next hkind =>
    split_ifs at h
    cases h
    exact ⟨rfl, hkind.symm⟩

/-- The query for a value of the lookup finds the entry of a value of the field. -/
def Reaches (path : AccessPath) (v w : Value) : Prop :=
  ∃ q x, path.indexQuery? v = some q ∧ IndexEntry.ofValue? path.kind w = some x ∧ q.Finds x

/-- A value reaches the values that equal it. -/
theorem reaches_of_queryEq (hkind : path.kind = .attribute) (hw : ∀ g, w ≠ .geometry g)
    (h : w.queryEq v = true ∨ v.queryEq w = true) : path.Reaches v w := by
  obtain ⟨k, key, hk, hkey, horder⟩ : ∃ k key, ScalarKey.ofValue? w = some k ∧
      ScalarKey.ofValue? v = some key ∧ ScalarKey.order k key = .eq := by
    rcases h with h | h
    · exact ScalarKey.order_of_queryEq h (.inl hw)
    · obtain ⟨key, k, hkey, hk, horder⟩ := ScalarKey.order_of_queryEq h (.inr hw)
      exact ⟨k, key, hk, hkey, ScalarKey.order_comm.mp horder⟩
  have hnull : v.isNull = false := by
    cases v with
    | null => cases hkey
    | _ => rfl
  refine ⟨.equals path.field v, .key k, ?_, ?_, key, hkey, horder⟩
  · simp [indexQuery?, hkind, hnull]
  · simp [IndexEntry.ofValue?, hkind, hk]

/-- A geometry reaches those whose envelope meets its own. -/
theorem reaches_of_meets (hkind : path.kind = .spatial) (h : w.meets v = true) :
    path.Reaches v w := by
  obtain ⟨f, e, hw, hv, h⟩ := Value.meets_iff.mp h
  refine ⟨.window path.field e, .envelope f, ?_, ?_, h⟩
  · simp [indexQuery?, hkind, hv]
  · simp [IndexEntry.ofValue?, hkind, hw]

end AccessPath

/-! ### Rows at the positions found -/

/-- Positions that include every row to be selected select the same rows, up to order. -/
theorem filter_pick_perm {α : Type} {xs : List α} {ids : List Nat} {test : α → Bool}
    (hnodup : ids.Nodup) (hids : ∀ (i : Nat) (x : α), xs[i]? = some x → test x = true → i ∈ ids) :
    ((pick xs ids).filter test).Perm (xs.filter test) := by
  let found (i : Nat) : Option α := (xs[i]?).filter test
  have hselect (is : List Nat) :
      (pick xs is).filter test = (is.filter fun i => (found i).isSome).filterMap found := by
    rw [pick, List.filter_filterMap, List.filterMap_filter]
    refine List.filterMap_congr fun i _ => ?_
    cases h : found i with
    | none => exact h
    | some x => exact h
  have hsame : (ids.filter fun i => (found i).isSome).Perm
      ((List.range xs.length).filter fun i => (found i).isSome) := by
    refine (List.perm_ext_iff_of_nodup (hnodup.filter _) (List.nodup_range.filter _)).mpr ?_
    intro i
    rw [List.mem_filter, List.mem_filter, List.mem_range]
    refine and_congr_left fun hfound => ?_
    obtain ⟨x, hx⟩ := Option.isSome_iff_exists.mp hfound
    obtain ⟨hx, htest⟩ := Option.filter_eq_some_iff.mp hx
    exact ⟨fun _ => (List.getElem?_eq_some_iff.mp hx).1, fun _ => hids i x hx htest⟩
  -- all elements are those at all positions
  have hall := hselect (List.range xs.length)
  rw [pick_range] at hall
  rw [hselect ids, hall]
  exact hsame.filterMap _

namespace Plan

variable {path : AccessPath} {index : ColumnIndex} {v : Value}

private theorem exists_query (hintact : index.Intact) (hfield : index.field = path.field)
    (hkind : index.kind = path.kind) {q : IndexQuery} (hq : path.indexQuery? v = some q) :
    ∃ ids, index.query q = .ok ids ∧ ids.Nodup ∧
      ∀ id, id ∈ ids ↔ ∃ x, index.entryOf? id = some x ∧ q.Finds x := by
  obtain ⟨hqfield, hqkind⟩ := AccessPath.indexQuery?_spec hq
  exact hintact.query (hqfield.trans hfield.symm) (hqkind.trans hkind.symm)

/-- An intact index of the field and kind of an access path has an answer for every value. -/
theorem answers_of_intact (hintact : index.Intact) (hfield : index.field = path.field)
    (hkind : index.kind = path.kind) : Answers path index v := by
  intro q hq
  obtain ⟨ids, hids, -⟩ := exists_query hintact hfield hkind hq
  exact ⟨ids, hids⟩

/-- Testing the rows that a lookup finds is testing all rows, if those that pass are reached. -/
theorem filter_hits {rows : List Row} {i : Nat} {test : Row → Bool} (hintact : index.Intact)
    (hfield : index.field = path.field) (hkind : index.kind = path.kind)
    (hholds : index.Holds (ColumnIndex.column rows i))
    (htest : ∀ row ∈ rows, test row = true → ∃ w, row[i]? = some w ∧ path.Reaches v w) :
    ((hits path index rows v).filter test).Perm (rows.filter test) := by
  rw [hits]
  cases hq : path.indexQuery? v with
  | none =>
    -- without a query nothing is reached, so no row passes
    refine .of_eq (List.filter_eq_nil_iff.mpr fun row hrow hpass => ?_).symm
    obtain ⟨w, -, q, x, hq', -⟩ := htest row hrow hpass
    rw [hq] at hq'
    cases hq'
  | some q =>
    obtain ⟨ids, hids, hnodup, hmem⟩ := exists_query hintact hfield hkind hq
    simp only [hids]
    -- a row that passes is reached, and what is reached is found
    refine filter_pick_perm hnodup fun id row hid hpass => (hmem id).mpr ?_
    obtain ⟨w, hw, q', x, hq', hx, hfinds⟩ := htest row (List.mem_of_getElem? hid) hpass
    rw [hq] at hq'
    cases hq'
    have hknown : (id, w) ∈ ColumnIndex.column rows i :=
      List.mem_filterMap.mpr ⟨(row, id), List.mem_zipIdx_iff_getElem?.mpr hid, by simp [hw]⟩
    refine ⟨x, (hholds.known _ hknown).trans ?_, hfinds⟩
    rw [hkind]
    exact hx

end Plan

end SpatialStore
