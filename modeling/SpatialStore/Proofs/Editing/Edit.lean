import Mathlib.Data.List.InsertIdx
import SpatialStore.Editing.Edit
import SpatialStore.Proofs.Editing.WorkingCopy

/-!
# Edits as steps between views

`Edit.Leads e x y` says what an edit does to the view of a working copy, and under which
conditions it can be recorded. An edit that leads from `x` to `y` takes every fresh copy with the
view `x` to one with the view `y` (`Leads.apply`), and back (`Leads.revert`). As the view
determines the entries of a fresh copy, the two directions are inverse to each other for whoever
reads the copy.

A removed field comes back with the index that it had. That index was copied before the removal, so
it fits the rows again exactly when the view is the former one; this is why an edit is tied to
the views on both of its sides.
-/

namespace SpatialStore.Edit

open WorkingCopy (View Fresh Yields padded)

/-- The edit leads from one view to another. -/
inductive Leads : Edit → View → View → Prop
  | insertRow {x : View} {i : Nat} {id : RowId} {row : Row} : i ≤ x.rows.length →
      id ∉ x.rows.map (·.id) → row.length = x.schema.count →
      Leads (.insertRow i id row) x { x with rows := x.rows.insertIdx i ⟨id, row⟩ }
  | deleteRow {x : View} {i : Nat} {r : NumberedRow} : x.rows[i]? = some r →
      Leads (.deleteRow i r.id r.values) x { x with rows := x.rows.eraseIdx i }
  | setValue {x : View} {i c : Nat} {r : NumberedRow} {former new : Value} :
      x.rows[i]? = some r → r.values[c]? = some former →
      Leads (.setValue i c former new) x
        { x with rows := x.rows.set i { r with values := r.values.set c new } }
  | addField {x : View} {i : Nat} {f : Field} : i ≤ x.schema.count →
      f.name ∉ x.schema.names → x.kinds f.name = none →
      Leads (.addField i f) x
        { x with
          schema := ⟨x.schema.fields.insertIdx i f⟩
          rows := x.rows.map fun r => { r with values := r.values.insertIdx i .null } }
  | removeField {x : View} {i : Nat} {f : Field} {index : Option ColumnIndex} :
      x.schema.fields[i]? = some f → x.kinds f.name = index.map (·.kind) →
      (∀ y ∈ index, y.field = f.name ∧ y.Holds (NumberedRow.cells x.rows i)) →
      Leads (.removeField i f (x.rows.map fun r => (r.values[i]?).getD .null) index) x
        { schema := ⟨x.schema.fields.eraseIdx i⟩
          rows := x.rows.map fun r => { r with values := r.values.eraseIdx i }
          kinds := fun name => if name = f.name then none else x.kinds name }
  | renameField {x : View} {i : Nat} {f : Field} {new : String} :
      x.schema.fields[i]? = some f → new = f.name ∨ new ∉ x.schema.names ∧ x.kinds new = none →
      Leads (.renameField i f.name new) x
        { x with
          schema := ⟨x.schema.fields.set i { f with name := new }⟩
          kinds := fun name =>
            if name = new then x.kinds f.name else if name = f.name then none else x.kinds name }

variable {e : Edit} {x y : View} {b : WorkingCopy}

/-- New columns of nulls. -/
private theorem padded_nil (rows : List NumberedRow) (i : Nat) :
    (rows.zipIdx.map fun r =>
      { r.1 with values := r.1.values.insertIdx i (padded [] r.2) : NumberedRow }) =
      rows.map fun r => { r with values := r.values.insertIdx i .null } := by
  conv_rhs => rw [← List.zipIdx_map_fst 0 rows, List.map_map]
  rfl

/-- A column that is put back where it was taken out. -/
private theorem insertIdx_eraseIdx {rows : List NumberedRow} {values : List Value} {i : Nat}
    (hvalues : values = rows.map fun r => (r.values[i]?).getD .null)
    (h : ∀ r ∈ rows, i < r.values.length) :
    ((rows.map fun r => { r with values := r.values.eraseIdx i : NumberedRow }).zipIdx.map fun r =>
      { r.1 with values := r.1.values.insertIdx i (padded values r.2) : NumberedRow }) = rows := by
  subst hvalues
  refine List.ext_getElem? fun k => ?_
  rw [List.getElem?_map, List.getElem?_zipIdx, List.getElem?_map]
  cases hk : rows[k]? with
  | none => rfl
  | some r =>
    have hi := h r (List.mem_of_getElem? hk)
    have hvalue : padded (rows.map fun r => (r.values[i]?).getD .null) k =
        r.values[i] := by
      rw [padded, List.getElem?_map, hk, Option.map_some, Option.getD_some,
        List.getElem?_eq_getElem hi, Option.getD_some]
    simp only [Option.map_some, Nat.zero_add, hvalue, List.insertIdx_eraseIdx_getElem hi]

/-- A fresh copy is taken forward. -/
theorem Leads.apply (hb : b.Fresh) (h : e.Leads b.view y) : b.Yields (e.apply b) y := by
  generalize hx : b.view = x at h
  cases h with subst hx
  | insertRow hi hid hwidth => exact hb.insertRow hi hid hwidth
  | deleteRow hr => exact hb.removeRow hr
  | setValue hr hformer => exact hb.setValue hr hformer _
  | addField hi hname =>
    have hinsert := hb.insertColumn hi hname []
    rwa [padded_nil] at hinsert
  | removeField hf => exact hb.removeColumn hf
  | renameField hf hname => exact hb.renameColumn hf (hname.imp_right And.left)

/-! ### Taking an edit back

In the theorems of this section `b` is a fresh copy after the edit, and `x` the view before it. -/

section Revert

variable {i c : Nat} {id : RowId} {row : Row} {r : NumberedRow} {f : Field} {new : Value}
  {name : String} {values : List Value} {index : Option ColumnIndex}

private theorem revert_insertRow (hb : b.Fresh) (hi : i ≤ x.rows.length)
    (hview : b.view = { x with rows := x.rows.insertIdx i ⟨id, row⟩ }) :
    b.Yields (b.removeRow i) x := by
  have hrows : b.rows = x.rows.insertIdx i ⟨id, row⟩ := congrArg View.rows hview
  have hr : b.rows[i]? = some ⟨id, row⟩ := by
    rw [hrows, List.getElem?_insertIdx_self, if_pos hi]
  have hremove := hb.removeRow hr
  rw [hview, hrows, List.eraseIdx_insertIdx_self] at hremove
  exact hremove

private theorem revert_deleteRow (hb : b.Fresh) (hx : x.Proper) (hr : x.rows[i]? = some r)
    (hview : b.view = { x with rows := x.rows.eraseIdx i }) :
    b.Yields (b.insertRow i r.id r.values) x := by
  have hschema : b.schema = x.schema := congrArg View.schema hview
  have hrows : b.rows = x.rows.eraseIdx i := congrArg View.rows hview
  obtain ⟨hlt, rfl⟩ := List.getElem?_eq_some_iff.mp hr
  have hi : i ≤ b.rows.length := by
    rw [hrows, List.length_eraseIdx_of_lt hlt]
    omega
  have hid : x.rows[i].id ∉ b.rows.map (·.id) := by
    rw [hrows]
    exact (hx.ids_eraseIdx hlt).1
  have hwidth : x.rows[i].values.length = b.schema.count := by
    rw [hschema]
    exact hx.width _ (List.getElem_mem hlt)
  have hinsert := hb.insertRow hi hid hwidth
  rw [hview, hrows, List.insertIdx_eraseIdx_getElem hlt] at hinsert
  exact hinsert

private theorem revert_setValue {former : Value} (hb : b.Fresh) (hr : x.rows[i]? = some r)
    (hformer : r.values[c]? = some former)
    (hview : b.view = { x with rows := x.rows.set i { r with values := r.values.set c new } }) :
    b.Yields (b.setValue i c former) x := by
  obtain ⟨hlt, rfl⟩ := List.getElem?_eq_some_iff.mp hr
  obtain ⟨hc, rfl⟩ := List.getElem?_eq_some_iff.mp hformer
  have hrows : b.rows = x.rows.set i { x.rows[i] with values := x.rows[i].values.set c new } :=
    congrArg View.rows hview
  have hr' : b.rows[i]? = some { x.rows[i] with values := x.rows[i].values.set c new } := by
    rw [hrows, List.getElem?_set_self hlt]
  have hset := hb.setValue hr' (List.getElem?_set_self hc) x.rows[i].values[c]
  rw [hview, hrows, List.set_set, List.set_set, List.set_getElem_self, List.set_getElem_self]
    at hset
  exact hset

private theorem revert_addField (hb : b.Fresh) (hi : i ≤ x.schema.count)
    (hkind : x.kinds f.name = none)
    (hview : b.view = { x with
      schema := ⟨x.schema.fields.insertIdx i f⟩
      rows := x.rows.map fun r => { r with values := r.values.insertIdx i .null } }) :
    b.Yields (b.removeColumn i) x := by
  have hschema : b.schema = ⟨x.schema.fields.insertIdx i f⟩ := congrArg View.schema hview
  have hrows : b.rows = x.rows.map fun r => { r with values := r.values.insertIdx i .null } :=
    congrArg View.rows hview
  have hkinds : b.view.kinds = x.kinds := by rw [hview]
  have hf : b.schema.fields[i]? = some f := by
    rw [hschema, List.getElem?_insertIdx_self]
    exact if_pos hi
  have hremove := hb.removeColumn hf
  have hback : (b.rows.map fun r => { r with values := r.values.eraseIdx i }) = x.rows := by
    rw [hrows, List.map_map]
    refine List.map_id'' (fun r => ?_) _
    exact congrArg (NumberedRow.mk r.id) (List.eraseIdx_insertIdx_self _)
  have hkinds' : (fun name => if name = f.name then none else b.view.kinds name) = x.kinds := by
    refine funext fun name => ?_
    split_ifs with h
    · rw [h, hkind]
    · rw [hkinds]
  rw [hback, hkinds', hschema, List.eraseIdx_insertIdx_self] at hremove
  exact hremove

/-- A column that was put back is followed by its index. -/
private theorem revert_removeField_eq {b' : WorkingCopy}
    (h : b.insertColumn i f values = .ok b') :
    Edit.revert b (.removeField i f values index) =
      match index with
      | none => .ok b'
      | some index => .ok { b' with indexes := b'.indexes.insert f.name index } := by
  rw [Edit.revert, h]
  cases index <;> rfl

private theorem revert_removeField (hb : b.Fresh) (hx : x.Proper)
    (hf : x.schema.fields[i]? = some f) (hkind : x.kinds f.name = index.map (·.kind))
    (hindex : ∀ y ∈ index, y.field = f.name ∧ y.Holds (NumberedRow.cells x.rows i))
    (hvalues : values = x.rows.map fun r => (r.values[i]?).getD .null)
    (hview : b.view =
      { schema := ⟨x.schema.fields.eraseIdx i⟩
        rows := x.rows.map fun r => { r with values := r.values.eraseIdx i }
        kinds := fun name => if name = f.name then none else x.kinds name }) :
    b.Yields (Edit.revert b (.removeField i f values index)) x := by
  have hschema : b.schema = ⟨x.schema.fields.eraseIdx i⟩ := congrArg View.schema hview
  have hrows : b.rows = x.rows.map fun r => { r with values := r.values.eraseIdx i } :=
    congrArg View.rows hview
  obtain ⟨hlt, hget⟩ := List.getElem?_eq_some_iff.mp hf
  have hi : i ≤ b.schema.count := by
    rw [hschema, Schema.count, List.length_eraseIdx_of_lt hlt]
    omega
  have hname : f.name ∉ b.schema.names := by
    rw [hschema]
    exact hx.schema.name_not_mem_eraseIdx hf
  -- the column comes back first, which makes the view the former one up to the kinds
  obtain ⟨b', hb', hfresh, hview', hnext⟩ := hb.insertColumn hi hname values
  have hfields : b.schema.fields.insertIdx i f = x.schema.fields := by
    rw [hschema, ← hget, List.insertIdx_eraseIdx_getElem hlt]
  have hwide : ∀ r ∈ x.rows, i < r.values.length := fun r hr => (hx.width r hr).symm ▸ hlt
  rw [hfields, hrows, insertIdx_eraseIdx hvalues hwide, hview] at hview'
  have hkinds : (fun name => if name = f.name then index.map (·.kind) else
      if name = f.name then none else x.kinds name) = x.kinds := by
    refine funext fun name => ?_
    split_ifs with h
    · rw [h, hkind]
    · rfl
  rw [revert_removeField_eq hb']
  cases index with
  | none =>
    refine ⟨b', rfl, hfresh, hview'.trans (congrArg (View.mk x.schema x.rows) ?_), hnext⟩
    refine (funext fun name => ?_).trans hkinds
    dsimp only [Option.map_none]
    split_ifs <;> rfl
  | some index =>
    obtain ⟨hfield, hholds⟩ := hindex index rfl
    have hrows' : b'.rows = x.rows := congrArg View.rows hview'
    have hschema' : b'.schema = x.schema := congrArg View.schema hview'
    obtain ⟨b'', hb'', hfresh', hview'', hnext'⟩ :=
      hfresh.insertIndex (hschema'.symm ▸ hf) hfield (hrows'.symm ▸ hholds)
    refine ⟨b'', hb'', hfresh', hview''.trans ?_, hnext'.trans hnext⟩
    rw [hview']
    exact congrArg (View.mk x.schema x.rows) hkinds

private theorem revert_renameField (hb : b.Fresh) (hx : x.Proper)
    (hf : x.schema.fields[i]? = some f)
    (hname : name = f.name ∨ name ∉ x.schema.names ∧ x.kinds name = none)
    (hview : b.view = { x with
      schema := ⟨x.schema.fields.set i { f with name }⟩
      kinds := fun k =>
        if k = name then x.kinds f.name else if k = f.name then none else x.kinds k }) :
    b.Yields (b.renameColumn i name f.name) x := by
  have hschema : b.schema = ⟨x.schema.fields.set i { f with name }⟩ := congrArg View.schema hview
  obtain ⟨hlt, hget⟩ := List.getElem?_eq_some_iff.mp hf
  have hf' : b.schema.fields[i]? = some { f with name } := by
    rw [hschema, List.getElem?_set_self hlt]
  -- no other field has taken the former name
  have hname' : f.name = name ∨ f.name ∉ b.schema.names := by
    refine or_iff_not_imp_left.mpr fun hne hmem => ?_
    obtain ⟨g, hg, hgname⟩ := List.mem_map.mp hmem
    obtain ⟨j, hj⟩ := List.mem_iff_getElem?.mp hg
    rcases eq_or_ne i j with rfl | hij
    · rw [hf'] at hj
      obtain rfl := Option.some.inj hj
      exact hne hgname.symm
    · rw [hschema, List.getElem?_set_ne hij] at hj
      exact hij (hx.schema.inj hf hj hgname.symm)
  have hrename := hb.renameColumn hf' hname'
  -- both the field and the kinds are the former ones again
  have hfields : b.schema.fields.set i { f with name := f.name } = x.schema.fields := by
    rw [hschema, List.set_set, ← hget]
    exact List.set_getElem_self hlt
  have hback : (fun k => if k = f.name then b.view.kinds name
      else if k = name then none else b.view.kinds k) = x.kinds := by
    refine funext fun k => ?_
    rw [hview]
    dsimp only
    rw [if_pos rfl]
    split_ifs with h h'
    · rw [h]
    · rw [h']
      rcases hname with rfl | ⟨-, hnone⟩
      · exact absurd h' h
      · exact hnone.symm
    · rfl
  dsimp only at hrename
  rw [hfields, hback, hview] at hrename
  exact hrename

end Revert

/-- A fresh copy is taken back. -/
theorem Leads.revert (hb : b.Fresh) (hx : x.Proper) (h : e.Leads x b.view) :
    b.Yields (e.revert b) x := by
  generalize hview : b.view = y at h
  cases h with
  | insertRow hi => exact revert_insertRow hb hi hview
  | deleteRow hr => exact revert_deleteRow hb hx hr hview
  | setValue hr hformer => exact revert_setValue hb hr hformer hview
  | addField hi hname hkind => exact revert_addField hb hi hkind hview
  | removeField hf hkind hindex => exact revert_removeField hb hx hf hkind hindex rfl hview
  | renameField hf hname => exact revert_renameField hb hx hf hname hview

end SpatialStore.Edit
