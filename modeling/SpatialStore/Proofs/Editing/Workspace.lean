import SpatialStore.Editing.Workspace
import SpatialStore.Proofs.Editing.Edit
import SpatialStore.Proofs.Schema.Rows

/-!
# The history of a workspace

The undo and redo lists of a workspace describe a course of views through the present one: the
edits that can be undone lead to it, those that can be made again lead on from it
(`Workspace.Sound`). Every change of a sound workspace performs an edit that leads on from the
present view, undoing goes back by one step and redoing forward by one, and all of these steps keep
the workspace sound (`Workspace.Sound.step`).

The ids of rows that come back were given out before, so they lie below the next id, as do those of
the rows that are there. This is why a new row never meets the id of another.
-/

namespace SpatialStore

open WorkingCopy (View Fresh Yields)

/-- An edit that puts a row in or takes one out is about an id that was given out. -/
def Edit.Below (n : RowId) : Edit → Prop
  | .insertRow _ id _ | .deleteRow _ id _ => id < n
  | _ => True

theorem Edit.Below.mono {m n : RowId} {e : Edit} (h : e.Below m) (hmn : m ≤ n) : e.Below n := by
  cases e <;> first | exact Nat.lt_of_lt_of_le h hmn | trivial

/-- The values that an edit brings in fit their fields. -/
def Edit.Fits (schema : Schema) : Edit → Prop
  | .insertRow _ _ row => schema.Fits row
  | .setValue _ c _ new => ∀ f ∈ schema.fields[c]?, new.fits f.type = true
  | _ => True

/-- All ids of a view were given out. -/
def WorkingCopy.View.Below (n : RowId) (x : View) : Prop := ∀ r ∈ x.rows, r.id < n

/-- Edits lead from one proper view to another, the first one first. -/
inductive Course : View → List Edit → View → Prop
  | nil (x : View) : Course x [] x
  | cons {x y z : View} {e : Edit} {es : List Edit} : x.Proper → e.Leads x y → Course y es z →
      Course x (e :: es) z

section Course

variable {x y z : View} {e : Edit} {es fs : List Edit}

theorem course_nil : Course x [] y ↔ x = y := by
  constructor
  · rintro ⟨⟩
    rfl
  · rintro rfl
    exact .nil x

theorem course_singleton : Course x [e] y ↔ x.Proper ∧ e.Leads x y := by
  constructor
  · rintro (_ | ⟨hx, he, _ | _⟩)
    exact ⟨hx, he⟩
  · rintro ⟨hx, he⟩
    exact .cons hx he (.nil y)

theorem course_append : Course x (es ++ fs) z ↔ ∃ y, Course x es y ∧ Course y fs z := by
  induction es generalizing x with
  | nil =>
    refine ⟨fun h => ⟨x, .nil x, h⟩, ?_⟩
    rintro ⟨y, _ | _, h⟩
    exact h
  | cons e es ih =>
    constructor
    · rintro (_ | ⟨hx, he, h⟩)
      obtain ⟨y, h, h'⟩ := ih.mp h
      exact ⟨y, .cons hx he h, h'⟩
    · rintro ⟨y, _ | ⟨hx, he, h⟩, h'⟩
      exact .cons hx he (ih.mpr ⟨y, h, h'⟩)

/-- Ids that were given out stay so, whichever way an edit is taken. -/
theorem Edit.Leads.below_iff {n : RowId} (h : e.Leads x y) (he : e.Below n) :
    x.Below n ↔ y.Below n := by
  have of_perm {rows rest : List NumberedRow} {r : NumberedRow} (hperm : rows.Perm (r :: rest))
      (hr : r.id < n) : (∀ s ∈ rows, s.id < n) ↔ ∀ s ∈ rest, s.id < n := by
    simp only [hperm.mem_iff, List.forall_mem_cons, hr, true_and]
  have of_ids {rows rest : List NumberedRow} (hids : rows.map (·.id) = rest.map (·.id)) :
      (∀ s ∈ rows, s.id < n) ↔ ∀ s ∈ rest, s.id < n := by
    rw [← List.forall_mem_map (P := (· < n)), hids, List.forall_mem_map]
  cases h with
  | @insertRow _ i id row hi =>
    exact (of_perm (r := ⟨id, row⟩) (List.perm_insertIdx _ _ hi) he).symm
  | deleteRow hr =>
    obtain ⟨hlt, rfl⟩ := List.getElem?_eq_some_iff.mp hr
    exact of_perm (List.getElem_cons_eraseIdx_perm hlt).symm he
  | @setValue _ i _ r _ _ hr =>
    refine of_ids ?_
    obtain ⟨hlt, rfl⟩ := List.getElem?_eq_some_iff.mp hr
    have hlt' : i < (x.rows.map (·.id)).length := by rwa [List.length_map]
    have hids : (x.rows.map (·.id)).set i (x.rows.map (·.id))[i] = x.rows.map (·.id) :=
      List.set_getElem_self hlt'
    rw [List.getElem_map] at hids
    rw [List.map_set]
    exact hids.symm
  | addField => exact of_ids (by rw [List.map_map]; rfl)
  | removeField => exact of_ids (by rw [List.map_map]; rfl)
  | renameField => exact Iff.rfl

end Course

namespace Workspace

/-- The copy is fresh, the history leads to it and on from it, and every id was given out. -/
structure Sound (w : Workspace) : Prop where
  fresh : w.copy.Fresh
  past : ∃ x, Course x w.undo.reverse w.copy.view
  future : ∃ y, Course w.copy.view w.redo y
  rows : w.copy.view.Below w.copy.nextId
  edits : ∀ e ∈ w.undo ++ w.redo, e.Below w.copy.nextId

variable {w w' : Workspace} {x y : View} {e : Edit} {es : List Edit}

/-- A workspace that was just opened on stored rows is sound, if the standing indexes on existing
fields serve these rows. -/
theorem sound_ofRows {schema : Schema} {rows : List Row} {standing : TableIndexes}
    (hschema : schema.Proper) (hwidth : ∀ row ∈ rows, row.length = schema.count)
    (hserves : ∀ {name : String} {index : ColumnIndex}, schema.hasField name = true →
      standing[name]? = some index →
      index.Serves schema (NumberedRow.byPosition rows) name) :
    (ofRows schema rows standing).Sound := by
  have hids := NumberedRow.ids_byPosition rows
  refine ⟨WorkingCopy.fresh_of_serves ⟨hschema, fun r hr => ?_, ?_⟩ fun {name index} h => ?_,
    ⟨_, .nil _⟩, ⟨_, .nil _⟩, fun r hr => ?_, fun e he => absurd he List.not_mem_nil⟩
  · obtain ⟨⟨row, i⟩, hrow, rfl⟩ := List.mem_map.mp hr
    exact hwidth row (List.mem_of_getElem? (List.mem_zipIdx_iff_getElem?.mp hrow))
  · exact hids ▸ List.nodup_range
  · change (standing.filter fun name _ => schema.hasField name)[name]? = some index at h
    rw [Std.ExtTreeMap.getElem?_filter', Option.filter_eq_some_iff] at h
    exact hserves h.2 h.1
  · have hmem : r.id ∈ (NumberedRow.byPosition rows).map (·.id) := List.mem_map_of_mem hr
    rw [hids] at hmem
    exact List.mem_range.mp hmem

/-! ### Undo and redo -/

/-- Undoing goes back to where the latest edit came from. -/
theorem Sound.undoLast (hw : w.Sound) (hundo : w.undo = e :: es) (hx : x.Proper)
    (hlead : e.Leads x w.copy.view) :
    ∃ w', w.undoLast = .ok (some w') ∧ w'.Sound ∧ w'.copy.view = x ∧ w'.undo = es ∧
      w'.redo = e :: w.redo := by
  obtain ⟨b, hb, hfresh, rfl, hnext⟩ := hlead.revert hw.fresh hx
  have hresult : w.undoLast = .ok (some { w with copy := b, undo := es, redo := e :: w.redo }) := by
    rw [Workspace.undoLast, hundo]
    dsimp only
    rw [hb]
    rfl
  have hbelow : e.Below w.copy.nextId := hw.edits e (by simp [hundo])
  refine ⟨_, hresult, ⟨hfresh, ?_, ?_, ?_, fun d hd => ?_⟩, rfl, rfl, rfl⟩
  · obtain ⟨z, hz⟩ := hw.past
    rw [hundo, List.reverse_cons, course_append] at hz
    obtain ⟨x', hz, hx'⟩ := hz
    obtain ⟨hx', hlead'⟩ := course_singleton.mp hx'
    -- taking the edit back leads to one view only
    obtain ⟨b', hb', -, rfl, -⟩ := hlead'.revert hw.fresh hx'
    rw [hb] at hb'
    obtain rfl := Except.ok.inj hb'
    exact ⟨z, hz⟩
  · obtain ⟨y, hy⟩ := hw.future
    exact ⟨y, .cons hx hlead hy⟩
  · rw [hnext]
    exact (hlead.below_iff hbelow).mpr hw.rows
  · rw [hnext]
    refine hw.edits d ?_
    simp only [hundo, List.mem_append, List.mem_cons] at hd ⊢
    tauto

/-- Redoing goes on to where the edit that was undone last leads. -/
theorem Sound.redoLast (hw : w.Sound) (hredo : w.redo = e :: es)
    (hlead : e.Leads w.copy.view y) :
    ∃ w', w.redoLast = .ok (some w') ∧ w'.Sound ∧ w'.copy.view = y ∧ w'.undo = e :: w.undo ∧
      w'.redo = es := by
  obtain ⟨b, hb, hfresh, rfl, hnext⟩ := hlead.apply hw.fresh
  have hresult : w.redoLast = .ok (some { w with copy := b, undo := e :: w.undo, redo := es }) := by
    rw [Workspace.redoLast, hredo]
    dsimp only
    rw [hb]
    rfl
  have hbelow : e.Below w.copy.nextId := hw.edits e (by simp [hredo])
  refine ⟨_, hresult, ⟨hfresh, ?_, ?_, ?_, fun d hd => ?_⟩, rfl, rfl, rfl⟩
  · obtain ⟨z, hz⟩ := hw.past
    rw [List.reverse_cons]
    exact ⟨z, course_append.mpr ⟨_, hz, course_singleton.mpr ⟨hw.fresh.proper, hlead⟩⟩⟩
  · obtain ⟨z, hz⟩ := hw.future
    rw [hredo] at hz
    obtain _ | ⟨-, hlead', hz⟩ := hz
    -- making the edit again leads to one view only
    obtain ⟨b', hb', -, rfl, -⟩ := hlead'.apply hw.fresh
    rw [hb] at hb'
    obtain rfl := Except.ok.inj hb'
    exact ⟨z, hz⟩
  · rw [hnext]
    exact (hlead.below_iff hbelow).mp hw.rows
  · rw [hnext]
    refine hw.edits d ?_
    simp only [hredo, List.mem_append, List.mem_cons] at hd ⊢
    tauto

/-- Undoing never fails. -/
theorem Sound.undo_cases (hw : w.Sound) :
    w.undo = [] ∧ w.undoLast = .ok none ∨
      ∃ e es w', w.undo = e :: es ∧ w.undoLast = .ok (some w') ∧ w'.Sound ∧
        e.Leads w'.copy.view w.copy.view ∧ w'.redo = e :: w.redo := by
  cases hundo : w.undo with
  | nil =>
    refine .inl ⟨rfl, ?_⟩
    rw [Workspace.undoLast, hundo]
  | cons e es =>
    obtain ⟨z, hz⟩ := hw.past
    rw [hundo, List.reverse_cons, course_append] at hz
    obtain ⟨x, -, hx⟩ := hz
    obtain ⟨hx, hlead⟩ := course_singleton.mp hx
    obtain ⟨w', hw', hsound, rfl, -, hredo⟩ := hw.undoLast hundo hx hlead
    exact .inr ⟨e, es, w', rfl, hw', hsound, hlead, hredo⟩

/-- Redoing never fails. -/
theorem Sound.redo_cases (hw : w.Sound) :
    w.redo = [] ∧ w.redoLast = .ok none ∨
      ∃ e es w', w.redo = e :: es ∧ w.redoLast = .ok (some w') ∧ w'.Sound ∧
        e.Leads w.copy.view w'.copy.view ∧ w'.undo = e :: w.undo := by
  cases hredo : w.redo with
  | nil =>
    refine .inl ⟨rfl, ?_⟩
    rw [Workspace.redoLast, hredo]
  | cons e es =>
    obtain ⟨z, hz⟩ := hw.future
    rw [hredo] at hz
    obtain _ | ⟨-, hlead, -⟩ := hz
    obtain ⟨w', hw', hsound, rfl, hundo, -⟩ := hw.redoLast hredo hlead
    exact .inr ⟨e, es, w', rfl, hw', hsound, hlead, hundo⟩

/-! ### Changes -/

/-- A change that performs an edit: it goes onto the history, and what was undone is forgotten. -/
structure Performs (w : Workspace) (e : Edit) (w' : Workspace) : Prop where
  leads : e.Leads w.copy.view w'.copy.view
  fits : e.Fits w.copy.schema
  sound : w'.Sound
  undo : w'.undo = e :: w.undo
  redo : w'.redo = []
  opened : w'.opened = w.opened

/-- An edit that leads on is performed, and ids can be given out with it. -/
theorem Sound.performs {n : RowId} (hw : w.Sound) (hlead : e.Leads w.copy.view y)
    (hfits : e.Fits w.copy.schema) (hn : w.copy.nextId ≤ n) (hbelow : e.Below n)
    (h : w.perform e = .ok w') :
    w.Performs e { w' with copy := { w'.copy with nextId := n } } := by
  obtain ⟨b, hb, hfresh, rfl, -⟩ := hlead.apply hw.fresh
  rw [perform, hb] at h
  obtain rfl := Except.ok.inj h
  -- the next id is no part of the view
  refine ⟨hlead, hfits, ⟨⟨⟨hfresh.proper.schema, hfresh.proper.width, hfresh.proper.ids⟩,
    hfresh.field, hfresh.holds⟩, ?_, ⟨_, .nil _⟩, ?_, fun d hd => ?_⟩, rfl, rfl, rfl⟩
  · obtain ⟨z, hz⟩ := hw.past
    rw [List.reverse_cons]
    exact ⟨z, course_append.mpr ⟨_, hz, course_singleton.mpr ⟨hw.fresh.proper, hlead⟩⟩⟩
  · exact (hlead.below_iff hbelow).mp fun r hr => Nat.lt_of_lt_of_le (hw.rows r hr) hn
  · rw [List.append_nil, List.mem_cons] at hd
    rcases hd with rfl | hd
    · exact hbelow
    · exact (hw.edits d (List.mem_append_left _ hd)).mono hn

/-- An edit that needs no new id. -/
theorem Sound.performs_same (hw : w.Sound) (hlead : e.Leads w.copy.view y)
    (hfits : e.Fits w.copy.schema) (hbelow : e.Below w.copy.nextId)
    (h : w.perform e = .ok w') : w.Performs e w' := by
  have hnext : w'.copy.nextId = w.copy.nextId := by
    obtain ⟨b, hb, -, -, hnext⟩ := hlead.apply hw.fresh
    rw [perform, hb] at h
    obtain rfl := Except.ok.inj h
    exact hnext
  have hperforms := hw.performs hlead hfits (Nat.le_refl _) hbelow h
  rwa [← hnext] at hperforms

theorem row_eq_ok {b : WorkingCopy} {i : Nat} {r : NumberedRow} :
    b.row i = .ok r ↔ b.rows[i]? = some r := by
  rw [WorkingCopy.row]
  cases b.rows[i]? <;> simp

theorem perform_eq_ok (h : w.perform e = .ok w') :
    ∃ b, e.apply w.copy = .ok b ∧ w' = ⟨b, w.opened, e :: w.undo, []⟩ := by
  obtain ⟨b, hb, h⟩ := Result.bind_eq_ok.mp h
  exact ⟨b, hb, (Except.ok.inj h).symm⟩

/-- A new row is checked and gets the next id, which is used up by it. -/
theorem insertRowAt_eq_ok {i : Nat} {row : Row} {id : RowId}
    (h : w.insertRowAt i row = .ok (w', id)) :
    i ≤ w.copy.rows.length ∧ w.copy.schema.Fits row ∧ id = w.copy.nextId ∧
      ∃ v, w.perform (.insertRow i w.copy.nextId row) = .ok v ∧
        w' = { v with copy := { v.copy with nextId := w.copy.nextId + 1 } } := by
  rw [Workspace.insertRowAt] at h
  dsimp only at h
  split_ifs at h with hi
  · cases h
  obtain ⟨_, hcheck, h⟩ := Result.bind_eq_ok.mp h
  obtain ⟨v, hv, h⟩ := Result.bind_eq_ok.mp h
  obtain ⟨rfl, rfl⟩ := Prod.mk.inj (Except.ok.inj h)
  exact ⟨Nat.not_lt.mp hi, Schema.checkRow_eq_ok.mp hcheck, rfl, v, hv, rfl⟩

theorem deleteRow_eq_ok {i : Nat} (h : w.deleteRow i = .ok w') :
    ∃ r, w.copy.rows[i]? = some r ∧ w.perform (.deleteRow i r.id r.values) = .ok w' := by
  obtain ⟨r, hr, h⟩ := Result.bind_eq_ok.mp h
  exact ⟨r, row_eq_ok.mp hr, h⟩

/-- A new value is checked, unless there is no such field. -/
theorem setValue_eq_ok {i c : Nat} {v : Value} (h : w.setValue i c v = .ok w') :
    ∃ r former, w.copy.rows[i]? = some r ∧ r.values[c]? = some former ∧
      (∀ f ∈ w.copy.schema.fields[c]?, v.fits f.type = true) ∧
      w.perform (.setValue i c former v) = .ok w' := by
  obtain ⟨former, hformer, h⟩ := Result.bind_eq_ok.mp h
  obtain ⟨hfits, h⟩ : (∀ f ∈ w.copy.schema.fields[c]?, v.fits f.type = true) ∧
      w.perform (.setValue i c former v) = .ok w' := by
    dsimp only at h
    cases hf : w.copy.schema.field? c with
    | none =>
      rw [hf] at h
      refine ⟨fun f hmem => ?_, h⟩
      cases hf.symm.trans hmem
    | some f =>
      rw [hf] at h
      obtain ⟨_, hcheck, h⟩ := Result.bind_eq_ok.mp h
      refine ⟨fun g hg => ?_, h⟩
      obtain rfl := Option.some.inj (hf.symm.trans hg)
      exact Field.checkType_eq_ok.mp hcheck
  obtain ⟨r, hr, hformer⟩ := Result.bind_eq_ok.mp hformer
  cases hvalue : r.values[c]? with
  | none =>
    rw [hvalue] at hformer
    cases hformer
  | some former' =>
    rw [hvalue] at hformer
    obtain rfl := Except.ok.inj hformer
    exact ⟨r, former', row_eq_ok.mp hr, hvalue, hfits, h⟩

theorem addField_eq_ok {f : Field} {i : Nat} (h : w.addField f = .ok (w', i)) :
    f.name ∉ w.copy.schema.names ∧
      w.perform (.addField w.copy.schema.count f) = .ok w' ∧ i = w.copy.schema.count := by
  rw [Workspace.addField] at h
  dsimp only at h
  split_ifs at h with hname
  · cases h
  obtain ⟨v, hv, h⟩ := Result.bind_eq_ok.mp h
  obtain ⟨rfl, rfl⟩ := Prod.mk.inj (Except.ok.inj h)
  exact ⟨mt Schema.hasField_iff.mpr hname, hv, rfl⟩

theorem removeField_eq_ok {i : Nat} (h : w.removeField i = .ok w') :
    ∃ f, w.copy.schema.field? i = some f ∧
      w.perform (.removeField i f (w.copy.rows.map fun r => (r.values[i]?).getD .null)
        w.copy.indexes[f.name]?) = .ok w' := by
  rw [Workspace.removeField] at h
  dsimp only at h
  cases hf : w.copy.schema.field? i with
  | none =>
    rw [hf] at h
    cases h
  | some f =>
    rw [hf] at h
    exact ⟨f, rfl, h⟩

theorem renameField_eq_ok {i : Nat} {name : String} (h : w.renameField i name = .ok w') :
    ∃ f, w.copy.schema.field? i = some f ∧
      ¬(w.copy.schema.indexOf? name).any (· != i) = true ∧
      w.perform (.renameField i f.name name) = .ok w' := by
  rw [Workspace.renameField] at h
  dsimp only at h
  cases hf : w.copy.schema.field? i with
  | none =>
    rw [hf] at h
    cases h
  | some f =>
    rw [hf] at h
    dsimp only at h
    split_ifs at h with hother
    · cases h
    exact ⟨f, rfl, hother, h⟩

theorem Sound.insertRowAt {i : Nat} {row : Row} {id : RowId} (hw : w.Sound)
    (h : w.insertRowAt i row = .ok (w', id)) : ∃ e, w.Performs e w' := by
  obtain ⟨hi, hfits, -, v, hv, rfl⟩ := insertRowAt_eq_ok h
  -- ids of rows that are there were given out, the next one was not
  have hid : w.copy.nextId ∉ w.copy.rows.map (·.id) := by
    intro hmem
    obtain ⟨r, hr, hid⟩ := List.mem_map.mp hmem
    exact absurd (hw.rows r hr) (Nat.not_lt.mpr (Nat.le_of_eq hid.symm))
  exact ⟨_, hw.performs (.insertRow hi hid hfits.length) hfits (Nat.le_succ _)
    (Nat.lt_succ_self _) hv⟩

theorem Sound.deleteRow {i : Nat} (hw : w.Sound) (h : w.deleteRow i = .ok w') :
    ∃ e, w.Performs e w' := by
  obtain ⟨r, hr, h⟩ := deleteRow_eq_ok h
  exact ⟨_, hw.performs_same (.deleteRow hr) trivial (hw.rows r (List.mem_of_getElem? hr)) h⟩

theorem Sound.setValue {i c : Nat} {v : Value} (hw : w.Sound) (h : w.setValue i c v = .ok w') :
    ∃ e, w.Performs e w' := by
  obtain ⟨r, former, hr, hformer, hfits, h⟩ := setValue_eq_ok h
  exact ⟨_, hw.performs_same (.setValue hr hformer) hfits trivial h⟩

theorem Sound.addField {f : Field} {i : Nat} (hw : w.Sound) (h : w.addField f = .ok (w', i)) :
    ∃ e, w.Performs e w' := by
  obtain ⟨hname, h, -⟩ := addField_eq_ok h
  exact ⟨_, hw.performs_same (.addField (Nat.le_refl _) hname (hw.fresh.kinds_eq_none hname))
    trivial trivial h⟩

theorem Sound.removeField {i : Nat} (hw : w.Sound) (h : w.removeField i = .ok w') :
    ∃ e, w.Performs e w' := by
  obtain ⟨f, hf, h⟩ := removeField_eq_ok h
  refine ⟨_, hw.performs_same (.removeField hf rfl fun index hindex => ?_) trivial trivial h⟩
  -- the index that is kept for later holds the column that goes
  obtain ⟨c, g, hg, hname, hholds⟩ := hw.fresh.holds hindex
  obtain rfl := hw.fresh.schema_proper.inj hg hf hname
  exact ⟨hw.fresh.field hindex, hholds⟩

theorem Sound.renameField {i : Nat} {name : String} (hw : w.Sound)
    (h : w.renameField i name = .ok w') : ∃ e, w.Performs e w' := by
  obtain ⟨f, hf, hother, h⟩ := renameField_eq_ok h
  refine ⟨_, hw.performs_same (.renameField hf ?_) trivial trivial h⟩
  -- the name is free, or it is the former one
  cases hj : w.copy.schema.indexOf? name with
  | none =>
    have hname := Schema.indexOf?_eq_none_iff.mp hj
    exact .inr ⟨hname, hw.fresh.kinds_eq_none hname⟩
  | some j =>
    rw [hj] at hother
    obtain rfl : j = i := by simpa using hother
    obtain ⟨g, hg, rfl⟩ := Schema.exists_field_of_indexOf? hj
    exact .inl (congrArg Field.name (Option.some.inj (hg.symm.trans hf)))

/-! ### Steps -/

/-- One step of a workspace: an edit, or one back or forth in the history. -/
inductive Step (w w' : Workspace) : Prop
  | edit {e : Edit} : w.Performs e w' → Step w w'
  | undo : w.undoLast = .ok (some w') → Step w w'
  | redo : w.redoLast = .ok (some w') → Step w w'

/-- A sound workspace takes sound steps. -/
theorem Sound.step (hw : w.Sound) (h : w.Step w') : w'.Sound := by
  cases h with
  | edit hperforms => exact hperforms.sound
  | undo h =>
    rcases hw.undo_cases with ⟨-, hundo⟩ | ⟨_, _, v, -, hundo, hsound, -⟩
    · cases h.symm.trans hundo
    · cases h.symm.trans hundo
      exact hsound
  | redo h =>
    rcases hw.redo_cases with ⟨-, hredo⟩ | ⟨_, _, v, -, hredo, hsound, -⟩
    · cases h.symm.trans hredo
    · cases h.symm.trans hredo
      exact hsound

theorem undoLast_eq_some (h : w.undoLast = .ok (some w')) :
    ∃ e b, e.revert w.copy = .ok b ∧ w.undo = e :: w'.undo ∧
      w' = ⟨b, w.opened, w'.undo, e :: w.redo⟩ := by
  rw [Workspace.undoLast] at h
  cases hundo : w.undo with
  | nil =>
    rw [hundo] at h
    cases h
  | cons e es =>
    rw [hundo] at h
    obtain ⟨b, hb, h⟩ := Result.bind_eq_ok.mp h
    cases h
    exact ⟨e, b, hb, rfl, rfl⟩

theorem redoLast_eq_some (h : w.redoLast = .ok (some w')) :
    ∃ e b, e.apply w.copy = .ok b ∧ w.redo = e :: w'.redo ∧
      w' = ⟨b, w.opened, e :: w.undo, w'.redo⟩ := by
  rw [Workspace.redoLast] at h
  cases hredo : w.redo with
  | nil =>
    rw [hredo] at h
    cases h
  | cons e es =>
    rw [hredo] at h
    obtain ⟨b, hb, h⟩ := Result.bind_eq_ok.mp h
    cases h
    exact ⟨e, b, hb, rfl, rfl⟩

/-- The names under which indexes were standing are never changed. -/
theorem Step.opened (h : w.Step w') : w'.opened = w.opened := by
  cases h with
  | edit hperforms => exact hperforms.opened
  | undo h =>
    obtain ⟨_, _, -, -, h⟩ := undoLast_eq_some h
    rw [h]
  | redo h =>
    obtain ⟨_, _, -, -, h⟩ := redoLast_eq_some h
    rw [h]

/-- Edits that lead to the workspace from a view lead to the next one as well, unless there is
nothing left of them to undo. -/
theorem Sound.course_step (hw : w.Sound) (hcourse : Course x w.undo.reverse w.copy.view)
    (h : w.Step w') : Course x w'.undo.reverse w'.copy.view := by
  cases h with
  | edit hperforms =>
    rw [hperforms.undo, List.reverse_cons]
    exact course_append.mpr
      ⟨_, hcourse, course_singleton.mpr ⟨hw.fresh.proper, hperforms.leads⟩⟩
  | undo h =>
    cases hundo : w.undo with
    | nil =>
      rw [Workspace.undoLast, hundo] at h
      cases h
    | cons e es =>
      rw [hundo, List.reverse_cons, course_append] at hcourse
      obtain ⟨y, hcourse, hlast⟩ := hcourse
      obtain ⟨hy, hlead⟩ := course_singleton.mp hlast
      obtain ⟨v, hv, -, rfl, hundo', -⟩ := hw.undoLast hundo hy hlead
      cases h.symm.trans hv
      rwa [hundo']
  | redo h =>
    rcases hw.redo_cases with ⟨-, hredo⟩ | ⟨e, _, v, -, hredo, -, hlead, hundo⟩
    · cases h.symm.trans hredo
    · cases h.symm.trans hredo
      rw [hundo, List.reverse_cons]
      exact course_append.mpr ⟨_, hcourse, course_singleton.mpr ⟨hw.fresh.proper, hlead⟩⟩

end Workspace

end SpatialStore
