import SpatialStore.Proofs.Editing.Session

/-!
# Editing without indexes

The working indexes decide how queries are answered, but not what becomes of the schema, the rows
and the history. So a workspace whose indexes are forgotten (`Workspace.unindexed`) goes through the
same changes: each of them, undoing and redoing commute with forgetting
(`EditSession.run_unindexed`).

Without its indexes a workspace is sound whatever they were. What is not about them, such as the
widths of the rows and the course of the history, therefore holds of a session even if the indexes
that stood when it was opened did not fit the stored rows (`EditSession.step_unindexed`).
-/

namespace SpatialStore

/-- A copy without its indexes. -/
def WorkingCopy.unindexed (b : WorkingCopy) : WorkingCopy := { b with indexes := ∅ }

/-- An edit without the index of a removed field. -/
def Edit.unindexed : Edit → Edit
  | .removeField i f values _ => .removeField i f values none
  | e => e

/-- A workspace without its indexes and those that its history keeps. -/
def Workspace.unindexed (w : Workspace) : Workspace :=
  ⟨w.copy.unindexed, w.opened, w.undo.map .unindexed, w.redo.map .unindexed⟩

/-- A session without indexes. -/
def EditSession.unindexed (e : EditSession) : EditSession :=
  match e.state with
  | .opened w => e.withWorkspace w.unindexed
  | _ => e

/-! ### Copies -/

namespace WorkingCopy

variable (b : WorkingCopy)

theorem insertRow_unindexed (i : Nat) (id : RowId) (row : Row) :
    b.unindexed.insertRow i id row = (b.insertRow i id row).map unindexed := by
  rw [insertRow, insertRow, apply_ite (Except.map unindexed)]
  refine if_congr Iff.rfl rfl ?_
  exact congrArg (fun indexes => Except.ok { b with rows := b.rows.insertIdx i ⟨id, row⟩, indexes })
    (Std.ExtTreeMap.map_eq_empty_iff.mpr rfl)

theorem removeRow_unindexed (i : Nat) :
    b.unindexed.removeRow i = (b.removeRow i).map unindexed := by
  have hrow : b.unindexed.row i = b.row i := rfl
  rw [removeRow, removeRow, hrow]
  cases b.row i with
  | error err => rfl
  | ok r =>
    exact congrArg (fun indexes => Except.ok { b with rows := b.rows.eraseIdx i, indexes })
      (Std.ExtTreeMap.map_eq_empty_iff.mpr rfl)

theorem setValue_unindexed (i c : Nat) (v : Value) :
    b.unindexed.setValue i c v = (b.setValue i c v).map unindexed := by
  have hrow : b.unindexed.row i = b.row i := rfl
  have hfield : b.unindexed.schema.field? c = b.schema.field? c := rfl
  rw [setValue, setValue, hrow, hfield]
  cases b.row i with
  | error err => rfl
  | ok r =>
    dsimp only [bind, Except.bind]
    cases r.values[c]? with
    | none => rfl
    | some former =>
      cases b.schema.field? c with
      | none => rfl
      | some f =>
        exact congrArg (fun indexes => Except.ok
          { b with rows := b.rows.set i { r with values := r.values.set c v }, indexes })
          (Std.ExtTreeMap.modify_eq_empty_iff.mpr rfl)

theorem insertColumn_unindexed (i : Nat) (f : Field) (values : List Value) :
    b.unindexed.insertColumn i f values = (b.insertColumn i f values).map unindexed := by
  have hschema : b.unindexed.schema.insertField i f = b.schema.insertField i f := rfl
  rw [insertColumn, insertColumn, hschema]
  cases b.schema.insertField i f <;> rfl

theorem removeColumn_unindexed (i : Nat) :
    b.unindexed.removeColumn i = (b.removeColumn i).map unindexed := by
  have hschema : b.unindexed.schema.removeField i = b.schema.removeField i := rfl
  rw [removeColumn, removeColumn, hschema]
  cases b.schema.removeField i with
  | error err => rfl
  | ok result =>
    exact congrArg (fun indexes => Except.ok (WorkingCopy.mk result.2 _ b.nextId indexes))
      Std.ExtTreeMap.erase_empty

theorem renameColumn_unindexed (i : Nat) (former name : String) :
    b.unindexed.renameColumn i former name = (b.renameColumn i former name).map unindexed := by
  have hschema : b.unindexed.schema.renameField i name = b.schema.renameField i name := rfl
  have hnone : b.unindexed.indexes[former]? = none :=
    Std.ExtTreeMap.getElem?_empty
  rw [renameColumn, renameColumn, hschema, hnone]
  cases b.schema.renameField i name <;> rfl

end WorkingCopy

/-! ### Edits -/

namespace Edit

theorem apply_unindexed (e : Edit) (b : WorkingCopy) :
    e.unindexed.apply b.unindexed = (e.apply b).map .unindexed := by
  cases e with
  | insertRow i id row => exact b.insertRow_unindexed i id row
  | deleteRow i id row => exact b.removeRow_unindexed i
  | setValue i c former new => exact b.setValue_unindexed i c new
  | addField i f => exact b.insertColumn_unindexed i f []
  | removeField i f values index => exact b.removeColumn_unindexed i
  | renameField i former new => exact b.renameColumn_unindexed i former new

theorem revert_unindexed (e : Edit) (b : WorkingCopy) :
    e.unindexed.revert b.unindexed = (e.revert b).map .unindexed := by
  cases e with
  | insertRow i id row => exact b.removeRow_unindexed i
  | deleteRow i id row => exact b.insertRow_unindexed i id row
  | setValue i c former new => exact b.setValue_unindexed i c former
  | addField i f => exact b.removeColumn_unindexed i
  | renameField i former new => exact b.renameColumn_unindexed i new former
  | removeField i f values index =>
    rw [unindexed, revert, revert, b.insertColumn_unindexed i f values]
    cases b.insertColumn i f values with
    | error err => rfl
    | ok b' => cases index <;> rfl

end Edit

/-! ### Workspaces -/

namespace Workspace

variable (w : Workspace)

theorem perform_unindexed (e : Edit) :
    w.unindexed.perform e.unindexed = (w.perform e).map unindexed := by
  have happly : e.unindexed.apply w.unindexed.copy = (e.apply w.copy).map .unindexed :=
    e.apply_unindexed w.copy
  rw [perform, perform, happly]
  cases e.apply w.copy <;> rfl

theorem insertRowAt_unindexed (i : Nat) (row : Row) :
    w.unindexed.insertRowAt i row =
      (w.insertRowAt i row).map fun r => (r.1.unindexed, r.2) := by
  have hperform := w.perform_unindexed (.insertRow i w.copy.nextId row)
  by_cases hi : w.copy.rowCount < i
  · have hi' : w.unindexed.copy.rowCount < i := hi
    rw [insertRowAt, insertRowAt, if_pos hi, if_pos hi']
    rfl
  · have hi' : ¬ w.unindexed.copy.rowCount < i := hi
    rw [insertRowAt, insertRowAt, if_neg hi, if_neg hi']
    change (w.copy.schema.checkRow row >>= fun _ =>
        w.unindexed.perform (Edit.unindexed (.insertRow i w.copy.nextId row)) >>= _) =
      Except.map _ (w.copy.schema.checkRow row >>= fun _ =>
        w.perform (.insertRow i w.copy.nextId row) >>= _)
    rw [hperform]
    cases w.copy.schema.checkRow row with
    | error err => rfl
    | ok _ => cases w.perform (.insertRow i w.copy.nextId row) <;> rfl

theorem deleteRow_unindexed (i : Nat) :
    w.unindexed.deleteRow i = (w.deleteRow i).map unindexed := by
  have hrow : w.unindexed.copy.row i = w.copy.row i := rfl
  rw [deleteRow, deleteRow, hrow]
  cases w.copy.row i with
  | error err => rfl
  | ok r => exact w.perform_unindexed (.deleteRow i r.id r.values)

theorem setValue_unindexed (i c : Nat) (v : Value) :
    w.unindexed.setValue i c v = (w.setValue i c v).map unindexed := by
  have hvalue : w.unindexed.copy.value i c = w.copy.value i c := rfl
  have hfield : w.unindexed.copy.schema.field? c = w.copy.schema.field? c := rfl
  rw [setValue, setValue, hvalue, hfield]
  cases w.copy.value i c with
  | error err => rfl
  | ok former =>
    have hperform := w.perform_unindexed (.setValue i c former v)
    dsimp only [bind, Except.bind]
    cases w.copy.schema.field? c with
    | none => exact hperform
    | some f =>
      dsimp only
      cases f.checkType v with
      | error err => rfl
      | ok _ => exact hperform

theorem addField_unindexed (f : Field) :
    w.unindexed.addField f = (w.addField f).map fun r => (r.1.unindexed, r.2) := by
  have hperform := w.perform_unindexed (.addField w.copy.schema.count f)
  by_cases hname : w.copy.schema.hasField f.name = true
  · have hname' : w.unindexed.copy.schema.hasField f.name = true := hname
    rw [addField, addField, if_pos hname, if_pos hname']
    rfl
  · have hname' : ¬ w.unindexed.copy.schema.hasField f.name = true := hname
    rw [addField, addField, if_neg hname, if_neg hname']
    change (w.unindexed.perform (Edit.unindexed (.addField w.copy.schema.count f)) >>= _) =
      Except.map _ (w.perform (.addField w.copy.schema.count f) >>= _)
    rw [hperform]
    cases w.perform (.addField w.copy.schema.count f) <;> rfl

theorem removeField_unindexed (i : Nat) :
    w.unindexed.removeField i = (w.removeField i).map unindexed := by
  have hfield : w.unindexed.copy.schema.field? i = w.copy.schema.field? i := rfl
  rw [removeField, removeField, hfield]
  dsimp only
  cases w.copy.schema.field? i with
  | none => rfl
  | some f =>
    have hnone : w.unindexed.copy.indexes[f.name]? = none := Std.ExtTreeMap.getElem?_empty
    dsimp only
    rw [hnone]
    exact w.perform_unindexed (.removeField i f _ w.copy.indexes[f.name]?)

theorem renameField_unindexed (i : Nat) (name : String) :
    w.unindexed.renameField i name = (w.renameField i name).map unindexed := by
  have hfield : w.unindexed.copy.schema.field? i = w.copy.schema.field? i := rfl
  have hindex : w.unindexed.copy.schema.indexOf? name = w.copy.schema.indexOf? name := rfl
  rw [renameField, renameField, hfield, hindex]
  dsimp only
  cases w.copy.schema.field? i with
  | none => rfl
  | some f =>
    dsimp only
    split_ifs
    · rfl
    · exact w.perform_unindexed (.renameField i f.name name)

theorem undoLast_unindexed :
    w.unindexed.undoLast = w.undoLast.map (Option.map unindexed) := by
  cases hundo : w.undo with
  | nil => simp [undoLast, unindexed, hundo, Except.map]
  | cons e es =>
    have hundo' : w.unindexed.undo = e.unindexed :: es.map .unindexed := by
      rw [unindexed, hundo, List.map_cons]
    have hrevert : e.unindexed.revert w.unindexed.copy = (e.revert w.copy).map .unindexed :=
      e.revert_unindexed w.copy
    rw [undoLast, undoLast, hundo, hundo']
    dsimp only
    rw [hrevert]
    cases e.revert w.copy <;> rfl

theorem redoLast_unindexed :
    w.unindexed.redoLast = w.redoLast.map (Option.map unindexed) := by
  cases hredo : w.redo with
  | nil => simp [redoLast, unindexed, hredo, Except.map]
  | cons e es =>
    have hredo' : w.unindexed.redo = e.unindexed :: es.map .unindexed := by
      rw [unindexed, hredo, List.map_cons]
    have happly : e.unindexed.apply w.unindexed.copy = (e.apply w.copy).map .unindexed :=
      e.apply_unindexed w.copy
    rw [redoLast, redoLast, hredo, hredo']
    dsimp only
    rw [happly]
    cases e.apply w.copy <;> rfl

end Workspace

/-! ### Sessions -/

namespace EditSession

variable {db db' : Database} {e f : EditSession} {w : Workspace} {op : EditRequest}
  {reply : EditReply}

/-- A request that is passed on to a workspace, with a number as its reply. -/
private theorem numbered_unindexed {x y : Except EditError (Workspace × Nat)}
    (h : x = y.map fun r => (r.1.unindexed, r.2)) (db : Database) (e : EditSession) :
    (x >>= fun r => pure (db, e.withWorkspace r.1, EditReply.number r.2)) =
      (y >>= fun r => pure (db, e.withWorkspace r.1, EditReply.number r.2)).map
        fun r => (r.1, r.2.1.unindexed, r.2.2) := by
  rw [h]
  cases y <;> rfl

/-- A request that is passed on to a workspace. -/
private theorem done_unindexed {x y : Except EditError Workspace} (h : x = y.map .unindexed)
    (db : Database) (e : EditSession) :
    (x >>= fun w => pure (db, e.withWorkspace w, EditReply.done)) =
      (y >>= fun w => pure (db, e.withWorkspace w, EditReply.done)).map
        fun r => (r.1, r.2.1.unindexed, r.2.2) := by
  rw [h]
  cases y <;> rfl

theorem run_unindexed (hop : op.IsStep) (db : Database) (e : EditSession) (w : Workspace) :
    (e.withWorkspace w.unindexed).run db op =
      ((e.withWorkspace w).run db op).map fun r => (r.1, r.2.1.unindexed, r.2.2) := by
  cases op with
  | insertRow row =>
    exact numbered_unindexed (w.insertRowAt_unindexed w.copy.rowCount row) db e
  | insertRowAt i row => exact numbered_unindexed (w.insertRowAt_unindexed i row) db e
  | insertBlankRow =>
    exact numbered_unindexed (w.insertRowAt_unindexed w.copy.rowCount _) db e
  | insertBlankRowAt i => exact numbered_unindexed (w.insertRowAt_unindexed i _) db e
  | deleteRow i => exact done_unindexed (w.deleteRow_unindexed i) db e
  | setValue i c v => exact done_unindexed (w.setValue_unindexed i c v) db e
  | addField f => exact numbered_unindexed (w.addField_unindexed f) db e
  | removeField i => exact done_unindexed (w.removeField_unindexed i) db e
  | renameField i name => exact done_unindexed (w.renameField_unindexed i name) db e
  | undo =>
    change (w.unindexed.undoLast >>= _) = Except.map _ (w.undoLast >>= _)
    rw [w.undoLast_unindexed]
    cases w.undoLast with
    | error err => rfl
    | ok next => cases next <;> rfl
  | redo =>
    change (w.unindexed.redoLast >>= _) = Except.map _ (w.redoLast >>= _)
    rw [w.redoLast_unindexed]
    cases w.redoLast with
    | error err => rfl
    | ok next => cases next <;> rfl
  | _ => simp [EditRequest.IsStep, EditRequest.IsChange] at hop

theorem eq_of_unindexed {v : Workspace} (h : f.unindexed = e.withWorkspace v) :
    ∃ w', f = e.withWorkspace w' ∧ w'.unindexed = v := by
  obtain ⟨name, source, state⟩ := f
  cases state with
  | opened w' =>
    obtain ⟨rfl, rfl, hstate⟩ := EditSession.mk.inj h
    exact ⟨w', rfl, SessionState.opened.inj hstate⟩
  | closed | committed | cancelled => cases h

/-- A step takes the rest of the workspace a step on, or leaves it as it is. -/
theorem cases_unindexed (hw : e.workspace? = some w) (hsound : w.unindexed.Sound)
    (hop : op.IsStep) (h : e.run db op = .ok (db', f, reply)) :
    ∃ w', f = e.withWorkspace w' ∧
      (w'.unindexed = w.unindexed ∨ w.unindexed.Step w'.unindexed) := by
  have hrun := run_unindexed hop db e w
  rw [withWorkspace_eq hw, h] at hrun
  rcases cases_of_isStep rfl hsound hop hrun with hsame | ⟨v, hv, hstep⟩
  · obtain ⟨w', hf, hw'⟩ := eq_of_unindexed hsame
    exact ⟨w', hf, .inl hw'⟩
  · obtain ⟨w', hf, rfl⟩ := eq_of_unindexed hv
    exact ⟨w', hf, .inr hstep⟩

/-- Whatever is answered leaves the rest of the workspace as it is or takes it a step on, unless the
session is closed. -/
theorem step_unindexed (hw : e.workspace? = some w) (hsound : w.unindexed.Sound)
    (h : e.run db op = .ok (db', f, reply)) (hopen : f.workspace?.isSome = true) :
    ∃ w', f = e.withWorkspace w' ∧
      (w'.unindexed = w.unindexed ∨ w.unindexed.Step w'.unindexed) := by
  obtain hop | rfl := isStep_or_eq hw h hopen
  · exact cases_unindexed hw hsound hop h
  · exact ⟨w, (withWorkspace_eq hw).symm, .inl rfl⟩

end EditSession

end SpatialStore
