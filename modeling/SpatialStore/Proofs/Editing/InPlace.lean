import Mathlib.Data.List.InsertIdx
import SpatialStore.Editing.InPlace
import SpatialStore.Proofs.Atomic
import SpatialStore.Proofs.Editing.Commit
import SpatialStore.Proofs.Editing.Workspace

/-!
# Editing in place, and as a whole

Requests carried out in place lead to what the same requests lead to on a database and a session:
the same replies and errors, and the same database and session afterwards
(`LiveSession.outcome_carryOut`). This is shown from the bottom up, for the changes of a buffer,
for those of an open session, and for requests. In which state a failure leaves the session is left
out here; that none has changed anything by then is a fact about the order of the steps.
-/

namespace SpatialStore

open MonadExcept (ofExcept)

/-! ### Buffers -/

namespace EditBuffer

variable (b : WorkingCopy)

theorem copy_ofCopy : (ofCopy b).copy = b := by
  have hrows : List.zipWith NumberedRow.mk (b.rows.map (·.id)) (b.rows.map (·.values)) =
      b.rows := by
    rw [List.zipWith_map, List.zipWith_self]
    exact List.map_id' _
  exact congrArg (fun rows => WorkingCopy.mk b.schema rows b.nextId b.indexes) hrows

theorem ofCopy_ofRows (schema : Schema) (rows : List Row) (indexes : TableIndexes) :
    ofCopy (.ofRows schema rows indexes) =
      ⟨schema, rows, List.range rows.length, rows.length, indexes⟩ :=
  congrArg₂ (fun rows' ids => EditBuffer.mk schema rows' ids rows.length indexes)
    (NumberedRow.values_byPosition rows) (NumberedRow.ids_byPosition rows)

theorem schema_ofCopy : (ofCopy b).schema = b.schema := rfl

theorem indexes_ofCopy : (ofCopy b).indexes = b.indexes := rfl

/-- What a change of a copy leads to in place. -/
def ofChange (x : Except EditError WorkingCopy) : Except EditError (Unit × EditBuffer) :=
  x.map fun b => ((), ofCopy b)

theorem outcome_row (i : Nat) :
    outcome (row i) (ofCopy b) = (b.row i).map fun r => (r, ofCopy b) := by
  change outcome (ofExcept ((ofCopy b).copy.row i)) (ofCopy b) = _
  rw [copy_ofCopy, outcome_ofExcept]

theorem outcome_insertRow (i : Nat) (id : RowId) (row : Row) :
    outcome (insertRow i id row) (ofCopy b) = ofChange (b.insertRow i id row) := by
  have hcount : (ofCopy b).rows.length = b.rowCount := List.length_map _
  change outcome (ite ((ofCopy b).rows.length < i) _ _) _ = _
  rw [hcount, WorkingCopy.insertRow]
  split_ifs
  · rfl
  · have hrows := List.map_insertIdx NumberedRow.values b.rows i ⟨id, row⟩
    have hids := List.map_insertIdx NumberedRow.id b.rows i ⟨id, row⟩
    exact congrArg₂ (fun rows ids => Except.ok ((), EditBuffer.mk b.schema rows ids b.nextId _))
      hrows.symm hids.symm

theorem outcome_removeRow (i : Nat) :
    outcome (removeRow i) (ofCopy b) = ofChange (b.removeRow i) := by
  rw [removeRow, outcome_bind, outcome_row, WorkingCopy.removeRow]
  cases b.row i with
  | error err => rfl
  | ok r =>
    have hrows := List.eraseIdx_map NumberedRow.values b.rows i
    have hids := List.eraseIdx_map NumberedRow.id b.rows i
    exact congrArg₂ (fun rows ids => Except.ok ((), EditBuffer.mk b.schema rows ids b.nextId _))
      hrows hids

theorem outcome_setValue (i c : Nat) (v : Value) :
    outcome (setValue i c v) (ofCopy b) = ofChange (b.setValue i c v) := by
  rw [setValue, outcome_bind, outcome_row, WorkingCopy.setValue]
  cases hr : b.row i with
  | error err => rfl
  | ok r =>
    rw [Except.map, Result.bind_of_eq_ok rfl, Result.bind_of_eq_ok rfl, outcome_get_bind,
      schema_ofCopy]
    dsimp only
    cases r.values[c]? with
    | none => rfl
    | some former =>
      cases b.schema.field? c with
      | none => rfl
      | some f =>
        obtain ⟨hlt, rfl⟩ := List.getElem?_eq_some_iff.mp (Workspace.row_eq_ok.mp hr)
        let new : NumberedRow := { b.rows[i] with values := b.rows[i].values.set c v }
        have hrows : (b.rows.set i new).map (·.values) = b.values.set i new.values := List.map_set
        -- the row keeps its id
        have hids : (b.rows.set i new).map (·.id) = b.rows.map (·.id) := by
          have hlt' : i < (b.rows.map (·.id)).length := by rwa [List.length_map]
          have hself := List.set_getElem_self hlt'
          rw [List.getElem_map] at hself
          rw [List.map_set]
          exact hself
        exact congrArg₂ (fun rows ids => Except.ok ((), EditBuffer.mk b.schema rows ids b.nextId _))
          hrows.symm hids.symm

theorem outcome_insertColumn (i : Nat) (f : Field) (values : List Value) :
    outcome (insertColumn i f values) (ofCopy b) = ofChange (b.insertColumn i f values) := by
  rw [insertColumn, outcome_get_bind, schema_ofCopy, WorkingCopy.insertColumn]
  cases b.schema.insertField i f with
  | error e => rfl
  | ok schema =>
    let new (r : NumberedRow × Nat) : NumberedRow :=
      { r.1 with values := r.1.values.insertIdx i (WorkingCopy.padded values r.2) }
    have hrows : b.values.mapIdx (fun p row => row.insertIdx i (WorkingCopy.padded values p)) =
        (b.rows.zipIdx.map new).map (·.values) := by
      rw [WorkingCopy.values, List.mapIdx_eq_zipIdx_map, List.zipIdx_map, List.map_map,
        List.map_map]
      rfl
    have hids : b.rows.map (·.id) = (b.rows.zipIdx.map new).map (·.id) := by
      conv_lhs => rw [← List.zipIdx_map_fst 0 b.rows, List.map_map]
      rw [List.map_map]
      rfl
    exact congrArg₂ (fun rows ids => Except.ok ((), EditBuffer.mk schema rows ids b.nextId _))
      hrows hids

theorem outcome_removeColumn (i : Nat) :
    outcome (removeColumn i) (ofCopy b) = ofChange (b.removeColumn i) := by
  rw [removeColumn, outcome_get_bind, schema_ofCopy, WorkingCopy.removeColumn]
  cases b.schema.removeField i with
  | error e => rfl
  | ok result =>
    let new (r : NumberedRow) : NumberedRow := { r with values := r.values.eraseIdx i }
    have hrows : b.values.map (·.eraseIdx i) = (b.rows.map new).map (·.values) := by
      rw [WorkingCopy.values, List.map_map, List.map_map]
      rfl
    have hids : b.rows.map (·.id) = (b.rows.map new).map (·.id) := by
      rw [List.map_map]
      rfl
    exact congrArg₂ (fun rows ids => Except.ok ((), EditBuffer.mk result.2 rows ids b.nextId _))
      hrows hids

theorem outcome_renameColumn (i : Nat) (former name : String) :
    outcome (renameColumn i former name) (ofCopy b) = ofChange (b.renameColumn i former name) := by
  rw [renameColumn, outcome_get_bind, schema_ofCopy, WorkingCopy.renameColumn]
  cases b.schema.renameField i name with
  | error e => rfl
  | ok result =>
    dsimp only
    rw [outcome_modify_bind, outcome_get_bind, indexes_ofCopy]
    cases b.indexes[former]? <;> rfl

theorem outcome_apply (e : Edit) : outcome (apply e) (ofCopy b) = ofChange (e.apply b) := by
  cases e with
  | insertRow i id row => exact outcome_insertRow b i id row
  | deleteRow i id row => exact outcome_removeRow b i
  | setValue i c former new => exact outcome_setValue b i c new
  | addField i f => exact outcome_insertColumn b i f []
  | removeField i f values index => exact outcome_removeColumn b i
  | renameField i former new => exact outcome_renameColumn b i former new

theorem outcome_revert (e : Edit) : outcome (revert e) (ofCopy b) = ofChange (e.revert b) := by
  cases e with
  | insertRow i id row => exact outcome_removeRow b i
  | deleteRow i id row => exact outcome_insertRow b i id row
  | setValue i c former new => exact outcome_setValue b i c former
  | addField i f => exact outcome_removeColumn b i
  | renameField i former new => exact outcome_renameColumn b i new former
  | removeField i f values index =>
    change outcome (insertColumn i f values >>= _) _ = _
    rw [outcome_bind, outcome_insertColumn, Edit.revert]
    cases b.insertColumn i f values with
    | error err => rfl
    | ok b' => cases index <;> rfl

end EditBuffer

/-! ### Open sessions -/

namespace LiveSession

theorem openBuffer_eq_ok {s t : LiveSession} {b : EditBuffer} :
    openBuffer.run s = .ok b t ↔ t = s ∧ s.buffer = some b ∧ s.phase = .opened := by
  obtain ⟨db, name, source, phase, buffer, opened, undo, redo⟩ := s
  constructor
  · intro h
    cases buffer <;> cases phase <;> cases h
    exact ⟨rfl, rfl, rfl⟩
  · rintro ⟨rfl, rfl, rfl⟩
    rfl

/-- What is done to the buffer of an open session. -/
theorem run_onBuffer {α : Type} {s : LiveSession} {b : EditBuffer} (hb : s.buffer = some b)
    (hphase : s.phase = .opened) (m : EditBuffer.Action α) :
    (onBuffer m).run s = match m.run b with
      | .ok a b => .ok a { s with buffer := some b }
      | .error err b => .error err { s with buffer := some b } := by
  rw [onBuffer, run_bind_ok (openBuffer_eq_ok.mpr ⟨rfl, hb, hphase⟩)]
  cases m.run b <;> rfl

/-- What a change of a session leads to in place. -/
def ofChange {α : Type} (db : Database) (e : EditSession) (x : Except EditError (Workspace × α)) :
    Except EditError (α × LiveSession) :=
  x.map fun r => (r.2, ofSession db (e.withWorkspace r.1))

variable (db : Database) (e : EditSession) (w : Workspace)

theorem outcome_openBuffer :
    outcome openBuffer (ofSession db (e.withWorkspace w)) =
      .ok (.ofCopy w.copy, ofSession db (e.withWorkspace w)) := rfl

theorem outcome_workspace :
    outcome workspace (ofSession db (e.withWorkspace w)) =
      .ok (w, ofSession db (e.withWorkspace w)) := by
  have hworkspace : outcome workspace (ofSession db (e.withWorkspace w)) =
      .ok (⟨(EditBuffer.ofCopy w.copy).copy, w.opened, w.undo, w.redo⟩,
        ofSession db (e.withWorkspace w)) := rfl
  rw [hworkspace, EditBuffer.copy_ofCopy]

theorem outcome_onBuffer {m : EditBuffer.Action Unit} {x : Except EditError WorkingCopy}
    (hm : outcome m (.ofCopy w.copy) = EditBuffer.ofChange x) :
    outcome (onBuffer m) (ofSession db (e.withWorkspace w)) =
      ofChange db e (x.map fun copy => ({ w with copy }, ())) := by
  have honBuffer : outcome (onBuffer m) (ofSession db (e.withWorkspace w)) =
      (outcome m (.ofCopy w.copy)).map fun r =>
        (r.1, { ofSession db (e.withWorkspace w) with buffer := some r.2 }) := by
    rw [outcome, run_onBuffer rfl rfl, outcome]
    cases m.run (.ofCopy w.copy) <;> rfl
  rw [honBuffer, hm]
  cases x <;> rfl

theorem outcome_execute (ed : Edit) :
    outcome (execute ed) (ofSession db (e.withWorkspace w)) =
      ofChange db e ((w.perform ed).map (·, ())) := by
  rw [execute, outcome_bind, outcome_onBuffer db e w (EditBuffer.outcome_apply w.copy ed),
    Workspace.perform]
  cases ed.apply w.copy <;> rfl

theorem outcome_insertRowAt (i : Nat) (row : Row) :
    outcome (insertRowAt i row) (ofSession db (e.withWorkspace w)) =
      ofChange db e (w.insertRowAt i row) := by
  rw [insertRowAt, outcome_bind, outcome_workspace, Workspace.insertRowAt]
  change outcome (ite (w.copy.rowCount < i) _ _) _ = _
  dsimp only
  split_ifs
  · rfl
  rw [outcome_bind, outcome_ofExcept]
  cases w.copy.schema.checkRow row with
  | error err => rfl
  | ok _ =>
    change outcome (execute _ >>= _) _ = ofChange db e (w.perform _ >>= _)
    rw [outcome_bind, outcome_execute]
    cases hperform : w.perform (.insertRow i w.copy.nextId row) with
    | error err => rfl
    | ok w' =>
      -- the next id is the same after the insertion
      have hnext : w'.copy.nextId = w.copy.nextId := by
        obtain ⟨b, hb, hw'⟩ := Result.bind_eq_ok.mp hperform
        cases hw'
        rw [Edit.apply, WorkingCopy.insertRow] at hb
        split_ifs at hb
        cases hb
        rfl
      rw [← hnext]
      rfl

theorem outcome_insertBlankRowAt (i : Nat) :
    outcome (insertBlankRowAt i) (ofSession db (e.withWorkspace w)) =
      ofChange db e (w.insertBlankRowAt i) := by
  rw [insertBlankRowAt, outcome_bind, outcome_workspace]
  exact outcome_insertRowAt db e w i (List.replicate w.copy.schema.count .null)

theorem outcome_deleteRow (i : Nat) :
    outcome (deleteRow i) (ofSession db (e.withWorkspace w)) =
      ofChange db e ((w.deleteRow i).map (·, ())) := by
  rw [deleteRow, outcome_bind, outcome_workspace, Workspace.deleteRow]
  change outcome (ofExcept (w.copy.row i) >>= _) _ = _
  rw [outcome_bind, outcome_ofExcept]
  cases w.copy.row i with
  | error err => rfl
  | ok r => exact outcome_execute db e w (.deleteRow i r.id r.values)

theorem outcome_setValue (i c : Nat) (v : Value) :
    outcome (setValue i c v) (ofSession db (e.withWorkspace w)) =
      ofChange db e ((w.setValue i c v).map (·, ())) := by
  rw [setValue, outcome_bind, outcome_workspace, Workspace.setValue]
  change outcome (ofExcept (w.copy.value i c) >>= _) _ = _
  rw [outcome_bind, outcome_ofExcept]
  cases w.copy.value i c with
  | error err => rfl
  | ok former =>
    have hexecute := outcome_execute db e w (.setValue i c former v)
    rw [Except.map, Result.bind_of_eq_ok rfl, Result.bind_of_eq_ok rfl]
    dsimp only
    cases w.copy.schema.field? c with
    | none => exact hexecute
    | some f =>
      dsimp only
      rw [outcome_bind, outcome_ofExcept]
      cases f.checkType v with
      | error err => rfl
      | ok _ => exact hexecute

theorem outcome_addField (f : Field) :
    outcome (addField f) (ofSession db (e.withWorkspace w)) = ofChange db e (w.addField f) := by
  rw [addField, outcome_bind, outcome_workspace, Workspace.addField]
  change outcome (ite (w.copy.schema.hasField f.name = true) _ _) _ = _
  dsimp only
  split_ifs
  · rfl
  change outcome (execute _ >>= _) _ = ofChange db e (w.perform _ >>= _)
  rw [outcome_bind, outcome_execute]
  cases w.perform (.addField w.copy.schema.count f) <;> rfl

theorem outcome_removeField (i : Nat) :
    outcome (removeField i) (ofSession db (e.withWorkspace w)) =
      ofChange db e ((w.removeField i).map (·, ())) := by
  rw [removeField, outcome_bind_of_ok (outcome_workspace db e w), Workspace.removeField]
  dsimp only
  cases w.copy.schema.field? i with
  | none => rfl
  | some f => exact outcome_execute db e w _

theorem outcome_renameField (i : Nat) (name : String) :
    outcome (renameField i name) (ofSession db (e.withWorkspace w)) =
      ofChange db e ((w.renameField i name).map (·, ())) := by
  rw [renameField, outcome_bind_of_ok (outcome_workspace db e w), Workspace.renameField]
  dsimp only
  cases w.copy.schema.field? i with
  | none => rfl
  | some f =>
    change outcome (ite _ _ _) _ = ofChange db e (Except.map _ (ite _ _ _))
    split_ifs
    · rfl
    · exact outcome_execute db e w _

/-- What a move in the history leads to in place. -/
def ofMove (db : Database) (e : EditSession) (w : Workspace)
    (x : Except EditError (Option Workspace)) : Except EditError (Bool × LiveSession) :=
  x.map fun next => (next.isSome, ofSession db (e.withWorkspace (next.getD w)))

theorem outcome_undoLast :
    outcome undoLast (ofSession db (e.withWorkspace w)) = ofMove db e w w.undoLast := by
  have hundo : (ofSession db (e.withWorkspace w)).undo = w.undo := rfl
  rw [undoLast, outcome_bind_of_ok (outcome_openBuffer db e w), outcome_get_bind, hundo,
    Workspace.undoLast]
  cases w.undo with
  | nil => rfl
  | cons ed undo =>
    have hrevert := outcome_onBuffer db e { w with undo } (EditBuffer.outcome_revert w.copy ed)
    change (outcome (tryCatch (onBuffer (EditBuffer.revert ed)) _ >>= _)
      (ofSession db (e.withWorkspace { w with undo }))) = _
    rw [outcome_bind, outcome_tryCatch, hrevert]
    dsimp only
    cases ed.revert w.copy <;> rfl

theorem outcome_redoLast :
    outcome redoLast (ofSession db (e.withWorkspace w)) = ofMove db e w w.redoLast := by
  have hredo : (ofSession db (e.withWorkspace w)).redo = w.redo := rfl
  rw [redoLast, outcome_bind_of_ok (outcome_openBuffer db e w), outcome_get_bind, hredo,
    Workspace.redoLast]
  cases w.redo with
  | nil => rfl
  | cons ed redo =>
    have happly := outcome_onBuffer db e { w with redo } (EditBuffer.outcome_apply w.copy ed)
    change (outcome (tryCatch (onBuffer (EditBuffer.apply ed)) _ >>= _)
      (ofSession db (e.withWorkspace { w with redo }))) = _
    rw [outcome_bind, outcome_tryCatch, happly]
    dsimp only
    cases ed.apply w.copy <;> rfl

theorem db_ofSession : (ofSession db e).db = db := by
  obtain ⟨name, source, state⟩ := e
  cases state <;> rfl

theorem name_ofSession : (ofSession db e).name = e.name := by
  obtain ⟨name, source, state⟩ := e
  cases state <;> rfl

theorem source_ofSession : (ofSession db e).source = e.source := by
  obtain ⟨name, source, state⟩ := e
  cases state <;> rfl

theorem outcome_findSource :
    outcome findSource (ofSession db e) = match db.sources[e.source]? with
      | some source => .ok (source, ofSession db e)
      | none => .error (.unknownTable e.name) := by
  rw [findSource, outcome_get_bind, db_ofSession, name_ofSession, source_ofSession]
  cases db.sources[e.source]? <;> rfl

theorem outcome_writeSource (schema : Schema) (rows : List Row) :
    outcome (writeSource schema rows) (ofSession db (e.withWorkspace w)) =
      match db.sources[e.source]? with
      | none => .error (.unknownTable e.name)
      | some former =>
        ((former.write schema rows).mapError EditError.storage).map fun written =>
          ((), ofSession (db.setSource e.source written) (e.withWorkspace w)) := by
  have hsource : (e.withWorkspace w).source = e.source := rfl
  rw [writeSource, outcome_bind, outcome_findSource, hsource]
  cases hformer : db.sources[e.source]? with
  | none => rfl
  | some former =>
    change outcome (ofExcept ((former.whenAvailable ()).mapError EditError.storage) >>= _) _ = _
    rw [outcome_bind, outcome_ofExcept]
    dsimp only
    rw [Source.write]
    cases former.whenAvailable () with
    | error err => rfl
    | ok _ =>
      change outcome
        (ofExcept ((Source.checkWidths schema rows).mapError EditError.storage) >>= _) _ = _
      rw [outcome_bind, outcome_ofExcept]
      cases Source.checkWidths schema rows with
      | error err => rfl
      | ok _ =>
        -- the three parts of the source are replaced one by one
        have hsources : ((db.sources.modify e.source ({ · with schema })).modify e.source
            ({ · with rows })).modify e.source (fun s => { s with writes := s.writes + 1 }) =
            db.sources.set e.source { former with schema, rows, writes := former.writes + 1 } := by
          rw [List.modify_modify_eq, List.modify_modify_eq, List.modify_eq_set_getElem?, hformer]
          rfl
        exact congrArg (fun sources => Except.ok ((), ofSession { db with sources }
          (e.withWorkspace w))) hsources

theorem outcome_commit_open :
    outcome commit (ofSession db (e.withWorkspace w)) =
      ((e.withWorkspace w).commit db).map fun r => ((), ofSession r.1 r.2) := by
  rw [commit, outcome_bind_of_ok (outcome_openBuffer db e w), outcome_get_bind]
  change outcome (ite (w.undo.isEmpty = true) _ _) _ =
    Except.map _ (ite ((!w.undo.isEmpty) = true) _ _)
  cases w.undo.isEmpty with
  | true => rfl
  | false =>
    rw [if_neg Bool.false_ne_true, if_pos Bool.not_false]
    have hviolation : (EditBuffer.ofCopy w.copy).schema.firstViolation?
        (EditBuffer.ofCopy w.copy).rows = w.copy.schema.firstViolation? w.copy.values := rfl
    have hsource : (e.withWorkspace w).source = e.source := rfl
    rw [hviolation, hsource, EditSession.write]
    dsimp only
    cases w.copy.schema.firstViolation? w.copy.values with
    | some violation => rfl
    | none =>
      change outcome (writeSource w.copy.schema w.copy.values >>= _) _ = _
      rw [outcome_bind, outcome_writeSource]
      cases db.sources[e.source]? with
      | none => rfl
      | some former =>
        dsimp only
        cases former.write w.copy.schema w.copy.values with
        | error err => rfl
        | ok written => rfl

theorem outcome_load :
    outcome load (ofSession db e) = (e.begin db).map fun f => ((), ofSession db f) := by
  obtain ⟨name, source, state⟩ := e
  cases state with
  | opened w => rfl
  | closed | committed | cancelled =>
    rw [EditSession.begin]
    dsimp only [EditSession.workspace?]
    change outcome (findSource >>= _) _ = _
    rw [outcome_bind, outcome_findSource]
    dsimp only
    cases db.sources[source]? with
    | none => rfl
    | some former =>
      change outcome (ofExcept (former.readSchema.mapError EditError.storage) >>= _) _ = _
      rw [outcome_bind, outcome_ofExcept]
      dsimp only
      cases former.readSchema with
      | error err => rfl
      | ok schema =>
        change outcome (ofExcept (former.readRows.mapError EditError.storage) >>= _) _ = _
        rw [outcome_bind, outcome_ofExcept]
        cases former.readRows with
        | error err => rfl
        | ok rows =>
          let indexes := (db.indexes.ofTable name).filter fun name _ => schema.hasField name
          exact congrArg (fun b => Except.ok ((), (⟨db, name, source, .opened, some b, indexes.keys,
            [], []⟩ : LiveSession))) (EditBuffer.ofCopy_ofRows schema rows indexes).symm

/-- What a request leads to in place. -/
def ofRun (x : Except EditError (Database × EditSession × EditReply)) :
    Except EditError (EditReply × LiveSession) :=
  x.map fun r => (r.2.2, ofSession r.1 r.2.1)

/-- A session that is not open has no buffer. -/
theorem outcome_openBuffer_closed (hw : e.workspace? = none) :
    outcome openBuffer (ofSession db e) = .error (.notOpen e.name e.state.phase) := by
  obtain ⟨name, source, state⟩ := e
  cases state with
  | opened w => cases hw
  | closed | committed | cancelled => rfl

/-- A request that reads the workspace. -/
theorem outcome_read {α : Type} (x : Workspace → Except EditError α) (g : α → EditReply) :
    outcome (read fun w => x w >>= fun a => pure (g a)) (ofSession db (e.withWorkspace w)) =
      ofRun (x w >>= fun a => pure (db, e.withWorkspace w, g a)) := by
  rw [read, outcome_bind, outcome_workspace]
  dsimp only [bind, Except.bind]
  rw [outcome_ofExcept]
  cases x w <;> rfl

variable {db e w}

/-- A request that is passed on to the workspace, with a number as its reply. -/
theorem outcome_numbered {s : LiveSession} {m : Action Nat}
    {x : Except EditError (Workspace × Nat)} (hm : outcome m s = ofChange db e x) :
    outcome (m >>= fun n => pure (EditReply.number n)) s =
      ofRun (x >>= fun r => pure (db, e.withWorkspace r.1, .number r.2)) := by
  rw [outcome_bind, hm]
  cases x <;> rfl

/-- A request that is passed on to the workspace. -/
theorem outcome_changed {s : LiveSession} {m : Action Unit} {x : Except EditError Workspace}
    (hm : outcome m s = ofChange db e (x.map (·, ()))) :
    outcome (m >>= fun _ => pure EditReply.done) s =
      ofRun (x >>= fun w => pure (db, e.withWorkspace w, .done)) := by
  rw [outcome_bind, hm]
  cases x <;> rfl

theorem outcome_carryOut_open (op : EditRequest) :
    outcome (carryOut op) (ofSession db (e.withWorkspace w)) =
      ofRun ((e.withWorkspace w).run db op) := by
  cases op with
  | begin => rfl
  | insertRow row =>
    change outcome (workspace >>= fun w => insertRowAt w.copy.rowCount row >>= _) _ = _
    rw [outcome_bind, outcome_workspace]
    exact outcome_numbered (outcome_insertRowAt db e w w.copy.rowCount row)
  | insertRowAt i row => exact outcome_numbered (outcome_insertRowAt db e w i row)
  | insertBlankRow =>
    change outcome (workspace >>= fun w => insertBlankRowAt w.copy.rowCount >>= _) _ = _
    rw [outcome_bind, outcome_workspace]
    exact outcome_numbered (outcome_insertBlankRowAt db e w w.copy.rowCount)
  | insertBlankRowAt i => exact outcome_numbered (outcome_insertBlankRowAt db e w i)
  | deleteRow i => exact outcome_changed (outcome_deleteRow db e w i)
  | setValue i c v => exact outcome_changed (outcome_setValue db e w i c v)
  | addField f => exact outcome_numbered (outcome_addField db e w f)
  | removeField i => exact outcome_changed (outcome_removeField db e w i)
  | renameField i name => exact outcome_changed (outcome_renameField db e w i name)
  | undo =>
    change outcome (undoLast >>= _) _ = ofRun (w.undoLast >>= _)
    rw [outcome_bind, outcome_undoLast]
    cases w.undoLast with
    | error err => rfl
    | ok next => cases next <;> rfl
  | redo =>
    change outcome (redoLast >>= _) _ = ofRun (w.redoLast >>= _)
    rw [outcome_bind, outcome_redoLast]
    cases w.redoLast with
    | error err => rfl
    | ok next => cases next <;> rfl
  | commit =>
    change outcome (commit >>= _) _ = ofRun ((e.withWorkspace w).commit db >>= _)
    rw [outcome_bind, outcome_commit_open]
    cases (e.withWorkspace w).commit db <;> rfl
  | cancel => rfl
  | rowCount => exact outcome_read db e w pure fun w => .number w.copy.rowCount
  | schema => exact outcome_read db e w pure fun w => .schema w.copy.schema
  | fieldIndex name =>
    exact outcome_read db e w pure fun w => .number? (w.copy.schema.indexOf? name)
  | positionOf id => exact outcome_read db e w pure fun w => .number? (w.positionOf? id)
  | rowOf id => exact outcome_read db e w pure fun w => .row? (w.rowOf? id)
  | extent => exact outcome_read db e w pure fun w => .extent w.extent?
  | row i => exact outcome_read db e w (·.copy.row i) fun r => .row r.values
  | value i c => exact outcome_read db e w (·.copy.value i c) .value
  | isNull i c => exact outcome_read db e w (·.copy.value i c) fun v => .flag v.isNull
  | rowId i => exact outcome_read db e w (·.copy.row i) fun r => .number r.id
  | query q => exact outcome_read db e w (·.query q) .positions

theorem outcome_carryOut_closed (hw : e.workspace? = none) (op : EditRequest) :
    outcome (carryOut op) (ofSession db e) = ofRun (e.run db op) := by
  by_cases hop : op = .begin
  · subst hop
    change outcome (load >>= _) _ = ofRun (e.begin db >>= _)
    rw [outcome_bind, outcome_load]
    cases e.begin db <;> rfl
  -- what is refused at the beginning is refused altogether
  have refuses {α β : Type} {m : Action α}
      (hm : outcome m (ofSession db e) = .error (.notOpen e.name e.state.phase))
      (f : α → Action β) :
      outcome (m >>= f) (ofSession db e) = .error (.notOpen e.name e.state.phase) := by
    rw [outcome_bind, hm]
    rfl
  have hbuffer := outcome_openBuffer_closed db e hw
  have hworkspace := refuses hbuffer fun b => do
    let s ← get
    return (⟨b.copy, s.opened, s.undo, s.redo⟩ : Workspace)
  rw [EditSession.run_of_closed hw hop]
  cases op with
  | begin => exact absurd rfl hop
  | insertRow | insertBlankRow | rowCount | schema | fieldIndex | row | value | isNull | rowId
  | positionOf | rowOf | extent | query => exact refuses hworkspace _
  | insertRowAt | insertBlankRowAt | deleteRow | setValue | addField | removeField
  | renameField => exact refuses (refuses hworkspace _) _
  | undo | redo | commit => exact refuses (refuses hbuffer _) _
  | cancel => exact refuses hbuffer _

/-- A request leads to the same in place as on a database and a session. -/
theorem outcome_carryOut (db : Database) (e : EditSession) (op : EditRequest) :
    outcome (carryOut op) (ofSession db e) = ofRun (e.run db op) := by
  cases hw : e.workspace? with
  | none => exact outcome_carryOut_closed hw op
  | some w =>
    rw [← EditSession.withWorkspace_eq hw]
    exact outcome_carryOut_open op

end LiveSession

end SpatialStore
