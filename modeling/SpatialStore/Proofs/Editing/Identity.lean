import SpatialStore.Proofs.Editing.Numbering
import SpatialStore.Proofs.Editing.Session

/-!
# Row ids in an open session

While a session is open, a row is known by its id wherever it moves. What a request does to the rows
is said by `Workspace.Moves`: a new row gets an id that is in no row and in no edit of the history,
all other changes keep the ids of the rows that they leave, and a step in the history brings no row
back under an id that is in use. So ids lead to rows and back in every session that is reached
(`EditSession.identified`), whatever the table contained when it was opened.

Ids are given out in order, so that all of them are less than the number of stored rows and of
requests for new rows together.
-/

namespace SpatialStore

/-! ### Requests -/

namespace EditRequest

/-- Where a request puts a new row, and its values. -/
def insertion? (b : WorkingCopy) : EditRequest → Option (Nat × Row)
  | insertRow values => some (b.rowCount, values)
  | insertRowAt i values => some (i, values)
  | insertBlankRow => some (b.rowCount, List.replicate b.schema.count .null)
  | insertBlankRowAt i => some (i, List.replicate b.schema.count .null)
  | _ => none

/-- How many new rows a request asks for. -/
def insertions : EditRequest → Nat
  | insertRow _ | insertRowAt _ _ | insertBlankRow | insertBlankRowAt _ => 1
  | _ => 0

/-- A change of a column. -/
def IsColumnChange : EditRequest → Prop
  | addField _ | removeField _ | renameField _ _ => True
  | _ => False

end EditRequest

namespace Workspace

variable {w w' : Workspace} {op : EditRequest} {i : Nat} {row : Row} {id : RowId}

/-- What becomes of the rows by a request with a reply. -/
inductive Moves (w : Workspace) : EditRequest → EditReply → Workspace → Prop
  | insert {op : EditRequest} {i : Nat} {row : Row} {id : RowId} {w' : Workspace} :
      op.insertion? w.copy = some (i, row) → i ≤ w.copy.rows.length → id ∉ w.copy.ids →
      (∀ e ∈ w.undo ++ w.redo, e.id? ≠ some id) →
      w'.copy.rows = w.copy.rows.insertIdx i ⟨id, row⟩ → Moves w op (.number id) w'
  | delete {i : Nat} {w' : Workspace} : i < w.copy.rows.length →
      w'.copy.rows = w.copy.rows.eraseIdx i → Moves w (.deleteRow i) .done w'
  | setValue {i c : Nat} {v : Value} {r : NumberedRow} {w' : Workspace} :
      w.copy.rows[i]? = some r →
      w'.copy.rows = w.copy.rows.set i { r with values := r.values.set c v } →
      Moves w (.setValue i c v) .done w'
  | column {op : EditRequest} {reply : EditReply} {w' : Workspace} : op.IsColumnChange →
      w'.copy.ids = w.copy.ids → Moves w op reply w'
  | undo {w' : Workspace} : Edit.Renumbered w.copy.ids w'.copy.ids → Moves w .undo (.flag true) w'
  | redo {w' : Workspace} : Edit.Renumbered w.copy.ids w'.copy.ids → Moves w .redo (.flag true) w'
  | nothingUndone : Moves w .undo (.flag false) w
  | nothingRedone : Moves w .redo (.flag false) w
  | read {op : EditRequest} {reply : EditReply} : op.IsRead → Moves w op reply w

/-- A numbered workspace moves on to another one, giving out an id for every new row. -/
structure MovesOn (w : Workspace) (op : EditRequest) (reply : EditReply) (w' : Workspace) :
    Prop where
  numbered : w'.Numbered
  nextId : w'.copy.nextId ≤ w.copy.nextId + op.insertions
  moves : w.Moves op reply w'

theorem Numbered.movesOn_insert (hw : w.Numbered) (hop : op.insertion? w.copy = some (i, row))
    (hcount : op.insertions = 1) (h : w.insertRowAt i row = .ok (w', id)) :
    w.MovesOn op (.number id) w' := by
  obtain ⟨hnumbered, hnext, rfl, hi, hrows⟩ := hw.insertRowAt h
  obtain ⟨hid, hedits⟩ := hw.nextId_new
  exact ⟨hnumbered, hcount ▸ Nat.le_of_eq hnext, .insert hop hi hid hedits hrows⟩

theorem Numbered.movesOn_column {reply : EditReply} {e : Edit} (hw : w.Numbered)
    (hop : op.IsColumnChange) (he : e.id? = none) (h : w.perform e = .ok w') :
    w.MovesOn op reply w' := by
  obtain ⟨hnumbered, hnext, hids⟩ := hw.perform_column he h
  exact ⟨hnumbered, Nat.le_add_right_of_le (Nat.le_of_eq hnext), .column hop hids⟩

/-! ### Looking rows up -/

/-- Positions with the same id are the same. -/
theorem id_ne_of_lt (h : w.copy.ids.Nodup) {j p : Nat} (hp : p < w.copy.rows.length) (hj : j < p) :
    w.copy.rows[j].id ≠ w.copy.rows[p].id := by
  have hj' : j < w.copy.ids.length := by
    rw [WorkingCopy.ids, List.length_map]
    omega
  have hp' : p < w.copy.ids.length := by rwa [WorkingCopy.ids, List.length_map]
  have hne := List.pairwise_iff_getElem.mp h j p hj' hp' hj
  simpa only [WorkingCopy.ids, List.getElem_map] using hne

/-- An id leads to the position and to the values of its row. -/
theorem lookup_id (h : w.copy.ids.Nodup) {p : Nat} {r : NumberedRow}
    (hr : w.copy.rows[p]? = some r) :
    w.positionOf? r.id = some p ∧ w.rowOf? r.id = some r.values := by
  obtain ⟨hp, rfl⟩ := List.getElem?_eq_some_iff.mp hr
  constructor
  · refine List.findIdx?_eq_some_iff_getElem.mpr ⟨hp, beq_self_eq_true _, fun j hj => ?_⟩
    rw [beq_iff_eq]
    exact id_ne_of_lt h hp hj
  · have hfind : w.copy.rows.find? (fun r => r.id == w.copy.rows[p].id) =
        some w.copy.rows[p] := by
      refine List.find?_eq_some_iff_getElem.mpr ⟨beq_self_eq_true _, p, hp, rfl, fun j hj => ?_⟩
      rw [Bool.not_eq_true', beq_eq_false_iff_ne]
      exact id_ne_of_lt h hp hj
    rw [rowOf?, hfind]
    rfl

end Workspace

/-! ### Sessions -/

namespace EditSession

variable {db db' : Database} {former e e₁ f : EditSession} {source : Source} {w w₁ : Workspace}
  {op : EditRequest} {reply : EditReply} {n : Nat}

/-- What is answered moves the workspace on, unless the session is closed. -/
theorem movesOn_or_closed (hw : e.workspace? = some w) (hnumbered : w.Numbered)
    (h : e.run db op = .ok (db', f, reply)) :
    (∃ w', f.workspace? = some w' ∧ w.MovesOn op reply w') ∨
      (op = .commit ∨ op = .cancel) ∧ f.workspace? = none := by
  obtain hop | ⟨hop, rfl⟩ | hclosed := isStep_or_isRead_or_closed hw h
  case inr.inl => exact .inl ⟨w, hw, hnumbered, Nat.le_add_right _ _, .read hop⟩
  case inr.inr => exact .inr hclosed
  left
  cases op with
  | insertRow row =>
    obtain ⟨w', id, hw', rfl, rfl⟩ := numbered_eq_ok (m := fun w => w.insertRow row) hw h
    exact ⟨w', rfl, hnumbered.movesOn_insert rfl rfl hw'⟩
  | insertRowAt i row =>
    obtain ⟨w', id, hw', rfl, rfl⟩ := numbered_eq_ok (m := fun w => w.insertRowAt i row) hw h
    exact ⟨w', rfl, hnumbered.movesOn_insert rfl rfl hw'⟩
  | insertBlankRow =>
    obtain ⟨w', id, hw', rfl, rfl⟩ := numbered_eq_ok (m := fun w => w.insertBlankRow) hw h
    exact ⟨w', rfl, hnumbered.movesOn_insert rfl rfl hw'⟩
  | insertBlankRowAt i =>
    obtain ⟨w', id, hw', rfl, rfl⟩ := numbered_eq_ok (m := fun w => w.insertBlankRowAt i) hw h
    exact ⟨w', rfl, hnumbered.movesOn_insert rfl rfl hw'⟩
  | deleteRow i =>
    obtain ⟨w', hw', rfl, rfl⟩ := done_eq_ok (m := fun w => w.deleteRow i) hw h
    obtain ⟨hnumbered', hnext, hi, hrows⟩ := hnumbered.deleteRow hw'
    exact ⟨w', rfl, hnumbered', Nat.le_of_eq hnext, .delete hi hrows⟩
  | setValue i c v =>
    obtain ⟨w', hw', rfl, rfl⟩ := done_eq_ok (m := fun w => w.setValue i c v) hw h
    obtain ⟨hnumbered', hnext, r, hr, hrows⟩ := hnumbered.setValue hw'
    exact ⟨w', rfl, hnumbered', Nat.le_of_eq hnext, .setValue hr hrows⟩
  | addField field =>
    obtain ⟨w', i, hw', rfl, rfl⟩ := numbered_eq_ok (m := fun w => w.addField field) hw h
    obtain ⟨-, hperform, -⟩ := Workspace.addField_eq_ok hw'
    exact ⟨w', rfl, hnumbered.movesOn_column trivial rfl hperform⟩
  | removeField i =>
    obtain ⟨w', hw', rfl, rfl⟩ := done_eq_ok (m := fun w => w.removeField i) hw h
    obtain ⟨_, -, hperform⟩ := Workspace.removeField_eq_ok hw'
    exact ⟨w', rfl, hnumbered.movesOn_column trivial rfl hperform⟩
  | renameField i name =>
    obtain ⟨w', hw', rfl, rfl⟩ := done_eq_ok (m := fun w => w.renameField i name) hw h
    obtain ⟨_, -, -, hperform⟩ := Workspace.renameField_eq_ok hw'
    exact ⟨w', rfl, hnumbered.movesOn_column trivial rfl hperform⟩
  | undo =>
    obtain ⟨-, rfl, rfl⟩ | ⟨w', hw', rfl, rfl⟩ := history_eq_ok (m := Workspace.undoLast) hw h
    · exact ⟨w, hw, hnumbered, Nat.le_refl _, .nothingUndone⟩
    · obtain ⟨hnumbered', hnext, hids⟩ := hnumbered.undoLast hw'
      exact ⟨w', rfl, hnumbered', Nat.le_of_eq hnext, .undo hids⟩
  | redo =>
    obtain ⟨-, rfl, rfl⟩ | ⟨w', hw', rfl, rfl⟩ := history_eq_ok (m := Workspace.redoLast) hw h
    · exact ⟨w, hw, hnumbered, Nat.le_refl _, .nothingRedone⟩
    · obtain ⟨hnumbered', hnext, hids⟩ := hnumbered.redoLast hw'
      exact ⟨w', rfl, hnumbered', Nat.le_of_eq hnext, .redo hids⟩
  | _ => simp [EditRequest.IsStep, EditRequest.IsChange] at hop

/-- A session that another one becomes by any requests, answered or refused, as long as it stays
open. They ask for `n` new rows in total. -/
inductive ReachesIn (e : EditSession) : Nat → EditSession → Prop
  | refl : ReachesIn e 0 e
  | step {n : Nat} {f : EditSession} (db : Database) (op : EditRequest) : ReachesIn e n f →
      (f.perform db op).2.1.workspace?.isSome = true →
      ReachesIn e (n + op.insertions) (f.perform db op).2.1

/-- Every session that is reached is numbered, and every id was given out for a stored row or for
one that was asked for. -/
theorem ReachesIn.exists_numbered (h : e₁.ReachesIn n e) (hw₁ : e₁.workspace? = some w₁)
    (hnumbered₁ : w₁.Numbered) :
    ∃ w, e.workspace? = some w ∧ w.Numbered ∧ w.copy.nextId ≤ w₁.copy.nextId + n := by
  induction h with
  | refl => exact ⟨w₁, hw₁, hnumbered₁, Nat.le_refl _⟩
  | @step n f d op _ hopen ih =>
    obtain ⟨w, hw, hnumbered, hnext⟩ := ih
    rw [perform] at hopen ⊢
    cases hrun : f.run d op with
    | error err =>
      exact ⟨w, hw, hnumbered, hnext.trans (Nat.add_le_add_left (Nat.le_add_right n _) _)⟩
    | ok result =>
      obtain ⟨w', hw', hmoves⟩ | ⟨-, hclosed⟩ := movesOn_or_closed hw hnumbered hrun
      · refine ⟨w', hw', hmoves.numbered, hmoves.nextId.trans ?_⟩
        exact (Nat.add_le_add_right hnext _).trans_eq (Nat.add_assoc _ _ _)
      · rw [hrun, hclosed] at hopen
        cases hopen

/-- Rows are identified by their ids, which are less than `n`. -/
structure Identified (e : EditSession) (w : Workspace) (n : Nat) : Prop where
  distinct : w.copy.ids.Nodup
  given : ∀ id ∈ w.copy.ids, id < n
  /-- The id at a position leads back to the position, and to the row there. -/
  leadsBack : ∀ (db : Database) {p : Nat} {r : NumberedRow}, w.copy.rows[p]? = some r →
    e.run db (.rowId p) = .ok (db, e, .number r.id) ∧
    e.run db (.positionOf r.id) = .ok (db, e, .number? (some p)) ∧
    e.run db (.row p) = .ok (db, e, .row r.values) ∧
    e.run db (.rowOf r.id) = .ok (db, e, .row? (some r.values))
  /-- What is answered has done to the rows what it should, unless the session is closed. -/
  moves : ∀ {db db' f op reply}, e.run db op = .ok (db', f, reply) →
    (∃ w', f.workspace? = some w' ∧ w.Moves op reply w') ∨
      (op = .commit ∨ op = .cancel) ∧ f.workspace? = none

/-- Rows are identified by their ids in every session that is reached from one that was opened. -/
theorem identified (hopened : former.begin db = .ok e₁)
    (hstored : db.sources[former.source]? = some source) (h : e₁.ReachesIn n e) :
    ∃ w, e.workspace? = some w ∧ e.Identified w (source.rows.length + n) := by
  obtain ⟨other, -, hother, rfl⟩ := begin_eq_ok hopened
  obtain rfl := Option.some.inj (hstored.symm.trans hother)
  obtain ⟨w, hw, hnumbered, hnext⟩ := h.exists_numbered rfl (Workspace.numbered_ofRows _ _ _)
  refine ⟨w, hw, hnumbered.nodup, fun id hid => ?_, fun db {p r} hr => ?_, fun hrun => ?_⟩
  · exact Nat.lt_of_lt_of_le (hnumbered.rows id hid) hnext
  · obtain ⟨hposition, hrow⟩ := Workspace.lookup_id hnumbered.nodup hr
    have hread := Workspace.row_eq_ok.mpr hr
    have hworkspace := workspace_eq_ok.mpr hw
    refine ⟨?_, ?_, ?_, ?_⟩
    · rw [run, hworkspace]
      change (w.copy.row p >>= _) = _
      rw [hread]
      rfl
    · rw [run, hworkspace, ← hposition]
      rfl
    · rw [run, hworkspace]
      change (w.copy.row p >>= _) = _
      rw [hread]
      rfl
    · rw [run, hworkspace, ← hrow]
      rfl
  · obtain ⟨w', hw', hmoves⟩ | hclosed := movesOn_or_closed hw hnumbered hrun
    · exact .inl ⟨w', hw', hmoves.moves⟩
    · exact .inr hclosed

/-- A row was inserted, the row behind it was deleted, and this was taken back. -/
theorem identified_undone :
    let inserted := (sampleSession.perform sampleDatabase (.insertRowAt 0 [.int 7])).2.1
    let deleted := (inserted.perform sampleDatabase (.deleteRow 1)).2.1
    let undone := (deleted.perform sampleDatabase .undo).2.1
    ∃ w, undone.workspace? = some w ∧ undone.Identified w 3 := by
  intro inserted deleted undone
  have hreaches : sampleSession.ReachesIn 1 undone :=
    .step sampleDatabase .undo (.step sampleDatabase (.deleteRow 1)
      (.step sampleDatabase (.insertRowAt 0 [.int 7]) .refl rfl) rfl) rfl
  exact identified openedOn_sample.opened openedOn_sample.stored hreaches

end EditSession

end SpatialStore
