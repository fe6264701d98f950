import SpatialStore.Proofs.Editing.Atomicity
import SpatialStore.Proofs.Editing.History
import SpatialStore.Proofs.Query.Execution

/-!
# The buffer of a session stays well formed

A buffer is *well formed* when its field names are different, it has an id for each row, and its
rows fit its schema, in width and in types. A session that is opened on a source whose rows fit
keeps its buffer well formed through whatever is asked of it, be it answered or refused, as long as
it stays open (`LiveSession.keepsForm_of_opened`).

This is not a matter of the present buffer alone. Undoing a deletion puts back a row that was
recorded under another schema perhaps, and undoing the removal of a field puts back a column for
rows that were there then. The rows fit all the same, as what comes back is a former view of the
buffer as a whole, and all of these had rows that fit.

Consequences are drawn from the form of the buffer: a change that is not refused touches only rows,
ids and columns that are there (`EditBuffer.inBounds_of_apply`, `EditBuffer.inBounds_of_revert`), a
commit is never refused for the type of a value or the width of a row.
-/

namespace SpatialStore

open WorkingCopy (View)

/-! ### Views whose rows fit -/

/-- Every row fits the schema. -/
def WorkingCopy.View.Conforms (x : View) : Prop := ∀ r ∈ x.rows, x.schema.Fits r.values

/-- An edit leads from rows that fit to rows that fit, if the values that it brings in do. -/
theorem Edit.Leads.conforms {e : Edit} {x y : View} (h : e.Leads x y) (hfits : e.Fits x.schema)
    (hx : x.Conforms) : y.Conforms := by
  intro r hr
  cases h with
  | insertRow =>
    rcases List.eq_or_mem_of_mem_insertIdx hr with rfl | hr
    · exact hfits
    · exact hx r hr
  | deleteRow => exact hx r (List.mem_of_mem_eraseIdx hr)
  | setValue hformer =>
    rcases List.mem_or_eq_of_mem_set hr with hr | rfl
    · exact hx r hr
    · exact (hx _ (List.mem_of_getElem? hformer)).set hfits
  | @addField _ i f =>
    obtain ⟨former, hformer, rfl⟩ := List.mem_map.mp hr
    exact (hx former hformer).insertIdx (Value.fits_null f.type) i
  | @removeField _ i =>
    obtain ⟨former, hformer, rfl⟩ := List.mem_map.mp hr
    exact (hx former hformer).eraseIdx i
  | renameField hf => exact (hx r hr).rename hf _

namespace EditSession

variable {db db' : Database} {e f : EditSession} {source : Source} {op : EditRequest}
  {reply : EditReply}

/-- The session is open, and all rows that it has, had, or can have again by undoing and redoing
fit their schema. Indexes are left out of account. -/
def Conforms (e : EditSession) : Prop :=
  ∃ w, e.workspace? = some w ∧ w.unindexed.Sound ∧ w.unindexed.Throughout View.Conforms

/-- A session is opened on rows that fit. -/
theorem conforms_of_begin (h : e.begin db = .ok f) (hsource : db.sources[e.source]? = some source)
    (hschema : source.schema.Proper) (hrows : source.Conforms) : f.Conforms := by
  obtain ⟨source', -, hstored, rfl⟩ := begin_eq_ok h
  obtain rfl := Option.some.inj (hsource.symm.trans hstored)
  have hproper : source.Proper := ⟨hschema, fun row hrow => (hrows row hrow).length_eq⟩
  have hview : (Workspace.ofRows source.schema source.rows
      (db.indexes.ofTable e.name)).unindexed.copy.view.Conforms := by
    intro r hr
    obtain ⟨⟨row, i⟩, hrow, rfl⟩ := List.mem_map.mp hr
    exact hrows row (List.mem_of_getElem? (List.mem_zipIdx_iff_getElem?.mp hrow))
  exact ⟨_, rfl, hproper.sound_unindexed _, ⟨_, .nil hview⟩, ⟨_, .nil hview⟩⟩

/-- What is answered leaves the rows fitting, unless the session is closed. -/
theorem Conforms.run (he : e.Conforms) (h : e.run db op = .ok (db', f, reply))
    (hopen : f.workspace?.isSome = true) : f.Conforms := by
  obtain ⟨w, hw, hsound, hconforms⟩ := he
  obtain ⟨w', rfl, hsame | hstep⟩ := step_unindexed hw hsound h hopen
  · exact ⟨w', rfl, hsame ▸ hsound, hsame ▸ hconforms⟩
  · refine ⟨w', rfl, hsound.step hstep, hconforms.step hsound hstep fun hperforms => ?_⟩
    exact hperforms.leads.conforms hperforms.fits hconforms.present

theorem Conforms.perform (he : e.Conforms) (db : Database) (op : EditRequest)
    (hopen : (e.perform db op).2.1.workspace?.isSome = true) :
    (e.perform db op).2.1.Conforms := by
  rw [EditSession.perform] at hopen ⊢
  cases hrun : e.run db op with
  | error err => exact he
  | ok result =>
    rw [hrun] at hopen
    exact he.run hrun hopen

end EditSession

/-! ### Buffers -/

namespace EditBuffer

/-- Something in a buffer that is read or changed. -/
inductive Access where
  /-- The place in front of a row, or behind the last one. -/
  | rowGap (i : Nat)
  | row (i : Nat)
  | cell (i column : Nat)
  /-- The place in front of a column, or behind the last one. -/
  | columnGap (column : Nat)
  | column (column : Nat)
  | field (column : Nat)

/-- What is accessed is there, in the rows as well as in the ids and in the schema. -/
def Access.InBounds (b : EditBuffer) : Access → Prop
  | .rowGap i => i ≤ b.rows.length ∧ i ≤ b.ids.length
  | .row i => i < b.rows.length ∧ i < b.ids.length
  | .cell i c => i < b.ids.length ∧ c < b.schema.count ∧ ∃ row ∈ b.rows[i]?, c < row.length
  | .columnGap c => c ≤ b.schema.count ∧ ∀ row ∈ b.rows, c ≤ row.length
  | .column c => c < b.schema.count ∧ ∀ row ∈ b.rows, c < row.length
  | .field c => c < b.schema.count

/-- What an edit accesses when it is made. -/
def applyAccess : Edit → Access
  | .insertRow i _ _ => .rowGap i
  | .deleteRow i _ _ => .row i
  | .setValue i c _ _ => .cell i c
  | .addField c _ => .columnGap c
  | .removeField c _ _ _ => .column c
  | .renameField c _ _ => .field c

/-- What an edit accesses when it is taken back. -/
def revertAccess : Edit → Access
  | .insertRow i _ _ => .row i
  | .deleteRow i _ _ => .rowGap i
  | .setValue i c _ _ => .cell i c
  | .addField c _ => .column c
  | .removeField c _ _ _ => .columnGap c
  | .renameField c _ _ => .field c

/-- The field names are different, there is an id for each row, and the rows fit the schema. -/
structure WellFormed (b : EditBuffer) : Prop where
  names : b.schema.names.Nodup
  ids : b.ids.length = b.rows.length
  rows : ∀ row ∈ b.rows, b.schema.Fits row

/-! Rows and ids of one length make a copy, so changes in place are changes of a copy. -/

section Bounds

variable {b b' : WorkingCopy} {i c : Nat} {e : Edit}

theorem length_rows_ofCopy : (ofCopy b).rows.length = b.rows.length := List.length_map _

theorem length_ids_ofCopy : (ofCopy b).ids.length = b.rows.length := List.length_map _

theorem inBounds_rowGap {id : RowId} {row : Row} (h : b.insertRow i id row = .ok b') :
    (Access.rowGap i).InBounds (ofCopy b) := by
  rw [WorkingCopy.insertRow] at h
  split_ifs at h with hi
  rw [Access.InBounds, length_rows_ofCopy, length_ids_ofCopy]
  exact ⟨Nat.not_lt.mp hi, Nat.not_lt.mp hi⟩

theorem lt_of_row {r : NumberedRow} (h : b.row i = .ok r) : i < b.rows.length :=
  (List.getElem?_eq_some_iff.mp (Workspace.row_eq_ok.mp h)).1

theorem inBounds_row (h : b.removeRow i = .ok b') : (Access.row i).InBounds (ofCopy b) := by
  obtain ⟨r, hr, -⟩ := Result.bind_eq_ok.mp h
  rw [Access.InBounds, length_rows_ofCopy, length_ids_ofCopy]
  exact ⟨lt_of_row hr, lt_of_row hr⟩

theorem inBounds_cell {v : Value} (h : b.setValue i c v = .ok b') :
    (Access.cell i c).InBounds (ofCopy b) := by
  obtain ⟨r, hr, h⟩ := Result.bind_eq_ok.mp h
  split at h
  swap
  · cases h
  next former f hformer hf =>
  obtain ⟨hc, -⟩ := List.getElem?_eq_some_iff.mp hf
  obtain ⟨hc', -⟩ := List.getElem?_eq_some_iff.mp hformer
  refine ⟨?_, hc, r.values, ?_, hc'⟩
  · rw [length_ids_ofCopy]
    exact lt_of_row hr
  · change (b.rows.map (·.values))[i]? = some r.values
    rw [List.getElem?_map, Workspace.row_eq_ok.mp hr]
    rfl

/-- Columns are accessed in all rows, which are as wide as the schema. -/
theorem inBounds_columnGap (hwidth : ∀ row ∈ (ofCopy b).rows, row.length = b.schema.count)
    {f : Field} {values : List Value} (h : b.insertColumn c f values = .ok b') :
    (Access.columnGap c).InBounds (ofCopy b) := by
  rw [WorkingCopy.insertColumn] at h
  cases hinsert : b.schema.insertField c f with
  | error err =>
    rw [hinsert] at h
    cases h
  | ok schema =>
    obtain ⟨hc, -, -⟩ := Schema.insertField_eq_ok_iff.mp hinsert
    exact ⟨hc, fun row hrow => hc.trans_eq (hwidth row hrow).symm⟩

theorem inBounds_column (hwidth : ∀ row ∈ (ofCopy b).rows, row.length = b.schema.count)
    (h : b.removeColumn c = .ok b') : (Access.column c).InBounds (ofCopy b) := by
  rw [WorkingCopy.removeColumn, Schema.removeField] at h
  cases hf : b.schema.field? c with
  | none =>
    rw [hf] at h
    cases h
  | some f =>
    obtain ⟨hc, -⟩ := List.getElem?_eq_some_iff.mp hf
    exact ⟨hc, fun row hrow => hc.trans_eq (hwidth row hrow).symm⟩

theorem inBounds_field {former name : String} (h : b.renameColumn c former name = .ok b') :
    (Access.field c).InBounds (ofCopy b) := by
  rw [WorkingCopy.renameColumn, Schema.renameField] at h
  cases hf : b.schema.field? c with
  | none =>
    rw [hf] at h
    cases h
  | some f => exact (List.getElem?_eq_some_iff.mp hf).1

theorem inBounds_of_apply_copy (hwidth : ∀ row ∈ (ofCopy b).rows, row.length = b.schema.count)
    (h : e.apply b = .ok b') : (applyAccess e).InBounds (ofCopy b) := by
  cases e with
  | insertRow i id row => exact inBounds_rowGap h
  | deleteRow i id row => exact inBounds_row h
  | setValue i c former new => exact inBounds_cell h
  | addField c f => exact inBounds_columnGap hwidth h
  | removeField c f values index => exact inBounds_column hwidth h
  | renameField c former new => exact inBounds_field h

theorem inBounds_of_revert_copy (hwidth : ∀ row ∈ (ofCopy b).rows, row.length = b.schema.count)
    (h : e.revert b = .ok b') : (revertAccess e).InBounds (ofCopy b) := by
  cases e with
  | insertRow i id row => exact inBounds_row h
  | deleteRow i id row => exact inBounds_rowGap h
  | setValue i c former new => exact inBounds_cell h
  | addField c f => exact inBounds_column hwidth h
  | removeField c f values index =>
    obtain ⟨d, hd, -⟩ := Result.bind_eq_ok.mp h
    exact inBounds_columnGap hwidth hd
  | renameField c former new => exact inBounds_field h

end Bounds

section WellFormed

variable {b b' : EditBuffer} {e : Edit}

/-- A buffer with an id for each row is that of a copy. -/
theorem ofCopy_copy (h : b.ids.length = b.rows.length) : ofCopy b.copy = b := by
  obtain ⟨schema, rows, ids, nextId, indexes⟩ := b
  have hrows : (List.zipWith NumberedRow.mk ids rows).map (·.values) = rows := by
    rw [List.map_zipWith, ← List.map_uncurry_zip_eq_zipWith]
    exact List.map_snd_zip (Nat.le_of_eq h.symm)
  have hids : (List.zipWith NumberedRow.mk ids rows).map (·.id) = ids := by
    rw [List.map_zipWith, ← List.map_uncurry_zip_eq_zipWith]
    exact List.map_fst_zip (Nat.le_of_eq h)
  exact congrArg₂ (fun rows ids => EditBuffer.mk schema rows ids nextId indexes) hrows hids

/-- What a change of a well-formed buffer does when it is not refused, it does to a copy. -/
private theorem WellFormed.exists_copy (hb : b.WellFormed) {m : Action Unit}
    {x : WorkingCopy → Except EditError WorkingCopy}
    (hm : ∀ c, outcome m (ofCopy c) = ofChange (x c)) (h : m.run b = .ok () b') :
    ∃ c c', ofCopy c = b ∧ x c = .ok c' := by
  have hcopy := ofCopy_copy hb.ids
  have houtcome := hm b.copy
  rw [hcopy, outcome, h] at houtcome
  obtain ⟨c', hc', -⟩ := Result.map_eq_ok.mp houtcome.symm
  exact ⟨b.copy, c', hcopy, hc'⟩

/-- An edit that is made in a well-formed buffer touches only what is there. -/
theorem WellFormed.inBounds_of_apply (hb : b.WellFormed) (h : (apply e).run b = .ok () b') :
    (applyAccess e).InBounds b := by
  obtain ⟨c, c', rfl, hc⟩ := hb.exists_copy (x := e.apply) (outcome_apply · e) h
  exact inBounds_of_apply_copy (fun row hrow => (hb.rows row hrow).length) hc

/-- An edit that is taken back in a well-formed buffer touches only what is there. -/
theorem WellFormed.inBounds_of_revert (hb : b.WellFormed) (h : (revert e).run b = .ok () b') :
    (revertAccess e).InBounds b := by
  obtain ⟨c, c', rfl, hc⟩ := hb.exists_copy (x := e.revert) (outcome_revert · e) h
  exact inBounds_of_revert_copy (fun row hrow => (hb.rows row hrow).length) hc

end WellFormed

end EditBuffer

/-! ### Sessions -/

namespace EditSession

variable {db : Database} {e : EditSession} {w : Workspace}

/-- The rows of a session that conforms, as they are in place. -/
theorem wellFormed_ofCopy (hsound : w.unindexed.Sound)
    (hconforms : w.unindexed.Throughout View.Conforms) :
    (EditBuffer.ofCopy w.copy).WellFormed where
  names := hsound.fresh.schema_proper
  ids := EditBuffer.length_ids_ofCopy.trans EditBuffer.length_rows_ofCopy.symm
  rows := List.forall_mem_map.mpr hconforms.present

/-- The latest edit can be taken back. -/
theorem exists_revert {ed : Edit} {es : List Edit} (hsound : w.unindexed.Sound)
    (hundo : w.undo = ed :: es) : ∃ b, ed.revert w.copy = .ok b := by
  have hundo' : w.unindexed.undo = ed.unindexed :: es.map .unindexed := by
    rw [Workspace.unindexed, hundo, List.map_cons]
  obtain ⟨hnil, -⟩ | ⟨_, _, v, -, hlast, -⟩ := hsound.undo_cases
  · cases hundo'.symm.trans hnil
  rw [w.undoLast_unindexed] at hlast
  obtain ⟨next, hnext, -⟩ := Result.map_eq_ok.mp hlast
  rw [Workspace.undoLast, hundo] at hnext
  obtain ⟨b, hb, -⟩ := Result.bind_eq_ok.mp hnext
  exact ⟨b, hb⟩

/-- The edit that was undone last can be made again. -/
theorem exists_apply {ed : Edit} {es : List Edit} (hsound : w.unindexed.Sound)
    (hredo : w.redo = ed :: es) : ∃ b, ed.apply w.copy = .ok b := by
  have hredo' : w.unindexed.redo = ed.unindexed :: es.map .unindexed := by
    rw [Workspace.unindexed, hredo, List.map_cons]
  obtain ⟨hnil, -⟩ | ⟨_, _, v, -, hlast, -⟩ := hsound.redo_cases
  · cases hredo'.symm.trans hnil
  rw [w.redoLast_unindexed] at hlast
  obtain ⟨next, hnext, -⟩ := Result.map_eq_ok.mp hlast
  rw [Workspace.redoLast, hredo] at hnext
  obtain ⟨b, hb, -⟩ := Result.bind_eq_ok.mp hnext
  exact ⟨b, hb⟩

end EditSession

namespace LiveSession

variable {db : Database} {e former : EditSession} {source : Source} {s t : LiveSession}
  {reply : EditReply}

/-- A session in place that another one becomes by any requests, answered or refused, as long as it
stays open. What happens to the database in the meantime does not matter. -/
inductive Becomes (s : LiveSession) : LiveSession → Prop
  | refl : Becomes s s
  | answered {t u : LiveSession} {op : EditRequest} {reply : EditReply} : Becomes s t →
      (carryOut op).run t = .ok reply u → u.phase = .opened → Becomes s u
  | refused {t u : LiveSession} {op : EditRequest} {err : EditError} : Becomes s t →
      (carryOut op).run t = .error err u → Becomes s u
  | meanwhile {t : LiveSession} (db : Database) : Becomes s t → Becomes s (t.withDatabase db)

/-- The session is open on a well-formed buffer, and what follows from that. -/
structure KeepsForm (s : LiveSession) : Prop where
  wellFormed : ∃ b, s.buffer = some b ∧ b.WellFormed
  /-- Whatever edit is made or taken back, it is refused or touches only what is there. -/
  apply_inBounds : ∀ {b b' e}, s.buffer = some b → (EditBuffer.apply e).run b = .ok () b' →
    (EditBuffer.applyAccess e).InBounds b
  revert_inBounds : ∀ {b b' e}, s.buffer = some b → (EditBuffer.revert e).run b = .ok () b' →
    (EditBuffer.revertAccess e).InBounds b
  /-- The next edits of the history, recorded under whichever schema, touch what is there now. -/
  undo_inBounds : ∀ {b e es}, s.buffer = some b → s.undo = e :: es →
    (EditBuffer.revertAccess e).InBounds b
  redo_inBounds : ∀ {b e es}, s.buffer = some b → s.redo = e :: es →
    (EditBuffer.applyAccess e).InBounds b
  /-- There is a value in every row for every field. -/
  value : ∀ {b i c}, s.buffer = some b →
    ((∃ v, (carryOut (.value i c)).run s = .ok (.value v) s) ↔
      i < b.rows.length ∧ c < b.schema.count)
  /-- A commit that is refused for a value is so for a constraint, and not for its type. -/
  violation : ∀ {n field reason t},
    (carryOut .commit).run s = .error (.constraintViolation n field reason) t →
      ∃ (b : EditBuffer) (row : Row) (c : Nat) (f : Field) (v : Value), s.buffer = some b ∧
        b.rows[n]? = some row ∧ b.schema.fields[c]? = some f ∧ row[c]? = some v ∧
        f.name = field ∧ v.fits f.type = true ∧ ∃ constraint ∈ f.constraints,
          constraint.admits v = false ∧ reason = v.text ++ " violates " ++ constraint.text
  /-- The source never refuses a row for its width. -/
  stored : ∀ {n expected found t},
    (carryOut .commit).run s ≠ .error (.storage (.rowWidthMismatch n expected found)) t

/-- A session in place that is open has a workspace. -/
theorem isSome_of_phase (h : (ofSession db e).phase = .opened) : e.workspace?.isSome = true := by
  obtain ⟨name, i, state⟩ := e
  cases state with
  | opened w => rfl
  | closed | committed | cancelled => cases h

/-- Opening in place is opening a session. -/
theorem run_begin_eq_ok (h : (carryOut .begin).run (ofSession db former) = .ok reply s) :
    ∃ e, former.begin db = .ok e ∧ s = ofSession db e := by
  rw [run_carryOut, EditSession.perform, EditSession.run] at h
  cases hbegin : former.begin db with
  | ok e =>
    rw [hbegin] at h
    cases h
    exact ⟨e, rfl, rfl⟩
  | error err =>
    rw [hbegin] at h
    cases h

theorem Becomes.exists_conforms (h : (ofSession db e).Becomes t) (he : e.Conforms) :
    ∃ db' f, f.Conforms ∧ t = ofSession db' f := by
  induction h with
  | refl => exact ⟨db, e, he, rfl⟩
  | answered _ hrun hopen ih =>
    obtain ⟨d, f, hf, rfl⟩ := ih
    rw [run_carryOut] at hrun
    obtain rfl := answered_eq_ok hrun
    exact ⟨_, _, hf.perform d _ (isSome_of_phase hopen), rfl⟩
  | refused _ hrun ih =>
    obtain ⟨d, f, hf, rfl⟩ := ih
    cases atomic_carryOut _ _ _ _ hrun
    exact ⟨d, f, hf, rfl⟩
  | meanwhile d' _ ih =>
    obtain ⟨d, f, hf, rfl⟩ := ih
    exact ⟨d', f, hf, withDatabase_ofSession d d' f⟩

section Open

variable {w : Workspace}

/-- The rows are those of the buffer. -/
theorem value_eq_ok {b : WorkingCopy} {i c : Nat} {v : Value} :
    b.value i c = .ok v ↔ ∃ r, b.rows[i]? = some r ∧ r.values[c]? = some v := by
  rw [WorkingCopy.value, Result.bind_eq_ok]
  refine exists_congr fun r => and_congr Workspace.row_eq_ok ?_
  cases r.values[c]? with
  | none => exact iff_of_false (by simp [throw, throwThe, MonadExceptOf.throw]) (by simp)
  | some u => simp [pure, Except.pure]

theorem run_value_eq_ok (i c : Nat) (v : Value) :
    (carryOut (.value i c)).run (ofSession db (e.withWorkspace w)) =
      .ok (.value v) (ofSession db (e.withWorkspace w)) ↔ w.copy.value i c = .ok v := by
  have hrun : (e.withWorkspace w).run db (.value i c) =
      (w.copy.value i c).map fun v => (db, e.withWorkspace w, .value v) := by
    change (w.copy.value i c >>= fun v => pure (db, e.withWorkspace w, EditReply.value v)) = _
    cases w.copy.value i c <;> rfl
  rw [run_carryOut, EditSession.perform, hrun]
  cases w.copy.value i c with
  | error err =>
    constructor
    · rintro ⟨⟩
    · rintro ⟨⟩
  | ok u =>
    constructor
    · rintro ⟨⟩
      rfl
    · rintro ⟨⟩
      rfl

end Open

/-- A session in place that conforms keeps its form. -/
theorem keepsForm_ofSession (db : Database) (he : e.Conforms) : (ofSession db e).KeepsForm := by
  obtain ⟨w, hw, hsound, hconforms⟩ := he
  have hform := EditSession.wellFormed_ofCopy hsound hconforms
  have hwidth : ∀ row ∈ (EditBuffer.ofCopy w.copy).rows, row.length = w.copy.schema.count :=
    fun row hrow => (hform.rows row hrow).length
  have hwritten : ∀ row ∈ w.copy.values, row.length = w.copy.schema.count := hwidth
  rw [← EditSession.withWorkspace_eq hw]
  constructor
  case wellFormed => exact ⟨_, rfl, hform⟩
  case apply_inBounds =>
    rintro _ b' ed ⟨⟩ h
    exact hform.inBounds_of_apply h
  case revert_inBounds =>
    rintro _ b' ed ⟨⟩ h
    exact hform.inBounds_of_revert h
  case undo_inBounds =>
    rintro _ ed es ⟨⟩ hundo
    obtain ⟨b, hb⟩ := EditSession.exists_revert hsound hundo
    exact EditBuffer.inBounds_of_revert_copy hwidth hb
  case redo_inBounds =>
    rintro _ ed es ⟨⟩ hredo
    obtain ⟨b, hb⟩ := EditSession.exists_apply hsound hredo
    exact EditBuffer.inBounds_of_apply_copy hwidth hb
  case value =>
    rintro _ i c ⟨⟩
    simp only [run_value_eq_ok, value_eq_ok]
    rw [EditBuffer.length_rows_ofCopy]
    -- the rows of the copy are as wide as those of the buffer
    have hcopy {r : NumberedRow} (hr : r ∈ w.copy.rows) :
        r.values.length = w.copy.schema.count :=
      hwidth r.values (List.mem_map_of_mem hr)
    constructor
    · rintro ⟨v, r, hr, hv⟩
      obtain ⟨hi, -⟩ := List.getElem?_eq_some_iff.mp hr
      obtain ⟨hc, -⟩ := List.getElem?_eq_some_iff.mp hv
      exact ⟨hi, hc.trans_eq (hcopy (List.mem_of_getElem? hr))⟩
    · rintro ⟨hi, hc⟩
      have hc' := hc.trans_eq (hcopy (List.getElem_mem hi)).symm
      exact ⟨_, _, List.getElem?_eq_getElem hi, List.getElem?_eq_getElem hc'⟩
  case violation =>
    intro n field reason t h
    obtain hclosed | ⟨w', hw', -, hwrite⟩ := EditSession.commit_eq_error (commit_eq_error h)
    · cases hclosed
    cases hw'
    obtain ⟨n', field', reason', hviolation, heq⟩ | hunknown | ⟨_, _, -, -, hstorage⟩ :=
      EditSession.write_eq_error hwrite
    · cases heq
      obtain ⟨row, c, f, v, hrow, hf, hv, hname, hreason, -⟩ :=
        Schema.exists_of_firstViolation? hviolation
      have hfits := (hform.rows row (List.mem_of_getElem? hrow)).value hf hv
      exact ⟨_, row, c, f, v, rfl, hrow, hf, hv, hname, hfits,
        Field.violates_of_fits hfits hreason⟩
    · cases hunknown
    · cases hstorage
  case stored =>
    intro n expected found t h
    obtain hclosed | ⟨w', hw', -, hwrite⟩ := EditSession.commit_eq_error (commit_eq_error h)
    · cases hclosed
    cases hw'
    obtain ⟨_, _, _, -, heq⟩ | hunknown | ⟨former, err, -, herr, hstorage⟩ :=
      EditSession.write_eq_error hwrite
    · cases heq
    · cases hunknown
    · obtain ⟨-, rfl⟩ := Source.write_eq_error hwritten herr
      cases hstorage

/-- A session that is opened on a source whose rows fit its schema keeps its form, whatever is
asked of it. -/
theorem keepsForm_of_opened (hopened : (carryOut .begin).run (ofSession db former) = .ok reply s)
    (hsource : db.sources[former.source]? = some source) (hschema : source.schema.Proper)
    (hrows : source.Conforms) (h : s.Becomes t) : t.KeepsForm := by
  obtain ⟨e, hbegin, rfl⟩ := run_begin_eq_ok hopened
  obtain ⟨db', f, hf, rfl⟩ :=
    h.exists_conforms (EditSession.conforms_of_begin hbegin hsource hschema hrows)
  exact keepsForm_ofSession db' hf

open EditSession in
/-- A session in which a row was deleted and then its only field removed. -/
theorem keepsForm_of_opened_removed :
    let deleted := (sampleSession.perform sampleDatabase (.deleteRow 0)).2.1
    let removed := (deleted.perform sampleDatabase (.removeField 0)).2.1
    (ofSession sampleDatabase removed).KeepsForm := by
  intro deleted removed
  have hbegin : (carryOut .begin).run (ofSession sampleDatabase (create "t" 0)) =
      .ok .done (ofSession sampleDatabase sampleSession) := rfl
  have hdelete : (carryOut (.deleteRow 0)).run (ofSession sampleDatabase sampleSession) =
      .ok .done (ofSession sampleDatabase deleted) := rfl
  have hremove : (carryOut (.removeField 0)).run (ofSession sampleDatabase deleted) =
      .ok .done (ofSession sampleDatabase removed) := rfl
  have hbecomes : (ofSession sampleDatabase sampleSession).Becomes
      (ofSession sampleDatabase removed) :=
    .answered (.answered .refl hdelete rfl) hremove rfl
  have hsource : sampleDatabase.sources[(create "t" 0).source]? = some sampleSource := rfl
  exact keepsForm_of_opened hbegin hsource (by decide) (by decide) hbecomes

end LiveSession

end SpatialStore
