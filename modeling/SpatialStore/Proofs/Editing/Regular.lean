import SpatialStore.Proofs.Editing.Session
import SpatialStore.Proofs.Index.Lookup

/-!
# Geometries without NaN in an open session

A value is *regular* when no side of its envelope is NaN. An index of regular values is intact and
stays so: a row is found again in a tree when its envelope is to be replaced or removed. The shape
of such a tree depends on everything that was done to it, but that it is intact does not.

A workspace is regular when its rows and all values that its history keeps are regular, and so are
its indexes and those that its history keeps for removed fields (`Workspace.Regular`). A session
that is opened on regular rows stays regular through all requests that bring in regular values only
(`EditSession.ReachesBy.exists_regular`).
-/

namespace SpatialStore

/-! ### Values -/

/-- No side of the envelope of a value is NaN. -/
def Value.Regular (v : Value) : Prop := ∀ e ∈ v.envelope?, e.Numeric

instance (v : Value) : Decidable v.Regular :=
  inferInstanceAs (Decidable (∀ e ∈ v.envelope?, e.Numeric))

theorem Value.regular_null : Value.null.Regular := fun _ he => by cases he

/-- All values of a row are regular. -/
def Row.Regular (row : Row) : Prop := ∀ v ∈ row, v.Regular

instance (row : Row) : Decidable (Row.Regular row) :=
  inferInstanceAs (Decidable (∀ v ∈ row, v.Regular))

theorem Row.regular_replicate (n : Nat) : Row.Regular (List.replicate n .null) :=
  fun _ hv => List.eq_of_mem_replicate hv ▸ Value.regular_null

theorem Row.Regular.insertIdx {row : Row} {i : Nat} {v : Value} (h : Row.Regular row)
    (hv : v.Regular) : Row.Regular (row.insertIdx i v) := by
  intro u hu
  rcases List.eq_or_mem_of_mem_insertIdx hu with rfl | hu
  · exact hv
  · exact h u hu

theorem Row.Regular.set {row : Row} {i : Nat} {v : Value} (h : Row.Regular row) (hv : v.Regular) :
    Row.Regular (row.set i v) := by
  intro u hu
  rcases List.mem_or_eq_of_mem_set hu with hu | rfl
  · exact h u hu
  · exact hv

/-- The value at a position, or null where there is none, is regular. -/
theorem Row.Regular.getD {row : Row} (h : Row.Regular row) (i : Nat) :
    ((row[i]?).getD .null).Regular := by
  cases hv : row[i]? with
  | none => exact Value.regular_null
  | some v => exact h v (List.mem_of_getElem? hv)

/-! ### Indexes -/

/-- Envelopes are those of values. -/
theorem IndexEntry.envelope?_of_ofValue? {kind : IndexKind} {v : Value} {e : Envelope}
    (h : ofValue? kind v = some (.envelope e)) : v.envelope? = some e := by
  cases kind
  · obtain ⟨f, hf, hfe⟩ := Option.map_eq_some_iff.mp h
    cases hfe
    exact hf
  · obtain ⟨k, -, hk⟩ := Option.map_eq_some_iff.mp h
    cases hk

/-- The index is intact, and no side of an envelope in it is NaN. -/
structure ColumnIndex.Regular (index : ColumnIndex) : Prop where
  intact : index.Intact
  envelopes : ∀ {id : RowId} {e : Envelope}, index.entryOf? id = some (.envelope e) → e.Numeric

namespace ColumnIndex

variable {index : ColumnIndex} {v : Value}

theorem Regular.insert (h : index.Regular) (id : RowId) (hv : v.Regular) :
    (index.insert id v).Regular := by
  refine ⟨h.intact.insert (fun e => h.envelopes) v, fun {k e} he => ?_⟩
  rw [entryOf?_insert] at he
  split_ifs at he
  · exact hv e (IndexEntry.envelope?_of_ofValue? he)
  · exact h.envelopes he

theorem Regular.erase (h : index.Regular) (id : RowId) : (index.erase id).Regular := by
  refine ⟨h.intact.erase fun e => h.envelopes, fun {k e} he => ?_⟩
  rw [entryOf?_erase] at he
  split_ifs at he
  exact h.envelopes he

/-- An intact index that serves regular rows is regular. -/
theorem Serves.regular {schema : Schema} {rows : List NumberedRow} {name : String}
    (h : index.Serves schema rows name) (hintact : index.Intact)
    (hrows : ∀ r ∈ rows, Row.Regular r.values) : index.Regular := by
  refine ⟨hintact, fun {id e} he => ?_⟩
  obtain ⟨c, -, hperm⟩ := h.entries
  obtain ⟨v, hv, hentry⟩ := mem_ofValues.mp (hperm.mem_iff.mp (mem_entries.mpr he))
  obtain ⟨r, hr, -, hvalue⟩ := NumberedRow.mem_cells.mp hv
  exact hrows r hr v (List.mem_of_getElem? hvalue) e (IndexEntry.envelope?_of_ofValue? hentry)

end ColumnIndex

/-! ### Copies -/

/-- Rows and indexes of the copy are regular. -/
structure WorkingCopy.Regular (b : WorkingCopy) : Prop where
  rows : ∀ r ∈ b.rows, Row.Regular r.values
  indexes : ∀ {name : String} {index : ColumnIndex}, b.indexes[name]? = some index →
    index.Regular

namespace WorkingCopy

variable {b b' : WorkingCopy} {i c : Nat} {id : RowId} {row : Row} {v : Value} {f : Field}

theorem Regular.insertRow (hb : b.Regular) (hrow : Row.Regular row)
    (h : b.insertRow i id row = .ok b') : b'.Regular := by
  rw [WorkingCopy.insertRow] at h
  split_ifs at h
  cases h
  refine ⟨fun r hr => ?_, fun {name index} hindex => ?_⟩
  · rcases List.eq_or_mem_of_mem_insertIdx hr with rfl | hr
    · exact hrow
    · exact hb.rows r hr
  · rw [Std.ExtTreeMap.getElem?_map] at hindex
    obtain ⟨former, hformer, rfl⟩ := Option.map_eq_some_iff.mp hindex
    split
    · next v hv =>
      obtain ⟨c, -, hc⟩ := Option.bind_eq_some_iff.mp hv
      exact (hb.indexes hformer).insert id (hrow v (List.mem_of_getElem? hc))
    · exact hb.indexes hformer

theorem Regular.removeRow (hb : b.Regular) (h : b.removeRow i = .ok b') : b'.Regular := by
  obtain ⟨r, -, h⟩ := Result.bind_eq_ok.mp h
  cases h
  refine ⟨fun s hs => hb.rows s (List.mem_of_mem_eraseIdx hs), fun {name index} hindex => ?_⟩
  rw [Std.ExtTreeMap.getElem?_map] at hindex
  obtain ⟨former, hformer, rfl⟩ := Option.map_eq_some_iff.mp hindex
  exact (hb.indexes hformer).erase r.id

theorem Regular.setValue (hb : b.Regular) (hv : v.Regular) (h : b.setValue i c v = .ok b') :
    b'.Regular := by
  obtain ⟨r, hr, h⟩ := Result.bind_eq_ok.mp h
  have hrow := hb.rows r (List.mem_of_getElem? (Workspace.row_eq_ok.mp hr))
  split at h
  · cases h
    refine ⟨fun s hs => ?_, fun {name index} hindex => ?_⟩
    · rcases List.mem_or_eq_of_mem_set hs with hs | rfl
      · exact hb.rows s hs
      · exact hrow.set hv
    · rw [Maps.getElem?_modify] at hindex
      split_ifs at hindex
      · obtain ⟨former, hformer, rfl⟩ := Option.map_eq_some_iff.mp hindex
        exact (hb.indexes hformer).insert r.id hv
      · exact hb.indexes hindex
  · cases h

theorem Regular.insertColumn {values : List Value} (hb : b.Regular) (hvalues : Row.Regular values)
    (h : b.insertColumn i f values = .ok b') : b'.Regular := by
  rw [WorkingCopy.insertColumn] at h
  split at h
  · cases h
  · cases h
    refine ⟨fun r hr => ?_, hb.indexes⟩
    obtain ⟨⟨s, k⟩, hs, rfl⟩ := List.mem_map.mp hr
    have hrow := hb.rows s (List.mem_of_getElem? (List.mem_zipIdx_iff_getElem?.mp hs))
    exact hrow.insertIdx (hvalues.getD k)

theorem Regular.removeColumn (hb : b.Regular) (h : b.removeColumn i = .ok b') : b'.Regular := by
  rw [WorkingCopy.removeColumn] at h
  split at h
  · cases h
  · cases h
    refine ⟨fun r hr v hv => ?_, fun {name index} hindex => ?_⟩
    · obtain ⟨s, hs, rfl⟩ := List.mem_map.mp hr
      exact hb.rows s hs v (List.mem_of_mem_eraseIdx hv)
    · rw [Maps.getElem?_erase] at hindex
      split_ifs at hindex
      exact hb.indexes hindex

/-- An index under another name is regular as before. -/
theorem Regular.renameColumn {former name : String} (hb : b.Regular)
    (h : b.renameColumn i former name = .ok b') : b'.Regular := by
  rw [WorkingCopy.renameColumn] at h
  split at h
  · cases h
  · cases h
    refine ⟨hb.rows, fun {k index} hindex => ?_⟩
    dsimp only at hindex
    split at hindex
    · exact hb.indexes hindex
    · next renamed hrenamed =>
      rw [Maps.getElem?_insert, Maps.getElem?_erase] at hindex
      split_ifs at hindex
      · obtain rfl := Option.some.inj hindex
        obtain ⟨hintact, henvelopes⟩ := hb.indexes hrenamed
        exact ⟨hintact, henvelopes⟩
      · exact hb.indexes hindex

end WorkingCopy

/-! ### Edits -/

/-- The values that an edit brings in or keeps are regular, and so is the index that it keeps. -/
def Edit.Regular : Edit → Prop
  | .insertRow _ _ row | .deleteRow _ _ row => Row.Regular row
  | .setValue _ _ former new => former.Regular ∧ new.Regular
  | .removeField _ _ values index => Row.Regular values ∧ ∀ x ∈ index, x.Regular
  | .addField _ _ | .renameField _ _ _ => True

namespace Edit

variable {e : Edit} {b b' : WorkingCopy}

theorem Regular.apply (he : e.Regular) (hb : b.Regular) (h : e.apply b = .ok b') :
    b'.Regular := by
  cases e with
  | insertRow => exact hb.insertRow he h
  | deleteRow => exact hb.removeRow h
  | setValue => exact hb.setValue he.2 h
  | addField => exact hb.insertColumn (fun _ hv => absurd hv List.not_mem_nil) h
  | removeField => exact hb.removeColumn h
  | renameField => exact hb.renameColumn h

theorem Regular.revert (he : e.Regular) (hb : b.Regular) (h : e.revert b = .ok b') :
    b'.Regular := by
  cases e with
  | insertRow => exact hb.removeRow h
  | deleteRow => exact hb.insertRow he h
  | setValue => exact hb.setValue he.1 h
  | addField => exact hb.removeColumn h
  | renameField => exact hb.renameColumn h
  | removeField i f values index =>
    obtain ⟨hvalues, hindex⟩ := he
    obtain ⟨a, ha, h⟩ := Result.bind_eq_ok.mp h
    have hcolumn := hb.insertColumn hvalues ha
    cases index with
    | none =>
      cases h
      exact hcolumn
    | some x =>
      cases h
      refine ⟨hcolumn.rows, fun {name y} hy => ?_⟩
      rw [Maps.getElem?_insert] at hy
      split_ifs at hy
      · exact Option.some.inj hy ▸ hindex x rfl
      · exact hcolumn.indexes hy

end Edit

/-! ### Workspaces -/

/-- The copy and all edits of the history are regular. -/
structure Workspace.Regular (w : Workspace) : Prop where
  copy : w.copy.Regular
  edits : ∀ e ∈ w.undo ++ w.redo, e.Regular

namespace Workspace

variable {w w' : Workspace} {e : Edit} {i c : Nat} {row : Row} {id : RowId} {v : Value}

/-- A workspace over regular rows is regular, if the standing indexes on existing fields are. -/
theorem regular_ofRows {schema : Schema} {rows : List Row} {standing : TableIndexes}
    (hrows : ∀ row ∈ rows, Row.Regular row)
    (hindexes : ∀ {name : String} {index : ColumnIndex}, schema.hasField name = true →
      standing[name]? = some index → index.Regular) :
    (ofRows schema rows standing).Regular := by
  refine ⟨⟨fun r hr => ?_, fun {name index} h => ?_⟩, fun e he => absurd he List.not_mem_nil⟩
  · obtain ⟨⟨row, k⟩, hrow, rfl⟩ := List.mem_map.mp hr
    exact hrows row (List.mem_of_getElem? (List.mem_zipIdx_iff_getElem?.mp hrow))
  · change (standing.filter fun name _ => schema.hasField name)[name]? = some index at h
    rw [Std.ExtTreeMap.getElem?_filter', Option.filter_eq_some_iff] at h
    exact hindexes h.2 h.1

theorem Regular.perform (hw : w.Regular) (he : e.Regular) (h : w.perform e = .ok w') :
    w'.Regular := by
  obtain ⟨b, hb, rfl⟩ := perform_eq_ok h
  refine ⟨he.apply hw.copy hb, fun d hd => ?_⟩
  rw [List.append_nil, List.mem_cons] at hd
  rcases hd with rfl | hd
  · exact he
  · exact hw.edits d (List.mem_append_left _ hd)

theorem Regular.insertRowAt (hw : w.Regular) (hrow : Row.Regular row)
    (h : w.insertRowAt i row = .ok (w', id)) : w'.Regular := by
  obtain ⟨-, -, -, v, hv, rfl⟩ := insertRowAt_eq_ok h
  obtain ⟨⟨hrows, hindexes⟩, hedits⟩ := hw.perform (e := .insertRow i w.copy.nextId row) hrow hv
  exact ⟨⟨hrows, hindexes⟩, hedits⟩

theorem Regular.deleteRow (hw : w.Regular) (h : w.deleteRow i = .ok w') : w'.Regular := by
  obtain ⟨r, hr, h⟩ := deleteRow_eq_ok h
  exact hw.perform (e := .deleteRow i r.id r.values)
    (hw.copy.rows r (List.mem_of_getElem? hr)) h

theorem Regular.setValue (hw : w.Regular) (hv : v.Regular) (h : w.setValue i c v = .ok w') :
    w'.Regular := by
  obtain ⟨r, former, hr, hformer, -, h⟩ := setValue_eq_ok h
  have hrow := hw.copy.rows r (List.mem_of_getElem? hr)
  exact hw.perform (e := .setValue i c former v)
    ⟨hrow former (List.mem_of_getElem? hformer), hv⟩ h

/-- The values of a removed field are kept, and its index is. -/
theorem Regular.removeField (hw : w.Regular) (h : w.removeField i = .ok w') : w'.Regular := by
  obtain ⟨f, -, h⟩ := removeField_eq_ok h
  refine hw.perform (e := .removeField i f _ w.copy.indexes[f.name]?) ⟨fun v hv => ?_, ?_⟩ h
  · obtain ⟨r, hr, rfl⟩ := List.mem_map.mp hv
    exact (hw.copy.rows r hr).getD i
  · exact fun x hx => hw.copy.indexes hx

theorem Regular.undoLast (hw : w.Regular) (h : w.undoLast = .ok (some w')) : w'.Regular := by
  obtain ⟨e, b, hb, hundo, hw'⟩ := undoLast_eq_some h
  have hedits := hw.edits
  rw [hundo] at hedits
  have he : e.Regular := hedits e List.mem_cons_self
  rw [hw']
  exact ⟨he.revert hw.copy hb, fun d hd => hedits d (List.perm_middle.mem_iff.mp hd)⟩

theorem Regular.redoLast (hw : w.Regular) (h : w.redoLast = .ok (some w')) : w'.Regular := by
  obtain ⟨e, b, hb, hredo, hw'⟩ := redoLast_eq_some h
  have hedits := hw.edits
  rw [hredo] at hedits
  have he : e.Regular := hedits e List.mem_append_cons_self
  rw [hw']
  exact ⟨he.apply hw.copy hb, fun d hd => hedits d (List.perm_middle.mem_iff.mpr hd)⟩

end Workspace

/-! ### Sessions -/

/-- The values that a request brings in are regular. -/
def EditRequest.Regular : EditRequest → Prop
  | insertRow values | insertRowAt _ values => Row.Regular values
  | setValue _ _ v => v.Regular
  | _ => True

namespace EditSession

variable {db db' : Database} {former e e₁ f : EditSession} {source : Source} {w w₁ : Workspace}
  {op : EditRequest} {reply : EditReply} {P : EditRequest → Prop}

/-- What is answered to a regular request leaves a regular workspace, unless the session is
closed. -/
theorem regular_of_run (hw : e.workspace? = some w) (hregular : w.Regular) (hop : op.Regular)
    (h : e.run db op = .ok (db', f, reply)) (hopen : f.workspace?.isSome = true) :
    ∃ w', f.workspace? = some w' ∧ w'.Regular := by
  obtain hstep | rfl := isStep_or_eq hw h hopen
  case inr => exact ⟨w, hw, hregular⟩
  cases op with
  | insertRow row =>
    obtain ⟨w', _, hw', rfl, -⟩ := numbered_eq_ok (m := fun w => w.insertRow row) hw h
    exact ⟨w', rfl, hregular.insertRowAt hop hw'⟩
  | insertRowAt i row =>
    obtain ⟨w', _, hw', rfl, -⟩ := numbered_eq_ok (m := fun w => w.insertRowAt i row) hw h
    exact ⟨w', rfl, hregular.insertRowAt hop hw'⟩
  | insertBlankRow =>
    obtain ⟨w', _, hw', rfl, -⟩ := numbered_eq_ok (m := fun w => w.insertBlankRow) hw h
    exact ⟨w', rfl, hregular.insertRowAt (Row.regular_replicate _) hw'⟩
  | insertBlankRowAt i =>
    obtain ⟨w', _, hw', rfl, -⟩ := numbered_eq_ok (m := fun w => w.insertBlankRowAt i) hw h
    exact ⟨w', rfl, hregular.insertRowAt (Row.regular_replicate _) hw'⟩
  | deleteRow i =>
    obtain ⟨w', hw', rfl, -⟩ := done_eq_ok (m := fun w => w.deleteRow i) hw h
    exact ⟨w', rfl, hregular.deleteRow hw'⟩
  | setValue i c v =>
    obtain ⟨w', hw', rfl, -⟩ := done_eq_ok (m := fun w => w.setValue i c v) hw h
    exact ⟨w', rfl, hregular.setValue hop hw'⟩
  | addField field =>
    obtain ⟨w', _, hw', rfl, -⟩ := numbered_eq_ok (m := fun w => w.addField field) hw h
    obtain ⟨-, hperform, -⟩ := Workspace.addField_eq_ok hw'
    exact ⟨w', rfl, hregular.perform (e := .addField _ field) trivial hperform⟩
  | removeField i =>
    obtain ⟨w', hw', rfl, -⟩ := done_eq_ok (m := fun w => w.removeField i) hw h
    exact ⟨w', rfl, hregular.removeField hw'⟩
  | renameField i name =>
    obtain ⟨w', hw', rfl, -⟩ := done_eq_ok (m := fun w => w.renameField i name) hw h
    obtain ⟨_, -, -, hperform⟩ := Workspace.renameField_eq_ok hw'
    exact ⟨w', rfl, hregular.perform (e := .renameField i _ name) trivial hperform⟩
  | undo =>
    obtain ⟨-, rfl, -⟩ | ⟨w', hw', rfl, -⟩ := history_eq_ok (m := Workspace.undoLast) hw h
    · exact ⟨w, hw, hregular⟩
    · exact ⟨w', rfl, hregular.undoLast hw'⟩
  | redo =>
    obtain ⟨-, rfl, -⟩ | ⟨w', hw', rfl, -⟩ := history_eq_ok (m := Workspace.redoLast) hw h
    · exact ⟨w, hw, hregular⟩
    · exact ⟨w', rfl, hregular.redoLast hw'⟩
  | _ => simp [EditRequest.IsStep, EditRequest.IsChange] at hstep

/-- A session that another one becomes by requests with a property, answered or refused, as long as
it stays open. -/
inductive ReachesBy (P : EditRequest → Prop) (e : EditSession) : EditSession → Prop
  | refl : ReachesBy P e e
  | step {f : EditSession} (db : Database) {op : EditRequest} : ReachesBy P e f → P op →
      (f.perform db op).2.1.workspace?.isSome = true → ReachesBy P e (f.perform db op).2.1

theorem ReachesBy.reaches (h : e₁.ReachesBy P e) : e₁.Reaches e := by
  induction h with
  | refl => exact .refl
  | step db _ _ hopen ih => exact .step db _ ih hopen

/-- Regular requests leave a session regular that was so. -/
theorem ReachesBy.exists_regular (h : e₁.ReachesBy EditRequest.Regular e)
    (hw₁ : e₁.workspace? = some w₁) (hregular₁ : w₁.Regular) :
    ∃ w, e.workspace? = some w ∧ w.Regular := by
  induction h with
  | refl => exact ⟨w₁, hw₁, hregular₁⟩
  | @step f d op _ hop hopen ih =>
    obtain ⟨w, hw, hregular⟩ := ih
    rw [perform] at hopen ⊢
    cases hrun : f.run d op with
    | error err => exact ⟨w, hw, hregular⟩
    | ok result =>
      rw [hrun] at hopen
      exact regular_of_run hw hregular hop hrun hopen

/-- The session was opened on a proper source with regular rows, while the standing indexes on its
fields served these rows and were intact. -/
structure OpenedRegular (db : Database) (former e : EditSession) (source : Source) : Prop
    extends OpenedOn db former e source where
  rows : ∀ row ∈ source.rows, Row.Regular row
  intact : ∀ {name : String} {index : ColumnIndex}, source.schema.hasField name = true →
    (db.indexes.ofTable former.name)[name]? = some index → index.Intact

theorem OpenedRegular.exists_regular (h : OpenedRegular db former e source) :
    ∃ w, e.workspace? = some w ∧ w.Regular := by
  obtain ⟨other, -, hstored, rfl⟩ := begin_eq_ok h.opened
  obtain rfl := Option.some.inj (h.stored.symm.trans hstored)
  refine ⟨_, rfl, Workspace.regular_ofRows h.rows fun hname hindex => ?_⟩
  refine (h.standing hname hindex).regular (h.intact hname hindex) fun r hr => ?_
  have hmem : r.values ∈ (NumberedRow.byPosition source.rows).map (·.values) :=
    List.mem_map_of_mem hr
  rw [NumberedRow.values_byPosition] at hmem
  exact h.rows _ hmem

end EditSession

end SpatialStore
