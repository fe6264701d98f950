import SpatialStore.Proofs.Editing.Workspace

/-!
# Ids of rows through a history

What an edit does to the ids of the rows depends on nothing but the ids (`Edit.renumber`), and so
does taking it back (`Edit.restore`). An edit *numbers* rows when it puts a row in under an id that
no other row has, or takes out the row that it names (`Edit.Numbers`); such an edit can be taken
back, and keeps the ids different.

A workspace is *numbered* when the edits that can be undone led to its ids in this way, those that
can be made again lead on from them, and all ids that there are, in rows and in edits, were given
out before (`Workspace.Numbered`). The next id is never set back, so a row that comes back has an id
that no new row can have got meanwhile. Nothing is assumed of the stored rows or of the indexes: a
workspace is numbered from the beginning.
-/

namespace SpatialStore

/-! ### Working copies -/

namespace WorkingCopy

variable {b b' : WorkingCopy} {i c : Nat} {id : RowId} {row : Row} {v : Value} {f : Field}

/-- The ids of the rows, by their positions. -/
def ids (b : WorkingCopy) : List RowId := b.rows.map (·.id)

theorem insertRow_eq_ok (h : b.insertRow i id row = .ok b') :
    b'.rows = b.rows.insertIdx i ⟨id, row⟩ ∧ b'.nextId = b.nextId := by
  rw [insertRow] at h
  split_ifs at h
  cases h
  exact ⟨rfl, rfl⟩

theorem removeRow_eq_ok (h : b.removeRow i = .ok b') :
    b'.rows = b.rows.eraseIdx i ∧ b'.nextId = b.nextId := by
  obtain ⟨r, -, h⟩ := Result.bind_eq_ok.mp h
  cases h
  exact ⟨rfl, rfl⟩

theorem setValue_eq_ok (h : b.setValue i c v = .ok b') :
    ∃ r, b.rows[i]? = some r ∧ b'.rows = b.rows.set i { r with values := r.values.set c v } ∧
      b'.nextId = b.nextId := by
  obtain ⟨r, hr, h⟩ := Result.bind_eq_ok.mp h
  split at h
  · cases h
    exact ⟨r, Workspace.row_eq_ok.mp hr, rfl, rfl⟩
  · cases h

theorem ids_insertRow (h : b.insertRow i id row = .ok b') :
    b'.ids = b.ids.insertIdx i id ∧ b'.nextId = b.nextId := by
  obtain ⟨hrows, hnext⟩ := insertRow_eq_ok h
  rw [ids, hrows, List.map_insertIdx]
  exact ⟨rfl, hnext⟩

theorem ids_removeRow (h : b.removeRow i = .ok b') :
    b'.ids = b.ids.eraseIdx i ∧ b'.nextId = b.nextId := by
  obtain ⟨hrows, hnext⟩ := removeRow_eq_ok h
  rw [ids, hrows, ← List.eraseIdx_map]
  exact ⟨rfl, hnext⟩

theorem ids_setValue (h : b.setValue i c v = .ok b') : b'.ids = b.ids ∧ b'.nextId = b.nextId := by
  obtain ⟨r, hr, hrows, hnext⟩ := setValue_eq_ok h
  obtain ⟨hlt, rfl⟩ := List.getElem?_eq_some_iff.mp hr
  have hlt' : i < (b.rows.map (·.id)).length := by rwa [List.length_map]
  have hset := List.set_getElem_self hlt'
  rw [List.getElem_map] at hset
  rw [ids, hrows, List.map_set]
  exact ⟨hset, hnext⟩

theorem ids_insertColumn {values : List Value} (h : b.insertColumn i f values = .ok b') :
    b'.ids = b.ids ∧ b'.nextId = b.nextId := by
  rw [insertColumn] at h
  split at h
  · cases h
  · cases h
    refine ⟨?_, rfl⟩
    rw [ids, List.map_map, ids]
    conv_rhs => rw [← List.zipIdx_map_fst 0 b.rows, List.map_map]
    rfl

theorem ids_removeColumn (h : b.removeColumn i = .ok b') :
    b'.ids = b.ids ∧ b'.nextId = b.nextId := by
  rw [removeColumn] at h
  split at h
  · cases h
  · cases h
    rw [ids, List.map_map]
    exact ⟨rfl, rfl⟩

theorem ids_renameColumn {former name : String} (h : b.renameColumn i former name = .ok b') :
    b'.ids = b.ids ∧ b'.nextId = b.nextId := by
  rw [renameColumn] at h
  split at h
  · cases h
  · cases h
    exact ⟨rfl, rfl⟩

end WorkingCopy

/-! ### Edits -/

namespace Edit

variable {e : Edit} {b b' : WorkingCopy} {ids : List RowId} {n id : RowId}

/-- The row that an edit puts in or takes out. -/
def id? : Edit → Option RowId
  | .insertRow _ id _ | .deleteRow _ id _ => some id
  | _ => none

/-- The ids of the rows after an edit. -/
def renumber (ids : List RowId) : Edit → List RowId
  | .insertRow i id _ => ids.insertIdx i id
  | .deleteRow i _ _ => ids.eraseIdx i
  | _ => ids

/-- The ids of the rows before an edit, from those after it. -/
def restore (ids : List RowId) : Edit → List RowId
  | .insertRow i _ _ => ids.eraseIdx i
  | .deleteRow i id _ => ids.insertIdx i id
  | _ => ids

/-- A row is put in under an id that is not in use, or the row with the id is taken out. -/
def Numbers (ids : List RowId) : Edit → Prop
  | .insertRow i id _ => i ≤ ids.length ∧ id ∉ ids
  | .deleteRow i id _ => ids[i]? = some id
  | _ => True

/-- An edit that puts in no row and takes none out. -/
theorem numbers_of_id? (h : e.id? = none) (ids : List RowId) (n : RowId) :
    e.Numbers ids ∧ e.renumber ids = ids ∧ e.Below n := by
  cases e with
  | insertRow | deleteRow => cases h
  | _ => exact ⟨trivial, rfl, trivial⟩

theorem ids_apply (h : e.apply b = .ok b') :
    b'.ids = e.renumber b.ids ∧ b'.nextId = b.nextId := by
  cases e with
  | insertRow => exact WorkingCopy.ids_insertRow h
  | deleteRow => exact WorkingCopy.ids_removeRow h
  | setValue => exact WorkingCopy.ids_setValue h
  | addField => exact WorkingCopy.ids_insertColumn h
  | removeField => exact WorkingCopy.ids_removeColumn h
  | renameField => exact WorkingCopy.ids_renameColumn h

theorem ids_revert (h : e.revert b = .ok b') :
    b'.ids = e.restore b.ids ∧ b'.nextId = b.nextId := by
  cases e with
  | insertRow => exact WorkingCopy.ids_removeRow h
  | deleteRow => exact WorkingCopy.ids_insertRow h
  | setValue => exact WorkingCopy.ids_setValue h
  | addField => exact WorkingCopy.ids_removeColumn h
  | renameField => exact WorkingCopy.ids_renameColumn h
  | removeField i f values index =>
    obtain ⟨c, hc, h⟩ := Result.bind_eq_ok.mp h
    have hids := WorkingCopy.ids_insertColumn hc
    -- the index that comes back is no matter of the ids
    cases index <;>
    · cases h
      exact hids

theorem restore_renumber (h : e.Numbers ids) : e.restore (e.renumber ids) = ids := by
  cases e with
  | insertRow => exact List.eraseIdx_insertIdx_self _
  | deleteRow =>
    obtain ⟨hlt, rfl⟩ := List.getElem?_eq_some_iff.mp h
    exact List.insertIdx_eraseIdx_getElem hlt
  | _ => rfl

theorem nodup_renumber (hids : ids.Nodup) (h : e.Numbers ids) : (e.renumber ids).Nodup := by
  cases e with
  | insertRow =>
    exact (List.perm_insertIdx _ _ h.1).nodup_iff.mpr (List.nodup_cons.mpr ⟨h.2, hids⟩)
  | deleteRow => exact hids.sublist (List.eraseIdx_sublist _ _)
  | _ => exact hids

theorem Below.lt (h : e.Below n) (hid : e.id? = some id) : id < n := by
  cases e with
  | insertRow | deleteRow =>
    cases hid
    exact h
  | _ => cases hid

private theorem forall_insertIdx {P : RowId → Prop} {i : Nat} (hid : P id)
    (hids : ∀ id ∈ ids, P id) : ∀ k ∈ ids.insertIdx i id, P k := by
  intro k hk
  rcases List.eq_or_mem_of_mem_insertIdx hk with rfl | hk
  · exact hid
  · exact hids k hk

private theorem forall_eraseIdx {P : RowId → Prop} {i : Nat} (hids : ∀ id ∈ ids, P id) :
    ∀ k ∈ ids.eraseIdx i, P k :=
  fun k hk => hids k (List.mem_of_mem_eraseIdx hk)

/-- Ids that were given out stay so when an edit is made. -/
theorem Below.renumber (h : e.Below n) (hids : ∀ id ∈ ids, id < n) :
    ∀ id ∈ e.renumber ids, id < n := by
  cases e with
  | insertRow => exact forall_insertIdx h hids
  | deleteRow => exact forall_eraseIdx hids
  | _ => exact hids

/-- They stay so when it is taken back. -/
theorem Below.restore (h : e.Below n) (hids : ∀ id ∈ ids, id < n) :
    ∀ id ∈ e.restore ids, id < n := by
  cases e with
  | insertRow => exact forall_eraseIdx hids
  | deleteRow => exact forall_insertIdx h hids
  | _ => exact hids

/-- The ids after a step in the history: all stay, or one goes, or one comes back that was not in
use. -/
inductive Renumbered (ids : List RowId) : List RowId → Prop
  | same : Renumbered ids ids
  | gone (i : Nat) : Renumbered ids (ids.eraseIdx i)
  | back {i : Nat} {id : RowId} : id ∉ ids → Renumbered ids (ids.insertIdx i id)

theorem Numbers.renumbered (h : e.Numbers ids) : Renumbered ids (e.renumber ids) := by
  cases e with
  | insertRow => exact .back h.2
  | deleteRow i => exact .gone i
  | _ => exact .same

theorem Numbers.restored (hids : ids.Nodup) (h : e.Numbers ids) :
    Renumbered (e.renumber ids) ids := by
  cases e with
  | insertRow i id row =>
    have hgone : Renumbered (ids.insertIdx i id) ((ids.insertIdx i id).eraseIdx i) := .gone i
    rwa [List.eraseIdx_insertIdx_self] at hgone
  | deleteRow i id row =>
    obtain ⟨hlt, rfl⟩ := List.getElem?_eq_some_iff.mp h
    have hperm : (ids[i] :: ids.eraseIdx i).Perm ids := List.getElem_cons_eraseIdx_perm hlt
    have hback : Renumbered (ids.eraseIdx i) ((ids.eraseIdx i).insertIdx i ids[i]) :=
      .back (List.nodup_cons.mp (hperm.nodup_iff.mpr hids)).1
    rwa [List.insertIdx_eraseIdx_getElem hlt] at hback
  | _ => exact .same

/-- Edits, the latest first, led to these ids from others that were different. -/
def LedTo : List Edit → List RowId → Prop
  | [], ids => ids.Nodup
  | e :: es, ids => ∃ former, e.Numbers former ∧ e.renumber former = ids ∧ LedTo es former

/-- Edits can be made one after the other. -/
def LeadOn : List RowId → List Edit → Prop
  | _, [] => True
  | ids, e :: es => e.Numbers ids ∧ LeadOn (e.renumber ids) es

theorem LedTo.nodup {es : List Edit} (h : LedTo es ids) : ids.Nodup := by
  induction es generalizing ids with
  | nil => exact h
  | cons e es ih =>
    obtain ⟨former, he, rfl, hformer⟩ := h
    exact nodup_renumber (ih hformer) he

end Edit

/-! ### Workspaces -/

namespace Workspace

open Edit (Renumbered)

/-- The history led to the ids of the rows and leads on from them, and all ids were given out. -/
structure Numbered (w : Workspace) : Prop where
  past : Edit.LedTo w.undo w.copy.ids
  future : Edit.LeadOn w.copy.ids w.redo
  rows : ∀ id ∈ w.copy.ids, id < w.copy.nextId
  edits : ∀ e ∈ w.undo ++ w.redo, e.Below w.copy.nextId

variable {w w' : Workspace} {e : Edit} {n : RowId}

theorem Numbered.nodup (hw : w.Numbered) : w.copy.ids.Nodup := hw.past.nodup

theorem numbered_ofRows (schema : Schema) (rows : List Row) (standing : TableIndexes) :
    (ofRows schema rows standing).Numbered := by
  have hids : (ofRows schema rows standing).copy.ids = List.range rows.length :=
    NumberedRow.ids_byPosition rows
  refine ⟨?_, trivial, fun id hid => ?_, fun e he => absurd he List.not_mem_nil⟩
  · exact hids ▸ List.nodup_range
  · exact List.mem_range.mp (hids ▸ hid)

/-- The next id, like every one after it, is that of no row and occurs in no edit. -/
theorem Numbered.nextId_new (hw : w.Numbered) :
    w.copy.nextId ∉ w.copy.ids ∧ ∀ e ∈ w.undo ++ w.redo, e.id? ≠ some w.copy.nextId :=
  ⟨fun hmem => Nat.lt_irrefl _ (hw.rows _ hmem),
    fun e he hid => Nat.lt_irrefl _ ((hw.edits e he).lt hid)⟩

/-- An edit is performed, and ids can be given out with it. -/
theorem Numbered.perform (hw : w.Numbered) (he : e.Numbers w.copy.ids) (hn : w.copy.nextId ≤ n)
    (hbelow : e.Below n) (h : w.perform e = .ok w') :
    Numbered { w' with copy := { w'.copy with nextId := n } } := by
  obtain ⟨b, hb, rfl⟩ := perform_eq_ok h
  obtain ⟨hids, -⟩ := Edit.ids_apply hb
  refine ⟨⟨w.copy.ids, he, hids.symm, hw.past⟩, trivial, ?_, fun d hd => ?_⟩
  · change ∀ id ∈ b.ids, id < n
    rw [hids]
    exact hbelow.renumber fun id hid => Nat.lt_of_lt_of_le (hw.rows id hid) hn
  · rw [List.append_nil, List.mem_cons] at hd
    rcases hd with rfl | hd
    · exact hbelow
    · exact (hw.edits d (List.mem_append_left _ hd)).mono hn

/-- An edit that needs no new id. -/
theorem Numbered.perform_same (hw : w.Numbered) (he : e.Numbers w.copy.ids)
    (hbelow : e.Below w.copy.nextId) (h : w.perform e = .ok w') :
    w'.Numbered ∧ w'.copy.nextId = w.copy.nextId := by
  have hnumbered := hw.perform he (Nat.le_refl _) hbelow h
  obtain ⟨b, hb, rfl⟩ := perform_eq_ok h
  obtain ⟨-, hnext⟩ := Edit.ids_apply hb
  rw [← hnext] at hnumbered
  exact ⟨hnumbered, hnext⟩

/-- A new row is put in under an id that is new. -/
theorem Numbered.insertRowAt {i : Nat} {row : Row} {id : RowId} (hw : w.Numbered)
    (h : w.insertRowAt i row = .ok (w', id)) :
    w'.Numbered ∧ w'.copy.nextId = w.copy.nextId + 1 ∧ id = w.copy.nextId ∧
      i ≤ w.copy.rows.length ∧ w'.copy.rows = w.copy.rows.insertIdx i ⟨id, row⟩ := by
  obtain ⟨hi, -, rfl, v, hv, rfl⟩ := insertRowAt_eq_ok h
  have hi' : i ≤ w.copy.ids.length := by rwa [WorkingCopy.ids, List.length_map]
  have hnumbered := hw.perform (e := .insertRow i w.copy.nextId row) ⟨hi', hw.nextId_new.1⟩
    (Nat.le_succ _) (Nat.lt_succ_self _) hv
  obtain ⟨b, hb, rfl⟩ := perform_eq_ok hv
  exact ⟨hnumbered, rfl, rfl, hi, (WorkingCopy.insertRow_eq_ok hb).1⟩

/-- The other rows stay when one is taken out. -/
theorem Numbered.deleteRow {i : Nat} (hw : w.Numbered) (h : w.deleteRow i = .ok w') :
    w'.Numbered ∧ w'.copy.nextId = w.copy.nextId ∧ i < w.copy.rows.length ∧
      w'.copy.rows = w.copy.rows.eraseIdx i := by
  obtain ⟨r, hr, h⟩ := deleteRow_eq_ok h
  have hid : w.copy.ids[i]? = some r.id := by rw [WorkingCopy.ids, List.getElem?_map, hr]; rfl
  obtain ⟨hnumbered, hnext⟩ := hw.perform_same (e := .deleteRow i r.id r.values) hid
    (hw.rows r.id (List.mem_of_getElem? hid)) h
  obtain ⟨b, hb, rfl⟩ := perform_eq_ok h
  exact ⟨hnumbered, hnext, (List.getElem?_eq_some_iff.mp hr).1, (WorkingCopy.removeRow_eq_ok hb).1⟩

/-- A row keeps its id when one of its values is replaced. -/
theorem Numbered.setValue {i c : Nat} {v : Value} (hw : w.Numbered)
    (h : w.setValue i c v = .ok w') :
    w'.Numbered ∧ w'.copy.nextId = w.copy.nextId ∧ ∃ r, w.copy.rows[i]? = some r ∧
      w'.copy.rows = w.copy.rows.set i { r with values := r.values.set c v } := by
  obtain ⟨-, former, -, -, -, h⟩ := setValue_eq_ok h
  obtain ⟨hnumbered, hnext⟩ := hw.perform_same (e := .setValue i c former v) trivial trivial h
  obtain ⟨b, hb, rfl⟩ := perform_eq_ok h
  obtain ⟨r, hr, hrows, -⟩ := WorkingCopy.setValue_eq_ok hb
  exact ⟨hnumbered, hnext, r, hr, hrows⟩

/-- Edits of columns leave the ids alone. -/
theorem Numbered.perform_column (hw : w.Numbered) (he : e.id? = none) (h : w.perform e = .ok w') :
    w'.Numbered ∧ w'.copy.nextId = w.copy.nextId ∧ w'.copy.ids = w.copy.ids := by
  obtain ⟨hnumbers, hsame, hbelow⟩ := Edit.numbers_of_id? he w.copy.ids w.copy.nextId
  obtain ⟨hnumbered, hnext⟩ := hw.perform_same hnumbers hbelow h
  obtain ⟨b, hb, rfl⟩ := perform_eq_ok h
  exact ⟨hnumbered, hnext, (Edit.ids_apply hb).1.trans hsame⟩

/-- Undoing goes back to the ids before the latest edit. -/
theorem Numbered.undoLast (hw : w.Numbered) (h : w.undoLast = .ok (some w')) :
    w'.Numbered ∧ w'.copy.nextId = w.copy.nextId ∧ Renumbered w.copy.ids w'.copy.ids := by
  obtain ⟨e, b, hb, hundo, hw'⟩ := undoLast_eq_some h
  obtain ⟨hids, hnext⟩ := Edit.ids_revert hb
  obtain ⟨former, he, hformer, hpast⟩ := hundo ▸ hw.past
  obtain rfl : former = b.ids := by rw [hids, ← hformer, Edit.restore_renumber he]
  have hedits : ∀ d ∈ w'.undo ++ e :: w.redo, d ∈ w.undo ++ w.redo := by
    rw [hundo]
    exact fun d hd => List.perm_middle.mem_iff.mp hd
  have hrows : ∀ id ∈ b.ids, id < w.copy.nextId :=
    hids ▸ (hw.edits e (hedits e (by simp))).restore hw.rows
  rw [hw']
  refine ⟨⟨hpast, ⟨he, hformer ▸ hw.future⟩, ?_, fun d hd => ?_⟩, hnext, ?_⟩
  · exact hnext ▸ hrows
  · exact hnext ▸ hw.edits d (hedits d hd)
  · exact hformer ▸ he.restored hpast.nodup

/-- Redoing goes on to the ids after the edit that was undone last. -/
theorem Numbered.redoLast (hw : w.Numbered) (h : w.redoLast = .ok (some w')) :
    w'.Numbered ∧ w'.copy.nextId = w.copy.nextId ∧ Renumbered w.copy.ids w'.copy.ids := by
  obtain ⟨e, b, hb, hredo, hw'⟩ := redoLast_eq_some h
  obtain ⟨hids, hnext⟩ := Edit.ids_apply hb
  obtain ⟨he, hfuture⟩ := hredo ▸ hw.future
  have hedits : ∀ d ∈ e :: w.undo ++ w'.redo, d ∈ w.undo ++ w.redo := by
    rw [hredo]
    exact fun d hd => List.perm_middle.mem_iff.mpr hd
  have hrows : ∀ id ∈ b.ids, id < w.copy.nextId :=
    hids ▸ (hw.edits e (hedits e (by simp))).renumber hw.rows
  rw [hw']
  refine ⟨⟨⟨w.copy.ids, he, hids.symm, hw.past⟩, ?_, ?_, fun d hd => ?_⟩, hnext, ?_⟩
  · exact hids ▸ hfuture
  · exact hnext ▸ hrows
  · exact hnext ▸ hw.edits d (hedits d hd)
  · exact hids ▸ he.renumbered

end Workspace

end SpatialStore
