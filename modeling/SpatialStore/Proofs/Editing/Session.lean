import SpatialStore.Proofs.Editing.Commit
import SpatialStore.Proofs.Editing.Workspace
import SpatialStore.Proofs.Table.Source

/-!
# What holds of every open session

A session that is opened on a proper source, with standing indexes that serve its rows, stays sound
through whatever is asked of it until it is closed, be it answered or refused
(`Reaches.exists_sound`). So its working indexes follow every edit (`indexes_serve`), and undo and
redo walk an exact history (`history_exact`).
-/

namespace SpatialStore

/-- One of the nine requests that change a table. -/
def EditRequest.IsChange : EditRequest → Prop
  | insertRow _ | insertRowAt _ _ | insertBlankRow | insertBlankRowAt _ | deleteRow _
  | setValue _ _ _ | addField _ | removeField _ | renameField _ _ => True
  | _ => False

/-- A request that reads a workspace. -/
def EditRequest.IsRead : EditRequest → Prop
  | rowCount | schema | fieldIndex _ | row _ | value _ _ | isNull _ _ | rowId _ | positionOf _
  | rowOf _ | extent | query _ => True
  | _ => False

/-- A request that takes a workspace to another one: a change, or a step in the history. -/
def EditRequest.IsStep (op : EditRequest) : Prop := op.IsChange ∨ op = .undo ∨ op = .redo

namespace EditSession

/-- The session was opened on a proper source, while the standing indexes on its fields served the
stored rows. -/
structure OpenedOn (db : Database) (former e : EditSession) (source : Source) : Prop where
  opened : former.begin db = .ok e
  stored : db.sources[former.source]? = some source
  proper : source.Proper
  standing : ∀ {name : String} {index : ColumnIndex}, source.schema.hasField name = true →
    (db.indexes.ofTable former.name)[name]? = some index →
    index.Serves source.schema (NumberedRow.byPosition source.rows) name

/-- A session that another one becomes by any requests, answered or refused, as long as it stays
open. What happens to the database in the meantime does not matter. -/
inductive Reaches (e : EditSession) : EditSession → Prop
  | refl : Reaches e e
  | step {f : EditSession} (db : Database) (op : EditRequest) : Reaches e f →
      (f.perform db op).2.1.workspace?.isSome = true → Reaches e (f.perform db op).2.1

/-- The session after some requests, if all of them succeed. -/
def runAll (db : Database) (e : EditSession) (ops : List EditRequest) :
    Except EditError EditSession :=
  ops.foldlM (fun e op => (e.run db op).map (·.2.1)) e

variable {db db' : Database} {former e f : EditSession} {source : Source} {w : Workspace}
  {op : EditRequest} {reply : EditReply}

theorem OpenedOn.exists_sound (h : OpenedOn db former e source) :
    ∃ w, e.workspace? = some w ∧ w.Sound := by
  obtain ⟨other, -, hstored, rfl⟩ := begin_eq_ok h.opened
  obtain rfl := Option.some.inj (h.stored.symm.trans hstored)
  exact ⟨_, rfl, Workspace.sound_ofRows h.proper.schema h.proper.width h.standing⟩

/-- A table of one column. -/
def sampleSource : Source := ⟨"t", ⟨[⟨"a", .int, []⟩]⟩, [[.int 1], [.null]], true, 0⟩

/-- A database with an index on the column. -/
def sampleDatabase : Database :=
  let index := ColumnIndex.build "a" .attribute {} (ColumnIndex.column sampleSource.rows 0)
  ⟨{}, [sampleSource], ∅, ⟨(∅ : Std.ExtTreeMap String TableIndexes).insert "t"
    ((∅ : TableIndexes).insert "a" index)⟩⟩

/-- A session that was just opened on the table. -/
def sampleSession : EditSession :=
  (create "t" 0).withWorkspace (.ofRows sampleSource.schema sampleSource.rows
    (sampleDatabase.indexes.ofTable "t"))

theorem openedOn_sample :
    OpenedOn sampleDatabase (create "t" 0) sampleSession sampleSource := by
  refine ⟨rfl, rfl, ⟨by decide, by decide⟩, fun {name index} hname hindex => ?_⟩
  obtain rfl : name = "a" := by
    simpa [sampleSource, Schema.names] using Schema.hasField_iff.mp hname
  have hget : (sampleDatabase.indexes.ofTable "t")["a"]? = some (ColumnIndex.build "a" .attribute {}
      (ColumnIndex.column sampleSource.rows 0)) := by
    simp [sampleDatabase, IndexRegistry.ofTable]
  obtain rfl := Option.some.inj (hget.symm.trans hindex)
  exact ColumnIndex.serves_build rfl .attribute {} sampleSource.rows

/-- A request that is passed on to the workspace, with a number as its reply. -/
theorem numbered_eq_ok {m : Workspace → Except EditError (Workspace × Nat)}
    (hw : e.workspace? = some w)
    (h : (do
      let (w, n) ← m (← e.workspace)
      return (db, e.withWorkspace w, EditReply.number n)) = .ok (db', f, reply)) :
    ∃ w' n, m w = .ok (w', n) ∧ f = e.withWorkspace w' ∧ reply = .number n := by
  obtain ⟨v, hv, h⟩ := Result.bind_eq_ok.mp h
  obtain rfl := Except.ok.inj ((workspace_eq_ok.mpr hw).symm.trans hv)
  obtain ⟨⟨w', n⟩, hw', h⟩ := Result.bind_eq_ok.mp h
  cases h
  exact ⟨w', n, hw', rfl, rfl⟩

/-- A request that is passed on to the workspace. -/
theorem done_eq_ok {m : Workspace → Except EditError Workspace}
    (hw : e.workspace? = some w)
    (h : (do return (db, e.withWorkspace (← m (← e.workspace)), EditReply.done)) =
      .ok (db', f, reply)) :
    ∃ w', m w = .ok w' ∧ f = e.withWorkspace w' ∧ reply = .done := by
  obtain ⟨v, hv, h⟩ := Result.bind_eq_ok.mp h
  obtain rfl := Except.ok.inj ((workspace_eq_ok.mpr hw).symm.trans hv)
  obtain ⟨w', hw', h⟩ := Result.bind_eq_ok.mp h
  cases h
  exact ⟨w', hw', rfl, rfl⟩

/-- A request that goes through the history, which may have nothing to offer. -/
theorem history_eq_ok {m : Workspace → Except EditError (Option Workspace)}
    (hw : e.workspace? = some w)
    (h : (do
      match ← m (← e.workspace) with
      | some w => return (db, e.withWorkspace w, EditReply.flag true)
      | none => return (db, e, EditReply.flag false)) = .ok (db', f, reply)) :
    m w = .ok none ∧ f = e ∧ reply = .flag false ∨
      ∃ w', m w = .ok (some w') ∧ f = e.withWorkspace w' ∧ reply = .flag true := by
  obtain ⟨v, hv, h⟩ := Result.bind_eq_ok.mp h
  obtain rfl := Except.ok.inj ((workspace_eq_ok.mpr hw).symm.trans hv)
  obtain ⟨next, hnext, h⟩ := Result.bind_eq_ok.mp h
  cases next with
  | none =>
    cases h
    exact .inl ⟨hnext, rfl, rfl⟩
  | some w' =>
    cases h
    exact .inr ⟨w', hnext, rfl, rfl⟩

/-- A request that reads the workspace gives the session back. -/
private theorem read_eq_ok {g : Workspace → EditReply}
    (h : (e.workspace >>= fun w => pure (db, e, g w)) = .ok (db', f, reply)) : f = e := by
  obtain ⟨v, -, h⟩ := Result.bind_eq_ok.mp h
  cases h
  rfl

/-- A request for something that may be missing gives the session back. -/
private theorem lookup_eq_ok {α : Type} {m : Workspace → Except EditError α} {g : α → EditReply}
    (h : (e.workspace >>= fun w => m w >>= fun a => pure (db, e, g a)) = .ok (db', f, reply)) :
    f = e := by
  obtain ⟨v, -, h⟩ := Result.bind_eq_ok.mp h
  obtain ⟨a, -, h⟩ := Result.bind_eq_ok.mp h
  cases h
  rfl

/-- A change performs an edit. -/
theorem performs_of_isChange (hw : e.workspace? = some w) (hsound : w.Sound) (hop : op.IsChange)
    (h : e.run db op = .ok (db', f, reply)) :
    ∃ ed w', f = e.withWorkspace w' ∧ w.Performs ed w' := by
  cases op with
  | insertRow row =>
    obtain ⟨w', n, hw', rfl, -⟩ := numbered_eq_ok (m := fun w => w.insertRow row) hw h
    obtain ⟨ed, hperforms⟩ := hsound.insertRowAt hw'
    exact ⟨ed, w', rfl, hperforms⟩
  | insertRowAt i row =>
    obtain ⟨w', n, hw', rfl, -⟩ := numbered_eq_ok (m := fun w => w.insertRowAt i row) hw h
    obtain ⟨ed, hperforms⟩ := hsound.insertRowAt hw'
    exact ⟨ed, w', rfl, hperforms⟩
  | insertBlankRow =>
    obtain ⟨w', n, hw', rfl, -⟩ := numbered_eq_ok (m := fun w => w.insertBlankRow) hw h
    obtain ⟨ed, hperforms⟩ := hsound.insertRowAt hw'
    exact ⟨ed, w', rfl, hperforms⟩
  | insertBlankRowAt i =>
    obtain ⟨w', n, hw', rfl, -⟩ := numbered_eq_ok (m := fun w => w.insertBlankRowAt i) hw h
    obtain ⟨ed, hperforms⟩ := hsound.insertRowAt hw'
    exact ⟨ed, w', rfl, hperforms⟩
  | deleteRow i =>
    obtain ⟨w', hw', rfl, -⟩ := done_eq_ok (m := fun w => w.deleteRow i) hw h
    obtain ⟨ed, hperforms⟩ := hsound.deleteRow hw'
    exact ⟨ed, w', rfl, hperforms⟩
  | setValue i c v =>
    obtain ⟨w', hw', rfl, -⟩ := done_eq_ok (m := fun w => w.setValue i c v) hw h
    obtain ⟨ed, hperforms⟩ := hsound.setValue hw'
    exact ⟨ed, w', rfl, hperforms⟩
  | addField field =>
    obtain ⟨w', n, hw', rfl, -⟩ := numbered_eq_ok (m := fun w => w.addField field) hw h
    obtain ⟨ed, hperforms⟩ := hsound.addField hw'
    exact ⟨ed, w', rfl, hperforms⟩
  | removeField i =>
    obtain ⟨w', hw', rfl, -⟩ := done_eq_ok (m := fun w => w.removeField i) hw h
    obtain ⟨ed, hperforms⟩ := hsound.removeField hw'
    exact ⟨ed, w', rfl, hperforms⟩
  | renameField i name =>
    obtain ⟨w', hw', rfl, -⟩ := done_eq_ok (m := fun w => w.renameField i name) hw h
    obtain ⟨ed, hperforms⟩ := hsound.renameField hw'
    exact ⟨ed, w', rfl, hperforms⟩
  | _ => exact hop.elim

/-! ### Undo and redo requests -/

theorem run_undo_none (hw : e.workspace? = some w) (h : w.undoLast = .ok none) (db : Database) :
    e.run db .undo = .ok (db, e, .flag false) := by
  rw [run, workspace_eq_ok.mpr hw]
  change (w.undoLast >>= _) = _
  rw [h]
  rfl

theorem run_undo_some (hw : e.workspace? = some w) {w' : Workspace}
    (h : w.undoLast = .ok (some w')) (db : Database) :
    e.run db .undo = .ok (db, e.withWorkspace w', .flag true) := by
  rw [run, workspace_eq_ok.mpr hw]
  change (w.undoLast >>= _) = _
  rw [h]
  rfl

theorem run_redo_none (hw : e.workspace? = some w) (h : w.redoLast = .ok none) (db : Database) :
    e.run db .redo = .ok (db, e, .flag false) := by
  rw [run, workspace_eq_ok.mpr hw]
  change (w.redoLast >>= _) = _
  rw [h]
  rfl

theorem run_redo_some (hw : e.workspace? = some w) {w' : Workspace}
    (h : w.redoLast = .ok (some w')) (db : Database) :
    e.run db .redo = .ok (db, e.withWorkspace w', .flag true) := by
  rw [run, workspace_eq_ok.mpr hw]
  change (w.redoLast >>= _) = _
  rw [h]
  rfl

/-! ### Reachable sessions -/

/-- What is answered is a step, or only reads, or closes the session. -/
theorem isStep_or_isRead_or_closed (hw : e.workspace? = some w)
    (h : e.run db op = .ok (db', f, reply)) :
    op.IsStep ∨ op.IsRead ∧ f = e ∨ (op = .commit ∨ op = .cancel) ∧ f.workspace? = none := by
  cases op with
  | insertRow | insertRowAt | insertBlankRow | insertBlankRowAt | deleteRow | setValue | addField
  | removeField | renameField => exact .inl (.inl trivial)
  | undo => exact .inl (.inr (.inl rfl))
  | redo => exact .inl (.inr (.inr rfl))
  | rowCount | schema | fieldIndex | positionOf | rowOf | extent =>
    exact .inr (.inl ⟨trivial, read_eq_ok h⟩)
  | row | value | isNull | rowId | query => exact .inr (.inl ⟨trivial, lookup_eq_ok h⟩)
  | begin =>
    obtain ⟨g, hg, h⟩ := Result.bind_eq_ok.mp h
    obtain ⟨_, hnone, -⟩ := begin_eq_ok hg
    cases hw.symm.trans hnone
  | commit =>
    obtain ⟨⟨d, g⟩, hg, h⟩ := Result.bind_eq_ok.mp h
    obtain ⟨_, -, rfl, -⟩ := commit_eq_ok hg
    cases h
    exact .inr (.inr ⟨.inl rfl, rfl⟩)
  | cancel =>
    obtain ⟨g, hg, h⟩ := Result.bind_eq_ok.mp h
    obtain ⟨_, -, hg⟩ := Result.bind_eq_ok.mp hg
    cases hg
    cases h
    exact .inr (.inr ⟨.inr rfl, rfl⟩)

/-- What leaves a session open is a step, or leaves it as it is. -/
theorem isStep_or_eq (hw : e.workspace? = some w) (h : e.run db op = .ok (db', f, reply))
    (hopen : f.workspace?.isSome = true) : op.IsStep ∨ f = e := by
  obtain hop | ⟨-, hsame⟩ | ⟨-, hclosed⟩ := isStep_or_isRead_or_closed hw h
  · exact .inl hop
  · exact .inr hsame
  · rw [hclosed] at hopen
    cases hopen

/-- A step that is answered takes the workspace a step on, or there is nothing to undo or redo. -/
theorem cases_of_isStep (hw : e.workspace? = some w) (hsound : w.Sound) (hop : op.IsStep)
    (h : e.run db op = .ok (db', f, reply)) :
    f = e ∨ ∃ w', f = e.withWorkspace w' ∧ w.Step w' := by
  obtain hop | rfl | rfl := hop
  · obtain ⟨ed, w', rfl, hperforms⟩ := performs_of_isChange hw hsound hop h
    exact .inr ⟨w', rfl, .edit hperforms⟩
  · obtain ⟨-, hsame, -⟩ | ⟨w', hundo, hf, -⟩ := history_eq_ok (m := Workspace.undoLast) hw h
    · exact .inl hsame
    · exact .inr ⟨w', hf, .undo hundo⟩
  · obtain ⟨-, hsame, -⟩ | ⟨w', hredo, hf, -⟩ := history_eq_ok (m := Workspace.redoLast) hw h
    · exact .inl hsame
    · exact .inr ⟨w', hf, .redo hredo⟩

/-- Whatever is answered leaves the workspace or takes it a step on, unless the session is
closed. -/
theorem run_cases (hw : e.workspace? = some w) (hsound : w.Sound)
    (h : e.run db op = .ok (db', f, reply)) (hopen : f.workspace?.isSome = true) :
    f = e ∨ ∃ w', f = e.withWorkspace w' ∧ w.Step w' :=
  (isStep_or_eq hw h hopen).elim (fun hop => cases_of_isStep hw hsound hop h) .inl

/-- What holds of the workspace of a session and is kept by the steps of a workspace holds of every
session that is reached while it stays open. -/
theorem Reaches.exists_workspace {e₁ : EditSession} {w₁ : Workspace} {P : Workspace → Prop}
    (hreaches : e₁.Reaches e) (hw₁ : e₁.workspace? = some w₁) (hsound₁ : w₁.Sound)
    (hstart : P w₁) (hstep : ∀ {w w' : Workspace}, w.Sound → P w → w.Step w' → P w') :
    ∃ w, e.workspace? = some w ∧ w.Sound ∧ P w := by
  induction hreaches with
  | refl => exact ⟨w₁, hw₁, hsound₁, hstart⟩
  | @step f d op hreaches hopen ih =>
    obtain ⟨w, hw, hsound, hP⟩ := ih
    rw [perform] at hopen ⊢
    cases hrun : f.run d op with
    | error err => exact ⟨w, hw, hsound, hP⟩
    | ok result =>
      rw [hrun] at hopen
      obtain hsame | ⟨w', hnext, hw'⟩ := run_cases hw hsound hrun hopen
      · exact ⟨w, hsame ▸ hw, hsound, hP⟩
      · exact ⟨w', hnext ▸ rfl, hsound.step hw', hstep hsound hP hw'⟩

/-- Every session that is reached while it stays open has a sound workspace. -/
theorem Reaches.exists_sound {e₁ : EditSession} (hreaches : e₁.Reaches e)
    (h : OpenedOn db former e₁ source) : ∃ w, e.workspace? = some w ∧ w.Sound := by
  obtain ⟨w₁, hw₁, hsound₁⟩ := h.exists_sound
  obtain ⟨w, hw, hsound, -⟩ :=
    hreaches.exists_workspace (P := fun _ => True) hw₁ hsound₁ trivial fun _ _ _ => trivial
  exact ⟨w, hw, hsound⟩

/-- The working indexes follow every edit: each goes by the name of a field of the schema and has
exactly one entry for each row with a value that leads to one. -/
theorem indexes_serve {e₁ : EditSession} (h : OpenedOn db former e₁ source)
    (hreaches : e₁.Reaches e) :
    ∃ w, e.workspace? = some w ∧ (w.copy.rows.map (·.id)).Nodup ∧
      ∀ (name : String) (index : ColumnIndex), w.copy.indexes[name]? = some index →
        index.Serves w.copy.schema w.copy.rows name ∧ (index.entries.map (·.1)).Nodup := by
  obtain ⟨w, hw, hsound⟩ := hreaches.exists_sound h
  refine ⟨w, hw, hsound.fresh.proper.ids, fun name index hindex => ?_⟩
  exact ⟨hsound.fresh.serves hindex, ColumnIndex.nodup_entries⟩

/-- The index after the name of its field and a value have changed. -/
theorem indexes_serve_renamed :
    ∃ w, (((sampleSession.perform sampleDatabase (.renameField 0 "b")).2.1.perform sampleDatabase
        (.setValue 1 0 (.int 2))).2.1).workspace? = some w ∧ (w.copy.rows.map (·.id)).Nodup ∧
      ∀ (name : String) (index : ColumnIndex), w.copy.indexes[name]? = some index →
        index.Serves w.copy.schema w.copy.rows name ∧ (index.entries.map (·.1)).Nodup :=
  indexes_serve openedOn_sample (.step sampleDatabase (.setValue 1 0 (.int 2))
    (.step sampleDatabase (.renameField 0 "b") .refl rfl) rfl)

/-! ### Replaying the history -/

theorem runAll_cons {ops : List EditRequest} :
    e.runAll db (op :: ops) =
      (e.run db op).map (·.2.1) >>= fun f => f.runAll db ops := by
  rw [runAll, List.foldlM_cons]
  rfl

/-- Successful changes extend the history by an edit each. -/
theorem course_of_runAll {ops : List EditRequest} (hw : e.workspace? = some w)
    (hsound : w.Sound) (hops : ∀ op ∈ ops, op.IsChange) (h : e.runAll db ops = .ok f) :
    ∃ es v, f.workspace? = some v ∧ v.Sound ∧ v.undo = es ++ w.undo ∧ es.length = ops.length ∧
      Course w.copy.view es.reverse v.copy.view := by
  induction ops generalizing e w with
  | nil =>
    cases h
    exact ⟨[], w, hw, hsound, rfl, rfl, .nil _⟩
  | cons op ops ih =>
    rw [runAll_cons] at h
    obtain ⟨g, hg, h⟩ := Result.bind_eq_ok.mp h
    obtain ⟨⟨d, g', reply⟩, hrun, rfl⟩ := Result.map_eq_ok.mp hg
    obtain ⟨ed, w', rfl, hperforms⟩ :=
      performs_of_isChange hw hsound (hops op List.mem_cons_self) hrun
    obtain ⟨es, v, hv, hsound', hundo, hlength, hcourse⟩ :=
      ih rfl hperforms.sound (fun op hop => hops op (List.mem_cons_of_mem _ hop)) h
    refine ⟨es ++ [ed], v, hv, hsound', ?_, ?_, ?_⟩
    · rw [hundo, hperforms.undo, List.append_assoc]
      rfl
    · rw [List.length_append, hlength]
      rfl
    · rw [List.reverse_append]
      exact .cons hsound.fresh.proper hperforms.leads hcourse

/-- Undoing several edits goes back to where the first of them came from. -/
theorem runAll_undo {x : WorkingCopy.View} {es rest : List Edit} (hw : e.workspace? = some w)
    (hsound : w.Sound) (hundo : w.undo = es ++ rest)
    (hcourse : Course x es.reverse w.copy.view) (db : Database) :
    ∃ f v, e.runAll db (List.replicate es.length .undo) = .ok f ∧ f.workspace? = some v ∧
      v.Sound ∧ v.copy.view = x ∧ v.redo = es.reverse ++ w.redo := by
  induction es generalizing e w with
  | nil =>
    obtain _ | _ := hcourse
    exact ⟨e, w, rfl, hw, hsound, rfl, rfl⟩
  | cons ed es ih =>
    rw [List.reverse_cons, course_append] at hcourse
    obtain ⟨y, hcourse, hlast⟩ := hcourse
    obtain ⟨hy, hlead⟩ := course_singleton.mp hlast
    obtain ⟨w', hw', hsound', rfl, hundo', hredo⟩ := hsound.undoLast hundo hy hlead
    obtain ⟨f, v, hf, hv, hsound'', hx, hredo'⟩ :=
      ih (e := e.withWorkspace w') rfl hsound' hundo' hcourse
    refine ⟨f, v, ?_, hv, hsound'', hx, ?_⟩
    · rw [List.length_cons, List.replicate_succ, runAll_cons, run_undo_some hw hw']
      exact hf
    · rw [hredo', hredo, List.reverse_cons, List.append_assoc]
      rfl

/-- Redoing several edits goes on to where the last of them leads. -/
theorem runAll_redo {y : WorkingCopy.View} {es rest : List Edit} (hw : e.workspace? = some w)
    (hsound : w.Sound) (hredo : w.redo = es ++ rest) (hcourse : Course w.copy.view es y)
    (db : Database) :
    ∃ f v, e.runAll db (List.replicate es.length .redo) = .ok f ∧ f.workspace? = some v ∧
      v.Sound ∧ v.copy.view = y := by
  induction es generalizing e w with
  | nil =>
    obtain _ | _ := hcourse
    exact ⟨e, w, rfl, hw, hsound, rfl⟩
  | cons ed es ih =>
    obtain _ | ⟨-, hlead, hcourse⟩ := hcourse
    obtain ⟨w', hw', hsound', rfl, -, hredo'⟩ := hsound.redoLast hredo hlead
    obtain ⟨f, v, hf, hv, hsound'', hy⟩ :=
      ih (e := e.withWorkspace w') rfl hsound' hredo' hcourse
    refine ⟨f, v, ?_, hv, hsound'', hy⟩
    rw [List.length_cons, List.replicate_succ, runAll_cons, run_redo_some hw hw']
    exact hf

/-- Two open sessions with the same content: schema, rows with ids, and the indexes with their
field names and entries. -/
def SameContent (e f : EditSession) : Prop :=
  ∃ w v, e.workspace? = some w ∧ f.workspace? = some v ∧ w.copy.Alike v.copy

/-- The history of a session that is open is exact. -/
structure ExactHistory (e : EditSession) : Prop where
  /-- Undoing does not fail, and has nothing to do only if nothing was done. -/
  undo : ∀ db, ∃ w f, e.workspace? = some w ∧
    e.run db .undo = .ok (db, f, .flag !w.undo.isEmpty)
  /-- Redoing does not fail, and has nothing to do only if nothing was undone. -/
  redo : ∀ db, ∃ w f, e.workspace? = some w ∧
    e.run db .redo = .ok (db, f, .flag !w.redo.isEmpty)
  /-- A change is taken back. -/
  undo_change : ∀ {db db' f op reply}, op.IsChange → e.run db op = .ok (db', f, reply) →
    ∃ g, f.run db' .undo = .ok (db', g, .flag true) ∧ g.SameContent e
  /-- What was made again is taken back. -/
  undo_redo : ∀ {db db' f}, e.run db .redo = .ok (db', f, .flag true) →
    ∃ g, f.run db' .undo = .ok (db', g, .flag true) ∧ g.SameContent e
  /-- What was taken back is made again. -/
  redo_undo : ∀ {db db' f}, e.run db .undo = .ok (db', f, .flag true) →
    ∃ g, f.run db' .redo = .ok (db', g, .flag true) ∧ g.SameContent e
  /-- Several changes are taken back one by one, and made again one by one. -/
  replay : ∀ {db ops f}, (∀ op ∈ ops, op.IsChange) → e.runAll db ops = .ok f →
    ∃ g h, f.runAll db (List.replicate ops.length .undo) = .ok g ∧ g.SameContent e ∧
      g.runAll db (List.replicate ops.length .redo) = .ok h ∧ h.SameContent f

theorem sameContent_of_view {v : Workspace} (hw : e.workspace? = some w)
    (hv : f.workspace? = some v) (hsound : w.Sound) (hsound' : v.Sound)
    (h : w.copy.view = v.copy.view) : e.SameContent f :=
  ⟨w, v, hw, hv, hsound.fresh.alike hsound'.fresh h⟩

/-- Undo and redo walk an exact history, in every session that is reached. -/
theorem history_exact {e₁ : EditSession} (h : OpenedOn db former e₁ source)
    (hreaches : e₁.Reaches e) : e.ExactHistory := by
  obtain ⟨w, hw, hsound⟩ := hreaches.exists_sound h
  constructor
  case undo =>
    intro db
    rcases hsound.undo_cases with ⟨hundo, hnone⟩ | ⟨_, _, w', hundo, hsome, -⟩
    · exact ⟨w, e, hw, by rw [hundo, run_undo_none hw hnone]; rfl⟩
    · exact ⟨w, e.withWorkspace w', hw, by rw [hundo, run_undo_some hw hsome]; rfl⟩
  case redo =>
    intro db
    rcases hsound.redo_cases with ⟨hredo, hnone⟩ | ⟨_, _, w', hredo, hsome, -⟩
    · exact ⟨w, e, hw, by rw [hredo, run_redo_none hw hnone]; rfl⟩
    · exact ⟨w, e.withWorkspace w', hw, by rw [hredo, run_redo_some hw hsome]; rfl⟩
  case undo_change =>
    intro db db' f op reply hop hrun
    obtain ⟨ed, v, rfl, hperforms⟩ := performs_of_isChange hw hsound hop hrun
    obtain ⟨u, hu, hsound', hview, -⟩ :=
      hperforms.sound.undoLast hperforms.undo hsound.fresh.proper hperforms.leads
    refine ⟨_, run_undo_some rfl hu db', ?_⟩
    exact sameContent_of_view rfl hw hsound' hsound hview
  case undo_redo =>
    intro db db' f hrun
    rcases hsound.redo_cases with ⟨-, hnone⟩ | ⟨ed, es, v, hredo, hsome, hsound', hlead, hundo⟩
    · rw [run_redo_none hw hnone] at hrun
      cases hrun
    · rw [run_redo_some hw hsome] at hrun
      cases hrun
      obtain ⟨u, hu, hsound'', hview, -⟩ :=
        hsound'.undoLast hundo hsound.fresh.proper hlead
      refine ⟨_, run_undo_some rfl hu db, ?_⟩
      exact sameContent_of_view rfl hw hsound'' hsound hview
  case redo_undo =>
    intro db db' f hrun
    rcases hsound.undo_cases with ⟨-, hnone⟩ | ⟨ed, es, v, hundo, hsome, hsound', hlead, hredo⟩
    · rw [run_undo_none hw hnone] at hrun
      cases hrun
    · rw [run_undo_some hw hsome] at hrun
      cases hrun
      obtain ⟨u, hu, hsound'', hview, -⟩ := hsound'.redoLast hredo hlead
      refine ⟨_, run_redo_some rfl hu db, ?_⟩
      exact sameContent_of_view rfl hw hsound'' hsound hview
  case replay =>
    intro db ops f hops hrun
    -- the changes lead from the view before to the view after, and both ways can be retraced
    obtain ⟨es, v, hv, hsound', hundo, hlength, hcourse⟩ :=
      course_of_runAll hw hsound hops hrun
    obtain ⟨g, u, hg, hu, hsoundu, hviewu, hredo⟩ := runAll_undo hv hsound' hundo hcourse db
    rw [← hviewu] at hcourse
    obtain ⟨k, t, hk, ht, hsoundt, hviewt⟩ := runAll_redo hu hsoundu hredo hcourse db
    rw [List.length_reverse] at hk
    rw [← hlength]
    refine ⟨g, k, hg, sameContent_of_view hu hw hsoundu hsound hviewu, hk, ?_⟩
    exact sameContent_of_view ht hv hsoundt hsound' hviewt

/-- The history after a row was deleted. -/
theorem history_exact_deleted :
    (sampleSession.perform sampleDatabase (.deleteRow 0)).2.1.ExactHistory :=
  history_exact openedOn_sample (.step sampleDatabase (.deleteRow 0) .refl rfl)

end EditSession

end SpatialStore
