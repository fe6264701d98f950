import Mathlib.Tactic.SplitIfs
import SpatialStore.Proofs.Editing.InPlace
import SpatialStore.Proofs.Editing.Lifetime

/-!
# Requests are all or nothing

Every action on a session in place looks first at everything that may be refused and then changes
one part after the other, so it is atomic (`LiveSession.atomic_carryOut`). In place a request
therefore does exactly what it does to a database and a session (`LiveSession.run_carryOut`).

A session in place that is reached in any way (`LiveSession.Reached`) is left as it was by whatever
fails (`LiveSession.allOrNothing`). So a commit that was refused can be repeated: nothing of the
buffer or the history is lost, and the source had nothing against the rows themselves.
-/

namespace SpatialStore

open MonadExcept (ofExcept)

/-! ### Buffers -/

namespace EditBuffer

theorem readOnly_row (i : Nat) : ReadOnly (row i) :=
  readOnly_get.bind fun _ => readOnly_ofExcept _

theorem atomic_insertRow (i : Nat) (id : RowId) (row : Row) : Atomic (insertRow i id row) := by
  refine readOnly_get.bind_atomic fun _ => ?_
  dsimp only
  split_ifs
  · exact (readOnly_throw _).atomic
  · exact ((certain_modify _).bind fun _ => (certain_modify _).bind fun _ =>
      certain_modify _).atomic

theorem atomic_removeRow (i : Nat) : Atomic (removeRow i) :=
  (readOnly_row i).bind_atomic fun _ => ((certain_modify _).bind fun _ =>
    (certain_modify _).bind fun _ => certain_modify _).atomic

theorem atomic_setValue (i c : Nat) (v : Value) : Atomic (setValue i c v) := by
  refine (readOnly_row i).bind_atomic fun r => readOnly_get.bind_atomic fun b => ?_
  dsimp only
  split
  · exact ((certain_modify _).bind fun _ => certain_modify _).atomic
  · exact (readOnly_throw _).atomic

theorem atomic_insertColumn (i : Nat) (f : Field) (values : List Value) :
    Atomic (insertColumn i f values) := by
  refine readOnly_get.bind_atomic fun _ => ?_
  split
  · exact (readOnly_throw _).atomic
  · exact ((certain_modify _).bind fun _ => certain_modify _).atomic

theorem atomic_removeColumn (i : Nat) : Atomic (removeColumn i) := by
  refine readOnly_get.bind_atomic fun _ => ?_
  split
  · exact (readOnly_throw _).atomic
  · exact ((certain_modify _).bind fun _ => (certain_modify _).bind fun _ =>
      certain_modify _).atomic

theorem atomic_renameColumn (i : Nat) (former name : String) :
    Atomic (renameColumn i former name) := by
  refine readOnly_get.bind_atomic fun _ => ?_
  split
  · exact (readOnly_throw _).atomic
  · refine ((certain_modify _).bind fun _ => certain_get.bind fun b => ?_).atomic
    split
    · exact certain_pure _
    · exact (certain_modify _).bind fun _ => certain_modify _

theorem atomic_apply (e : Edit) : Atomic (apply e) := by
  cases e with
  | insertRow i id row => exact atomic_insertRow i id row
  | deleteRow i id row => exact atomic_removeRow i
  | setValue i c former new => exact atomic_setValue i c new
  | addField i f => exact atomic_insertColumn i f []
  | removeField i f values index => exact atomic_removeColumn i
  | renameField i former new => exact atomic_renameColumn i former new

theorem atomic_revert (e : Edit) : Atomic (revert e) := by
  cases e with
  | insertRow i id row => exact atomic_removeRow i
  | deleteRow i id row => exact atomic_insertRow i id row
  | setValue i c former new => exact atomic_setValue i c former
  | addField i f => exact atomic_removeColumn i
  | removeField i f values index =>
    refine (atomic_insertColumn i f values).bind_certain fun _ => ?_
    cases index with
    | none => exact certain_pure _
    | some index => exact certain_modify _
  | renameField i former new => exact atomic_renameColumn i new former

end EditBuffer

/-! ### Sessions -/

namespace LiveSession

theorem readOnly_openBuffer : ReadOnly openBuffer := by
  refine readOnly_get.bind fun s => ?_
  split
  · exact readOnly_pure _
  · exact readOnly_throw _

theorem readOnly_workspace : ReadOnly workspace :=
  ReadOnly.bind readOnly_openBuffer fun _ => readOnly_get.bind fun _ => readOnly_pure _

theorem readOnly_findSource : ReadOnly findSource := by
  refine readOnly_get.bind fun s => ?_
  split
  · exact readOnly_pure _
  · exact readOnly_throw _

variable {α : Type}

/-- What fails for want of an open buffer has changed nothing. -/
theorem atomic_openBuffer_bind {f : EditBuffer → Action α} (hf : ∀ b, Atomic (f b)) :
    Atomic (openBuffer >>= f) :=
  ReadOnly.bind_atomic readOnly_openBuffer hf

theorem atomic_workspace_bind {f : Workspace → Action α} (hf : ∀ w, Atomic (f w)) :
    Atomic (workspace >>= f) :=
  ReadOnly.bind_atomic readOnly_workspace hf

theorem atomic_findSource_bind {f : Source → Action α} (hf : ∀ source, Atomic (f source)) :
    Atomic (findSource >>= f) :=
  ReadOnly.bind_atomic readOnly_findSource hf

theorem certain_close (phase : SessionPhase) : Certain (close phase) :=
  (certain_modify _).bind fun _ => (certain_modify _).bind fun _ => (certain_modify _).bind fun _ =>
    (certain_modify _).bind fun _ => certain_modify _

theorem atomic_onBuffer {m : EditBuffer.Action α} (hm : Atomic m) :
    Atomic (onBuffer m) := by
  intro s err t h
  cases hb : openBuffer.run s with
  | error err' u =>
    rw [onBuffer, run_bind_error hb] at h
    cases h
    exact ReadOnly.atomic readOnly_openBuffer s _ _ hb
  | ok b u =>
    obtain ⟨rfl, hb, hphase⟩ := openBuffer_eq_ok.mp hb
    rw [run_onBuffer hb hphase] at h
    cases hresult : m.run b with
    | ok a b' =>
      rw [hresult] at h
      cases h
    | error err' b' =>
      obtain rfl := hm b err' b' hresult
      rw [hresult] at h
      cases h
      rw [← hb]

theorem atomic_load : Atomic load := by
  refine readOnly_get.bind_atomic fun s => ?_
  split_ifs
  · exact (readOnly_throw _).atomic
  refine atomic_findSource_bind fun source =>
    (readOnly_ofExcept _).bind_atomic fun schema => (readOnly_ofExcept _).bind_atomic fun rows => ?_
  exact ((certain_modify _).bind fun _ => (certain_modify _).bind fun _ =>
    (certain_modify _).bind fun _ => (certain_modify _).bind fun _ => certain_modify _).atomic

theorem atomic_execute (e : Edit) : Atomic (execute e) :=
  (atomic_onBuffer (EditBuffer.atomic_apply e)).bind_certain fun _ =>
    (certain_modify _).bind fun _ => certain_modify _

theorem atomic_insertRowAt (i : Nat) (row : Row) : Atomic (insertRowAt i row) := by
  refine atomic_workspace_bind fun w => ?_
  dsimp only
  split_ifs
  · exact (readOnly_throw _).atomic
  refine (readOnly_ofExcept _).bind_atomic fun _ => ?_
  exact (atomic_execute _).bind_certain fun _ => (certain_modify _).bind fun _ => certain_pure _

theorem atomic_insertBlankRowAt (i : Nat) : Atomic (insertBlankRowAt i) :=
  atomic_workspace_bind fun _ => atomic_insertRowAt _ _

theorem atomic_deleteRow (i : Nat) : Atomic (deleteRow i) :=
  atomic_workspace_bind fun _ => (readOnly_ofExcept _).bind_atomic fun _ =>
    atomic_execute _

theorem atomic_setValue (i c : Nat) (v : Value) : Atomic (setValue i c v) := by
  refine atomic_workspace_bind fun w => (readOnly_ofExcept _).bind_atomic fun former => ?_
  dsimp only
  split
  · exact (readOnly_ofExcept _).bind_atomic fun _ => atomic_execute _
  · exact atomic_execute _

theorem atomic_addField (f : Field) : Atomic (addField f) := by
  refine atomic_workspace_bind fun w => ?_
  dsimp only
  split_ifs
  · exact (readOnly_throw _).atomic
  · exact (atomic_execute _).bind_certain fun _ => certain_pure _

theorem atomic_removeField (i : Nat) : Atomic (removeField i) := by
  refine atomic_workspace_bind fun w => ?_
  dsimp only
  split
  · exact (readOnly_throw _).atomic
  · exact atomic_execute _

theorem atomic_renameField (i : Nat) (name : String) : Atomic (renameField i name) := by
  refine atomic_workspace_bind fun w => ?_
  dsimp only
  split
  · exact (readOnly_throw _).atomic
  split_ifs
  · exact (readOnly_throw _).atomic
  · exact atomic_execute _

theorem atomic_undoLast : Atomic undoLast := by
  refine atomic_openBuffer_bind fun _ s err t h => ?_
  cases hundo : s.undo with
  | nil =>
    rw [run_bind_ok (m := get) rfl, hundo] at h
    cases h
  | cons e undo =>
    rw [run_bind_ok (m := get) rfl, hundo] at h
    refine (atomic_onBuffer (EditBuffer.atomic_revert e)).give_back ?_ (fun _ => ?_) h
    · rw [← hundo]
    · exact (certain_modify _).bind fun _ => certain_pure _

theorem atomic_redoLast : Atomic redoLast := by
  refine atomic_openBuffer_bind fun _ s err t h => ?_
  cases hredo : s.redo with
  | nil =>
    rw [run_bind_ok (m := get) rfl, hredo] at h
    cases h
  | cons e redo =>
    rw [run_bind_ok (m := get) rfl, hredo] at h
    refine (atomic_onBuffer (EditBuffer.atomic_apply e)).give_back ?_ (fun _ => ?_) h
    · rw [← hredo]
    · exact (certain_modify _).bind fun _ => certain_pure _

theorem atomic_writeSource (schema : Schema) (rows : List Row) :
    Atomic (writeSource schema rows) :=
  atomic_findSource_bind fun _ => (readOnly_ofExcept _).bind_atomic fun _ =>
    (readOnly_ofExcept _).bind_atomic fun _ => ((certain_modify _).bind fun _ =>
      (certain_modify _).bind fun _ => certain_modify _).atomic

theorem atomic_commit : Atomic commit := by
  refine atomic_openBuffer_bind fun b => readOnly_get.bind_atomic fun s => ?_
  split_ifs
  · exact (certain_close _).atomic
  split
  · exact (readOnly_throw _).atomic
  · exact (atomic_writeSource _ _).bind_certain fun _ => certain_get.bind fun _ =>
      (certain_modify _).bind fun _ => certain_close _

/-- A request that fails leaves everything as it was. -/
theorem atomic_carryOut (op : EditRequest) : Atomic (carryOut op) := by
  cases op with
  | begin => exact atomic_load.bind_certain fun _ => certain_pure _
  | insertRow row =>
    exact atomic_workspace_bind fun _ =>
      (atomic_insertRowAt _ _).bind_certain fun _ => certain_pure _
  | insertRowAt i row => exact (atomic_insertRowAt i row).bind_certain fun _ => certain_pure _
  | insertBlankRow =>
    exact atomic_workspace_bind fun _ =>
      (atomic_insertBlankRowAt _).bind_certain fun _ => certain_pure _
  | insertBlankRowAt i => exact (atomic_insertBlankRowAt i).bind_certain fun _ => certain_pure _
  | deleteRow i => exact (atomic_deleteRow i).bind_certain fun _ => certain_pure _
  | setValue i c v => exact (atomic_setValue i c v).bind_certain fun _ => certain_pure _
  | addField f => exact (atomic_addField f).bind_certain fun _ => certain_pure _
  | removeField i => exact (atomic_removeField i).bind_certain fun _ => certain_pure _
  | renameField i name => exact (atomic_renameField i name).bind_certain fun _ => certain_pure _
  | undo => exact atomic_undoLast.bind_certain fun _ => certain_pure _
  | redo => exact atomic_redoLast.bind_certain fun _ => certain_pure _
  | commit => exact atomic_commit.bind_certain fun _ => certain_pure _
  | cancel =>
    exact atomic_openBuffer_bind fun _ =>
      ((certain_close _).bind fun _ => certain_pure _).atomic
  | rowCount | schema | fieldIndex | row | value | isNull | rowId | positionOf | rowOf | extent
  | query => exact atomic_workspace_bind fun _ => (readOnly_ofExcept _).atomic

/-- What is answered to a request, and what becomes of the session in place. -/
def answered (r : Database × EditSession × Except EditError EditReply) :
    EStateM.Result EditError LiveSession EditReply :=
  match r with
  | (db, e, .ok reply) => .ok reply (ofSession db e)
  | (db, e, .error err) => .error err (ofSession db e)

/-- A request has the same effect in place as on a database and a session. -/
theorem run_carryOut (db : Database) (e : EditSession) (op : EditRequest) :
    (carryOut op).run (ofSession db e) = answered (e.perform db op) := by
  rw [(atomic_carryOut op).run_eq, outcome_carryOut, EditSession.perform]
  cases e.run db op <;> rfl

/-! ### Reached sessions -/

variable {name : String} {i : Nat} {s t : LiveSession} {op : EditRequest} {err : EditError}
  {reply : EditReply}

/-- The session with another database. -/
def withDatabase (s : LiveSession) (db : Database) : LiveSession := { s with db }

theorem withDatabase_ofSession (db db' : Database) (e : EditSession) :
    (ofSession db e).withDatabase db' = ofSession db' e := by
  obtain ⟨name, source, state⟩ := e
  cases state <;> rfl

/-- A session in place, from its creation on: requests are carried out, whether they are answered
or refused, and other things happen to the database, as long as the source stays proper. -/
inductive Reached (name : String) (i : Nat) : LiveSession → Prop
  | create {db : Database} : db.HoldsProper i → Reached name i (ofSession db (.create name i))
  | answered {s t : LiveSession} {op : EditRequest} {reply : EditReply} : Reached name i s →
      (carryOut op).run s = .ok reply t → Reached name i t
  | refused {s t : LiveSession} {op : EditRequest} {err : EditError} : Reached name i s →
      (carryOut op).run s = .error err t → Reached name i t
  | meanwhile {s : LiveSession} {db : Database} : Reached name i s → db.HoldsProper i →
      Reached name i (s.withDatabase db)

theorem answered_eq_ok {r : Database × EditSession × Except EditError EditReply}
    (h : answered r = .ok reply t) : t = ofSession r.1 r.2.1 := by
  obtain ⟨db, e, result⟩ := r
  cases result <;> cases h
  rfl

/-- A commit in place fails as it does on a database and a session. -/
theorem commit_eq_error {db : Database} {e : EditSession}
    (h : (carryOut .commit).run (ofSession db e) = .error err t) : e.commit db = .error err := by
  rw [run_carryOut, EditSession.perform, EditSession.run] at h
  cases hcommit : e.commit db with
  | ok r =>
    rw [hcommit] at h
    cases h
  | error err' =>
    rw [hcommit] at h
    cases h
    rfl

theorem run_commit {db db' : Database} {e f : EditSession} (h : e.commit db = .ok (db', f)) :
    (carryOut .commit).run (ofSession db e) = .ok .done (ofSession db' f) := by
  rw [run_carryOut, EditSession.perform, EditSession.run, h]
  rfl

theorem Reached.exists_session (h : Reached name i s) :
    ∃ db e, EditSession.Lives name i db e ∧ s = ofSession db e := by
  induction h with
  | create hproper => exact ⟨_, _, .create hproper, rfl⟩
  | answered _ hrun ih =>
    obtain ⟨db, e, hlives, rfl⟩ := ih
    rw [run_carryOut] at hrun
    exact ⟨_, _, .perform _ hlives, answered_eq_ok hrun⟩
  | refused _ hrun ih =>
    obtain ⟨db, e, hlives, rfl⟩ := ih
    cases atomic_carryOut _ _ _ _ hrun
    exact ⟨db, e, hlives, rfl⟩
  | meanwhile _ hproper ih =>
    obtain ⟨db, e, hlives, rfl⟩ := ih
    exact ⟨_, e, .meanwhile hlives hproper, withDatabase_ofSession db _ e⟩

/-- Requests to a session are all or nothing. -/
structure AllOrNothing (s : LiveSession) : Prop where
  /-- What is done in place is what is done to a database and a session as a whole. -/
  agrees : ∃ db e, s = ofSession db e ∧ ∀ op, (carryOut op).run s = answered (e.perform db op)
  /-- A request that fails leaves everything as it was. -/
  unchanged : ∀ {op err t}, (carryOut op).run s = .error err t → t = s
  /-- A commit that is refused for a constraint leaves the session open, with its history. -/
  refused : ∀ {row field reason t},
    (carryOut .commit).run s = .error (.constraintViolation row field reason) t →
      t = s ∧ s.phase = .opened ∧ s.buffer.isSome = true ∧ s.undo ≠ []
  /-- A commit that is refused because the source is switched off stores the content of the buffer
  when it is repeated, whatever has happened to the database until the source is on again. -/
  repeated : ∀ {source t},
    (carryOut .commit).run s = .error (.storage (.unavailable source)) t →
      ∃ b, s.buffer = some b ∧ ∀ {db former}, db.sources[s.source]? = some former →
        former.available = true → ∃ u, (carryOut .commit).run (t.withDatabase db) = .ok .done u ∧
          u.phase = .committed ∧ u.db.sources[s.source]? =
            some { former with schema := b.schema, rows := b.rows, writes := former.writes + 1 }

theorem allOrNothing (h : Reached name i s) : s.AllOrNothing := by
  obtain ⟨db, e, hlives, rfl⟩ := h.exists_session
  constructor
  case agrees => exact ⟨db, e, rfl, run_carryOut db e⟩
  case unchanged => exact fun hrun => atomic_carryOut _ _ _ _ hrun
  case refused =>
    intro row field reason t hrun
    obtain rfl := atomic_carryOut _ _ _ _ hrun
    obtain hclosed | ⟨w, hw, hmodified, -⟩ := EditSession.commit_eq_error (commit_eq_error hrun)
    · cases hclosed
    rw [← EditSession.withWorkspace_eq hw]
    refine ⟨rfl, rfl, rfl, fun hundo => ?_⟩
    have hundo : w.undo = [] := hundo
    rw [Workspace.modified, hundo] at hmodified
    cases hmodified
  case repeated =>
    intro source t hrun
    obtain rfl := atomic_carryOut _ _ _ _ hrun
    obtain ⟨w, hw, hrepeat⟩ := hlives.steady.exists_commit (commit_eq_error hrun)
    refine ⟨.ofCopy w.copy, ?_, fun {db' former} hformer havailable => ?_⟩
    · rw [← EditSession.withWorkspace_eq hw]
      rfl
    · rw [source_ofSession] at hformer ⊢
      obtain ⟨d, hcommit, hstored⟩ := hrepeat hformer havailable
      rw [withDatabase_ofSession]
      exact ⟨_, run_commit hcommit, rfl, hstored⟩

open EditSession in
/-- A session with a new row whose source is switched off before it is committed. -/
theorem allOrNothing_switchedOff :
    let e := (sampleSession.perform sampleDatabase (.insertRow [.int 3])).2.1
    let s := (ofSession sampleDatabase e).withDatabase
      (sampleDatabase.setSource 0 { sampleSource with available := false })
    (carryOut .commit).run s = .error (.storage (.unavailable "t")) s ∧ s.AllOrNothing := by
  have hproper : sampleSource.Proper := openedOn_sample.proper
  have hbegin : (carryOut .begin).run (ofSession sampleDatabase (create "t" 0)) =
      .ok .done (ofSession sampleDatabase sampleSession) := rfl
  have hinsert : (carryOut (.insertRow [.int 3])).run (ofSession sampleDatabase sampleSession) =
      .ok (.number 2) (ofSession sampleDatabase
        (sampleSession.perform sampleDatabase (.insertRow [.int 3])).2.1) := rfl
  have hcreated : Reached "t" 0 (ofSession sampleDatabase (create "t" 0)) :=
    .create ⟨sampleSource, rfl, hproper⟩
  have hedited := (hcreated.answered hbegin).answered hinsert
  exact ⟨rfl, allOrNothing (hedited.meanwhile ⟨_, rfl, hproper.schema, hproper.width⟩)⟩

end LiveSession

end SpatialStore
