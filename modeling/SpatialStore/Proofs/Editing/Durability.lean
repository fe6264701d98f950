import SpatialStore.Proofs.Editing.Lifetime

/-!
# Durability

A session that is alone with its source and the indexes can be opened, used and closed in any number
of rounds, and the source may be switched off and on in between (`SoleSession`). A `Ledger` is
kept beside the session, from nothing but the requests and their answers: the content of the last
commit, the edits that are made and not undone, and the commits of such edits.

The invariant is that the ledger is right (`SoleSession.Accounted`). The source stores the content
of the ledger, and the history of an open session leads to its workspace from there. So a session
without edits to undo is back at what is stored, and need not be written. That every round begins
with what the last commit has left, and that nothing else is ever written, follows in every state
that is reached (`SoleSession.durable_run`).
-/

namespace SpatialStore

/-- Number of edits that are made and not undone, after a request was answered. -/
def EditRequest.pendingAfter (pending : Nat) : EditRequest → EditReply → Nat
  | .begin, _ | .commit, _ | .cancel, _ => 0
  | .insertRow _, _ | .insertRowAt _ _, _ | .insertBlankRow, _ | .insertBlankRowAt _, _
  | .deleteRow _, _ | .setValue _ _ _, _ | .addField _, _ | .removeField _, _
  | .renameField _ _, _ => pending + 1
  | .undo, .flag true => pending - 1
  | .redo, .flag true => pending + 1
  | _, _ => pending

theorem EditRequest.pendingAfter_of_isChange {op : EditRequest} (hop : op.IsChange)
    (pending : Nat) (reply : EditReply) : op.pendingAfter pending reply = pending + 1 := by
  cases op <;> first | rfl | exact hop.elim

theorem EditRequest.pendingAfter_of_isRead {op : EditRequest} (hop : op.IsRead)
    (pending : Nat) (reply : EditReply) : op.pendingAfter pending reply = pending := by
  cases op <;> first | rfl | exact hop.elim

/-- An account of what was asked of a session and answered. -/
structure Ledger where
  /-- The schema at the last commit, or the first one. -/
  schema : Schema
  /-- The rows at the last commit, or the first ones. -/
  rows : List Row
  /-- Number of edits of the present round that are made and not undone. -/
  pending : Nat
  /-- Number of commits with pending edits. -/
  stores : Nat

/-- The ledger after a request to a session, which may be answered or refused. -/
def Ledger.enter (l : Ledger) (e : EditSession) (op : EditRequest) :
    Except EditError EditReply → Ledger
  | .error _ => l
  | .ok reply =>
    match op, e.workspace? with
    | .commit, some w =>
      ⟨w.copy.schema, w.copy.values, 0, if l.pending = 0 then l.stores else l.stores + 1⟩
    | _, _ => { l with pending := op.pendingAfter l.pending reply }

theorem Ledger.enter_of_ne {l : Ledger} {e : EditSession} {op : EditRequest} {reply : EditReply}
    (hop : op ≠ .commit) :
    l.enter e op (.ok reply) = { l with pending := op.pendingAfter l.pending reply } := by
  cases op <;> first | rfl | contradiction

theorem Ledger.enter_commit {l : Ledger} {e : EditSession} {w : Workspace} {reply : EditReply}
    (hw : e.workspace? = some w) : l.enter e .commit (.ok reply) =
      ⟨w.copy.schema, w.copy.values, 0, if l.pending = 0 then l.stores else l.stores + 1⟩ := by
  simp only [enter, hw]

/-- The content that a ledger tells, as it is seen in a session that was just opened. -/
def Ledger.view (l : Ledger) : WorkingCopy.View :=
  ⟨l.schema, NumberedRow.byPosition l.rows, fun _ => none⟩

/-- The schema and rows of a source, and how often they were written. -/
def Source.stored (s : Source) : Schema × List Row × Nat := (s.schema, s.rows, s.writes)

/-- A session with its database, which nobody else uses. -/
structure SoleSession where
  db : Database
  session : EditSession
  ledger : Ledger

/-- What can happen to a session that is alone. -/
inductive SoleSession.Event where
  | request (op : EditRequest)
  /-- The source is switched on or off. -/
  | switch (available : Bool)

namespace EditSession

variable {db db' : Database} {e f : EditSession} {w w' : Workspace} {op : EditRequest}
  {reply : EditReply}

/-- A step adds an edit to those that can be undone, or takes one away, as its answer tells. -/
theorem length_undo_of_isStep (hw : e.workspace? = some w) (hsound : w.unindexed.Sound)
    (hop : op.IsStep) (h : e.run db op = .ok (db', f, reply)) (hw' : f.workspace? = some w') :
    w'.undo.length = op.pendingAfter w.undo.length reply := by
  have hlength (w : Workspace) : w.unindexed.undo.length = w.undo.length := List.length_map _
  obtain hchange | rfl | rfl := hop
  · have hrun := run_unindexed (.inl hchange) db e w
    rw [withWorkspace_eq hw, h] at hrun
    obtain ⟨ed, v, hv, hperforms⟩ := performs_of_isChange rfl hsound hchange hrun
    obtain ⟨u, rfl, rfl⟩ := eq_of_unindexed hv
    cases hw'
    rw [EditRequest.pendingAfter_of_isChange hchange, ← hlength, hperforms.undo,
      List.length_cons, hlength]
  · obtain ⟨-, rfl, rfl⟩ | ⟨v, hundo, rfl, rfl⟩ :=
      history_eq_ok (m := Workspace.undoLast) hw h
    · cases hw.symm.trans hw'
      rfl
    · cases hw'
      obtain ⟨_, _, -, hundo, -⟩ := Workspace.undoLast_eq_some hundo
      rw [hundo]
      rfl
  · obtain ⟨-, rfl, rfl⟩ | ⟨v, hredo, rfl, rfl⟩ :=
      history_eq_ok (m := Workspace.redoLast) hw h
    · cases hw.symm.trans hw'
      rfl
    · cases hw'
      obtain ⟨_, _, -, -, hv⟩ := Workspace.redoLast_eq_some hredo
      rw [hv]
      rfl

end EditSession

namespace SoleSession

/-- The session after an event. -/
def act (s : SoleSession) : Event → SoleSession
  | .request op =>
    let (db, session, reply) := s.session.perform s.db op
    ⟨db, session, s.ledger.enter s.session op reply⟩
  | .switch available =>
    let sources := s.db.sources.modify s.session.source fun source => { source with available }
    { s with db := { s.db with sources } }

/-- The session after some events. -/
def run (s : SoleSession) (events : List Event) : SoleSession := events.foldl act s

/-- A new session on a source. -/
def start (db : Database) (name : String) (i : Nat) (source : Source) : SoleSession :=
  ⟨db, .create name i, ⟨source.schema, source.rows, 0, 0⟩⟩

/-- The event is a commit of a modified session that succeeds. -/
def Stores (s : SoleSession) (event : Event) : Prop :=
  event = .request .commit ∧ s.session.modified = true ∧
    ∃ result, s.session.run s.db .commit = .ok result

/-- The ledger of a session is right. -/
structure Accounted (name : String) (i : Nat) (first : Source) (s : SoleSession) : Prop where
  steady : EditSession.Steady name i s.db s.session
  stored : ∃ available, s.db.sources[i]? = some
    ⟨first.name, s.ledger.schema, s.ledger.rows, available, first.writes + s.ledger.stores⟩
  /-- The edits that can be undone lead on from what is stored. -/
  course : ∀ {w}, s.session.workspace? = some w →
    Course s.ledger.view w.unindexed.undo.reverse w.unindexed.copy.view
  pending : (s.session.workspace?.elim 0 fun w => w.undo.length) = s.ledger.pending

variable {name : String} {i : Nat} {first : Source} {s : SoleSession} {db' : Database}
  {f : EditSession} {w : Workspace} {op : EditRequest} {reply : EditReply}

theorem accounted_start {db : Database} (hsource : db.sources[i]? = some first)
    (hproper : first.Proper) : (start db name i first).Accounted name i first := by
  have hlives : EditSession.Lives name i db (.create name i) := .create ⟨first, hsource, hproper⟩
  exact ⟨hlives.steady, ⟨first.available, hsource⟩, fun hw => (nomatch hw), rfl⟩

theorem act_request_ok (h : s.session.run s.db op = .ok (db', f, reply)) :
    s.act (.request op) = ⟨db', f, s.ledger.enter s.session op (.ok reply)⟩ := by
  rw [act, EditSession.perform, h]

theorem act_request_error {err : EditError} (h : s.session.run s.db op = .error err) :
    s.act (.request op) = s := by
  rw [act, EditSession.perform, h]
  rfl

theorem Accounted.length_undo (hs : s.Accounted name i first)
    (hw : s.session.workspace? = some w) : w.undo.length = s.ledger.pending := by
  rw [← hs.pending, hw]
  rfl

theorem Accounted.modified_iff (hs : s.Accounted name i first) :
    s.session.modified = true ↔ s.ledger.pending ≠ 0 := by
  rw [EditSession.modified, ← hs.pending]
  cases s.session.workspace? with
  | none => simp
  | some w => simp [Workspace.modified]

/-- An open session without pending edits holds what is stored. -/
theorem Accounted.eq_of_pending (hs : s.Accounted name i first)
    (hw : s.session.workspace? = some w) (hpending : s.ledger.pending = 0) :
    w.copy.schema = s.ledger.schema ∧ w.copy.values = s.ledger.rows := by
  have hundo : w.undo = [] := List.length_eq_zero_iff.mp ((hs.length_undo hw).trans hpending)
  have hcourse := hs.course hw
  rw [Workspace.unindexed, hundo] at hcourse
  have hview : s.ledger.view = w.unindexed.copy.view := course_nil.mp hcourse
  have hschema : s.ledger.schema = w.copy.schema := congrArg WorkingCopy.View.schema hview
  have hrows : NumberedRow.byPosition s.ledger.rows = w.copy.rows :=
    congrArg WorkingCopy.View.rows hview
  refine ⟨hschema.symm, ?_⟩
  rw [WorkingCopy.values, ← hrows, NumberedRow.values_byPosition]

/-- The session is opened on the content of the ledger. -/
theorem Accounted.eq_of_begin (hs : s.Accounted name i first)
    (h : s.session.run s.db .begin = .ok (db', f, reply)) :
    db' = s.db ∧ f = s.session.withWorkspace
      (.ofRows s.ledger.schema s.ledger.rows (s.db.indexes.ofTable s.session.name)) := by
  obtain ⟨g, hg, h⟩ := Result.bind_eq_ok.mp h
  cases h
  obtain ⟨source, -, hsource, rfl⟩ := EditSession.begin_eq_ok hg
  obtain ⟨available, hstored⟩ := hs.stored
  rw [hs.steady.source] at hsource
  obtain rfl := Option.some.inj (hstored.symm.trans hsource)
  exact ⟨rfl, rfl⟩

/-! ### What an event keeps -/

theorem Accounted.step (hs : s.Accounted name i first)
    (hw : s.session.workspace? = some w) (hop : op.IsStep)
    (h : s.session.run s.db op = .ok (db', f, reply)) :
    Accounted name i first ⟨db', f, s.ledger.enter s.session op (.ok reply)⟩ := by
  have hsteady := hs.steady.run h
  have hsound := hs.steady.sound hw
  have hcommit : op ≠ .commit := by
    rintro rfl
    simp [EditRequest.IsStep, EditRequest.IsChange] at hop
  obtain rfl := EditSession.db_eq_of_run h hcommit
  obtain ⟨w', rfl, hw'⟩ := EditSession.cases_unindexed hw hsound hop h
  rw [Ledger.enter_of_ne hcommit]
  refine ⟨hsteady, hs.stored, fun hv => ?_, ?_⟩
  · cases hv
    rcases hw' with hw' | hstep
    · rw [hw']
      exact hs.course hw
    · exact hsound.course_step (hs.course hw) hstep
  · rw [← hs.length_undo hw]
    exact EditSession.length_undo_of_isStep hw hsound hop h rfl

/-- A commit stores the content of the workspace, or finds that it is what is stored. -/
theorem Accounted.commit (hs : s.Accounted name i first)
    (hw : s.session.workspace? = some w)
    (h : s.session.run s.db .commit = .ok (db', f, reply)) :
    Accounted name i first ⟨db', f, s.ledger.enter s.session .commit (.ok reply)⟩ := by
  have hsteady := hs.steady.run h
  have hmodified := hs.modified_iff
  rw [EditSession.modified, hw, Option.any_some] at hmodified
  obtain ⟨⟨d, g⟩, hg, h⟩ := Result.bind_eq_ok.mp h
  cases h
  obtain ⟨v, hv, rfl, hdb⟩ := EditSession.commit_eq_ok hg
  obtain rfl := Option.some.inj (hw.symm.trans hv)
  obtain ⟨available, hstored⟩ := hs.stored
  rw [Ledger.enter_commit hw]
  refine ⟨hsteady, ⟨available, ?_⟩, fun hw' => (nomatch hw'), rfl⟩
  rcases hdb with ⟨hclean, rfl⟩ | ⟨hmodified', hwrite⟩
  · -- nothing was written, but the workspace is back at what was stored before
    have hpending : s.ledger.pending = 0 := by
      by_contra hpending
      exact absurd (hmodified.mpr hpending) (Bool.eq_false_iff.mp hclean)
    obtain ⟨hschema, hrows⟩ := hs.eq_of_pending hw hpending
    rw [if_pos hpending, hschema, hrows]
    exact hstored
  · obtain ⟨former, hformer, rfl⟩ := EditSession.write_eq_ok hwrite
    rw [hs.steady.source] at hformer ⊢
    obtain rfl := Option.some.inj (hstored.symm.trans hformer)
    obtain ⟨hlt, -⟩ := List.getElem?_eq_some_iff.mp hstored
    rw [if_neg (hmodified.mp hmodified')]
    exact List.getElem?_set_self hlt

theorem Accounted.request (hs : s.Accounted name i first)
    (h : s.session.run s.db op = .ok (db', f, reply)) :
    Accounted name i first ⟨db', f, s.ledger.enter s.session op (.ok reply)⟩ := by
  have hsteady := hs.steady.run h
  cases hw : s.session.workspace? with
  | none =>
    obtain rfl : op = .begin := by
      by_contra hop
      cases (EditSession.run_of_closed hw hop).symm.trans h
    obtain ⟨rfl, rfl⟩ := hs.eq_of_begin h
    refine ⟨hsteady, hs.stored, fun hw' => ?_, rfl⟩
    cases hw'
    exact course_nil.mpr (WorkingCopy.view_eq rfl rfl fun _ => rfl).symm
  | some w =>
    obtain hop | ⟨hop, rfl⟩ | ⟨rfl | rfl, hclosed⟩ :=
      EditSession.isStep_or_isRead_or_closed hw h
    · exact hs.step hw hop h
    · have hcommit : op ≠ .commit := by
        rintro rfl
        exact hop
      obtain rfl := EditSession.db_eq_of_run h hcommit
      rw [Ledger.enter_of_ne hcommit, EditRequest.pendingAfter_of_isRead hop]
      exact hs
    · exact hs.commit hw h
    · obtain rfl := EditSession.db_eq_of_run h nofun
      refine ⟨hsteady, hs.stored, fun hw' => ?_, ?_⟩
      · rw [hclosed] at hw'
        cases hw'
      · rw [hclosed]
        rfl

theorem Accounted.switch (hs : s.Accounted name i first) (available : Bool) :
    (s.act (.switch available)).Accounted name i first := by
  obtain ⟨former, hstored⟩ := hs.stored
  have hsource : (s.act (.switch available)).db.sources[i]? = some ⟨first.name, s.ledger.schema,
      s.ledger.rows, available, first.writes + s.ledger.stores⟩ := by
    change (s.db.sources.modify s.session.source _)[i]? = _
    rw [hs.steady.source, List.getElem?_modify, hstored]
    exact congrArg some (if_pos rfl)
  obtain ⟨source, hs', hproper⟩ := hs.steady.proper
  obtain rfl := Option.some.inj (hstored.symm.trans hs')
  exact ⟨⟨hs.steady.name, hs.steady.source, ⟨_, hsource, hproper.schema, hproper.width⟩,
    hs.steady.sound⟩, ⟨available, hsource⟩, hs.course, hs.pending⟩

theorem Accounted.act (hs : s.Accounted name i first) (event : Event) :
    (s.act event).Accounted name i first := by
  cases event with
  | switch available => exact hs.switch available
  | request op =>
    cases hrun : s.session.run s.db op with
    | error err =>
      rw [act_request_error hrun]
      exact hs
    | ok result =>
      rw [act_request_ok hrun]
      exact hs.request hrun

theorem Accounted.run (hs : s.Accounted name i first) (events : List Event) :
    (s.run events).Accounted name i first :=
  List.foldlRecOn events SoleSession.act hs fun _ ht event _ => ht.act event

/-! ### What is stored -/

/-- What is promised of a session that is alone. -/
structure Durable (first : Source) (s : SoleSession) : Prop where
  /-- The source stores the content of the last commit, and was written once for each commit of
  pending edits. -/
  stored : ∃ available, s.db.sources[s.session.source]? = some
    ⟨first.name, s.ledger.schema, s.ledger.rows, available, first.writes + s.ledger.stores⟩
  /-- A session is modified when there are edits that were made and not undone. -/
  modified : s.session.modified = true ↔ s.ledger.pending ≠ 0
  /-- Nothing but a commit of a modified session changes what is stored and the indexes. -/
  quiet : ∀ event, ¬ s.Stores event →
    (s.act event).db.sources.map Source.stored = s.db.sources.map Source.stored ∧
      (s.act event).db.indexes = s.db.indexes
  /-- A commit of a modified session stores its workspace in the source, which is written once,
  and replaces the indexes of the table. -/
  written : ∀ event, s.Stores event → ∃ w former, s.session.workspace? = some w ∧
    s.db.sources[s.session.source]? = some former ∧
    (s.act event).db.sources = s.db.sources.set s.session.source
      { former with schema := w.copy.schema, rows := w.copy.values, writes := former.writes + 1 } ∧
    (s.act event).db.indexes =
      s.db.indexes.replaceTable s.session.name (EditSession.published s.db s.session.name w)
  /-- A commit of an open session without pending edits succeeds and changes nothing. -/
  unchanged : s.session.workspace?.isSome = true → s.ledger.pending = 0 →
    ∃ f, s.session.run s.db .commit = .ok (s.db, f, .done)
  /-- The session is opened on the content of the last commit, with ids by position and without
  history. -/
  opened : ∀ {db e reply}, s.session.run s.db .begin = .ok (db, e, reply) →
    ∃ w, e.workspace? = some w ∧ w.copy.schema = s.ledger.schema ∧
      w.copy.values = s.ledger.rows ∧
      w.copy.rows.map (·.id) = List.range w.copy.rows.length ∧ w.undo = [] ∧ w.redo = []

theorem quiet_of_not_stores {event : Event} (h : ¬ s.Stores event) :
    (s.act event).db.sources.map Source.stored = s.db.sources.map Source.stored ∧
      (s.act event).db.indexes = s.db.indexes := by
  cases event with
  | switch available =>
    refine ⟨?_, rfl⟩
    change (s.db.sources.modify s.session.source _).map Source.stored = _
    refine List.ext_getElem? fun j => ?_
    rw [List.getElem?_map, List.getElem?_modify, List.getElem?_map]
    cases s.db.sources[j]? with
    | none => rfl
    | some source =>
      refine congrArg some ?_
      dsimp only
      split_ifs <;> rfl
  | request op =>
    cases hrun : s.session.run s.db op with
    | error err =>
      rw [act_request_error hrun]
      exact ⟨rfl, rfl⟩
    | ok result =>
      obtain ⟨db', f, reply⟩ := result
      rw [act_request_ok hrun]
      obtain ⟨-, -, rfl | ⟨rfl, w, hw, hmodified, -⟩⟩ := EditSession.run_eq_ok hrun
      · exact ⟨rfl, rfl⟩
      · refine absurd ⟨rfl, ?_, _, hrun⟩ h
        rw [EditSession.modified, hw]
        exact hmodified

theorem written_of_stores {event : Event} (h : s.Stores event) :
    ∃ w former, s.session.workspace? = some w ∧ s.db.sources[s.session.source]? = some former ∧
      (s.act event).db.sources = s.db.sources.set s.session.source
        ⟨former.name, w.copy.schema, w.copy.values, former.available, former.writes + 1⟩ ∧
      (s.act event).db.indexes =
        s.db.indexes.replaceTable s.session.name (EditSession.published s.db s.session.name w) := by
  obtain ⟨rfl, hmodified, ⟨db', f, reply⟩, hrun⟩ := h
  rw [act_request_ok hrun]
  obtain ⟨⟨d, g⟩, hg, hrun⟩ := Result.bind_eq_ok.mp hrun
  cases hrun
  obtain ⟨w, hw, rfl, ⟨hclean, -⟩ | ⟨-, hwrite⟩⟩ := EditSession.commit_eq_ok hg
  · rw [EditSession.modified, hw, Option.any_some, hclean] at hmodified
    cases hmodified
  · obtain ⟨former, hformer, rfl⟩ := EditSession.write_eq_ok hwrite
    exact ⟨w, former, hw, hformer, rfl, rfl⟩

/-- Whatever was asked of a session and whenever its source was switched off, its edits are kept
apart until they are committed, and what was committed stays. -/
theorem durable_run {db : Database} (hsource : db.sources[i]? = some first)
    (hproper : first.Proper) (events : List Event) :
    ((start db name i first).run events).Durable first := by
  have hstart : (start db name i first).Accounted name i first :=
    accounted_start hsource hproper
  have hs := hstart.run events
  generalize (start db name i first).run events = s at hs
  constructor
  case stored => exact hs.steady.source ▸ hs.stored
  case modified => exact hs.modified_iff
  case quiet => exact fun event => quiet_of_not_stores
  case written => exact fun event => written_of_stores
  case unchanged =>
    intro hopen hpending
    obtain ⟨w, hw⟩ := Option.isSome_iff_exists.mp hopen
    have hclean : w.modified = false := by
      rw [Workspace.modified, List.length_eq_zero_iff.mp ((hs.length_undo hw).trans hpending)]
      rfl
    refine ⟨{ s.session with state := .committed }, ?_⟩
    rw [EditSession.run, EditSession.commit_of_clean hw hclean]
    rfl
  case opened =>
    intro db' e reply hrun
    obtain ⟨-, rfl⟩ := hs.eq_of_begin hrun
    refine ⟨_, rfl, rfl, NumberedRow.values_byPosition _, ?_, rfl, rfl⟩
    change (NumberedRow.byPosition _).map _ = List.range (NumberedRow.byPosition _).length
    rw [NumberedRow.ids_byPosition, NumberedRow.length_byPosition]

/-- A round whose only edit is undone, an attempt to open the session while its source is switched
off, and a round that stores a row. -/
theorem durable_rounds :
    let s := (start EditSession.sampleDatabase "t" 0 EditSession.sampleSource).run
      ([.begin, .insertRow [.int 3], .undo, .commit].map .request ++
        [.switch false, .request .begin, .switch true] ++
        [.begin, .insertRow [.int 3], .commit, .begin].map .request)
    s.ledger.rows = [[.int 1], [.null], [.int 3]] ∧ s.ledger.stores = 1 ∧
      s.Durable EditSession.sampleSource :=
  ⟨rfl, rfl, durable_run rfl EditSession.openedOn_sample.proper _⟩

end SoleSession

end SpatialStore
