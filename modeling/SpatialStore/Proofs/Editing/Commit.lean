import SpatialStore.Editing.Request
import SpatialStore.Proofs.Index.Registry
import SpatialStore.Proofs.Result
import SpatialStore.Proofs.Table.Source

/-!
# What requests do to the database

Only committing a modified session changes the database (`EditSession.run_eq_ok`). It stores the
rows of the workspace and replaces the indexes of the table (`EditSession.write_eq_ok`). The new
indexes are built over the stored rows, each on a field that exists
(`EditSession.getElem?_rebuild`).
-/

namespace SpatialStore

/-- A source that is written has the new content. -/
theorem Source.write_eq_ok {s t : Source} {schema : Schema} {rows : List Row}
    (h : s.write schema rows = .ok t) : t = { s with schema, rows, writes := s.writes + 1 } := by
  obtain ⟨-, -, h⟩ := Result.bind_eq_ok.mp h
  obtain ⟨-, -, h⟩ := Result.bind_eq_ok.mp h
  exact (Except.ok.inj h).symm

namespace EditSession

variable {db db' : Database} {e f : EditSession} {w : Workspace} {op : EditRequest}
  {reply : EditReply} {err : EditError}

theorem workspace_eq_ok : e.workspace = .ok w ↔ e.workspace? = some w := by
  rw [workspace]
  cases e.workspace? <;> simp

theorem withWorkspace_eq (hw : e.workspace? = some w) : e.withWorkspace w = e := by
  obtain ⟨name, source, state⟩ := e
  cases state with
  | opened v =>
    obtain rfl := Option.some.inj hw
    rfl
  | closed | committed | cancelled => cases hw

/-- A session that is not open refuses everything but opening. -/
theorem run_of_closed (hw : e.workspace? = none) (hop : op ≠ .begin) :
    e.run db op = .error (.notOpen e.name e.state.phase) := by
  have hworkspace : e.workspace = .error (.notOpen e.name e.state.phase) := by
    rw [workspace, hw]
  cases op with
  | begin => exact absurd rfl hop
  | commit =>
    rw [run, commit, hworkspace]
    rfl
  | cancel =>
    rw [run, cancel, hworkspace]
    rfl
  | _ =>
    rw [run, hworkspace]
    rfl

/-! ### Committing -/

theorem getElem?_rebuild (settings : NodeSettings) (schema : Schema) (rows : List Row)
    (kinds : Std.ExtTreeMap String IndexKind) (name : String) :
    (rebuild settings schema rows kinds)[name]? =
      kinds[name]?.bind fun kind => (schema.indexOf? name).map fun i =>
        ColumnIndex.build name kind settings (ColumnIndex.column rows i) := by
  rw [rebuild, Std.ExtTreeMap.getElem?_filterMap']

/-- The indexes that a table has after its workspace was committed. -/
def published (db : Database) (name : String) (w : Workspace) : TableIndexes :=
  rebuild db.settings.nodes w.copy.schema w.copy.values
    (committedKinds w.opened w.copy.indexes (db.indexes.fields name))

theorem write_eq_ok {name : String} {source : Nat} (h : write db name source w = .ok db') :
    ∃ former, db.sources[source]? = some former ∧
      db' = ⟨db.settings,
        db.sources.set source
          ⟨former.name, w.copy.schema, w.copy.values, former.available, former.writes + 1⟩,
        db.tables, db.indexes.replaceTable name (published db name w)⟩ := by
  rw [write] at h
  dsimp only at h
  split at h
  · cases h
  · cases h
  next former _ hformer =>
  split at h
  · cases h
  next written hwritten =>
  obtain rfl := Source.write_eq_ok hwritten
  exact ⟨former, hformer, (Except.ok.inj h).symm⟩

theorem commit_eq_ok (h : e.commit db = .ok (db', f)) :
    ∃ w, e.workspace? = some w ∧ f = { e with state := .committed } ∧
      (w.modified = false ∧ db' = db ∨
        w.modified = true ∧ write db e.name e.source w = .ok db') := by
  obtain ⟨w, hw, h⟩ := Result.bind_eq_ok.mp h
  rw [workspace_eq_ok] at hw
  dsimp only at h
  split_ifs at h with hmodified
  · obtain ⟨d, hd, h⟩ := Result.bind_eq_ok.mp h
    cases h
    exact ⟨w, hw, rfl, .inr ⟨hmodified, hd⟩⟩
  · cases h
    exact ⟨w, hw, rfl, .inl ⟨Bool.eq_false_iff.mpr hmodified, rfl⟩⟩

/-- A commit that fails is one of a session that is not open, or has something to write that
cannot be written. -/
theorem commit_eq_error (h : e.commit db = .error err) :
    err = .notOpen e.name e.state.phase ∨
      ∃ w, e.workspace? = some w ∧ w.modified = true ∧ write db e.name e.source w = .error err := by
  cases hw : e.workspace? with
  | none =>
    rw [commit, workspace, hw] at h
    exact .inl (Except.error.inj h).symm
  | some w =>
    rw [commit, workspace_eq_ok.mpr hw] at h
    refine .inr ⟨w, rfl, ?_⟩
    change ite (w.modified = true) _ _ = _ at h
    split_ifs at h with hmodified
    swap
    · cases h
    refine ⟨hmodified, ?_⟩
    cases hwrite : write db e.name e.source w with
    | ok d =>
      rw [hwrite] at h
      cases h
    | error err' =>
      rw [hwrite] at h
      cases h
      rfl

/-- A commit that has something to write and writes it. -/
theorem commit_of_write (hw : e.workspace? = some w) (hmodified : w.modified = true)
    (h : write db e.name e.source w = .ok db') :
    e.commit db = .ok (db', { e with state := .committed }) := by
  rw [commit, workspace_eq_ok.mpr hw]
  change ite (w.modified = true) _ _ = _
  rw [if_pos hmodified, h]
  rfl

/-- A commit that has nothing to write. -/
theorem commit_of_clean (hw : e.workspace? = some w) (hclean : w.modified = false)
    (db : Database) : e.commit db = .ok (db, { e with state := .committed }) := by
  rw [commit, workspace_eq_ok.mpr hw]
  change ite (w.modified = true) _ _ = _
  rw [if_neg (Bool.eq_false_iff.mp hclean)]
  rfl

/-- What can stand in the way of writing: a violation, or the source. -/
theorem write_eq_error {name : String} {source : Nat}
    (h : write db name source w = .error err) :
    (∃ n field reason, w.copy.schema.firstViolation? w.copy.values = some (n, field, reason) ∧
      err = .constraintViolation n field reason) ∨
    err = .unknownTable name ∨
    ∃ former e, db.sources[source]? = some former ∧
      former.write w.copy.schema w.copy.values = .error e ∧ err = .storage e := by
  rw [write] at h
  dsimp only at h
  split at h
  · next n field reason hviolation =>
    exact .inl ⟨n, field, reason, hviolation, (Except.error.inj h).symm⟩
  · exact .inr (.inl (Except.error.inj h).symm)
  · next former _ hformer =>
    split at h
    · next e he => exact .inr (.inr ⟨former, e, hformer, he, (Except.error.inj h).symm⟩)
    · cases h

/-- A commit that reaches the source has no violation. -/
theorem firstViolation?_of_write {name : String} {source : Nat} {err : SourceError}
    (h : write db name source w = .error (.storage err)) :
    w.copy.schema.firstViolation? w.copy.values = none := by
  rw [write] at h
  dsimp only at h
  split at h
  · cases h
  · cases h
  next hnone _ => exact hnone

/-- Rows without a violation, as wide as the schema, are written as soon as the source is
available. -/
theorem exists_write {name : String} {source : Nat} {former : Source}
    (hnone : w.copy.schema.firstViolation? w.copy.values = none)
    (hwidth : ∀ row ∈ w.copy.values, row.length = w.copy.schema.count)
    (hformer : db.sources[source]? = some former) (havailable : former.available = true) :
    ∃ db', write db name source w = .ok db' := by
  obtain ⟨written, hwritten⟩ := Source.exists_write havailable hwidth
  rw [write]
  dsimp only
  rw [hnone, hformer]
  dsimp only
  rw [hwritten]
  exact ⟨_, rfl⟩

/-! ### Requests -/

/-- A result, if there is one, is the same database and a session of the same source. -/
private def Keeps (db : Database) (e : EditSession)
    (result : Except EditError (Database × EditSession × EditReply)) : Prop :=
  ∀ db' f reply, result = .ok (db', f, reply) → db' = db ∧ f.name = e.name ∧ f.source = e.source

private theorem keeps_bind {α : Type} {x : Except EditError α}
    {g : α → Except EditError (Database × EditSession × EditReply)}
    (h : ∀ a, x = .ok a → Keeps db e (g a)) : Keeps db e (x >>= g) := by
  intro db' f reply hresult
  obtain ⟨a, ha, hresult⟩ := Result.bind_eq_ok.mp hresult
  exact h a ha db' f reply hresult

private theorem keeps_ok (hname : f.name = e.name) (hsource : f.source = e.source)
    (reply : EditReply) : Keeps db e (.ok (db, f, reply)) := by
  rintro _ _ _ ⟨⟩
  exact ⟨rfl, hname, hsource⟩

theorem begin_eq_ok (h : e.begin db = .ok f) :
    ∃ source, e.workspace? = none ∧ db.sources[e.source]? = some source ∧
      f = e.withWorkspace (.ofRows source.schema source.rows (db.indexes.ofTable e.name)) := by
  rw [EditSession.begin] at h
  split at h
  · cases h
  · cases h
  next source hnone hsource =>
  rw [Source.readSchema, Source.readRows, Source.whenAvailable, Source.whenAvailable] at h
  cases havailable : source.available with
  | false =>
    rw [havailable] at h
    cases h
  | true =>
    rw [havailable] at h
    exact ⟨source, hnone, hsource, (Except.ok.inj h).symm⟩

private theorem keeps_run (hop : op ≠ .commit) : Keeps db e (e.run db op) := by
  cases op with
  | commit => exact absurd rfl hop
  | begin =>
    refine keeps_bind fun g hg => ?_
    obtain ⟨source, -, -, rfl⟩ := begin_eq_ok hg
    exact keeps_ok rfl rfl _
  | cancel =>
    refine keeps_bind fun g hg => ?_
    obtain ⟨_, _, hg⟩ := Result.bind_eq_ok.mp hg
    cases hg
    exact keeps_ok rfl rfl _
  | undo | redo =>
    refine keeps_bind fun w _ => keeps_bind fun next _ => ?_
    cases next with
    | some w => exact keeps_ok rfl rfl _
    | none => exact keeps_ok rfl rfl _
  | insertRow | insertRowAt | insertBlankRow | insertBlankRowAt | deleteRow | setValue | addField
  | removeField | renameField | row | value | isNull | rowId | query =>
    exact keeps_bind fun w _ => keeps_bind fun x _ => keeps_ok rfl rfl _
  | rowCount | schema | fieldIndex | positionOf | rowOf | extent =>
    exact keeps_bind fun w _ => keeps_ok rfl rfl _

/-- A request that succeeds leaves the database as it is, unless it commits a modified session. -/
theorem run_eq_ok (h : e.run db op = .ok (db', f, reply)) :
    f.name = e.name ∧ f.source = e.source ∧
      (db' = db ∨ op = .commit ∧
        ∃ w, e.workspace? = some w ∧ w.modified = true ∧ write db e.name e.source w = .ok db') := by
  by_cases hop : op = .commit
  · subst hop
    obtain ⟨⟨d, g⟩, hg, h⟩ := Result.bind_eq_ok.mp h
    cases h
    obtain ⟨w, hw, rfl, ⟨-, rfl⟩ | ⟨hmodified, hwrite⟩⟩ := commit_eq_ok hg
    · exact ⟨rfl, rfl, .inl rfl⟩
    · exact ⟨rfl, rfl, .inr ⟨rfl, w, hw, hmodified, hwrite⟩⟩
  · obtain ⟨hdb, hname, hsource⟩ := keeps_run hop db' f reply h
    exact ⟨hname, hsource, .inl hdb⟩

theorem db_eq_of_run (h : e.run db op = .ok (db', f, reply)) (hop : op ≠ .commit) : db' = db :=
  (run_eq_ok h).2.2.resolve_right fun hcommit => hop hcommit.1

end EditSession

end SpatialStore
