import SpatialStore.Proofs.Editing.Commit
import SpatialStore.Proofs.Editing.Session
import SpatialStore.Proofs.Query.Standing
import SpatialStore.Proofs.Table.Database

/-!
# Published indexes

A database is used by several edit sessions at once, perhaps several of them on the same table,
while indexes are built and dropped. A `Desk` is the database with all these sessions, and a
`Desk.Action` is anything that can happen to it: a request to a session, which may be answered or
refused, an index that is built, or not because the build fails or is cancelled, and so on.

Sources are written by commits only, and a commit replaces all indexes of its table. So whatever
happens, every standing index is the one that would be built now (`Desk.published_run`): it is on a
field of the present schema, goes by its name, and has the entries of the present rows by their
positions. What a session keeps of older rows and indexes does not matter. Queries over the
database therefore find the present rows (`Desk.indexed_run`), and sessions are opened on indexes
that serve them (`Database.Published.openedOn`).
-/

namespace SpatialStore

/-! ### Current indexes -/

/-- The index is on a field of the source, goes by its name, and is what is built over the rows. -/
structure ColumnIndex.Current (index : ColumnIndex) (settings : NodeSettings) (source : Source)
    (name : String) : Prop where
  field : index.field = name
  built : ∃ i, source.schema.indexOf? name = some i ∧
    index = .build name index.kind settings (ColumnIndex.column source.rows i)

theorem ColumnIndex.current_build (source : Source) {field : String} {i : Nat}
    (hi : source.schema.indexOf? field = some i) (kind : IndexKind) (settings : NodeSettings) :
    (build field kind settings (column source.rows i)).Current settings source field := by
  obtain ⟨-, hfield, hkind⟩ := holds_build field kind settings (nodup_column source.rows i)
  refine ⟨hfield, i, hi, ?_⟩
  rw [hkind]

namespace Database

variable {db db' : Database} {table field : String} {index : ColumnIndex} {source : Source}

/-- Every standing index of a table is current. -/
def Published (db : Database) : Prop :=
  ∀ (table field : String) (index : ColumnIndex), db.indexes.get? table field = some index →
    ∃ source, db.source? table = some source ∧
      index.Current db.settings.nodes source field

theorem published_empty (settings : Settings) : (empty settings).Published := by
  intro table field index h
  simp [empty, IndexRegistry.get?, IndexRegistry.ofTable, IndexRegistry.empty] at h

/-- Only the content of the sources matters. -/
theorem Published.of_content (h : db.Published) (hindexes : db'.indexes = db.indexes)
    (hsettings : db'.settings = db.settings)
    (hsource : ∀ {table source}, db.source? table = some source → ∃ other,
      db'.source? table = some other ∧ other.schema = source.schema ∧ other.rows = source.rows) :
    db'.Published := by
  intro table field index hindex
  rw [hindexes] at hindex
  obtain ⟨source, hs, hfield, hbuilt⟩ := h table field index hindex
  obtain ⟨other, hother, hschema, hrows⟩ := hsource hs
  refine ⟨other, hother, hfield, ?_⟩
  rwa [hschema, hrows, hsettings]

theorem Published.buildIndex (h : db.Published) {kind : IndexKind} {cancelled : Nat → Bool}
    (hbuild : (db.buildIndex table field kind cancelled).2 = .ok db') : db'.Published := by
  obtain ⟨source, i, -, hsource, hi, -, -, rfl⟩ := buildIndex_eq_ok hbuild
  intro t f other hother
  rw [IndexRegistry.get?_put] at hother
  split_ifs at hother with hsame
  · obtain ⟨rfl, rfl⟩ := hsame
    obtain rfl := Option.some.inj hother
    exact ⟨source, hsource, ColumnIndex.current_build source hi kind db.settings.nodes⟩
  · exact h t f other hother

theorem Published.dropIndex (h : db.Published) (table field : String) :
    (db.dropIndex table field).Published := by
  intro t f index hindex
  rw [Database.dropIndex, IndexRegistry.get?_drop] at hindex
  split_ifs at hindex
  exact h t f index hindex

/-- Published indexes are up to date for queries. -/
theorem Published.indexed (h : db.Published) : db.Indexed := by
  refine ⟨fun hindex => ?_, fun hindex => ?_, fun hindex hs hi => ?_⟩
  · obtain ⟨source, -, hfield, -⟩ := h _ _ _ hindex
    exact hfield
  · obtain ⟨source, -, -, i, -, hbuilt⟩ := h _ _ _ hindex
    rw [hbuilt]
    exact ColumnIndex.intact_build _ _ _ (ColumnIndex.nodup_column source.rows i)
  · obtain ⟨source, hsource, -, i, hfield, hbuilt⟩ := h _ _ _ hindex
    obtain rfl := Option.some.inj (hsource.symm.trans hs)
    obtain rfl := Option.some.inj (hfield.symm.trans hi)
    exact congrArg ColumnIndex.entries hbuilt

/-- A session on a proper source is opened with standing indexes that serve its rows. -/
theorem Published.openedOn (h : db.Published) {former e : EditSession}
    (hopened : former.begin db = .ok e) (hname : db.tables[former.name]? = some former.source)
    (hproper : ∀ source ∈ db.source? former.name, source.Proper) :
    ∃ source, EditSession.OpenedOn db former e source := by
  obtain ⟨source, -, hstored, -⟩ := EditSession.begin_eq_ok hopened
  have hsource : db.source? former.name = some source := by
    rw [Database.source?, hname, Option.bind_some, hstored]
  refine ⟨source, hopened, hstored, hproper source hsource, fun {name index} _ hindex => ?_⟩
  obtain ⟨other, hother, -, i, hi, hbuilt⟩ := h former.name name index hindex
  obtain rfl := Option.some.inj (hsource.symm.trans hother)
  rw [hbuilt]
  exact ColumnIndex.serves_build hi _ _ source.rows

end Database

/-! ### Desks -/

/-- A database with the edit sessions on its tables. -/
structure Desk where
  db : Database
  sessions : List EditSession

/-- What can happen to a database that is in use. -/
inductive Desk.Action where
  /-- A source is registered, unless there is one of its name. -/
  | register (source : Source)
  /-- A source is switched on or off. -/
  | switch (table : String) (available : Bool)
  | buildIndex (table field : String) (kind : IndexKind) (cancelled : Nat → Bool)
  | dropIndex (table field : String)
  /-- A session that is not open yet is made for a table. -/
  | create (table : String)
  /-- A session is opened on a table. -/
  | openTable (table : String)
  /-- Something is asked of the session at a position. -/
  | request (session : Nat) (op : EditRequest)

namespace Desk

/-- The desk after an action; one that fails changes nothing. -/
def act (d : Desk) : Action → Desk
  | .register source =>
    if source.name ∈ d.db.tables then d else { d with db := d.db.register source }
  | .switch table available =>
    { d with db := d.db.modifySource table fun s => { s with available } }
  | .buildIndex table field kind cancelled =>
    match (d.db.buildIndex table field kind cancelled).2 with
    | .ok db => { d with db }
    | .error _ => d
  | .dropIndex table field => { d with db := d.db.dropIndex table field }
  | .create table =>
    match d.db.tables[table]? with
    | some i => { d with sessions := d.sessions ++ [.create table i] }
    | none => d
  | .openTable table =>
    match EditSession.ofTable d.db table with
    | .ok e => { d with sessions := d.sessions ++ [e] }
    | .error _ => d
  | .request i op =>
    match d.sessions[i]? with
    | some e =>
      let (db, e, _) := e.perform d.db op
      ⟨db, d.sessions.set i e⟩
    | none => d

/-- The desk after some actions. -/
def run (d : Desk) (actions : List Action) : Desk := actions.foldl act d

/-- An empty database without sessions. -/
def start (settings : Settings) : Desk := ⟨.empty settings, []⟩

/-- The standing indexes are current. Different names stand for different sources, and every session
is on the source that its name stands for. -/
structure Sound (d : Desk) : Prop where
  published : d.db.Published
  sessions : ∀ e ∈ d.sessions, d.db.tables[e.name]? = some e.source
  different : ∀ {s t : String} {i : Nat}, d.db.tables[s]? = some i → d.db.tables[t]? = some i →
    s = t
  inRange : ∀ {t : String} {i : Nat}, d.db.tables[t]? = some i → i < d.db.sources.length

theorem sound_start (settings : Settings) : (start settings).Sound := by
  refine ⟨Database.published_empty settings, fun e he => absurd he List.not_mem_nil, ?_, ?_⟩
  · intro s t i hs
    simp [start, Database.empty] at hs
  · intro t i ht
    simp [start, Database.empty] at ht

variable {d : Desk} {source : Source} {table : String}

/-- Other indexes are all that is different. -/
theorem Sound.of_indexes (hd : d.Sound) {db : Database} (htables : db.tables = d.db.tables)
    (hlength : db.sources.length = d.db.sources.length) (hpublished : db.Published) :
    Sound { d with db } := by
  refine ⟨hpublished, fun e he => ?_, fun hs ht => ?_, fun ht => ?_⟩
  · exact (congrArg (·[e.name]?) htables).trans (hd.sessions e he)
  · change db.tables[_]? = _ at hs ht
    rw [htables] at hs ht
    exact hd.different hs ht
  · change db.tables[_]? = _ at ht
    rw [htables] at ht
    exact hlength ▸ hd.inRange ht

theorem Sound.register (hd : d.Sound) (hname : source.name ∉ d.db.tables) :
    Sound { d with db := d.db.register source } := by
  have hfree : d.db.tables[source.name]? = none := Std.ExtTreeMap.getElem?_eq_none hname
  have htables (t : String) : (d.db.register source).tables[t]? =
      if t = source.name then some d.db.sources.length else d.db.tables[t]? :=
    Maps.getElem?_insert _ _ _ _
  -- a name that stood for a source is not the new one
  have hold {t : String} {i : Nat} (ht : d.db.tables[t]? = some i) :
      (d.db.register source).tables[t]? = some i := by
    rw [htables, if_neg, ht]
    rintro rfl
    rw [hfree] at ht
    cases ht
  refine ⟨?_, fun e he => hold (hd.sessions e he), fun {s t i} hs ht => ?_, fun {t i} ht => ?_⟩
  · refine hd.published.of_content rfl rfl fun {t s} hs => ?_
    refine ⟨s, Database.source?_register hs ?_, rfl, rfl⟩
    rintro rfl
    obtain ⟨i, ht, -⟩ := Database.source?_eq_some.mp hs
    cases hfree.symm.trans ht
  · change (d.db.register source).tables[_]? = _ at hs ht
    rw [htables] at hs ht
    -- the position of the new source is no other's
    split_ifs at hs ht with hs' ht' ht'
    · rw [hs', ht']
    · have hlt := hd.inRange ht
      obtain rfl := Option.some.inj hs
      exact absurd hlt (Nat.lt_irrefl _)
    · have hlt := hd.inRange hs
      obtain rfl := Option.some.inj ht
      exact absurd hlt (Nat.lt_irrefl _)
    · exact hd.different hs ht
  · change (d.db.register source).tables[_]? = _ at ht
    change i < (d.db.sources ++ [source]).length
    rw [List.length_append, List.length_singleton]
    rw [htables] at ht
    split_ifs at ht
    · obtain rfl := Option.some.inj ht
      exact Nat.lt_succ_self _
    · exact Nat.lt_succ_of_lt (hd.inRange ht)

theorem Sound.switch (hd : d.Sound) (table : String) (available : Bool) :
    Sound { d with db := d.db.modifySource table fun s => { s with available } } := by
  have hcontent : (d.db.modifySource table fun s => { s with available }).Published :=
    hd.published.of_content (Database.indexes_modifySource d.db table _)
      (Database.settings_modifySource d.db table _)
      fun hs => Database.source?_switch hs table available
  exact hd.of_indexes (Database.tables_modifySource d.db table _)
    (Database.length_modifySource d.db table _) hcontent

theorem Sound.concat (hd : d.Sound) {e : EditSession}
    (he : d.db.tables[e.name]? = some e.source) :
    Sound { d with sessions := d.sessions ++ [e] } :=
  ⟨hd.published, List.forall_mem_append.mpr ⟨hd.sessions, List.forall_mem_singleton.mpr he⟩,
    hd.different, hd.inRange⟩

theorem Sound.set (hd : d.Sound) (i : Nat) {e : EditSession}
    (he : d.db.tables[e.name]? = some e.source) :
    Sound { d with sessions := d.sessions.set i e } := by
  refine ⟨hd.published, fun f hf => ?_, hd.different, hd.inRange⟩
  rcases List.mem_or_eq_of_mem_set hf with hf | rfl
  · exact hd.sessions f hf
  · exact he

/-- A commit publishes indexes over the rows that it stores. -/
theorem Sound.write (hd : d.Sound) {name : String} {i : Nat} {w : Workspace} {db : Database}
    (hname : d.db.tables[name]? = some i) (h : EditSession.write d.db name i w = .ok db) :
    Sound { d with db } := by
  obtain ⟨former, hformer, rfl⟩ := EditSession.write_eq_ok h
  refine hd.of_indexes rfl List.length_set fun t f index hindex => ?_
  rw [IndexRegistry.get?_replaceTable] at hindex
  split_ifs at hindex with ht
  · subst ht
    rw [EditSession.published, EditSession.getElem?_rebuild] at hindex
    obtain ⟨kind, -, hindex⟩ := Option.bind_eq_some_iff.mp hindex
    obtain ⟨c, hc, rfl⟩ := Option.map_eq_some_iff.mp hindex
    let written : Source :=
      ⟨former.name, w.copy.schema, w.copy.values, former.available, former.writes + 1⟩
    exact ⟨written, Database.source?_setSource_self hname (hd.inRange hname),
      ColumnIndex.current_build written hc kind _⟩
  · -- the table has another source, which was not written
    obtain ⟨source, hsource, hcurrent⟩ := hd.published t f index hindex
    have hdifferent : d.db.tables[t]? ≠ some i := fun hi => ht (hd.different hi hname)
    exact ⟨source, Database.source?_setSource hsource hdifferent, hcurrent⟩

theorem Sound.request (hd : d.Sound) (i : Nat) (op : EditRequest) :
    (d.act (.request i op)).Sound := by
  rw [Desk.act]
  split
  · next e he =>
    have hsession := hd.sessions e (List.mem_of_getElem? he)
    rw [EditSession.perform]
    cases hrun : e.run d.db op with
    | ok result =>
      obtain ⟨db, f, reply⟩ := result
      obtain ⟨hname, hsource, hdb⟩ := EditSession.run_eq_ok hrun
      have hset := hd.set i (e := f) (by rwa [hname, hsource])
      rcases hdb with rfl | ⟨-, w, -, -, hwrite⟩
      · exact hset
      · exact hset.write hsession hwrite
    | error err => exact hd.set i hsession
  · exact hd

theorem Sound.act (hd : d.Sound) (a : Action) : (d.act a).Sound := by
  cases a with
  | register source =>
    rw [Desk.act]
    split_ifs with hname
    · exact hd
    · exact hd.register hname
  | switch table available => exact hd.switch table available
  | buildIndex table field kind cancelled =>
    rw [Desk.act]
    split
    · next db hdb =>
      obtain ⟨_, _, _, -, -, -, -, rfl⟩ := Database.buildIndex_eq_ok hdb
      exact hd.of_indexes rfl rfl (hd.published.buildIndex hdb)
    · exact hd
  | dropIndex table field =>
    exact hd.of_indexes rfl rfl (hd.published.dropIndex table field)
  | create table =>
    rw [Desk.act]
    split
    · next i hi => exact hd.concat hi
    · exact hd
  | openTable table =>
    rw [Desk.act]
    split
    · next e he =>
      rw [EditSession.ofTable] at he
      split at he
      · cases he
      · next i hi =>
        obtain ⟨source, -, -, rfl⟩ := EditSession.begin_eq_ok he
        exact hd.concat hi
    · exact hd
  | request i op => exact hd.request i op

theorem sound_run (settings : Settings) (actions : List Action) :
    ((start settings).run actions).Sound :=
  List.foldlRecOn actions Desk.act (sound_start settings) fun _ hd a _ => hd.act a

/-- Whatever happens, every standing index is the one that would be built now. -/
theorem published_run (settings : Settings) (actions : List Action) :
    ((start settings).run actions).db.Published :=
  (sound_run settings actions).published

/-- An index follows its field through a commit. -/
example : ((start {}).run
    [.register EditSession.sampleSource, .buildIndex "t" "a" .attribute fun _ => false,
      .openTable "t", .request 0 (.renameField 0 "b"), .request 0 .commit]).db.indexes.fields "t" =
    [("b", .attribute)] := by
  decide +kernel

/-- Queries find the present rows, whatever has happened. -/
theorem indexed_run (settings : Settings) (actions : List Action) :
    ((start settings).run actions).db.Indexed :=
  (sound_run settings actions).published.indexed

end Desk

end SpatialStore
