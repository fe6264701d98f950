import SpatialStore.Proofs.Editing.History
import SpatialStore.Proofs.Editing.Published
import SpatialStore.Proofs.Editing.Reconciliation

/-!
# Index kinds and field types

A field has an index only of a kind that its type supports: building an index refuses any other.
What a commit does with the indexes is decided by names alone, however, and while a session is open
the field of a name may be removed and another one of another type be added under the name, or
given it. The indexes of the workspace follow such edits, so they fit their fields all the time,
and fit them again whatever is undone (`Edit.Leads.fitting`). An index that is built meanwhile is on
the field that had the name before, and a commit takes it over without looking at the type
(`EditSession.TakesMisfit`).

This is the only way in which a standing index comes to have a kind that does not fit its field
(`Desk.fitting_run_iff`), and it is a way (`Desk.misfit_published`).
-/

namespace SpatialStore

open WorkingCopy (View)

/-- There is a field of the name, of a type that an index of the kind can be on. -/
def Schema.Supports (s : Schema) (name : String) (kind : IndexKind) : Prop :=
  ∃ f ∈ s.fields, f.name = name ∧ kind.supports f.type = true

/-- Every index is on a field whose type supports it. -/
def WorkingCopy.View.Fitting (x : View) : Prop :=
  ∀ name kind, x.kinds name = some kind → x.schema.Supports name kind

/-- Every standing index is on a field of its source whose type supports it. -/
def Database.Fitting (db : Database) : Prop :=
  ∀ table name kind, db.indexes.kind? table name = some kind →
    ∃ source, db.source? table = some source ∧ source.schema.Supports name kind

/-! ### Schemas and views -/

namespace Schema

variable {s : Schema} {f : Field} {name : String} {kind : IndexKind}

/-- In a proper schema only the field of the name counts. -/
theorem Proper.supports_iff (hs : s.Proper) (hf : f ∈ s.fields) :
    s.Supports f.name kind ↔ kind.supports f.type = true := by
  refine ⟨?_, fun h => ⟨f, hf, rfl, h⟩⟩
  rintro ⟨g, hg, hname, h⟩
  obtain ⟨i, hi⟩ := List.mem_iff_getElem?.mp hf
  obtain ⟨j, hj⟩ := List.mem_iff_getElem?.mp hg
  obtain rfl := hs.inj hj hi hname
  obtain rfl := Option.some.inj (hi.symm.trans hj)
  exact h

end Schema

/-- Edits keep the indexes of a workspace on fields whose types support them. -/
theorem Edit.Leads.fitting {e : Edit} {x y : View} (h : e.Leads x y) (hx : x.Proper)
    (hfitting : x.Fitting) : y.Fitting := by
  intro name kind hkind
  cases h with
  | insertRow | deleteRow | setValue => exact hfitting name kind hkind
  | addField hi =>
    obtain ⟨f, hf, hname, hsupports⟩ := hfitting name kind hkind
    exact ⟨f, (List.mem_insertIdx hi).mpr (.inr hf), hname, hsupports⟩
  | @removeField _ i g _ hg =>
    -- the field that goes has another name
    dsimp only at hkind
    split_ifs at hkind with hname
    obtain ⟨f, hf, rfl, hsupports⟩ := hfitting name kind hkind
    obtain ⟨j, hj⟩ := List.mem_iff_getElem?.mp hf
    refine ⟨f, List.mem_eraseIdx_iff_getElem?.mpr ⟨j, ?_, hj⟩, rfl, hsupports⟩
    rintro rfl
    exact hname (congrArg Field.name (Option.some.inj (hj.symm.trans hg)))
  | @renameField _ i g new hg =>
    obtain ⟨hlt, -⟩ := List.getElem?_eq_some_iff.mp hg
    dsimp only at hkind
    split_ifs at hkind with hnew hformer
    · -- the index follows the field, whose type stays
      obtain ⟨f, hf, hname, hsupports⟩ := hfitting g.name kind hkind
      have htype : kind.supports g.type = true :=
        (hx.schema.supports_iff (List.mem_of_getElem? hg)).mp ⟨f, hf, hname, hsupports⟩
      exact ⟨{ g with name := new }, List.mem_set hlt _, hnew.symm, htype⟩
    · obtain ⟨f, hf, rfl, hsupports⟩ := hfitting name kind hkind
      obtain ⟨j, hj⟩ := List.mem_iff_getElem?.mp hf
      refine ⟨f, List.mem_iff_getElem?.mpr ⟨j, ?_⟩, rfl, hsupports⟩
      dsimp only
      rw [List.getElem?_set_ne, hj]
      rintro rfl
      exact hformer (congrArg Field.name (Option.some.inj (hj.symm.trans hg)))

/-! ### Databases -/

namespace Database

variable {db db' : Database} {table field : String}

theorem fitting_empty (settings : Settings) : (empty settings).Fitting := by
  intro table name kind h
  simp [empty, IndexRegistry.kind?, IndexRegistry.get?, IndexRegistry.ofTable,
    IndexRegistry.empty] at h

/-- Only the schemas of the sources matter. -/
theorem Fitting.of_schemas (h : db.Fitting) (hindexes : db'.indexes = db.indexes)
    (hsource : ∀ {table source}, db.source? table = some source → ∃ other,
      db'.source? table = some other ∧ other.schema = source.schema) : db'.Fitting := by
  intro table name kind hkind
  rw [hindexes] at hkind
  obtain ⟨source, hs, hsupports⟩ := h table name kind hkind
  obtain ⟨other, hother, hschema⟩ := hsource hs
  exact ⟨other, hother, hschema.symm ▸ hsupports⟩

/-- An index is only built on a field that can have it. -/
theorem Fitting.buildIndex (h : db.Fitting) {kind : IndexKind} {cancelled : Nat → Bool}
    (hbuild : (db.buildIndex table field kind cancelled).2 = .ok db') : db'.Fitting := by
  obtain ⟨source, i, f, hsource, hi, hf, hsupports, rfl⟩ := buildIndex_eq_ok hbuild
  intro t name k hk
  rw [IndexRegistry.kind?, IndexRegistry.get?_put] at hk
  split_ifs at hk with hsame
  · obtain ⟨rfl, rfl⟩ := hsame
    obtain ⟨g, hg, hname⟩ := Schema.exists_field_of_indexOf? hi
    obtain rfl := Option.some.inj (hf.symm.trans hg)
    have hkind := (ColumnIndex.holds_build name kind db.settings.nodes
      (ColumnIndex.nodup_column source.rows i)).2.2
    obtain rfl := hkind.symm.trans (Option.some.inj hk)
    exact ⟨source, hsource, f, List.mem_of_getElem? hf, hname, hsupports⟩
  · exact h t name k hk

theorem Fitting.dropIndex (h : db.Fitting) (table field : String) :
    (db.dropIndex table field).Fitting := by
  intro t name kind hkind
  rw [Database.dropIndex, IndexRegistry.kind?, IndexRegistry.get?_drop] at hkind
  split_ifs at hkind
  · cases hkind
  · exact h t name kind hkind

end Database

/-! ### Sessions -/

namespace EditSession

variable {db db' : Database} {e f : EditSession} {w : Workspace} {op : EditRequest}
  {reply : EditReply}

/-- A commit of the session succeeds and takes over an index that was built meanwhile under the name
of a field of the workspace, of a type that the index cannot be on. -/
def TakesMisfit (db : Database) (e : EditSession) : Prop :=
  ∃ w db' f kind, e.workspace? = some w ∧ w.modified = true ∧
    write db e.name e.source w = .ok db' ∧ f ∈ w.copy.schema.fields ∧ f.name ∉ w.opened ∧
    w.copy.indexes[f.name]? = none ∧ db.indexes.kind? e.name f.name = some kind ∧
    kind.supports f.type = false

/-- If the session is open, it is sound and its indexes fit their fields, now and in every view that
may come back. -/
def Fitted (e : EditSession) : Prop :=
  ∀ w ∈ e.workspace?, w.Sound ∧ w.Throughout View.Fitting

/-- The indexes that a session is opened with fit their fields. -/
theorem fitted_of_begin (hpublished : db.Published) (hfitting : db.Fitting)
    (hname : db.tables[e.name]? = some e.source) (hproper : ∀ source ∈ db.sources, source.Proper)
    (h : e.begin db = .ok f) : f.Fitted := by
  obtain ⟨source, hopened⟩ := hpublished.openedOn h hname fun source hsource =>
    hproper source (Database.mem_sources_of_source? hsource)
  obtain ⟨w, hw, hsound⟩ := hopened.exists_sound
  obtain ⟨other, -, hstored, rfl⟩ := begin_eq_ok h
  have hsource : db.source? e.name = some other := Database.source?_eq_some.mpr ⟨_, hname, hstored⟩
  rintro v ⟨⟩
  obtain rfl := Option.some.inj hw
  refine ⟨hsound, Workspace.throughout_ofRows fun name kind hkind => ?_⟩
  rw [kinds_ofRows, standing] at hkind
  split_ifs at hkind
  obtain ⟨source', hsource', hsupports⟩ := hfitting e.name name kind hkind
  obtain rfl := Option.some.inj (hsource.symm.trans hsource')
  exact hsupports

/-- What is answered leaves the indexes of the session fitting. -/
theorem Fitted.run (he : e.Fitted) (hbegin : ∀ {f}, e.begin db = .ok f → f.Fitted)
    (h : e.run db op = .ok (db', f, reply)) : f.Fitted := by
  intro w' hw'
  obtain ⟨-, -, hbegun, -⟩ | ⟨w, hw, rfl | hstep⟩ :=
    workspace_cases (fun w hw => (he w hw).1) h hw'
  · exact hbegin hbegun w' hw'
  · exact he _ hw
  · obtain ⟨hsound, hfitting⟩ := he w hw
    refine ⟨hsound.step hstep, hfitting.step hsound hstep fun hperforms => ?_⟩
    exact hperforms.leads.fitting hsound.fresh.proper hfitting.present

/-- The source that a write leaves has the schema of the workspace. -/
theorem source?_of_write {i : Nat} (hname : db.tables[e.name]? = some i)
    (h : write db e.name i w = .ok db') :
    ∃ source, db'.source? e.name = some source ∧ source.schema = w.copy.schema := by
  obtain ⟨former, hformer, rfl⟩ := write_eq_ok h
  obtain ⟨hlt, -⟩ := List.getElem?_eq_some_iff.mp hformer
  exact ⟨_, Database.source?_setSource_self hname hlt, rfl⟩

/-- The indexes that a commit publishes fit their fields, unless it takes over a misfit. -/
theorem fitting_of_write (hfitting : db.Fitting) (hname : db.tables[e.name]? = some e.source)
    (hdifferent : ∀ {t : String}, db.tables[t]? = some e.source → t = e.name)
    (hw : e.workspace? = some w) (hpresent : w.copy.view.Fitting) (hmodified : w.modified = true)
    (h : write db e.name e.source w = .ok db') (hmisfit : ¬ e.TakesMisfit db) : db'.Fitting := by
  intro table name kind hkind
  by_cases ht : table = e.name
  · subst ht
    obtain ⟨source, hsource, hschema⟩ := source?_of_write hname h
    refine ⟨source, hsource, hschema.symm ▸ ?_⟩
    rw [kind?_of_write h, getElem?_committedKinds] at hkind
    split_ifs at hkind with hfield hopened hstands
    · exact hpresent name kind hkind
    · cases hworking : w.copy.indexes[name]? with
      | some index =>
        rw [hworking] at hkind
        refine hpresent name kind ?_
        change w.copy.indexes[name]?.map (·.kind) = some kind
        rw [hworking]
        exact hkind
      | none =>
        -- an index that was built meanwhile is taken over
        rw [hworking] at hkind
        obtain ⟨f, hf, rfl⟩ := List.mem_map.mp (Schema.hasField_iff.mp hfield)
        refine ⟨f, hf, rfl, Bool.not_eq_false _ ▸ fun hfalse => hmisfit ?_⟩
        exact ⟨w, db', f, kind, hw, hmodified, h, hf, hopened, hworking, hkind, hfalse⟩
  · obtain ⟨former, -, rfl⟩ := write_eq_ok h
    rw [IndexRegistry.kind?, IndexRegistry.get?_replaceTable, if_neg ht] at hkind
    obtain ⟨source, hsource, hsupports⟩ := hfitting table name kind hkind
    exact ⟨source, Database.source?_setSource hsource fun hi => ht (hdifferent hi), hsupports⟩

/-- An index that is taken over though it is a misfit stands on a field that does not support it. -/
theorem TakesMisfit.not_fitting (h : e.TakesMisfit db) (he : e.Fitted)
    (hname : db.tables[e.name]? = some e.source) :
    ∃ db', e.run db .commit = .ok (db', { e with state := .committed }, .done) ∧
      ¬ db'.Fitting := by
  obtain ⟨w, db', f, kind, hw, hmodified, hwrite, hf, hopened, hworking, hstands, hfalse⟩ := h
  refine ⟨db', ?_, fun hfitting => ?_⟩
  · rw [EditSession.run, commit_of_write hw hmodified hwrite]
    rfl
  have hfield : w.copy.schema.hasField f.name = true :=
    Schema.hasField_iff.mpr (List.mem_map_of_mem hf)
  have hkind : db'.indexes.kind? e.name f.name = some kind := by
    rw [kind?_of_write hwrite, if_pos hfield, getElem?_committedKinds, if_neg hopened, hworking]
    exact hstands
  obtain ⟨source, hsource, hschema⟩ := source?_of_write hname hwrite
  obtain ⟨source', hsource', hsupports⟩ := hfitting e.name f.name kind hkind
  obtain rfl := Option.some.inj (hsource.symm.trans hsource')
  rw [hschema, (he w hw).1.fresh.schema_proper.supports_iff hf, hfalse] at hsupports
  cases hsupports

end EditSession

/-! ### Desks -/

namespace Desk

/-- A source that is registered is proper. -/
def Action.Proper : Action → Prop
  | .register source => source.Proper
  | _ => True

/-- The action is a commit that takes over a misfit. -/
def TakesMisfit (d : Desk) : Action → Prop
  | .request i .commit => ∃ e ∈ d.sessions[i]?, e.TakesMisfit d.db
  | _ => False

/-- All indexes fit their fields, those that stand and those of the sessions. -/
structure Suited (d : Desk) : Prop where
  sound : d.Sound
  proper : ∀ source ∈ d.db.sources, source.Proper
  fitting : d.db.Fitting
  fitted : ∀ e ∈ d.sessions, e.Fitted

theorem suited_start (settings : Settings) : (start settings).Suited where
  sound := sound_start settings
  proper _ h := absurd h List.not_mem_nil
  fitting := Database.fitting_empty settings
  fitted _ h := absurd h List.not_mem_nil

variable {d : Desk} {a : Action} {source : Source} {e : EditSession}

theorem act_request_ok {i : Nat} {op : EditRequest} {db : Database} {f : EditSession}
    {reply : EditReply} (he : d.sessions[i]? = some e) (h : e.run d.db op = .ok (db, f, reply)) :
    d.act (.request i op) = ⟨db, d.sessions.set i f⟩ := by
  simp only [Desk.act, he, EditSession.perform, h]

/-- A request that is refused changes nothing. -/
theorem act_request_cases (d : Desk) (i : Nat) (op : EditRequest) :
    d.act (.request i op) = d ∨ ∃ e db f reply, d.sessions[i]? = some e ∧
      e.run d.db op = .ok (db, f, reply) ∧ d.act (.request i op) = ⟨db, d.sessions.set i f⟩ := by
  cases he : d.sessions[i]? with
  | none => exact .inl (by simp only [Desk.act, he])
  | some e =>
    cases hrun : e.run d.db op with
    | error err =>
      obtain ⟨hi, rfl⟩ := List.getElem?_eq_some_iff.mp he
      exact .inl (by simp only [Desk.act, he, EditSession.perform, hrun, List.set_getElem_self])
    | ok result =>
      obtain ⟨db, f, reply⟩ := result
      exact .inr ⟨e, db, f, reply, rfl, hrun, act_request_ok he hrun⟩

/-- Sources stay proper, as what a commit stores is the content of a sound workspace. -/
theorem Suited.proper_act (hd : d.Suited) (ha : a.Proper) :
    ∀ source ∈ (d.act a).db.sources, source.Proper := by
  cases a with
  | register source =>
    rw [Desk.act]
    split_ifs
    · exact hd.proper
    · exact List.forall_mem_append.mpr ⟨hd.proper, List.forall_mem_singleton.mpr ha⟩
  | switch table available => exact Database.proper_switch hd.proper table available
  | buildIndex table field kind cancelled =>
    rw [Desk.act]
    split
    · next db hdb =>
      obtain ⟨_, _, _, -, -, -, -, rfl⟩ := Database.buildIndex_eq_ok hdb
      exact hd.proper
    · exact hd.proper
  | dropIndex table field => exact hd.proper
  | create table | openTable table =>
    rw [Desk.act]
    split <;> exact hd.proper
  | request i op =>
    obtain hsame | ⟨e, db, f, reply, he, hrun, hact⟩ := act_request_cases d i op
    · exact hsame.symm ▸ hd.proper
    rw [hact]
    obtain ⟨-, -, rfl | ⟨-, w, hw, -, hwrite⟩⟩ := EditSession.run_eq_ok hrun
    · exact hd.proper
    obtain ⟨former, hformer, rfl⟩ := EditSession.write_eq_ok hwrite
    have hproper := (hd.fitted e (List.mem_of_getElem? he) w hw).1.fresh.proper
    intro source hsource
    rcases List.mem_or_eq_of_mem_set hsource with hsource | rfl
    · exact hd.proper source hsource
    · exact ⟨hproper.schema, List.forall_mem_map.mpr hproper.width⟩

/-- Standing indexes go on fitting their fields, unless a commit takes over a misfit. -/
theorem Suited.fitting_act (hd : d.Suited) (hmisfit : ¬ d.TakesMisfit a) :
    (d.act a).db.Fitting := by
  cases a with
  | register source =>
    rw [Desk.act]
    split_ifs with hname
    · exact hd.fitting
    refine hd.fitting.of_schemas rfl fun {t s} hs => ⟨s, Database.source?_register hs ?_, rfl⟩
    rintro rfl
    obtain ⟨i, hi, -⟩ := Database.source?_eq_some.mp hs
    exact hname (Std.ExtTreeMap.mem_iff_isSome_getElem?.mpr (Option.isSome_of_mem hi))
  | switch table available =>
    refine hd.fitting.of_schemas (Database.indexes_modifySource ..) fun hs => ?_
    obtain ⟨other, hother, hschema, -⟩ := Database.source?_switch hs table available
    exact ⟨other, hother, hschema⟩
  | buildIndex table field kind cancelled =>
    rw [Desk.act]
    split
    · next db hdb => exact hd.fitting.buildIndex hdb
    · exact hd.fitting
  | dropIndex table field => exact hd.fitting.dropIndex table field
  | create table | openTable table =>
    rw [Desk.act]
    split <;> exact hd.fitting
  | request i op =>
    obtain hsame | ⟨e, db, f, reply, he, hrun, hact⟩ := act_request_cases d i op
    · exact hsame.symm ▸ hd.fitting
    rw [hact]
    have hmem := List.mem_of_getElem? he
    obtain ⟨-, -, rfl | ⟨rfl, w, hw, hmodified, hwrite⟩⟩ := EditSession.run_eq_ok hrun
    · exact hd.fitting
    · have hname := hd.sound.sessions e hmem
      exact EditSession.fitting_of_write hd.fitting hname (hd.sound.different · hname) hw
        (hd.fitted e hmem w hw).2.present hmodified hwrite fun h => hmisfit ⟨e, he, h⟩

/-- The indexes of the sessions fit their fields whatever happens, as they follow the edits. -/
theorem Suited.fitted_act (hd : d.Suited) : ∀ e ∈ (d.act a).sessions, e.Fitted := by
  have hbegin {e f : EditSession} (hname : d.db.tables[e.name]? = some e.source)
      (h : e.begin d.db = .ok f) : f.Fitted :=
    EditSession.fitted_of_begin hd.sound.published hd.fitting hname hd.proper h
  cases a with
  | register source =>
    rw [Desk.act]
    split_ifs <;> exact hd.fitted
  | switch table available => exact hd.fitted
  | buildIndex table field kind cancelled =>
    rw [Desk.act]
    split <;> exact hd.fitted
  | dropIndex table field => exact hd.fitted
  | create table =>
    rw [Desk.act]
    split
    · refine List.forall_mem_append.mpr ⟨hd.fitted, List.forall_mem_singleton.mpr ?_⟩
      rintro w ⟨⟩
    · exact hd.fitted
  | openTable table =>
    rw [Desk.act]
    split
    · next e he =>
      rw [EditSession.ofTable] at he
      split at he
      · cases he
      · next i hi =>
        exact List.forall_mem_append.mpr ⟨hd.fitted, List.forall_mem_singleton.mpr (hbegin hi he)⟩
    · exact hd.fitted
  | request i op =>
    obtain hsame | ⟨e, db, f, reply, he, hrun, hact⟩ := act_request_cases d i op
    · exact hsame.symm ▸ hd.fitted
    rw [hact]
    have hmem := List.mem_of_getElem? he
    intro g hg
    rcases List.mem_or_eq_of_mem_set hg with hg | rfl
    · exact hd.fitted g hg
    · exact (hd.fitted e hmem).run (hbegin (hd.sound.sessions e hmem)) hrun

theorem Suited.act (hd : d.Suited) (ha : a.Proper) (hmisfit : ¬ d.TakesMisfit a) :
    (d.act a).Suited :=
  ⟨hd.sound.act a, hd.proper_act ha, hd.fitting_act hmisfit, hd.fitted_act⟩

/-- After a commit that takes over a misfit an index stands on a field that does not support it. -/
theorem Suited.not_fitting_act (hd : d.Suited) (h : d.TakesMisfit a) :
    ¬ (d.act a).db.Fitting := by
  cases a with
  | request i op =>
    cases op with
    | commit =>
      obtain ⟨e, he, h⟩ := h
      have hmem := List.mem_of_getElem? he
      obtain ⟨db, hrun, hnot⟩ := h.not_fitting (hd.fitted e hmem) (hd.sound.sessions e hmem)
      rw [act_request_ok he hrun]
      exact hnot
    | _ => exact h.elim
  | _ => exact h.elim

/-- From wherever all indexes fit their fields, they do so in every state that follows, exactly if
no commit takes over a misfit. -/
theorem Suited.fitting_take_iff (hd : d.Suited) {actions : List Action}
    (hproper : ∀ a ∈ actions, a.Proper) :
    (∀ k, (d.run (actions.take k)).db.Fitting) ↔
      ∀ k a, actions[k]? = some a → ¬ (d.run (actions.take k)).TakesMisfit a := by
  induction actions generalizing d with
  | nil => exact iff_of_true (fun k => by rw [List.take_nil]; exact hd.fitting) (by simp)
  | cons a actions ih =>
    obtain ⟨ha, hproper⟩ := List.forall_mem_cons.mp hproper
    by_cases hmisfit : d.TakesMisfit a
    · exact iff_of_false (fun h => hd.not_fitting_act hmisfit (h 1)) fun h => h 0 a rfl hmisfit
    · have hnext := ih (hd.act ha hmisfit) hproper
      constructor
      · intro h k b hb
        cases k with
        | zero =>
          obtain rfl := Option.some.inj hb
          exact hmisfit
        | succ k => exact hnext.mp (fun k => h (k + 1)) k b hb
      · intro h k
        cases k with
        | zero => exact hd.fitting
        | succ k => exact hnext.mpr (fun k b hb => h (k + 1) b hb) k

/-- Whatever happens, every standing index is on a field whose type supports it, as long as no
commit takes over a misfit. -/
theorem fitting_run_iff (settings : Settings) {actions : List Action}
    (hproper : ∀ a ∈ actions, a.Proper) :
    (∀ k, ((start settings).run (actions.take k)).db.Fitting) ↔
      ∀ k a, actions[k]? = some a → ¬ ((start settings).run (actions.take k)).TakesMisfit a :=
  (suited_start settings).fitting_take_iff hproper

/-- While a field is indexed, a session puts another one of another type in its place. -/
def retyping : List Action :=
  [.register EditSession.sampleSource, .openTable "t", .request 0 (.removeField 0),
    .request 0 (.addField ⟨"a", .geometry, []⟩), .buildIndex "t" "a" .attribute fun _ => false,
    .request 0 .commit]

theorem fitting_run_iff_retyping :
    (∀ a ∈ retyping, a.Proper) ∧ ((∀ k, ((start {}).run (retyping.take k)).db.Fitting) ↔
      ∀ k a, retyping[k]? = some a → ¬ ((start {}).run (retyping.take k)).TakesMisfit a) := by
  have hproper : ∀ a ∈ retyping, a.Proper := by
    simpa [retyping, Action.Proper] using EditSession.openedOn_sample.proper
  exact ⟨hproper, fitting_run_iff {} hproper⟩

/-- The index of the integers comes to stand on the field of geometries. -/
theorem misfit_published : ¬ ((start {}).run retyping).db.Fitting := by
  intro h
  have hkind : ((start {}).run retyping).db.indexes.kind? "t" "a" = some .attribute := by
    decide +kernel
  have hschema : (((start {}).run retyping).db.source? "t").map (·.schema) =
      some ⟨[⟨"a", .geometry, []⟩]⟩ := by
    decide +kernel
  obtain ⟨source, hsource, f, hf, -, hsupports⟩ := h "t" "a" .attribute hkind
  rw [hsource] at hschema
  have hfields : source.schema = ⟨[⟨"a", .geometry, []⟩]⟩ := Option.some.inj hschema
  obtain rfl := List.mem_singleton.mp (hfields ▸ hf)
  cases hsupports

end Desk

end SpatialStore
