import SpatialStore.Proofs.Editing.Commit
import SpatialStore.Proofs.Editing.Session

/-!
# Reconciling indexes

While a session is open, indexes on its table may be dropped and others built. A commit reconciles
the indexes of the workspace with what has happened name by name: an index that stood under a name
when the session was opened is given up if none stands there any more, and one that has come to
stand is kept (`EditSession.getElem?_committedKinds`).

The indexes of the workspace follow the renames of their fields, those that stand do not. To say
what becomes of the index of a field, the field is followed back through the edits to the name that
it had when the session was opened (`Workspace.origins`), because this is the name under which its
index is dropped or built meanwhile. A commit however looks under the name that the field has now,
so it does the right thing exactly if the same has happened under both names
(`EditSession.outcome_commit`). That is so for a field that keeps its name
(`EditSession.Outcome.of_same_name`), whereas the dropped index of a field that was renamed comes
back (`EditSession.dropped_index_returns`).
-/

namespace SpatialStore

open WorkingCopy (View)

/-! ### Where fields come from -/

/-- The origins of the fields, by their positions, after an edit. A new field has none. -/
def Edit.carry (e : Edit) (origins : List (Option String)) : List (Option String) :=
  match e with
  | .addField i _ => origins.insertIdx i none
  | .removeField i _ _ _ => origins.eraseIdx i
  | _ => origins

/-- The names that the fields had in the schema with which the workspace was opened, by their
present positions. -/
def Workspace.origins (w : Workspace) (schema : Schema) : List (Option String) :=
  w.undo.foldr Edit.carry (schema.names.map some)

/-- Every field is indexed as its origin was in a former view, or not at all if it has none. -/
structure Traced (x : View) (origins : List (Option String)) (y : View) : Prop where
  length : origins.length = y.schema.count
  kinds : ∀ {c : Nat} {f : Field} {origin : Option String}, y.schema.fields[c]? = some f →
    origins[c]? = some origin → y.kinds f.name = origin.bind x.kinds

variable {x y z : View} {origins : List (Option String)} {e : Edit} {es : List Edit}

theorem traced_refl (x : View) : Traced x (x.schema.names.map some) x := by
  refine ⟨by rw [List.length_map, Schema.names, List.length_map]; rfl, fun {c f o} hf ho => ?_⟩
  rw [List.getElem?_map, Schema.names, List.getElem?_map, hf] at ho
  obtain rfl := Option.some.inj ho
  rfl

private theorem Traced.addField {i : Nat} {f : Field} (h : Traced x origins y)
    (hi : i ≤ y.schema.fields.length) (hkind : y.kinds f.name = none) {rows : List NumberedRow} :
    Traced x (origins.insertIdx i none) ⟨⟨y.schema.fields.insertIdx i f⟩, rows, y.kinds⟩ := by
  have hi' : i ≤ origins.length := h.length ▸ hi
  refine ⟨?_, fun {c g o} hg ho => ?_⟩
  · rw [List.length_insertIdx_of_le_length hi', h.length, Schema.count, Schema.count,
      List.length_insertIdx_of_le_length hi]
  · dsimp only at hg ⊢
    rw [List.getElem?_insertIdx] at hg ho
    rcases Nat.lt_trichotomy c i with hc | rfl | hc
    · rw [if_pos hc] at hg ho
      exact h.kinds hg ho
    · rw [if_neg (Nat.lt_irrefl c), if_pos rfl, if_pos hi] at hg
      rw [if_neg (Nat.lt_irrefl c), if_pos rfl, if_pos hi'] at ho
      obtain rfl := Option.some.inj hg
      obtain rfl := Option.some.inj ho
      exact hkind
    · rw [if_neg (Nat.lt_asymm hc), if_neg (Nat.ne_of_gt hc)] at hg ho
      exact h.kinds hg ho

private theorem Traced.removeField {i : Nat} {f : Field} (h : Traced x origins y)
    (hschema : y.schema.Proper) (hf : y.schema.fields[i]? = some f) {rows : List NumberedRow} :
    Traced x (origins.eraseIdx i) ⟨⟨y.schema.fields.eraseIdx i⟩, rows,
      fun name => if name = f.name then none else y.kinds name⟩ := by
  obtain ⟨hlt, -⟩ := List.getElem?_eq_some_iff.mp hf
  have hlt' : i < origins.length := h.length ▸ hlt
  refine ⟨?_, fun {c g o} hg ho => ?_⟩
  · rw [List.length_eraseIdx_of_lt hlt', h.length, Schema.count, Schema.count,
      List.length_eraseIdx_of_lt hlt]
  · dsimp only at hg ⊢
    rw [List.getElem?_eraseIdx] at hg ho
    -- the others have other names
    have hother {d : Nat} (hd : y.schema.fields[d]? = some g) (hne : d ≠ i) : g.name ≠ f.name :=
      fun heq => hne (hschema.inj hd hf heq)
    split_ifs at hg ho with hc
    · rw [if_neg (hother hg (Nat.ne_of_lt hc))]
      exact h.kinds hg ho
    · rw [if_neg (hother hg (by omega))]
      exact h.kinds hg ho

private theorem Traced.renameField {i : Nat} {f : Field} {new : String} (h : Traced x origins y)
    (hschema : y.schema.Proper) (hf : y.schema.fields[i]? = some f)
    (hnew : new = f.name ∨ new ∉ y.schema.names) :
    Traced x origins ⟨⟨y.schema.fields.set i { f with name := new }⟩, y.rows, fun name =>
      if name = new then y.kinds f.name else if name = f.name then none else y.kinds name⟩ := by
  refine ⟨h.length.trans List.length_set.symm, fun {c g o} hg ho => ?_⟩
  dsimp only at hg ⊢
  rw [List.getElem?_set] at hg
  split_ifs at hg with hc hlt
  · subst hc
    obtain rfl := Option.some.inj hg
    rw [if_pos rfl]
    exact h.kinds hf ho
  · -- no other field has the new name
    have hother : g.name ≠ f.name := fun heq => hc (hschema.inj hg hf heq).symm
    have hne : g.name ≠ new := by
      rcases hnew with rfl | hnew
      · exact hother
      · exact fun heq => hnew (heq ▸ Schema.mem_names_of_getElem? hg)
    rw [if_neg hne, if_neg hother]
    exact h.kinds hg ho

theorem Traced.lead (h : Traced x origins y) (hy : y.Proper) (hlead : e.Leads y z) :
    Traced x (e.carry origins) z := by
  cases hlead with
  | insertRow | deleteRow | setValue => exact ⟨h.length, h.kinds⟩
  | addField hi _ hkind => exact h.addField hi hkind
  | removeField hf => exact h.removeField hy.schema hf
  | renameField hf hnew => exact h.renameField hy.schema hf (hnew.imp_right And.left)

theorem Traced.course (h : Traced x origins y) (hcourse : Course y es z) :
    Traced x (es.foldl (fun origins e => e.carry origins) origins) z := by
  induction hcourse generalizing origins with
  | nil => exact h
  | cons hy hlead _ ih => exact ih (h.lead hy hlead)

theorem traced_origins {w : Workspace} (h : Course x w.undo.reverse w.copy.view) :
    Traced x (w.origins x.schema) w.copy.view := by
  have htraced := (traced_refl x).course h
  rwa [List.foldl_reverse] at htraced

/-! ### Which indexes a commit builds -/

namespace EditSession

/-- Indexes that stand are added under names that were free when the session was opened, unless
the workspace has one under the name. -/
private theorem getElem?_added (opened : List String) (standing : List (String × IndexKind))
    (kinds : Std.ExtTreeMap String IndexKind) (name : String) :
    (standing.foldl (fun kinds x =>
      if x.1 ∈ opened then kinds else kinds.insertIfNew x.1 x.2) kinds)[name]? =
      if name ∈ opened then kinds[name]? else kinds[name]?.or (standing.lookup name) := by
  induction standing generalizing kinds with
  | nil => simp
  | cons x standing ih =>
    rw [List.foldl_cons, ih, List.lookup_cons]
    by_cases hname : name = x.1
    · subst hname
      split_ifs with hopened
      · rfl
      · rw [Maps.getElem?_insertIfNew, if_pos rfl, beq_self_eq_true, Option.or_assoc]
        rfl
    · have hsame : (if x.1 ∈ opened then kinds else kinds.insertIfNew x.1 x.2)[name]? =
          kinds[name]? := by
        split_ifs
        · rfl
        · rw [Maps.getElem?_insertIfNew, if_neg hname]
      rw [hsame, beq_eq_false_iff_ne.mpr hname]

/-- Under a name that was indexed when the session was opened, the index of the workspace goes on as
long as one stands there. Under any other name, one that stands joins those of the workspace. -/
theorem getElem?_committedKinds (opened : List String) (working : TableIndexes)
    (r : IndexRegistry) (table name : String) :
    (committedKinds opened working (r.fields table))[name]? =
      if name ∈ opened then
        if (r.kind? table name).isSome then working[name]?.map (·.kind) else none
      else (working[name]?.map (·.kind)).or (r.kind? table name) := by
  have hstanding : (r.fields table).any (·.1 == name) = (r.kind? table name).isSome := by
    rw [← r.lookup_fields, Bool.eq_iff_iff, List.any_eq_true, List.lookup_isSome_iff]
    simp only [beq_iff_eq, eq_comm (a := name)]
  rw [committedKinds, getElem?_added, r.lookup_fields, Std.ExtTreeMap.getElem?_filterMap']
  simp only [hstanding]
  by_cases hopened : name ∈ opened
  · cases working[name]? <;> simp [hopened]
  · cases working[name]? <;> simp [hopened]

variable {db db' db'' : Database} {former e₁ e f : EditSession} {source : Source} {w : Workspace}
  {c : Nat} {g : Field} {a : String}

/-- The kinds of the indexes that a table has after its workspace was written. -/
theorem kind?_of_write {table : String} {source : Nat} (h : write db table source w = .ok db')
    (name : String) : db'.indexes.kind? table name =
      if w.copy.schema.hasField name then
        (committedKinds w.opened w.copy.indexes (db.indexes.fields table))[name]?
      else none := by
  obtain ⟨_, -, rfl⟩ := write_eq_ok h
  rw [IndexRegistry.kind?, IndexRegistry.get?_replaceTable, if_pos rfl, published,
    getElem?_rebuild, Schema.hasField]
  cases (committedKinds w.opened w.copy.indexes (db.indexes.fields table))[name]? with
  | none => split_ifs <;> rfl
  | some kind =>
    cases w.copy.schema.indexOf? name with
    | none => rfl
    | some i =>
      have hnodup := ColumnIndex.nodup_column w.copy.values i
      exact congrArg some (ColumnIndex.holds_build name kind db.settings.nodes hnodup).2.2

/-- The index that a field has after a commit. -/
theorem kind?_commit (hw : e.workspace? = some w) (hmodified : w.modified = true)
    (hcommit : e.commit db = .ok (db', f)) (hfield : w.copy.schema.fields[c]? = some g) :
    db'.indexes.kind? e.name g.name =
      (committedKinds w.opened w.copy.indexes (db.indexes.fields e.name))[g.name]? := by
  obtain ⟨v, hv, -, ⟨hclean, -⟩ | ⟨-, hwrite⟩⟩ := commit_eq_ok hcommit
  · obtain rfl := Option.some.inj (hw.symm.trans hv)
    rw [hmodified] at hclean
    cases hclean
  obtain rfl := Option.some.inj (hw.symm.trans hv)
  rw [kind?_of_write hwrite, if_pos]
  exact Schema.hasField_iff.mpr (Schema.mem_names_of_getElem? hfield)

/-! ### What becomes of the index of a field -/

/-- The kind of the index that stands on a field. -/
def standing (db : Database) (table : String) (schema : Schema) (name : String) :
    Option IndexKind :=
  if schema.hasField name then db.indexes.kind? table name else none

theorem kinds_ofRows (db : Database) (table : String) (schema : Schema) (rows : List Row) :
    (Workspace.ofRows schema rows (db.indexes.ofTable table)).copy.view.kinds =
      standing db table schema := by
  refine funext fun name => ?_
  change Option.map _ ((db.indexes.ofTable table).filter fun name _ => schema.hasField name)[name]?
    = _
  rw [Std.ExtTreeMap.getElem?_filter', standing, IndexRegistry.kind?, IndexRegistry.get?]
  cases schema.hasField name <;> cases (db.indexes.ofTable table)[name]? <;> rfl

theorem mem_opened_ofRows (db : Database) (table : String) (schema : Schema) (rows : List Row)
    (name : String) :
    name ∈ (Workspace.ofRows schema rows (db.indexes.ofTable table)).opened ↔
      (standing db table schema name).isSome = true := by
  rw [← kinds_ofRows db table schema rows]
  change name ∈ ((db.indexes.ofTable table).filter fun name _ => schema.hasField name).keys ↔
    (Option.map _ ((db.indexes.ofTable table).filter fun name _ => schema.hasField name)[name]?
      ).isSome = true
  rw [Std.ExtTreeMap.mem_keys, Option.isSome_map, Std.ExtTreeMap.isSome_getElem?_iff_mem]

theorem Reaches.name_eq (hreaches : e₁.Reaches e) : e.name = e₁.name := by
  induction hreaches with
  | refl => rfl
  | @step f d op _ _ ih =>
    rw [perform]
    cases hrun : f.run d op with
    | error err => exact ih
    | ok result => exact (run_eq_ok hrun).1.trans ih

/-- In a session that is reached every field is indexed as its origin was when the session was
opened. -/
theorem Reaches.traced (hreaches : e₁.Reaches e) (h : OpenedOn db former e₁ source)
    (hw : e.workspace? = some w) :
    ∃ x : View, x.kinds = standing db former.name source.schema ∧
      Traced x (w.origins source.schema) w.copy.view ∧
      ∀ name, name ∈ w.opened ↔ (x.kinds name).isSome = true := by
  obtain ⟨w₁, hw₁, hsound₁⟩ := h.exists_sound
  obtain ⟨other, -, hstored, he₁⟩ := begin_eq_ok h.opened
  obtain rfl := Option.some.inj (h.stored.symm.trans hstored)
  obtain rfl : .ofRows source.schema source.rows (db.indexes.ofTable former.name) = w₁ := by
    rw [he₁] at hw₁
    exact Option.some.inj hw₁
  let start := Workspace.ofRows source.schema source.rows (db.indexes.ofTable former.name)
  obtain ⟨v, hv, -, hcourse, hopened⟩ := hreaches.exists_workspace
    (P := fun w => Course start.copy.view w.undo.reverse w.copy.view ∧ w.opened = start.opened)
    hw₁ hsound₁ ⟨.nil _, rfl⟩ fun hsound hP hstep =>
      ⟨hsound.course_step hP.1 hstep, hstep.opened.trans hP.2⟩
  obtain rfl := Option.some.inj (hw.symm.trans hv)
  have hkinds : start.copy.view.kinds = standing db former.name source.schema :=
    kinds_ofRows db former.name source.schema source.rows
  refine ⟨start.copy.view, hkinds, traced_origins hcourse, fun name => ?_⟩
  rw [hopened, hkinds]
  exact mem_opened_ofRows db former.name source.schema source.rows name

section Outcome

variable (before meanwhile after : String → Option IndexKind)

/-- The index that stood under a name does not stand any more. -/
def Dropped (name : String) : Prop := before name ≠ none ∧ meanwhile name = none

/-- An index has come to stand under a name. -/
def Built (name : String) (kind : IndexKind) : Prop :=
  before name = none ∧ meanwhile name = some kind

/-- What a commit does about the index of a field that was called `a` and is called `b` now. -/
structure Outcome (a b : String) : Prop where
  /-- A dropped index stays away exactly if one was dropped under the new name as well. -/
  dropped : Dropped before meanwhile a → (after b = none ↔ Dropped before meanwhile b)
  /-- Any other index that stood goes on exactly if none was dropped under the new name either. -/
  kept : ∀ {kind : IndexKind}, before a = some kind → ¬ Dropped before meanwhile a →
    (after b = some kind ↔ ¬ Dropped before meanwhile b)
  /-- An index that was built goes on exactly if one was built under the new name as well. -/
  built : ∀ {kind : IndexKind}, Built before meanwhile a kind →
    (after b = some kind ↔ Built before meanwhile b kind)

variable {before meanwhile after} {a b : String}

theorem outcome_of_kind (h : after b = if (before b).isSome then
    if (meanwhile b).isSome then before a else none else (before a).or (meanwhile b)) :
    Outcome before meanwhile after a b := by
  constructor
  case dropped =>
    rintro ⟨ha, -⟩
    obtain ⟨kind, ha⟩ := Option.ne_none_iff_exists'.mp ha
    rw [h, ha]
    cases hb : before b <;> cases hm : meanwhile b <;> simp [Dropped, hb, hm]
  case kept =>
    intro kind ha _
    rw [h, ha]
    cases hb : before b <;> cases hm : meanwhile b <;> simp [Dropped, hb, hm]
  case built =>
    rintro kind ⟨ha, -⟩
    rw [h, ha]
    cases hb : before b <;> cases hm : meanwhile b <;> simp [Built, hb, hm]

/-- A field that keeps its name has afterwards the index that it should have. -/
theorem Outcome.of_same_name (h : Outcome before meanwhile after a a) :
    (Dropped before meanwhile a → after a = none) ∧
      (∀ kind, before a = some kind → ¬ Dropped before meanwhile a → after a = some kind) ∧
        ∀ kind, Built before meanwhile a kind → after a = some kind :=
  ⟨fun hdropped => (h.dropped hdropped).mpr hdropped,
    fun _ ha hkept => (h.kept ha hkept).mpr hkept, fun _ hbuilt => (h.built hbuilt).mpr hbuilt⟩

end Outcome

/-- Committing treats the index of a field as it should exactly if the same has happened under the
name that the field has now and under the name that it had when the session was opened. Nothing is
assumed of the database at the commit, so this is about all that can happen to indexes meanwhile. -/
theorem outcome_commit (h : OpenedOn db former e₁ source) (hreaches : e₁.Reaches e)
    (hw : e.workspace? = some w) (hmodified : w.modified = true)
    (hcommit : e.commit db' = .ok (db'', f)) (hfield : w.copy.schema.fields[c]? = some g)
    (horigin : (w.origins source.schema)[c]? = some (some a)) :
    Outcome (standing db former.name source.schema) (db'.indexes.kind? former.name)
      (db''.indexes.kind? former.name) a g.name := by
  have hname : e.name = former.name := by
    obtain ⟨_, -, -, rfl⟩ := begin_eq_ok h.opened
    exact hreaches.name_eq
  obtain ⟨x, hkinds, htraced, hopened⟩ := hreaches.traced h hw
  refine outcome_of_kind ?_
  have hworking : w.copy.indexes[g.name]?.map (·.kind) = x.kinds a :=
    htraced.kinds hfield horigin
  rw [← hname, kind?_commit hw hmodified hcommit hfield, getElem?_committedKinds, hworking]
  simp only [hopened, hkinds, hname]

/-- The index of a field that was renamed, without any other change of the indexes. -/
theorem outcome_commit_renamed :
    let e := (sampleSession.perform sampleDatabase (.renameField 0 "b")).2.1
    ∃ db f, e.commit sampleDatabase = .ok (db, f) ∧
      Outcome (standing sampleDatabase "t" sampleSource.schema)
        (sampleDatabase.indexes.kind? "t") (db.indexes.kind? "t") "a" "b" :=
  ⟨_, _, rfl, outcome_commit (c := 0) (g := ⟨"b", .int, []⟩) openedOn_sample
    (.step sampleDatabase (.renameField 0 "b") .refl rfl) rfl rfl rfl rfl rfl⟩

/-- The index of a field that is renamed is dropped, and comes back by the commit. -/
theorem dropped_index_returns :
    let e := (sampleSession.perform sampleDatabase (.renameField 0 "b")).2.1
    let meanwhile := sampleDatabase.dropIndex "t" "a"
    e.workspace?.map (·.origins sampleSource.schema) = some [some "a"] ∧
      Dropped (standing sampleDatabase "t" sampleSource.schema)
        (meanwhile.indexes.kind? "t") "a" ∧
      ∃ db f, e.commit meanwhile = .ok (db, f) ∧ db.indexes.kind? "t" "b" = some .attribute :=
  ⟨by decide +kernel, ⟨by decide +kernel, by decide +kernel⟩, _, _, rfl, by decide +kernel⟩

end EditSession

end SpatialStore
