import SpatialStore.Proofs.Editing.Published
import SpatialStore.Proofs.Join.LookupProduct

/-!
# Registering a source

Names stand for sources, and indexes stand on names. A standing index is in step with the source of
its name when it holds exactly the entries of the source's present rows (`Database.InStep`). A
commit replaces the rows and the indexes of a table together, but a source that is registered under
the name of another one takes its place without the indexes being touched. So the indexes of that
name are in step afterwards only if they happen to be those of the new source as well, while all
other tables stay in step (`Database.inStep_register`).

Where the indexes of a table are in step, lookup products over it are filtered products
(`Database.InStepAt.looksUp`). Where they are not, rows may be missing
(`Database.register_leaves_stale`), as a lookup only checks the rows that the index finds.
-/

namespace SpatialStore

/-- The index goes by the name of a field of the source, and holds exactly the entries of the values
that are stored in the field. -/
structure ColumnIndex.Mirrors (index : ColumnIndex) (source : Source) (name : String) : Prop where
  field : index.field = name
  intact : index.Intact
  holds : ∃ i, source.schema.indexOf? name = some i ∧
    index.Holds (ColumnIndex.column source.rows i)

theorem ColumnIndex.Current.mirrors {index : ColumnIndex} {settings : NodeSettings}
    {source : Source} {name : String} (h : index.Current settings source name) :
    index.Mirrors source name := by
  obtain ⟨i, hi, hbuilt⟩ := h.built
  have hnodup := ColumnIndex.nodup_column source.rows i
  obtain ⟨hholds, -⟩ := ColumnIndex.holds_build name index.kind settings hnodup
  have hintact := ColumnIndex.intact_build name index.kind settings hnodup
  rw [← hbuilt] at hholds hintact
  exact ⟨h.field, hintact, i, hi, hholds⟩

namespace Database

variable {db : Database} {table : String}

/-! ### Tables in step -/

/-- Every standing index of the table mirrors the source that the name of the table stands for. -/
def InStepAt (db : Database) (table : String) : Prop :=
  ∀ name index, db.indexes.get? table name = some index →
    ∃ source, db.source? table = some source ∧ index.Mirrors source name

/-- All tables are in step with their standing indexes. -/
def InStep (db : Database) : Prop := ∀ table, db.InStepAt table

theorem Published.inStep (h : db.Published) : db.InStep := by
  intro table name index hindex
  obtain ⟨source, hsource, hcurrent⟩ := h table name index hindex
  exact ⟨source, hsource, hcurrent.mirrors⟩

/-- The index that an access path to a table in step uses holds the stored values of its field. -/
theorem InStepAt.exists_indexFor {s : Scan} {path : AccessPath} {rows : List Row} {i : Nat}
    (h : db.InStepAt s.table) (hs : db.Current s) (hrows : db.readScan s = .ok rows)
    (hi : s.schema.indexOf? path.field = some i) :
    ∃ index, db.indexFor s path rows = .ok index ∧ index.Intact ∧ index.field = path.field ∧
      index.kind = path.kind ∧ index.Holds (ColumnIndex.column rows i) := by
  obtain ⟨source, hsource, -, rfl⟩ := readScan_eq_ok.mp hrows
  obtain ⟨hschema, -⟩ := hs source hsource
  refine Database.exists_indexFor hi fun index hget _ => ?_
  obtain ⟨other, hother, hfield, hintact, j, hj, hholds⟩ := h path.field index hget
  obtain rfl := Option.some.inj (hsource.symm.trans hother)
  obtain rfl := Option.some.inj ((hschema ▸ hi).symm.trans hj)
  exact ⟨hintact, hfield, hholds⟩

/-- Every lookup product over the table has the layout and the rows of the product of both sides on
which the predicates of its access paths are true. -/
def LooksUp (db : Database) (table : String) : Prop :=
  ∀ {p : Plan} {right : Scan} {first : AccessPath} {paths : List AccessPath} {left : ResultSet}
    {rows : List Row}, right.table = table → Plan.Probing db p right first paths left rows →
      ∃ r r', (Plan.lookup p right (first :: paths)).execute db = .ok r ∧
        (Plan.select ((first :: paths).map (·.predicate)) (.product p (.scan right))).execute db =
          .ok r' ∧ r.layout = r'.layout ∧ r.rows.Perm r'.rows

theorem InStepAt.looksUp (h : db.InStepAt table) : db.LooksUp table := by
  rintro p right first paths left rows rfl hprobing
  have hright : db.Current right :=
    hprobing.current right (List.mem_append_right _ (List.mem_singleton_self right))
  exact hprobing.same_rows fun _ hi => h.exists_indexFor hright hprobing.stored hi

/-! ### Registration -/

/-- The indexes that stand under the name of the source would be in step with it. -/
def Anticipates (db : Database) (source : Source) : Prop :=
  ∀ name index, db.indexes.get? source.name name = some index → index.Mirrors source name

variable {source : Source}

/-- No indexes stand under a name that stands for no source. -/
theorem InStep.anticipates_of_free (h : db.InStep) (hfree : db.source? source.name = none) :
    db.Anticipates source := by
  intro name index hindex
  obtain ⟨former, hformer, -⟩ := h source.name name index hindex
  rw [hfree] at hformer
  cases hformer

theorem inStepAt_register_self :
    (db.register source).InStepAt source.name ↔ db.Anticipates source := by
  refine forall₃_congr fun name index hindex => ?_
  rw [source?_register_self]
  exact ⟨fun ⟨_, hsource, h⟩ => Option.some.inj hsource ▸ h, fun h => ⟨source, rfl, h⟩⟩

/-- Other tables keep their sources and their indexes. -/
theorem InStepAt.register (h : db.InStepAt table) (hne : table ≠ source.name) :
    (db.register source).InStepAt table := by
  intro name index hindex
  obtain ⟨former, hformer, hmirrors⟩ := h name index hindex
  exact ⟨former, source?_register hformer hne, hmirrors⟩

/-- If all tables are in step with their indexes, they still are when a source is registered, except
that the indexes under its name have to be those of the source by chance. A new name has none. Where
the indexes are in step, lookup products find what they should. -/
theorem inStep_register (h : db.InStep) (source : Source) :
    (db.source? source.name = none → (db.register source).InStep) ∧
      ∀ table, ((db.register source).InStepAt table ↔
        (table = source.name → db.Anticipates source)) ∧
          ((db.register source).InStepAt table → (db.register source).LooksUp table) := by
  have hiff (table : String) : (db.register source).InStepAt table ↔
      (table = source.name → db.Anticipates source) := by
    by_cases htable : table = source.name
    · subst htable
      exact inStepAt_register_self.trans ⟨fun hsource _ => hsource, fun hsource => hsource rfl⟩
    · exact iff_of_true ((h table).register htable) fun heq => absurd heq htable
  refine ⟨fun hfree table => (hiff table).mpr fun _ => h.anticipates_of_free hfree, fun table => ?_⟩
  exact ⟨hiff table, InStepAt.looksUp⟩

/-- Towns, and the visits that were paid to them. -/
def sampleTowns : Source :=
  ⟨"town", ⟨[⟨"name", .string, []⟩]⟩, [[.string "Ash"], [.string "Elm"]], true, 0⟩

def sampleVisits : Source :=
  ⟨"visit", ⟨[⟨"town", .string, []⟩]⟩, [[.string "Ash"]], true, 0⟩

/-- The towns have an index on their names. -/
def sampleListing : Database :=
  ((Desk.start {}).run [.register sampleTowns, .register sampleVisits,
    .buildIndex "town" "name" .attribute fun _ => false]).db

/-- The scans of the visits and of the towns. -/
def visitScan : Scan := ⟨0, "visit", none, sampleVisits.schema⟩

def townScan : Scan := ⟨1, "town", none, sampleTowns.schema⟩

/-- The towns of the name that a visit has. -/
def townPath : AccessPath where
  predicateId := 0
  predicate := .compare .eq (.column ⟨some "visit", "town"⟩) (.column ⟨some "town", "name"⟩)
  scanId := 1
  field := "name"
  kind := .attribute
  adHoc := false
  lookup := .column ⟨some "visit", "town"⟩
  lookupScans := [0]

theorem inStep_sampleListing : sampleListing.InStep :=
  (Desk.sound_run {} _).published.inStep

theorem probing_towns {db : Database} (towns : Source) (htowns : db.source? "town" = some towns)
    (hvisits : db.source? "visit" = some sampleVisits) (hschema : towns.schema = sampleTowns.schema)
    (hconforms : towns.Conforms) (havailable : towns.available = true) :
    Plan.Probing db (.scan visitScan) townScan townPath []
      ⟨Layout.ofScan visitScan, sampleVisits.rows⟩ towns.rows where
  current := by
    intro s hs source hsource
    rw [Plan.scans, Plan.scans_scan, List.singleton_append, List.mem_pair] at hs
    rcases hs with rfl | rfl
    · obtain rfl := Option.some.inj (hvisits.symm.trans hsource)
      exact ⟨rfl, by decide⟩
    · obtain rfl := Option.some.inj (htowns.symm.trans hsource)
      exact ⟨hschema, hconforms⟩
  executed := by
    have hrows : db.readScan visitScan = .ok sampleVisits.rows :=
      readScan_eq_ok.mpr ⟨sampleVisits, hvisits, rfl, rfl⟩
    exact Plan.execute_scan_eq_ok.mpr ⟨⟨_, hrows⟩, (scanned_of_readScan hrows).symm⟩
  stored := readScan_eq_ok.mpr ⟨towns, htowns, havailable, rfl⟩
  leads := ⟨⟨some "town", "name"⟩, 0, ⟨"name", .string, []⟩, .inr rfl, rfl, rfl, rfl, rfl⟩
  bound := ⟨_, rfl⟩
  predicates := ⟨_, rfl⟩
  meets _ _ _ _ := trivial

/-- A source of a new name is registered, and the towns are still found. -/
theorem inStep_register_listing :
    let db := sampleListing.register EditSession.sampleSource
    sampleListing.InStep ∧ db.InStep ∧
      ∃ r r', (Plan.lookup (.scan visitScan) townScan [townPath]).execute db = .ok r ∧
        (Plan.select [townPath.predicate] (.product (.scan visitScan) (.scan townScan))).execute
          db = .ok r' ∧ r.layout = r'.layout ∧ r.rows.Perm r'.rows := by
  have hregister := inStep_register inStep_sampleListing EditSession.sampleSource
  have hstep := hregister.1 rfl
  exact ⟨inStep_sampleListing, hstep, (hregister.2 "town").2 (hstep "town") rfl
    (probing_towns sampleTowns rfl rfl rfl (by decide) rfl)⟩

/-- The towns are registered again in another order, and the index does not find them any more. -/
theorem register_leaves_stale :
    let db := sampleListing.register { sampleTowns with rows := sampleTowns.rows.reverse }
    sampleListing.InStep ∧ ¬ db.InStepAt "town" ∧
      (∃ r, (Plan.lookup (.scan visitScan) townScan [townPath]).execute db = .ok r ∧
        r.rows.length = 0) ∧
      ∃ r, (Plan.select [townPath.predicate]
        (.product (.scan visitScan) (.scan townScan))).execute db = .ok r ∧ r.rows.length = 1 := by
  intro db
  obtain ⟨r, hr, hnone⟩ : ∃ r, (Plan.lookup (.scan visitScan) townScan [townPath]).execute db =
      .ok r ∧ r.rows.length = 0 := ⟨_, rfl, by decide +kernel⟩
  obtain ⟨r', hr', hone⟩ : ∃ r, (Plan.select [townPath.predicate]
      (.product (.scan visitScan) (.scan townScan))).execute db = .ok r ∧ r.rows.length = 1 :=
    ⟨_, rfl, by decide +kernel⟩
  refine ⟨inStep_sampleListing, fun h => ?_, ⟨r, hr, hnone⟩, r', hr', hone⟩
  -- in step, the lookup would have found the town
  obtain ⟨s, s', hs, hs', -, hperm⟩ := h.looksUp rfl
    (probing_towns { sampleTowns with rows := sampleTowns.rows.reverse } rfl rfl rfl (by decide)
      rfl)
  obtain rfl := Except.ok.inj (hr.symm.trans hs)
  obtain rfl := Except.ok.inj (hr'.symm.trans hs')
  have hlength := hperm.length_eq
  rw [hnone, hone] at hlength
  cases hlength

end Database

end SpatialStore
