import SpatialStore.Proofs.Editing.Lifetime
import SpatialStore.Proofs.Schema.Rows

/-!
# What a commit admits

While a table is edited only the types of new values are checked, and fields come and go with their
constraints, so the rows of a workspace may hold values that their fields do not admit. Rows that
were stored by others may even have values of other types. Committing looks at all values, and
stores the rows exactly if every one is admitted by its field (`EditSession.admitted`). Otherwise
the first value that is not admitted is reported, in the order of the rows and in a row in the order
of the fields.

No value is left out, as the rows of a session are as wide as its schema at any time of its life,
whatever was edited, undone and made again. For the same reason the source has nothing to object
to rows that are admitted.
-/

namespace SpatialStore

/-- A row without values that are refused has a value for each field that the field admits. -/
theorem Schema.forall₂_admits {fields : List Field} {row : Row}
    (hlength : row.length = fields.length) (h : ∀ c, ¬ Refuses fields row c) :
    List.Forall₂ (fun v f => Field.Admits f v) row fields := by
  refine List.forall₂_iff_get.mpr ⟨hlength, fun c hc hc' => ?_⟩
  by_contra hnot
  exact h c ⟨_, _, List.getElem?_eq_getElem hc', List.getElem?_eq_getElem hc, hnot⟩

namespace EditSession

variable {db db' : Database} {e : EditSession} {w : Workspace} {name : String} {i n : Nat}
  {field reason : String} {former : Source}

/-- A violation is reported by the commit. -/
theorem commit_of_violation (hw : e.workspace? = some w) (hmodified : w.modified = true)
    (h : w.copy.schema.firstViolation? w.copy.values = some (n, field, reason)) (db : Database) :
    e.commit db = .error (.constraintViolation n field reason) := by
  have hwrite : write db e.name e.source w = .error (.constraintViolation n field reason) := by
    rw [write]
    dsimp only
    rw [h]
    rfl
  rw [commit, workspace_eq_ok.mpr hw]
  change ite (w.modified = true) _ _ = _
  rw [if_pos hmodified, hwrite]
  rfl

/-- Whatever is reported as a violation is one. -/
theorem violation_of_commit (hw : e.workspace? = some w)
    (h : e.commit db = .error (.constraintViolation n field reason)) :
    w.copy.schema.firstViolation? w.copy.values = some (n, field, reason) := by
  obtain hclosed | ⟨w', hw', -, hwrite⟩ := commit_eq_error h
  · cases hclosed
  obtain rfl := Option.some.inj (hw.symm.trans hw')
  obtain ⟨n', field', reason', hviolation, heq⟩ | hunknown | ⟨_, _, -, -, hstorage⟩ :=
    write_eq_error hwrite
  · cases heq
    exact hviolation
  · cases hunknown
  · cases hstorage

/-- A commit lets through exactly the rows whose values are all admitted by their fields. -/
structure CommitsAdmitted (db : Database) (e : EditSession) (w : Workspace) : Prop where
  /-- Every value of a row has a field, and the other way round. -/
  width : ∀ row ∈ w.copy.values, row.length = w.copy.schema.count
  refused : (∃ n field reason, e.commit db = .error (.constraintViolation n field reason)) ↔
    ∃ n c, w.copy.schema.Unfit w.copy.values n c
  /-- The row and the field that are named are those of the first value that is not admitted. -/
  named : ∀ {n field reason}, e.commit db = .error (.constraintViolation n field reason) →
    ∃ (row : Row) (c : Nat) (f : Field) (v : Value), w.copy.schema.FirstUnfit w.copy.values n c ∧
      w.copy.values[n]? = some row ∧ row[c]? = some v ∧ w.copy.schema.fields[c]? = some f ∧
      f.name = field ∧ f.violation? v = some reason
  /-- Otherwise the commit succeeds, and all that is stored is admitted. -/
  stored : (¬ ∃ n c, w.copy.schema.Unfit w.copy.values n c) →
    ∃ db' source, e.commit db = .ok (db', { e with state := .committed }) ∧
      db'.sources[e.source]? = some source ∧ source.schema = w.copy.schema ∧
      source.rows = w.copy.values ∧
      ∀ row ∈ source.rows, List.Forall₂ (fun v f => Field.Admits f v) row source.schema.fields

/-- A session that is modified can be committed to a source that is switched on exactly if all its
values are admitted. -/
theorem admitted (hlives : Lives name i db e) (hw : e.workspace? = some w)
    (hmodified : w.modified = true) (hformer : db.sources[e.source]? = some former)
    (havailable : former.available = true) : CommitsAdmitted db e w := by
  have hwidth : ∀ row ∈ w.copy.values, row.length = w.copy.schema.count :=
    List.forall_mem_map.mpr (hlives.steady.sound hw).fresh.proper.width
  constructor
  case width => exact hwidth
  case refused =>
    constructor
    · rintro ⟨n, field, reason, h⟩
      obtain ⟨_, c, _, _, -, -, -, -, -, hfirst⟩ :=
        Schema.exists_of_firstViolation? (violation_of_commit hw h)
      exact ⟨n, c, hfirst.unfit⟩
    · rintro ⟨n, c, hunfit⟩
      cases hviolation : w.copy.schema.firstViolation? w.copy.values with
      | none => exact absurd hunfit (Schema.firstViolation?_eq_none_iff.mp hviolation n c)
      | some r => exact ⟨_, _, _, commit_of_violation hw hmodified hviolation db⟩
  case named =>
    intro n field reason h
    obtain ⟨row, c, f, v, hrow, hf, hv, hname, hreason, hfirst⟩ :=
      Schema.exists_of_firstViolation? (violation_of_commit hw h)
    exact ⟨row, c, f, v, hfirst, hrow, hv, hf, hname, hreason⟩
  case stored =>
    intro hfits
    have hnone : w.copy.schema.firstViolation? w.copy.values = none :=
      Schema.firstViolation?_eq_none_iff.mpr fun n c hunfit => hfits ⟨n, c, hunfit⟩
    obtain ⟨db', hwrite⟩ : ∃ db', write db e.name e.source w = .ok db' :=
      exists_write hnone hwidth hformer havailable
    obtain ⟨former', -, hdb'⟩ := write_eq_ok hwrite
    obtain ⟨hlt, -⟩ := List.getElem?_eq_some_iff.mp hformer
    have hstored : db'.sources[e.source]? = some
        ⟨former'.name, w.copy.schema, w.copy.values, former'.available, former'.writes + 1⟩ := by
      rw [hdb']
      exact List.getElem?_set_self hlt
    refine ⟨db', _, commit_of_write hw hmodified hwrite, hstored, rfl, rfl, fun row hrow => ?_⟩
    obtain ⟨n, hn⟩ := List.mem_iff_getElem?.mp hrow
    exact Schema.forall₂_admits (hwidth row hrow) fun c hc => hfits ⟨n, c, row, hn, hc⟩

/-- A field that takes no nulls is added to a table that has rows already. -/
theorem admitted_lateField :
    let e := (sampleSession.perform sampleDatabase (.addField ⟨"b", .int, [.notNull]⟩)).2.1
    e.commit sampleDatabase = .error (.constraintViolation 0 "b" "NULL violates NOT NULL") ∧
      ∃ w, e.workspace? = some w ∧ CommitsAdmitted sampleDatabase e w := by
  intro e
  have hproper : sampleSource.Proper := openedOn_sample.proper
  have hcreated : Lives "t" 0 sampleDatabase (create "t" 0) := .create ⟨sampleSource, rfl, hproper⟩
  have hopened : Lives "t" 0 sampleDatabase sampleSession := hcreated.perform .begin
  have hlives : Lives "t" 0 sampleDatabase e :=
    hopened.perform (.addField ⟨"b", .int, [.notNull]⟩)
  exact ⟨rfl, _, rfl, admitted hlives rfl rfl rfl rfl⟩

end EditSession

end SpatialStore
