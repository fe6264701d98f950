import SpatialStore.Proofs.Query.Execution

/-!
# The layout of a plan

The columns of a plan are known before a row is read: `Plan.layout` goes through the operators of
the plan and `Plan.execute` finds the columns again while it produces the rows. The two agree
(`Plan.layout_of_execute`), although a projection leaves out positions beyond a row without saying
so, and a lookup product has a right side that is no plan of its own.

Whether the rows are as wide as the layout depends on what is stored. If every table has rows as
wide as the schema that its scan goes by, then no operator ever loses a value, and a position that
is found in the layout is one of every row (`Plan.execute_fits_layout`).
-/

namespace SpatialStore

variable {db : Database} {r : ResultSet} {p : Plan}

/-- A name that designates a column designates a value of every row, if the rows are as wide as the
layout. -/
theorem ResultSet.Regular.lt_of_resolve (hr : r.Regular) {f : FieldName} {i : Nat}
    (h : r.layout.resolve f = .ok i) : ∀ row ∈ r.rows, i < row.length := by
  intro row hrow
  rw [hr row hrow]
  exact Layout.lt_of_resolve h

namespace Plan

/-- The columns of what a plan yields are those that it is known to have. -/
theorem layout_of_execute (h : p.execute db = .ok r) : p.layout = .ok r.layout := by
  induction p generalizing r with
  | scan s =>
    obtain ⟨-, rfl⟩ := execute_scan_eq_ok.mp h
    rfl
  | select ps p ih =>
    obtain ⟨input, bs, hinput, -, rfl⟩ := execute_select_eq_ok.mp h
    exact ih (r := input) hinput
  | project fs p ih =>
    -- the names are resolved in the layout of the rows, which is the one that was known
    obtain ⟨input, positions, hinput, hpositions, rfl⟩ := execute_project_eq_ok.mp h
    rw [layout, Result.bind_of_eq_ok (ih hinput), Result.bind_of_eq_ok hpositions]
    rfl
  | product p q ihp ihq =>
    obtain ⟨left, right, hleft, hright, rfl⟩ := execute_product_eq_ok.mp h
    rw [layout, Result.bind_of_eq_ok (ihp hleft), Result.bind_of_eq_ok (ihq hright)]
    rfl
  | lookup p s paths ih =>
    cases paths with
    | nil => cases h
    | cons first paths =>
      obtain ⟨left, hleft, h⟩ := Result.bind_eq_ok.mp h
      obtain ⟨rows, lookup, bs, index, -, -, -, -, -, rfl⟩ := executeLookup_eq_ok.mp h
      rw [layout, Result.bind_of_eq_ok (ih hleft)]
      rfl

/-- What a plan yields has the columns that the plan is known to have. If the stored rows are as
wide as the schemas of the scans, every row has one value for each column, and so every position
that a name is resolved to is a position of every row. -/
theorem execute_fits_layout (h : p.execute db = .ok r) :
    p.layout = .ok r.layout ∧
      ((∀ s ∈ p.scans, db.Aligned s) →
        (∀ row ∈ r.rows, row.length = r.layout.length) ∧
          ∀ f i, r.layout.resolve f = .ok i → ∀ row ∈ r.rows, i < row.length) := by
  refine ⟨layout_of_execute h, fun hscans => ?_⟩
  have hregular := regular_of_aligned hscans h
  exact ⟨hregular, fun f i hi => hregular.lt_of_resolve hi⟩

/-- Rivers, and the bridges over them. -/
def sampleBridges : Database :=
  ⟨{},
    [⟨"bridge", ⟨[⟨"over", .string, []⟩, ⟨"span", .int, []⟩]⟩,
      [[.string "Aller", .int 80], [.string "Elbe", .int 500]], true, 0⟩,
    ⟨"river", ⟨[⟨"name", .string, []⟩, ⟨"length", .int, []⟩]⟩,
      [[.string "Elbe", .int 1094], [.string "Weser", .int 452]], true, 0⟩],
    (∅ : Std.ExtTreeMap String Nat).insertMany [("bridge", 0), ("river", 1)], .empty⟩

/-- How long the rivers are that have bridges, found through an index on their names. -/
def sampleCrossings : Plan :=
  .project [⟨some "river", "length"⟩, ⟨none, "span"⟩]
    (.lookup (.scan ⟨0, "bridge", none, ⟨[⟨"over", .string, []⟩, ⟨"span", .int, []⟩]⟩⟩)
      ⟨1, "river", none, ⟨[⟨"name", .string, []⟩, ⟨"length", .int, []⟩]⟩⟩
      [{ predicateId := 0
         predicate := .compare .eq (.column ⟨none, "over"⟩) (.column ⟨none, "name"⟩)
         scanId := 1
         field := "name"
         kind := .attribute
         adHoc := true
         lookup := .column ⟨some "bridge", "over"⟩
         lookupScans := [0] }])

theorem execute_fits_layout_crossings :
    ∃ r, sampleCrossings.execute sampleBridges = .ok r ∧ r.rows.length = 1 ∧
      sampleCrossings.layout = .ok r.layout ∧
      (∀ row ∈ r.rows, row.length = r.layout.length) ∧
      ∀ f i, r.layout.resolve f = .ok i → ∀ row ∈ r.rows, i < row.length := by
  have haligned : ∀ s ∈ sampleCrossings.scans, sampleBridges.Aligned s := by
    intro s hs source hsource
    simp only [sampleCrossings, scans, List.singleton_append, List.mem_pair] at hs
    rcases hs with rfl | rfl
    · cases hsource
      decide
    · cases hsource
      decide
  obtain ⟨r, hr, hone⟩ :
      ∃ r, sampleCrossings.execute sampleBridges = .ok r ∧ r.rows.length = 1 :=
    ⟨_, rfl, by decide +kernel⟩
  obtain ⟨hlayout, hrows⟩ := execute_fits_layout hr
  exact ⟨r, hr, hone, hlayout, hrows haligned⟩

end Plan

end SpatialStore
