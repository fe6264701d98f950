import SpatialStore.Proofs.Query.Scans

/-!
# Products of scans

A *product tree* is a plan of products over scans, grouped in any way. What it does is a matter of
its leaves alone: it executes them from left to right, fails as the first of them that fails, and
multiplies the results (`Plan.ProductTree.execute_eq`). The product of results is associative, so
the grouping leaves no trace, neither in the order of the columns nor in that of the rows.

An optimizer may therefore forget the tree and keep the list of its leaves: the product that is
formed of the list, which is grouped to the left, has the same columns and the same outcome
(`Plan.ProductTree.regrouped`). If no leaf fails, the outcome is the product of the stored rows
(`Plan.execute_of_productLeaves?`).
-/

namespace SpatialStore.Plan

variable {db : Database} {p q : Plan} {scans : List Scan}

/-- The plan consists of products over scans. -/
inductive ProductTree : Plan → Prop
  | scan (s : Scan) : ProductTree (.scan s)
  | product {p q : Plan} : ProductTree p → ProductTree q → ProductTree (.product p q)

/-! ### Leaves -/

/-- Product trees are the plans that have leaves, and these are all their scans. -/
theorem productLeaves?_eq_some_iff :
    p.productLeaves? = some scans ↔ p.ProductTree ∧ p.scans = scans := by
  constructor
  · intro h
    induction p generalizing scans with
    | scan s =>
      cases h
      exact ⟨.scan s, rfl⟩
    | product p q ihp ihq =>
      rw [productLeaves?] at h
      split at h
      · next ss ts hss hts =>
        cases h
        obtain ⟨hp, rfl⟩ := ihp hss
        obtain ⟨hq, rfl⟩ := ihq hts
        exact ⟨.product hp hq, rfl⟩
      · cases h
    | select | project | lookup => cases h
  · rintro ⟨h, rfl⟩
    induction h with
    | scan s => rfl
    | product _ _ ihp ihq => rw [productLeaves?, ihp, ihq, scans_product]

/-- A product that is grouped to the left goes through its factors in order. -/
private theorem ProductTree.foldl (hp : p.ProductTree) (scans : List Scan) :
    (scans.foldl (fun p s => .product p (.scan s)) p).ProductTree ∧
      (scans.foldl (fun p s => .product p (.scan s)) p).scans = p.scans ++ scans := by
  induction scans generalizing p with
  | nil => simp [hp]
  | cons s scans ih =>
    obtain ⟨htree, hscans⟩ := ih (.product hp (.scan s))
    refine ⟨htree, ?_⟩
    rw [List.foldl_cons, hscans]
    simp

/-- Some scans, at least one, have a product, and it is a product tree with these leaves. -/
theorem exists_productOf? (h : scans ≠ []) :
    ∃ q, productOf? scans = some q ∧ q.ProductTree ∧ q.scans = scans := by
  obtain ⟨s, scans, rfl⟩ := List.exists_cons_of_ne_nil h
  exact ⟨_, rfl, ProductTree.foldl (.scan s) scans⟩

theorem scans_of_productLeaves? (h : p.productLeaves? = some scans) : p.scans = scans := by
  rw [productLeaves?_eq_some_iff] at h
  exact h.2

theorem ProductTree.scans_ne_nil (h : p.ProductTree) : p.scans ≠ [] := by
  induction h with
  | scan s => simp
  | product _ _ ihp _ => simp [ihp]

/-! ### Columns and rows -/

/-- The columns of a product tree are those of its leaves. -/
theorem ProductTree.layout_eq (h : p.ProductTree) : p.layout = .ok (.ofScans p.scans) := by
  induction h with
  | scan s => simp [layout, Layout.ofScans, pure, Except.pure]
  | product _ _ ihp ihq =>
    rw [layout, Result.bind_of_eq_ok ihp, Result.bind_of_eq_ok ihq, scans_product,
      Layout.ofScans_append]
    rfl

/-- A product tree executes its leaves one after the other and multiplies their results. -/
theorem ProductTree.execute_eq (h : p.ProductTree) :
    p.execute db =
      (p.scans.mapM fun s => (Plan.scan s).execute db).map ResultSet.productAll := by
  induction h with
  | scan s =>
    rw [scans_scan, List.mapM_cons, List.mapM_nil]
    cases hs : (Plan.scan s).execute db with
    | error e => rfl
    | ok r => exact congrArg Except.ok (ResultSet.product_unit r).symm
  | @product p q _ _ ihp ihq =>
    rw [execute, ihp, ihq, scans_product, List.mapM_append]
    -- a leaf on the left that fails comes first on both sides
    cases p.scans.mapM fun s => (Plan.scan s).execute db with
    | error e => rfl
    | ok rs =>
      cases q.scans.mapM fun s => (Plan.scan s).execute db with
      | error e => rfl
      | ok ss => exact congrArg Except.ok (ResultSet.productAll_append rs ss).symm

/-- A product of scans yields the product of the stored rows, and so none of them fails. -/
theorem execute_of_productLeaves? {r : ResultSet} (hp : p.productLeaves? = some scans)
    (h : p.execute db = .ok r) :
    r = db.scannedAll scans ∧ ∀ s ∈ scans, ∃ rows, db.readScan s = .ok rows := by
  rw [productLeaves?_eq_some_iff] at hp
  obtain ⟨htree, rfl⟩ := hp
  rw [htree.execute_eq] at h
  obtain ⟨rs, hrs, rfl⟩ := Result.map_eq_ok.mp h
  obtain ⟨hread, rfl⟩ := (Result.mapM_eq_ok_of fun _ _ => execute_scan_eq_ok).mp hrs
  exact ⟨rfl, hread⟩

/-- Only the leaves of a product tree matter. They are its scans, their columns are its columns, and
the product that is formed of them has the same outcome on every database: the same columns and the
same rows in the same order, or the same error. -/
theorem ProductTree.regrouped (h : p.ProductTree) :
    p.productLeaves? = some p.scans ∧ p.layout = .ok (.ofScans p.scans) ∧
      ∃ q, productOf? p.scans = some q ∧ ∀ db, p.execute db = q.execute db := by
  obtain ⟨q, hq, htree, hscans⟩ := exists_productOf? h.scans_ne_nil
  refine ⟨productLeaves?_eq_some_iff.mpr ⟨h, rfl⟩, h.layout_eq, q, hq, fun db => ?_⟩
  rw [h.execute_eq, htree.execute_eq, hscans]

/-- A product of three scans that is grouped to the right. -/
theorem ProductTree.regrouped_rightward :
    let road : Scan := ⟨0, "road", none, ⟨[⟨"name", .string, []⟩]⟩⟩
    let other : Scan := ⟨1, "road", some "other", ⟨[⟨"name", .string, []⟩]⟩⟩
    let town : Scan := ⟨2, "town", none, ⟨[⟨"at", .geometry, []⟩]⟩⟩
    let p : Plan := .product (.scan road) (.product (.scan other) (.scan town))
    p.ProductTree ∧ p.productLeaves? = some [road, other, town] ∧
      p.layout = .ok (.ofScans [road, other, town]) ∧
      ∀ db, p.execute db =
        (Plan.product (.product (.scan road) (.scan other)) (.scan town)).execute db := by
  intro road other town p
  have hp : p.ProductTree := .product (.scan road) (.product (.scan other) (.scan town))
  obtain ⟨hleaves, hlayout, q, hq, hexecute⟩ := ProductTree.regrouped hp
  cases hq
  exact ⟨hp, hleaves, hlayout, hexecute⟩

end SpatialStore.Plan
