import Mathlib.Data.List.Perm.Subperm
import SpatialStore.Proofs.Query.Names

/-!
# Results with rearranged columns

A result *rearranges* another one when a permutation of the columns takes the layout to the layout
and the rows to the rows, up to the order of the rows (`ResultSet.Rearranges`). This is an
equivalence on results whose rows are as wide as their layout, and every operator of a plan respects
it: names designate the same columns after a rearrangement (`Layout.resolve_project`), so
predicates, projections and lookups see the same values.

A name designates its column whatever the other columns are, as long as none of them answers to it.
So columns may not only change their places but also be dropped, if those that are named are kept
(`Layout.resolve_kept`).
-/

namespace SpatialStore

/-! ### Positions of a list -/

/-- The elements at some positions. -/
def pick {α : Type} (xs : List α) (σ : List Nat) : List α := σ.filterMap fun i => xs[i]?

section Pick

variable {α β : Type} {xs ys : List α} {σ τ : List Nat} {n : Nat}

theorem Row.project_eq_pick (row : Row) (σ : List Nat) : Row.project row σ = pick row σ := rfl

theorem Layout.project_eq_pick (l : Layout) (σ : List Nat) : l.project σ = pick l σ := rfl

theorem pick_eq_map (h : ∀ i ∈ σ, i < xs.length) :
    (pick xs σ).map some = σ.map fun i => xs[i]? := by
  induction σ with
  | nil => rfl
  | cons i σ ih =>
    have hi := List.getElem?_eq_getElem (h i List.mem_cons_self)
    rw [pick, List.filterMap_cons, hi, List.map_cons, List.map_cons, hi]
    exact congrArg _ (ih fun j hj => h j (List.mem_cons_of_mem i hj))

theorem length_pick (h : ∀ i ∈ σ, i < xs.length) : (pick xs σ).length = σ.length := by
  have hmap := congrArg List.length (pick_eq_map h)
  rwa [List.length_map, List.length_map] at hmap

theorem getElem?_pick (h : ∀ i ∈ σ, i < xs.length) (j : Nat) :
    (pick xs σ)[j]? = σ[j]?.bind fun i => xs[i]? := by
  have hmap := congrArg (·[j]?) (pick_eq_map h)
  simp only [List.getElem?_map] at hmap
  cases hx : (pick xs σ)[j]? with
  | some x =>
    rw [hx] at hmap
    cases hi : σ[j]? with
    | some i =>
      rw [hi] at hmap
      exact Option.some.inj hmap
    | none =>
      rw [hi] at hmap
      cases hmap
  | none =>
    rw [hx] at hmap
    cases hi : σ[j]? with
    | some i =>
      rw [hi] at hmap
      cases hmap
    | none => rfl

theorem pick_range (xs : List α) : pick xs (List.range xs.length) = xs := by
  refine List.ext_getElem? fun j => ?_
  rw [getElem?_pick fun i hi => List.mem_range.mp hi]
  rcases Nat.lt_or_ge j xs.length with hlt | hge
  · rw [List.getElem?_range hlt, Option.bind_some]
  · rw [List.getElem?_eq_none (by simpa using hge), List.getElem?_eq_none hge, Option.bind_none]

theorem pick_pick (h : ∀ i ∈ σ, i < xs.length) (τ : List Nat) :
    pick (pick xs σ) τ = pick xs (pick σ τ) := by
  refine Eq.trans ?_ List.filterMap_filterMap.symm
  exact List.filterMap_congr fun i _ => getElem?_pick h i

theorem pick_perm (h : σ.Perm (List.range xs.length)) : (pick xs σ).Perm xs :=
  (h.filterMap _).trans (.of_eq (pick_range xs))

theorem pick_append_positions (xs : List α) (σ τ : List Nat) :
    pick xs (σ ++ τ) = pick xs σ ++ pick xs τ :=
  List.filterMap_append

theorem pick_left (ys : List α) (hn : xs.length = n) (h : ∀ i ∈ σ, i < n) :
    pick (xs ++ ys) σ = pick xs σ :=
  List.filterMap_congr fun i hi => List.getElem?_append_left (hn ▸ h i hi)

theorem pick_right (hn : xs.length = n) : pick (xs ++ ys) (τ.map (n + ·)) = pick ys τ := by
  subst hn
  rw [pick, List.filterMap_map]
  refine List.filterMap_congr fun i _ => ?_
  rw [Function.comp_apply, List.getElem?_append_right (Nat.le_add_right _ _),
    Nat.add_sub_cancel_left]

theorem pick_append (hn : xs.length = n) (h : ∀ i ∈ σ, i < n) :
    pick (xs ++ ys) (σ ++ τ.map (n + ·)) = pick xs σ ++ pick ys τ :=
  (pick_append_positions _ _ _).trans (congrArg₂ _ (pick_left ys hn h) (pick_right hn))

/-- Columns after the first `n` stay where they are. -/
theorem pick_widen {m : Nat} (hn : xs.length = n) (hm : ys.length = m) (h : ∀ i ∈ σ, i < n) :
    pick (xs ++ ys) (σ ++ (List.range m).map (n + ·)) = pick xs σ ++ ys := by
  rw [pick_append hn h, ← hm, pick_range]

theorem append_perm_range {m : Nat} (hσ : σ.Perm (List.range n)) (hτ : τ.Perm (List.range m)) :
    (σ ++ τ.map (n + ·)).Perm (List.range (n + m)) := by
  rw [List.range_add]
  exact hσ.append (hτ.map _)

/-- Columns after the first `n` come to the front. -/
theorem pick_swap {m : Nat} (hn : xs.length = n) (hm : ys.length = m) :
    pick (xs ++ ys) ((List.range m).map (n + ·) ++ List.range n) = ys ++ xs := by
  have hleft := pick_left ys hn fun i hi => List.mem_range.mp hi
  rw [pick_append_positions, pick_right hn, hleft]
  refine congrArg₂ _ ?_ ?_
  · rw [← hm, pick_range]
  · rw [← hn, pick_range]

end Pick

/-! ### Names after a rearrangement -/

namespace Layout

variable {l : Layout} {σ : List Nat} {f : FieldName} {i : Nat} {row : Row}

theorem lt_of_subperm (hσ : σ.Subperm (List.range l.length)) : ∀ i ∈ σ, i < l.length :=
  fun _ hi => List.mem_range.mp (hσ.subset hi)

theorem nodup_of_subperm (hσ : σ.Subperm (List.range l.length)) : σ.Nodup := by
  obtain ⟨τ, hτ, hsublist⟩ := List.subperm_iff.mp hσ
  exact (hτ.nodup_iff.mpr List.nodup_range).sublist hsublist

theorem lt_of_perm (hσ : σ.Perm (List.range l.length)) : ∀ i ∈ σ, i < l.length :=
  lt_of_subperm hσ.subperm

theorem lt_of_resolve (h : l.resolve f = .ok i) : i < l.length := by
  obtain ⟨⟨c, hc, -⟩, -⟩ := resolve_eq_ok.mp h
  exact (List.getElem?_eq_some_iff.mp hc).1

theorem mem_of_resolve (hσ : σ.Perm (List.range l.length)) (h : l.resolve f = .ok i) : i ∈ σ :=
  hσ.mem_iff.mpr (List.mem_range.mpr (lt_of_resolve h))

/-- Columns in another order are rearranged ones. -/
theorem exists_project_of_perm {l' : Layout} (h : l'.Perm l) :
    ∃ σ : List Nat, σ.Perm (List.range l.length) ∧ l' = l.project σ := by
  have hpositions : List.Forall₂ (fun c i => l[i]? = some c) l (List.range l.length) :=
    List.forall₂_iff_get.mpr ⟨List.length_range.symm, fun i hi hl => by simp⟩
  obtain ⟨σ, hcolumns, hσ⟩ := List.perm_comp_forall₂ h hpositions
  refine ⟨σ, hσ, ?_⟩
  clear h hσ hpositions
  induction hcolumns with
  | nil => rfl
  | cons hc _ ih =>
    rw [project, List.filterMap_cons, hc]
    exact congrArg _ ih

/-- A name designates the same column when the others change their places or are dropped. -/
theorem resolve_kept (hσ : σ.Subperm (List.range l.length)) (h : l.resolve f = .ok i)
    (hi : i ∈ σ) : ∃ j, (l.project σ).resolve f = .ok j ∧ σ[j]? = some i := by
  have hlt := lt_of_subperm hσ
  obtain ⟨⟨c, hc, hname⟩, hunique⟩ := resolve_eq_ok.mp h
  obtain ⟨j, hj⟩ := List.mem_iff_getElem?.mp hi
  refine ⟨j, resolve_eq_ok.mpr ⟨⟨c, ?_, hname⟩, fun k d hk hd => ?_⟩, hj⟩
  · rw [project_eq_pick, getElem?_pick hlt, hj]
    exact hc
  · -- another column of the name would have answered to it before
    rw [project_eq_pick, getElem?_pick hlt] at hk
    obtain ⟨m, hm, hd'⟩ := Option.bind_eq_some_iff.mp hk
    obtain rfl := hunique m d hd' hd
    obtain ⟨hk', -⟩ := List.getElem?_eq_some_iff.mp hm
    exact (List.getElem?_inj hk' (nodup_of_subperm hσ)).mp (hm.trans hj.symm)

/-- A name designates the same column when the columns are rearranged. -/
theorem resolve_project (hσ : σ.Perm (List.range l.length)) (h : l.resolve f = .ok i) :
    ∃ j, (l.project σ).resolve f = .ok j ∧ σ[j]? = some i :=
  resolve_kept hσ.subperm h (mem_of_resolve hσ h)

/-- A name designates a column of the same scan when the columns are rearranged. -/
theorem columnOf_project {c : Column} (hσ : σ.Perm (List.range l.length))
    (h : l.columnOf f = .ok c) : (l.project σ).columnOf f = .ok c := by
  obtain ⟨i, hi, hc⟩ := columnOf_eq_ok.mp h
  obtain ⟨j, hj, hσj⟩ := resolve_project hσ hi
  refine columnOf_eq_ok.mpr ⟨j, hj, ?_⟩
  rw [project_eq_pick, getElem?_pick (lt_of_perm hσ), hσj]
  exact hc

/-- A row holds the same value under a name when other columns are dropped from both. -/
theorem read_kept (hσ : σ.Subperm (List.range l.length)) (hrow : row.length = l.length)
    (h : l.resolve f = .ok i) (hi : i ∈ σ) :
    (l.project σ).read (Row.project row σ) f = l.read row f := by
  obtain ⟨j, hj, hi⟩ := resolve_kept hσ h hi
  have hlt : ∀ i ∈ σ, i < row.length := hrow ▸ lt_of_subperm hσ
  rw [read, read, hj, h]
  dsimp only
  rw [Row.project_eq_pick, getElem?_pick hlt, hi]
  rfl

/-- A row holds the same value under a name when both are rearranged. -/
theorem read_project (hσ : σ.Perm (List.range l.length)) (hrow : row.length = l.length)
    (h : l.resolve f = .ok i) : (l.project σ).read (Row.project row σ) f = l.read row f :=
  read_kept hσ.subperm hrow h (mem_of_resolve hσ h)

/-- An expression has the same value on a row when columns that it does not name are dropped from
both. -/
theorem bind_kept (hσ : σ.Subperm (List.range l.length)) {e : Predicate}
    (hkept : ∀ f ∈ e.columns, ∃ i ∈ σ, l.resolve f = .ok i) :
    ∃ b b', e.bind l = .ok b ∧ e.bind (l.project σ) = .ok b' ∧
      ∀ row : Row, row.length = l.length → b'.evaluate (Row.project row σ) = b.evaluate row := by
  obtain ⟨b, hb⟩ := (Expr.exists_bind_iff e).mpr fun f hf => by
    obtain ⟨i, -, hi⟩ := hkept f hf
    exact ⟨i, hi⟩
  obtain ⟨b', hb'⟩ := (Expr.exists_bind_iff e).mpr fun f hf => by
    obtain ⟨i, hmem, hi⟩ := hkept f hf
    obtain ⟨j, hj, -⟩ := resolve_kept hσ hi hmem
    exact ⟨j, hj⟩
  refine ⟨b, b', hb, hb', fun row hrow => ?_⟩
  rw [Expr.evaluate_bind _ hb, Expr.evaluate_bind _ hb']
  refine Expr.denote_congr e fun f hf => ?_
  obtain ⟨i, hmem, hi⟩ := hkept f hf
  exact read_kept hσ hrow hi hmem

/-- An expression has the same value on a row when both are rearranged. -/
theorem bind_project (hσ : σ.Perm (List.range l.length)) {e : Predicate} {b : RowExpr}
    (h : e.bind l = .ok b) :
    ∃ b', e.bind (l.project σ) = .ok b' ∧
      ∀ row : Row, row.length = l.length → b'.evaluate (Row.project row σ) = b.evaluate row := by
  obtain ⟨c, b', hc, hb', hvalue⟩ := bind_kept hσ.subperm fun f hf => by
    obtain ⟨i, hi⟩ := (Expr.exists_bind_iff e).mp ⟨b, h⟩ f hf
    exact ⟨i, mem_of_resolve hσ hi, hi⟩
  cases h.symm.trans hc
  exact ⟨b', hb', hvalue⟩

/-- The same predicates are true on a row when both are rearranged. -/
theorem bindAll_project (hσ : σ.Perm (List.range l.length)) {ps : List Predicate}
    {bs : List RowExpr} (h : Plan.bindAll l ps = .ok bs) :
    ∃ bs', Plan.bindAll (l.project σ) ps = .ok bs' ∧
      ∀ row : Row, row.length = l.length →
        Plan.allTrue bs' (Row.project row σ) = Plan.allTrue bs row := by
  rw [Plan.bindAll, Result.mapM_eq_ok] at h
  induction h with
  | nil => exact ⟨[], rfl, fun _ _ => rfl⟩
  | cons hb _ ih =>
    obtain ⟨bs', hbs', hall⟩ := ih
    obtain ⟨b', hb', hvalue⟩ := bind_project hσ hb
    refine ⟨b' :: bs', Result.mapM_eq_ok.mpr (.cons hb' (Result.mapM_eq_ok.mp hbs')), ?_⟩
    intro row hrow
    rw [Plan.allTrue, Plan.allTrue, List.all_cons, List.all_cons, Expr.isTrue, Expr.isTrue,
      hvalue row hrow]
    exact congrArg _ (hall row hrow)

/-- Several names designate the same columns when the columns are rearranged. -/
theorem resolveAll_project (hσ : σ.Perm (List.range l.length)) {fs : List FieldName}
    {ps : List Nat} (h : l.resolveAll fs = .ok ps) :
    ∃ qs, (l.project σ).resolveAll fs = .ok qs ∧ pick σ qs = ps := by
  rw [resolveAll, Result.mapM_eq_ok] at h
  induction h with
  | nil => exact ⟨[], rfl, rfl⟩
  | cons hf _ ih =>
    obtain ⟨qs, hqs, hpick⟩ := ih
    obtain ⟨j, hj, hi⟩ := resolve_project hσ hf
    refine ⟨j :: qs, Result.mapM_eq_ok.mpr (.cons hj (Result.mapM_eq_ok.mp hqs)), ?_⟩
    rw [pick, List.filterMap_cons, hi]
    exact congrArg _ hpick

theorem lt_of_resolveAll {fs : List FieldName} {ps : List Nat} (h : l.resolveAll fs = .ok ps) :
    ∀ i ∈ ps, i < l.length := by
  intro i hi
  obtain ⟨f, -, hf⟩ := Result.exists_of_mem_result h hi
  exact lt_of_resolve hf

end Layout

/-! ### Results -/

namespace ResultSet

/-- Every row is as wide as the layout. -/
def Regular (r : ResultSet) : Prop := ∀ row ∈ r.rows, row.length = r.layout.length

/-- The columns are at the positions `σ` of another result, and the rows are its rows. -/
structure RearrangesBy (σ : List Nat) (s r : ResultSet) : Prop where
  perm : σ.Perm (List.range r.layout.length)
  layout : s.layout = r.layout.project σ
  rows : s.rows.Perm (r.rows.map fun row => Row.project row σ)

/-- A permutation of the columns takes the layout of `r` to that of `s`, and the rows of `r` to
those of `s`, none lost and none added. -/
def Rearranges (s r : ResultSet) : Prop := ∃ σ, s.RearrangesBy σ r

variable {r s t : ResultSet} {σ τ : List Nat}

/-- The order of the rows does not count. -/
theorem Regular.rearranges_of_perm (hr : r.Regular) (hlayout : s.layout = r.layout)
    (hrows : s.rows.Perm r.rows) : s.Rearranges r := by
  refine ⟨_, .refl _, hlayout.trans (pick_range r.layout).symm, hrows.trans (.of_eq ?_)⟩
  have hself : ∀ row ∈ r.rows, Row.project row (List.range r.layout.length) = row := by
    intro row hrow
    rw [← hr row hrow, Row.project_eq_pick, pick_range]
  rw [List.map_congr_left hself, List.map_id']

theorem Regular.rearranges_refl (hr : r.Regular) : r.Rearranges r :=
  hr.rearranges_of_perm rfl (.refl _)

theorem RearrangesBy.length_layout (h : s.RearrangesBy σ r) :
    s.layout.length = r.layout.length := by
  rw [h.layout, Layout.project_eq_pick, length_pick (Layout.lt_of_perm h.perm), h.perm.length_eq,
    List.length_range]

theorem Rearranges.trans (hts : t.Rearranges s) (hsr : s.Rearranges r) (hr : r.Regular) :
    t.Rearranges r := by
  obtain ⟨τ, hτ⟩ := hts
  obtain ⟨σ, hσ⟩ := hsr
  have hlt := Layout.lt_of_perm hσ.perm
  have hlength : σ.length = s.layout.length := by
    rw [hσ.length_layout, hσ.perm.length_eq, List.length_range]
  refine ⟨pick σ τ, ?_, ?_, ?_⟩
  · exact (pick_perm (hlength ▸ hτ.perm)).trans hσ.perm
  · rw [hτ.layout, hσ.layout]
    exact pick_pick hlt τ
  · refine hτ.rows.trans ((hσ.rows.map _).trans (.of_eq ?_))
    rw [List.map_map]
    refine List.map_congr_left fun row hrow => ?_
    exact pick_pick (hr row hrow ▸ hlt) τ

theorem Rearranges.of_perm (h : s.Rearranges r) (hlayout : t.layout = s.layout)
    (hrows : t.rows.Perm s.rows) : t.Rearranges r :=
  h.imp fun _ hσ => ⟨hσ.perm, hlayout.trans hσ.layout, hrows.trans hσ.rows⟩

/-! ### Operators on results -/

/-- The rows with what is found for each of them. -/
def join (r : ResultSet) (m : Layout) (found : Row → List Row) : ResultSet :=
  ⟨r.layout ++ m, r.rows.flatMap fun row => (found row).map (row ++ ·)⟩

theorem Regular.join (hr : r.Regular) {m : Layout} {found : Row → List Row}
    (hfound : ∀ row ∈ r.rows, ∀ b ∈ found row, b.length = m.length) : (r.join m found).Regular := by
  intro row hrow
  obtain ⟨a, ha, hrow⟩ := List.mem_flatMap.mp hrow
  obtain ⟨b, hb, rfl⟩ := List.mem_map.mp hrow
  rw [List.length_append, hr a ha, hfound a ha b hb]
  exact List.length_append.symm

/-- What is joined to rearranged rows may be rearranged itself. -/
theorem RearrangesBy.join (h : s.RearrangesBy σ r) (hr : r.Regular) {m : Layout}
    {found found' : Row → List Row} (hτ : τ.Perm (List.range m.length))
    (hfound : ∀ row ∈ r.rows,
      (found' (Row.project row σ)).Perm ((found row).map fun b => Row.project b τ)) :
    (s.join (m.project τ) found').RearrangesBy (σ ++ τ.map (r.layout.length + ·))
      (r.join m found) := by
  have hlt := Layout.lt_of_perm h.perm
  refine ⟨?_, ?_, ?_⟩
  · change List.Perm _ (List.range (r.layout ++ m).length)
    rw [List.length_append]
    exact append_perm_range h.perm hτ
  · change s.layout ++ m.project τ = pick (r.layout ++ m) _
    rw [pick_append rfl hlt, h.layout]
    rfl
  · refine (h.rows.flatMap_right _).trans ?_
    rw [List.flatMap_map]
    change List.Perm _ (List.map _ (List.flatMap _ _))
    rw [List.map_flatMap]
    refine List.Perm.flatMap_left _ fun row hrow => ?_
    refine ((hfound row hrow).map _).trans (.of_eq ?_)
    rw [List.map_map, List.map_map]
    refine List.map_congr_left fun b _ => ?_
    exact (pick_append (hr row hrow) hlt).symm

/-- What is joined may be the same for a row and its rearrangement. -/
theorem RearrangesBy.join_same (h : s.RearrangesBy σ r) (hr : r.Regular) {m : Layout}
    {found found' : Row → List Row} (hm : ∀ row ∈ r.rows, ∀ b ∈ found row, b.length = m.length)
    (hfound : ∀ row ∈ r.rows, found' (Row.project row σ) = found row) :
    (s.join m found').Rearranges (r.join m found) := by
  have hself : ∀ row ∈ r.rows,
      (found row).map (fun b => Row.project b (List.range m.length)) = found row := by
    intro row hrow
    refine (List.map_congr_left fun b hb => ?_).trans (List.map_id _)
    rw [← hm row hrow b hb, Row.project_eq_pick, pick_range]
    rfl
  have hall : ∀ row ∈ r.rows, (found' (Row.project row σ)).Perm
      ((found row).map fun b => Row.project b (List.range m.length)) :=
    fun row hrow => .of_eq ((hfound row hrow).trans (hself row hrow).symm)
  have hjoin := h.join hr (List.Perm.refl (List.range m.length)) hall
  rw [Layout.project_eq_pick, pick_range] at hjoin
  exact ⟨_, hjoin⟩

/-- All pairs of rows. -/
def product (r s : ResultSet) : ResultSet := r.join s.layout fun _ => s.rows

theorem Regular.product (hr : r.Regular) (hs : s.Regular) : (r.product s).Regular :=
  hr.join fun _ _ => hs

theorem Rearranges.product {r' s' : ResultSet} (hr' : r'.Rearranges r) (hs' : s'.Rearranges s)
    (hr : r.Regular) : (r'.product s').Rearranges (r.product s) := by
  obtain ⟨σ, hσ⟩ := hr'
  obtain ⟨τ, hτ⟩ := hs'
  refine ⟨σ ++ τ.map (r.layout.length + ·), ?_⟩
  rw [ResultSet.product, hτ.layout]
  exact hσ.join hr hτ.perm fun _ _ => hτ.rows

theorem Regular.filter (hr : r.Regular) (test : Row → Bool) :
    Regular ⟨r.layout, r.rows.filter test⟩ :=
  fun row hrow => hr row (List.mem_of_mem_filter hrow)

theorem Regular.project (hr : r.Regular) {fs : List FieldName} {ps : List Nat}
    (hps : r.layout.resolveAll fs = .ok ps) :
    Regular ⟨r.layout.project ps, r.rows.map (Row.project · ps)⟩ := by
  have hlt := Layout.lt_of_resolveAll hps
  intro row hrow
  obtain ⟨row, hmem, rfl⟩ := List.mem_map.mp hrow
  rw [Row.project_eq_pick, length_pick (hr row hmem ▸ hlt), Layout.project_eq_pick,
    length_pick hlt]

/-- A selection selects the same rows. -/
theorem Rearranges.select (h : s.Rearranges r) (hr : r.Regular) {ps : List Predicate}
    {bs : List RowExpr} (hbs : Plan.bindAll r.layout ps = .ok bs) :
    ∃ bs', Plan.bindAll s.layout ps = .ok bs' ∧
      Rearranges ⟨s.layout, s.rows.filter (Plan.allTrue bs')⟩
        ⟨r.layout, r.rows.filter (Plan.allTrue bs)⟩ := by
  obtain ⟨σ, hσ⟩ := h
  obtain ⟨bs', hbs', hsame⟩ := Layout.bindAll_project hσ.perm hbs
  rw [← hσ.layout] at hbs'
  refine ⟨bs', hbs', σ, hσ.perm, hσ.layout, (hσ.rows.filter _).trans (.of_eq ?_)⟩
  rw [List.filter_map]
  exact congrArg _ (List.filter_congr fun row hrow => hsame row (hr row hrow))

/-- A projection yields the same columns. -/
theorem Rearranges.project (h : s.Rearranges r) (hr : r.Regular) {fs : List FieldName}
    {ps : List Nat} (hps : r.layout.resolveAll fs = .ok ps) :
    ∃ qs, s.layout.resolveAll fs = .ok qs ∧
      Rearranges ⟨s.layout.project qs, s.rows.map (Row.project · qs)⟩
        ⟨r.layout.project ps, r.rows.map (Row.project · ps)⟩ := by
  obtain ⟨σ, hσ⟩ := h
  have hlt := Layout.lt_of_perm hσ.perm
  obtain ⟨qs, hqs, hpick⟩ := Layout.resolveAll_project hσ.perm hps
  rw [← hσ.layout] at hqs
  -- the projection puts the columns back into their order
  refine ⟨qs, hqs, (hr.project hps).rearranges_of_perm ?_ ?_⟩
  · change s.layout.project qs = r.layout.project _
    rw [hσ.layout, ← hpick]
    exact pick_pick hlt qs
  · refine (hσ.rows.map _).trans (.of_eq ?_)
    rw [List.map_map, ← hpick]
    refine List.map_congr_left fun row hrow => ?_
    exact pick_pick (hr row hrow ▸ hlt) qs

/-! ### Products of several results -/

/-- The row without columns. -/
def unit : ResultSet := ⟨[], [[]]⟩

/-- The product of several results. -/
def productAll : List ResultSet → ResultSet
  | [] => unit
  | r :: rs => r.product (productAll rs)

theorem product_assoc (r s t : ResultSet) :
    (r.product s).product t = r.product (s.product t) := by
  simp only [product, join, ResultSet.mk.injEq, List.append_assoc, true_and, List.flatMap_assoc,
    List.flatMap_map, List.map_flatMap, List.map_map]
  rfl

theorem product_unit (r : ResultSet) : r.product unit = r := by
  simp [product, join, unit]

theorem unit_product (r : ResultSet) : unit.product r = r := by
  simp [product, join, unit]

theorem productAll_append (rs ss : List ResultSet) :
    productAll (rs ++ ss) = (productAll rs).product (productAll ss) := by
  induction rs with
  | nil => exact (unit_product _).symm
  | cons r rs ih => rw [List.cons_append, productAll, ih, productAll, product_assoc]

theorem productAll_concat (rs : List ResultSet) (r : ResultSet) :
    productAll (rs ++ [r]) = (productAll rs).product r := by
  rw [productAll_append]
  exact congrArg _ (product_unit r)

theorem regular_productAll {rs : List ResultSet} (hrs : ∀ r ∈ rs, r.Regular) :
    (productAll rs).Regular := by
  induction rs with
  | nil =>
    intro row hrow
    rw [List.mem_singleton.mp hrow]
    rfl
  | cons r rs ih =>
    exact (hrs r List.mem_cons_self).product (ih fun s hs => hrs s (List.mem_cons_of_mem r hs))

private theorem flatMap_map_comm {α β γ : Type} (f : α → β → γ) (xs : List α) (ys : List β) :
    (xs.flatMap fun x => ys.map (f x)).Perm (ys.flatMap fun y => xs.map (f · y)) := by
  induction xs with
  | nil =>
    simp
  | cons x xs ih =>
    rw [List.flatMap_cons, List.map_eq_flatMap]
    refine (ih.append_left _).trans ((List.flatMap_append_perm ys _ _).trans (.of_eq ?_))
    rfl

/-- The factors of a product may change places. -/
theorem rearranges_swap (hr : r.Regular) (hs : s.Regular) :
    (r.product s).Rearranges (s.product r) := by
  refine ⟨(List.range r.layout.length).map (s.layout.length + ·) ++ List.range s.layout.length,
    ?_, ?_, ?_⟩
  · refine List.perm_append_comm.trans (.of_eq ?_)
    rw [← List.range_add]
    exact congrArg _ List.length_append.symm
  · exact (pick_swap rfl rfl).symm
  · refine (flatMap_map_comm _ _ _).trans (.of_eq ?_)
    change _ = List.map _ (List.flatMap _ _)
    rw [List.map_flatMap]
    refine List.flatMap_congr fun b hb => ?_
    rw [List.map_map]
    refine List.map_congr_left fun a ha => ?_
    exact (pick_swap (hs b hb) (hr a ha)).symm

theorem rearranges_productAll {rs ss : List ResultSet} (h : rs.Perm ss)
    (hss : ∀ r ∈ ss, r.Regular) : (productAll rs).Rearranges (productAll ss) := by
  induction h with
  | nil => exact (regular_productAll hss).rearranges_refl
  | cons r _ ih =>
    have hr := hss r List.mem_cons_self
    exact hr.rearranges_refl.product (ih fun s hs => hss s (List.mem_cons_of_mem r hs)) hr
  | swap r s rs =>
    have hr := hss r List.mem_cons_self
    have hs := hss s (List.mem_cons_of_mem r List.mem_cons_self)
    have hrs := regular_productAll fun t ht =>
      hss t (List.mem_cons_of_mem r (List.mem_cons_of_mem s ht))
    -- two neighbours change places in front of the product of the others
    rw [productAll, productAll, productAll, productAll, ← product_assoc, ← product_assoc]
    exact (rearranges_swap hs hr).product hrs.rearranges_refl (hr.product hs)
  | trans _ hperm ih ih' =>
    have hss' := ih' hss
    exact (ih fun r hr => hss r (hperm.mem_iff.mp hr)).trans hss' (regular_productAll hss)

end ResultSet

end SpatialStore
