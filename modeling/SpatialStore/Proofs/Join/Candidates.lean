import SpatialStore.Join.Candidates
import SpatialStore.Proofs.Query.Lookup

/-!
# Candidates

An access path that a predicate offers leads to a field of one table, and its lookup refers to some
other tables only (`AccessPath.Offered`). Predicates whose names resolve offer their paths without
error (`AccessPath.candidates_spec`).
-/

namespace SpatialStore

namespace AccessPath

private theorem mem_eraseReps_loop {id : ScanId} (ids : List ScanId) : ∀ a found,
    id ∈ List.eraseRepsBy.loop (· == ·) a ids found ↔ id = a ∨ id ∈ ids ∨ id ∈ found := by
  induction ids with
  | nil =>
    intro a found
    simp [List.eraseRepsBy.loop, or_comm]
  | cons b ids ih =>
    intro a found
    rw [List.eraseRepsBy.loop]
    split
    · next hab =>
      rw [ih, beq_iff_eq.mp hab, List.mem_cons, or_assoc, ← or_assoc (b := id = b), or_self]
    · rw [ih, List.mem_cons, List.mem_cons, or_assoc]
      exact ⟨fun h => by tauto, fun h => by tauto⟩

/-- Sorting adds no ids and loses none. -/
theorem mem_sortedIds {ids : List ScanId} {id : ScanId} : id ∈ sortedIds ids ↔ id ∈ ids := by
  have hsort : id ∈ ids.mergeSort (· ≤ ·) ↔ id ∈ ids := List.mem_mergeSort
  rw [← hsort, sortedIds, List.eraseReps]
  cases ids.mergeSort (· ≤ ·) with
  | nil => exact Iff.rfl
  | cons a as =>
    rw [List.eraseRepsBy, mem_eraseReps_loop, List.mem_cons]
    simp

/-- The field that an access path leads to is a side of its predicate, and the lookup the other. -/
def Sides (path : AccessPath) (f : FieldName) : Prop :=
  sides? path.predicate = some (path.kind, .column f, path.lookup) ∨
    sides? path.predicate = some (path.kind, path.lookup, .column f)

/-- What an access path is to the predicates that offer it and to the layout. -/
structure Offered (l : Layout) (ps : List Predicate) (path : AccessPath) : Prop where
  predicate : ps[path.predicateId]? = some path.predicate
  target : ∃ f c, path.Sides f ∧ l.columnOf f = .ok c ∧ c.scanId = path.scanId ∧
    c.name = path.field ∧ path.kind.supports c.type = true
  lookup : ∀ f ∈ path.lookup.columns, ∃ c, l.columnOf f = .ok c ∧ c.scanId ∈ path.lookupScans
  nonempty : path.lookupScans ≠ []
  foreign : path.scanId ∉ path.lookupScans

variable (indexes : IndexRegistry) (settings : JoinSettings) {l : Layout} {ps : List Predicate}

theorem ofSide?_spec {id : Nat} {predicate target lookup : Predicate} {kind : IndexKind}
    (hpredicate : ps[id]? = some predicate)
    (hsides : ∀ f, target = .column f → sides? predicate = some (kind, .column f, lookup) ∨
      sides? predicate = some (kind, lookup, .column f))
    (htarget : ∀ f ∈ target.columns, ∃ i, l.resolve f = .ok i)
    (hlookup : ∀ f ∈ lookup.columns, ∃ i, l.resolve f = .ok i) :
    ∃ path?, ofSide? indexes settings l id predicate kind target lookup = .ok path? ∧
      ∀ path ∈ path?, path.Offered l ps := by
  cases target with
  | column f =>
    obtain ⟨i, hi⟩ := htarget f (List.mem_singleton_self f)
    obtain ⟨c, hc⟩ := Layout.exists_columnOf hi
    have hfound : ∀ g ∈ lookup.columns, ∃ id, (l.columnOf g).map (·.scanId) = .ok id := by
      intro g hg
      obtain ⟨j, hj⟩ := hlookup g hg
      obtain ⟨d, hd⟩ := Layout.exists_columnOf hj
      exact ⟨d.scanId, Result.map_eq_ok.mpr ⟨d, hd, rfl⟩⟩
    obtain ⟨referred, hreferred⟩ := Result.exists_mapM_iff.mpr hfound
    rw [ofSide?, Result.bind_of_eq_ok hc]
    split_ifs with hsupports
    · exact ⟨none, rfl, fun _ h => nomatch h⟩
    rw [Result.bind_of_eq_ok hreferred]
    dsimp only
    -- a lookup must refer to other tables, and may have to find a standing index
    split_ifs with htables hstanding
    · exact ⟨none, rfl, fun _ h => nomatch h⟩
    · exact ⟨none, rfl, fun _ h => nomatch h⟩
    · refine ⟨_, rfl, fun path hpath => ?_⟩
      cases hpath
      rw [Bool.or_eq_true, not_or, List.isEmpty_iff, List.contains_iff_mem] at htables
      have hsupports : kind.supports c.type = true := by simpa using hsupports
      refine ⟨hpredicate, ⟨f, c, hsides f rfl, hc, rfl, rfl, hsupports⟩, ?_, htables.1, htables.2⟩
      intro g hg
      obtain ⟨id, hid, hg⟩ := Result.exists_of_mem hreferred hg
      obtain ⟨d, hd, rfl⟩ := Result.map_eq_ok.mp hg
      exact ⟨d, hd, mem_sortedIds.mpr hid⟩
  | _ => exact ⟨none, rfl, fun _ h => nomatch h⟩

theorem sides?_eq_some {predicate a b : Predicate} {kind : IndexKind}
    (h : sides? predicate = some (kind, a, b)) :
    (kind = .attribute ∧ predicate = .compare .eq a b) ∨
      kind = .spatial ∧ ∃ op, predicate = .spatial op a b := by
  rw [sides?.eq_def] at h
  split at h
  · cases h
    exact .inl ⟨rfl, rfl⟩
  · next op _ _ =>
    cases h
    exact .inr ⟨rfl, op, rfl⟩
  · cases h

/-- A predicate refers to the columns of its sides. -/
theorem columns_of_sides? {predicate a b : Predicate} {kind : IndexKind}
    (h : sides? predicate = some (kind, a, b)) :
    predicate.columns = a.columns ++ b.columns := by
  rcases sides?_eq_some h with ⟨-, rfl⟩ | ⟨-, op, rfl⟩
  · rw [Expr.columns]
  · rw [Expr.columns]

/-- A predicate among some whose columns are found offers access paths without error. -/
theorem ofPredicate_spec {p : Predicate × Nat} (hp : ps[p.2]? = some p.1)
    (hfound : ∀ f ∈ p.1.columns, ∃ i, l.resolve f = .ok i) :
    ∃ paths, ofPredicate indexes settings l p = .ok paths ∧ ∀ path ∈ paths, path.Offered l ps := by
  rw [ofPredicate]
  cases hsides : sides? p.1 with
  | none => exact ⟨[], rfl, fun _ h => nomatch h⟩
  | some sides =>
    obtain ⟨kind, a, b⟩ := sides
    rw [columns_of_sides? hsides, List.forall_mem_append] at hfound
    obtain ⟨left, hleft, hleftOffered⟩ := ofSide?_spec indexes settings hp
      (fun f (hf : a = _) => .inl (hf ▸ hsides)) hfound.1 hfound.2
    obtain ⟨right, hright, hrightOffered⟩ := ofSide?_spec indexes settings hp
      (fun f (hf : b = _) => .inr (hf ▸ hsides)) hfound.2 hfound.1
    refine ⟨left.toList ++ right.toList, ?_, ?_⟩
    · exact (Result.bind_of_eq_ok hleft).trans (Result.bind_of_eq_ok hright)
    · intro path hpath
      rcases List.mem_append.mp hpath with h | h
      · exact hleftOffered path (Option.mem_toList.mp h)
      · exact hrightOffered path (Option.mem_toList.mp h)

/-- Predicates whose columns are found offer access paths without error. -/
theorem candidates_spec (hfound : ∀ f ∈ Expr.columnsOfAll ps, ∃ i, l.resolve f = .ok i) :
    ∃ paths, candidates (some indexes) settings l ps = .ok paths ∧
      ∀ path ∈ paths, path.Offered l ps := by
  have hoffers : ∀ p ∈ ps.zipIdx, ∃ paths, ofPredicate indexes settings l p = .ok paths ∧
      ∀ path ∈ paths, path.Offered l ps := by
    intro p hp
    refine ofPredicate_spec indexes settings (List.mem_zipIdx_iff_getElem?.mp hp) fun f hf => ?_
    have hmem := List.mem_of_getElem? (List.mem_zipIdx_iff_getElem?.mp hp)
    exact hfound f (Expr.mem_columnsOfAll.mpr ⟨p.1, hmem, hf⟩)
  obtain ⟨paths, hpaths⟩ := Result.exists_mapM_iff.mpr fun p hp =>
    (hoffers p hp).imp fun _ h => h.1
  refine ⟨paths.flatten, Result.bind_of_eq_ok hpaths, fun path hpath => ?_⟩
  obtain ⟨offer, hoffer, hpath⟩ := List.mem_flatten.mp hpath
  obtain ⟨p, hp, hof⟩ := Result.exists_of_mem_result hpaths hoffer
  obtain ⟨offered, hoffered, hall⟩ := hoffers p hp
  rw [hof] at hoffered
  cases hoffered
  exact hall path hpath

/-! ### Using candidates -/

variable {path : AccessPath}

/-- Rearranging the columns does not matter to an access path. -/
theorem Offered.project {σ : List Nat} (h : path.Offered l ps)
    (hσ : σ.Perm (List.range l.length)) : path.Offered (l.project σ) ps where
  predicate := h.predicate
  target := by
    obtain ⟨f, c, hsides, hc, hrest⟩ := h.target
    exact ⟨f, c, hsides, Layout.columnOf_project hσ hc, hrest⟩
  lookup f hf := by
    obtain ⟨c, hc, hid⟩ := h.lookup f hf
    exact ⟨c, Layout.columnOf_project hσ hc, hid⟩
  nonempty := h.nonempty
  foreign := h.foreign

/-- The columns of the predicate are that of the field and those of the lookup. -/
theorem Sides.mem_columns {f g : FieldName} (h : path.Sides f) :
    g ∈ path.predicate.columns ↔ g = f ∨ g ∈ path.lookup.columns := by
  rcases h with h | h
  · rw [columns_of_sides? h, Expr.columns, List.mem_append, List.mem_singleton]
  · rw [columns_of_sides? h, List.mem_append, Expr.columns, List.mem_singleton, or_comm]

/-- Where the predicate is true, the value of the lookup reaches that of the field. -/
theorem Sides.reaches {f : FieldName} {env : FieldName → Value} {type : DataType}
    (h : path.Sides f) (hsupports : path.kind.supports type = true)
    (hfits : (env f).fits type = true) (hmeets : path.predicate.Meets env)
    (hholds : path.predicate.Holds env) : path.Reaches (path.lookup.denote env) (env f) := by
  have hequal {a b : Predicate} (h : Expr.Holds env (.compare .eq a b)) :
      (a.denote env).queryEq (b.denote env) = true := by
    rw [Expr.Holds, Expr.denote, Comparison.apply] at h
    split_ifs at h
    · cases h
    · simpa [Value.isBool] using h
  have hscalar (hkind : path.kind = .attribute) : ∀ g, env f ≠ .geometry g := by
    intro g hg
    rw [hg] at hfits
    rw [hkind] at hsupports
    cases type with
    | geometry => cases hsupports
    | _ => cases hfits
  -- the field is the left or the right side of an equality or of a spatial predicate
  rcases h with h | h
  · rcases sides?_eq_some h with ⟨hkind, hpredicate⟩ | ⟨hkind, op, hpredicate⟩
    · rw [hpredicate] at hholds
      exact reaches_of_queryEq hkind (hscalar hkind) (.inl (hequal hholds))
    · rw [hpredicate] at hholds hmeets
      exact reaches_of_meets hkind (hmeets hholds)
  · rcases sides?_eq_some h with ⟨hkind, hpredicate⟩ | ⟨hkind, op, hpredicate⟩
    · rw [hpredicate] at hholds
      exact reaches_of_queryEq hkind (hscalar hkind) (.inr (hequal hholds))
    · rw [hpredicate] at hholds hmeets
      exact reaches_of_meets hkind (Value.meets_comm _ _ ▸ hmeets hholds)

end AccessPath

end SpatialStore
