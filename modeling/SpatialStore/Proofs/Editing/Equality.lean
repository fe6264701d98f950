import SpatialStore.Editing.Workspace
import SpatialStore.Proofs.Double.Arithmetic
import SpatialStore.Proofs.Editing.WorkingCopy
import SpatialStore.Proofs.Index.Lookup

/-!
# Equality queries of a workspace

An equality query is answered by the working index of the field, if there is an attribute index, and
otherwise by looking at every row. Both give positions in ascending order, but the index goes by
keys and the scan by the values themselves. The two notions of equality differ for *confused*
values (`Value.sameKey_iff_queryEq`): different integers with the same nearest double and NaN have
the same key without being equal, and equal geometries have no key at all. So the two answers agree
exactly if no value of the column is confused with the one that is asked for
(`Workspace.query_equals`).

None is, if the column has no geometries, no NaN, and no integers of more than 53 digits
(`Workspace.query_equals_of_precise`). Nothing rules larger integers out, and the index finds them
for each other (`Workspace.index_confuses_large`).
-/

namespace SpatialStore

/-! ### Values of one key -/

namespace Value

/-- An index finds both values by the same key. -/
def SameKey (a b : Value) : Prop :=
  ∃ k k', ScalarKey.ofValue? a = some k ∧ ScalarKey.ofValue? b = some k' ∧
    ScalarKey.order k k' = .eq

/-- Values on whose equality keys and queries disagree. -/
inductive Confused : Value → Value → Prop
  /-- Different integers with the same nearest double have the same key. -/
  | ints {i j : Int64} : i ≠ j → (Double.ofInt i.toInt == Double.ofInt j.toInt) = true →
      Confused (.int i) (.int j)
  /-- So has NaN, which does not equal itself. -/
  | nans {x y : Float} : x.isNaN = true → y.isNaN = true → Confused (.double x) (.double y)
  /-- Geometries may be equal, but have no keys. -/
  | geometries {g h : Geometry} : g.same h = true → Confused (.geometry g) (.geometry h)

variable {a b : Value}

/-- What an attribute index finds are the values of the same key. -/
theorem exists_finds_iff {name : String} :
    (∃ x, IndexEntry.ofValue? .attribute a = some x ∧ (IndexQuery.equals name b).Finds x) ↔
      a.SameKey b := by
  constructor
  · rintro ⟨x, hx, hfinds⟩
    obtain ⟨k, hk, rfl⟩ := Option.map_eq_some_iff.mp hx
    obtain ⟨k', hk', horder⟩ := hfinds
    exact ⟨k, k', hk, hk', horder⟩
  · rintro ⟨k, k', hk, hk', horder⟩
    exact ⟨.key k, congrArg (Option.map IndexEntry.key) hk, k', hk', horder⟩

/-- Equal values have the same key, except for geometries. -/
theorem sameKey_of_queryEq (h : a.queryEq b = true) (hnot : ¬ a.Confused b) : a.SameKey b := by
  refine ScalarKey.order_of_queryEq h ?_
  by_contra hgeometries
  push Not at hgeometries
  obtain ⟨⟨g, rfl⟩, g', rfl⟩ := hgeometries
  exact hnot (.geometries h)

/-- Numbers of one rank are equal unless they are NaN. -/
private theorem compare?_of_rank {x y : Float} (h : Double.rank x = Double.rank y)
    (hnot : ¬ (x.isNaN = true ∧ y.isNaN = true)) : Double.compare? x y = some .eq :=
  Double.compare?_eq_iff.mpr ((Double.rank_eq_iff.mp h).resolve_right hnot)

/-- Values of the same key are equal, except for integers with the same double and for NaN. -/
theorem queryEq_of_sameKey (h : a.SameKey b) (hnot : ¬ a.Confused b) : a.queryEq b = true := by
  obtain ⟨k, k', ha, hb, horder⟩ := h
  have hnumber {x y : Float} (hrank : Double.rank x = Double.rank y)
      (hnan : ¬ (x.isNaN = true ∧ y.isNaN = true)) :
      (Double.compare? x y == some .eq) = true :=
    beq_iff_eq.mpr (compare?_of_rank hrank hnan)
  -- values of different sorts have different keys, or none
  cases a <;> cases b <;> simp only [ScalarKey.ofValue?, Option.some.injEq, reduceCtorEq] at ha hb
    <;> subst ha hb
    <;> simp [ScalarKey.order, compareLex, compareOn, ScalarKey.sort, ScalarKey.rank,
      ScalarKey.content] at horder
  case bool.bool x y => cases x <;> cases y <;> first | rfl | cases horder
  case string.string s t =>
    subst horder
    simp [queryEq, compare?]
  case int.int i j =>
    by_contra hne
    refine hnot (.ints ?_ (Double.beq_iff_rank.mpr
      ⟨Double.isNaN_ofInt64 i, Double.isNaN_ofInt64 j, horder⟩))
    rintro rfl
    exact hne (by simp [queryEq, compare?])
  case int.double i y =>
    exact hnumber horder fun h => Bool.false_ne_true ((Double.isNaN_ofInt64 i).symm.trans h.1)
  case double.int x j =>
    exact hnumber horder fun h => Bool.false_ne_true ((Double.isNaN_ofInt64 j).symm.trans h.2)
  case double.double x y => exact hnumber horder fun h => hnot (.nans h.1 h.2)

/-- Confused values are equal or have the same key, but not both. -/
theorem Confused.not_iff (h : a.Confused b) : ¬ (a.SameKey b ↔ a.queryEq b = true) := by
  cases h with
  | @ints i j hne hsame =>
    have hkey : SameKey (.int i) (.int j) :=
      ⟨_, _, rfl, rfl, ScalarKey.order_number.mpr (Double.beq_iff_rank.mp hsame).2.2⟩
    intro hiff
    have heq := hiff.mp hkey
    simp only [queryEq, compare?, beq_iff_eq, Option.some.injEq, Int.compare_eq_eq] at heq
    exact hne (Int64.toInt_inj.mp heq)
  | @nans x y hx hy =>
    have hrank : Double.rank x = Double.rank y := Double.rank_eq_iff.mpr (.inr ⟨hx, hy⟩)
    have hkey : SameKey (.double x) (.double y) :=
      ⟨_, _, rfl, rfl, ScalarKey.order_number.mpr hrank⟩
    intro hiff
    have heq : (Double.compare? x y == some .eq) = true := hiff.mp hkey
    rw [beq_iff_eq, Double.compare?_eq_iff, Double.beq_iff_rank, hx] at heq
    cases heq.1
  | geometries hsame =>
    rintro ⟨-, hkey⟩
    obtain ⟨_, _, hnone, -⟩ := hkey hsame
    cases hnone

/-- Having the same key is equality exactly if the values are not confused. -/
theorem sameKey_iff_queryEq : (a.SameKey b ↔ a.queryEq b = true) ↔ ¬ a.Confused b :=
  ⟨fun h hconfused => hconfused.not_iff h,
    fun h => ⟨fun hkey => queryEq_of_sameKey hkey h, fun heq => sameKey_of_queryEq heq h⟩⟩

/-- A value with a key of its own: among such values only equal ones share a key. -/
def Precise : Value → Prop
  | .int i => i.toInt.natAbs < 2 ^ 53
  | .double x => x.isNaN = false
  | .geometry _ => False
  | .null | .bool _ | .string _ => True

theorem Precise.not_confused (ha : a.Precise) (hb : b.Precise) : ¬ a.Confused b := by
  rintro (⟨hne, hsame⟩ | ⟨hx, -⟩ | _)
  · exact hne (Int64.toInt_inj.mp (Double.ofInt_inj ha hb hsame))
  · exact Bool.false_ne_true (Eq.trans (Eq.symm ha) hx)
  · exact ha

end Value

/-! ### Lists of positions -/

namespace NumberedRow

/-- The positions of the rows that pass a test. -/
def positions (rows : List NumberedRow) (test : NumberedRow → Bool) : List Nat :=
  (rows.zipIdx.filter fun r => test r.1).map (·.2)

/-- The list has the positions of the rows with such a value in a column, in ascending order. -/
structure Locates (rows : List NumberedRow) (c : Nat) (P : Value → Prop) (hits : List Nat) :
    Prop where
  ascending : hits.Pairwise (· < ·)
  mem_iff : ∀ {i : Nat}, i ∈ hits ↔ ∃ r v, rows[i]? = some r ∧ r.values[c]? = some v ∧ P v

variable {rows : List NumberedRow} {c : Nat} {P Q : Value → Prop} {hits others : List Nat}

theorem locates_positions {test : NumberedRow → Bool}
    (h : ∀ r ∈ rows, test r = true ↔ ∃ v, r.values[c]? = some v ∧ P v) :
    Locates rows c P (positions rows test) := by
  constructor
  · have hsublist : (positions rows test).Sublist (rows.zipIdx.map (·.2)) :=
      List.filter_sublist.map _
    rw [List.zipIdx_map_snd] at hsublist
    exact List.Pairwise.sublist hsublist (List.pairwise_lt_range' 1)
  · intro i
    simp only [positions, List.mem_map, List.mem_filter, List.mem_zipIdx_iff_getElem?, Prod.exists]
    constructor
    · rintro ⟨r, _, ⟨hr, htest⟩, rfl⟩
      obtain ⟨v, hv, hP⟩ := (h r (List.mem_of_getElem? hr)).mp htest
      exact ⟨r, v, hr, hv, hP⟩
    · rintro ⟨r, v, hr, hv, hP⟩
      exact ⟨r, i, ⟨hr, (h r (List.mem_of_getElem? hr)).mpr ⟨v, hv, hP⟩⟩, rfl⟩

/-- Lists that locate values agree exactly if they ask for the same of those that there are. -/
theorem Locates.eq_iff (h : Locates rows c P hits) (h' : Locates rows c Q others) :
    hits = others ↔ ∀ r ∈ rows, ∀ v, r.values[c]? = some v → (P v ↔ Q v) := by
  constructor
  · rintro rfl r hr v hv
    obtain ⟨i, hi⟩ := List.mem_iff_getElem?.mp hr
    -- there is one value at each place
    have hvalue (R : Value → Prop) :
        (∃ s u, rows[i]? = some s ∧ s.values[c]? = some u ∧ R u) ↔ R v := by
      simp [hi, hv]
    rw [← hvalue P, ← hvalue Q, ← h.mem_iff, ← h'.mem_iff]
  · intro hsame
    have hmem (i : Nat) : i ∈ hits ↔ i ∈ others := by
      rw [h.mem_iff, h'.mem_iff]
      refine exists_congr fun r => exists_congr fun v => and_congr_right fun hr => ?_
      exact and_congr_right fun hv => hsame r (List.mem_of_getElem? hr) v hv
    have nodup {l : List Nat} (hl : l.Pairwise (· < ·)) : l.Nodup := hl.imp Nat.ne_of_lt
    refine List.Perm.eq_of_pairwise ?_ h.ascending h'.ascending
      ((List.perm_ext_iff_of_nodup (nodup h.ascending) (nodup h'.ascending)).mpr hmem)
    exact fun i j _ _ hij hji => absurd hji (Nat.lt_asymm hij)

end NumberedRow

/-! ### Queries -/

namespace Workspace

open NumberedRow (positions Locates locates_positions)

variable {w : Workspace} {q : IndexQuery} {c : Nat} {index : ColumnIndex} {name : String}

/-- Without an index of the right kind every row is looked at. -/
theorem query_scan (hc : w.copy.schema.indexOf? q.field = some c)
    (hother : ∀ index ∈ w.copy.indexes[q.field]?, index.kind ≠ q.kind) :
    ∃ hits, w.query q = .ok hits ∧ Locates w.copy.rows c (fun v => q.accepts v = true) hits := by
  refine ⟨positions w.copy.rows fun r => (r.values[c]?).any q.accepts, ?_, ?_⟩
  · rw [query]
    dsimp only
    rw [hc]
    dsimp only
    cases hindex : w.copy.indexes[q.field]? with
    | none => rfl
    | some index => exact if_neg (hother index hindex)
  · refine locates_positions fun r _ => ?_
    cases r.values[c]? with
    | none => simp
    | some v => simp

/-- An intact index that serves the rows answers with those whose entry the query finds. -/
theorem query_indexed (hids : (w.copy.rows.map (·.id)).Nodup)
    (hc : w.copy.schema.indexOf? q.field = some c)
    (hindex : w.copy.indexes[q.field]? = some index) (hkind : index.kind = q.kind)
    (hserves : index.Serves w.copy.schema w.copy.rows q.field) (hintact : index.Intact) :
    ∃ hits, w.query q = .ok hits ∧ Locates w.copy.rows c
      (fun v => ∃ x, IndexEntry.ofValue? index.kind v = some x ∧ q.Finds x) hits := by
  obtain ⟨ids, hquery, -, hids'⟩ := hintact.query hserves.field.symm hkind.symm
  refine ⟨positions w.copy.rows fun r => (Std.ExtTreeSet.ofList ids).contains r.id, ?_, ?_⟩
  · rw [query]
    dsimp only
    rw [hc]
    dsimp only
    rw [hindex]
    dsimp only
    rw [if_pos hkind, hquery]
    rfl
  · refine locates_positions fun r hr => ?_
    obtain ⟨d, hd, hperm⟩ := hserves.entries
    obtain rfl := Option.some.inj (hc.symm.trans hd)
    rw [Std.ExtTreeSet.contains_ofList, List.contains_iff_mem, hids']
    have hentry (x : IndexEntry) : index.entryOf? r.id = some x ↔
        ∃ v, r.values[c]? = some v ∧ IndexEntry.ofValue? index.kind v = some x := by
      rw [← ColumnIndex.mem_entries, hperm.mem_iff, ColumnIndex.mem_ofValues]
      refine exists_congr fun v => and_congr_left fun _ => ?_
      rw [NumberedRow.mem_cells]
      constructor
      · rintro ⟨s, hs, hid, hv⟩
        obtain rfl := List.inj_on_of_nodup_map hids hs hr hid
        exact hv
      · exact fun hv => ⟨r, hr, rfl, hv⟩
    simp only [hentry]
    constructor
    · rintro ⟨x, ⟨v, hv, hx⟩, hfinds⟩
      exact ⟨v, hv, x, hx, hfinds⟩
    · rintro ⟨v, hv, x, hx, hfinds⟩
      exact ⟨x, ⟨v, hv, hx⟩, hfinds⟩

/-- The workspace without the working index of a field. -/
def withoutIndex (w : Workspace) (name : String) : Workspace :=
  { w with copy := { w.copy with indexes := w.copy.indexes.erase name } }

/-- The working index of a field is an attribute index, and it has the keys of the rows. -/
structure Keyed (w : Workspace) (name : String) (index : ColumnIndex) : Prop where
  ids : (w.copy.rows.map (·.id)).Nodup
  found : w.copy.indexes[name]? = some index
  kind : index.kind = .attribute
  serves : index.Serves w.copy.schema w.copy.rows name
  intact : index.Intact

/-- The answers with the index and without it. -/
theorem Keyed.exists_answers (h : w.Keyed name index) (v : Value) :
    ∃ c hits scan, w.copy.schema.indexOf? name = some c ∧
      w.query (.equals name v) = .ok hits ∧
      Locates w.copy.rows c (fun u => u.SameKey v) hits ∧
      (w.withoutIndex name).query (.equals name v) = .ok scan ∧
      Locates w.copy.rows c (fun u => u.queryEq v = true) scan := by
  obtain ⟨c, hc, -⟩ := h.serves.entries
  obtain ⟨hits, hquery, hhits⟩ :=
    query_indexed (q := .equals name v) h.ids hc h.found h.kind h.serves h.intact
  simp only [h.kind, Value.exists_finds_iff] at hhits
  have hnone : (w.copy.indexes.erase name)[name]? = none := by
    rw [Maps.getElem?_erase, if_pos rfl]
  obtain ⟨scan, hquery', hscan⟩ :=
    query_scan (w := w.withoutIndex name) (q := .equals name v) hc fun index hindex => by
      cases hnone.symm.trans hindex
  exact ⟨c, hits, scan, hc, hquery, hhits, hquery', hscan⟩

/-- The index finds the values of the same key and the scan the equal ones, so the answers agree
exactly if no value of the column is confused with the one that is asked for. -/
theorem query_equals (h : w.Keyed name index) (v : Value) :
    ∃ c hits scan, w.copy.schema.indexOf? name = some c ∧
      w.query (.equals name v) = .ok hits ∧
      Locates w.copy.rows c (fun u => u.SameKey v) hits ∧
      (w.withoutIndex name).query (.equals name v) = .ok scan ∧
      Locates w.copy.rows c (fun u => u.queryEq v = true) scan ∧
      (hits = scan ↔ ∀ r ∈ w.copy.rows, ∀ u, r.values[c]? = some u → ¬ u.Confused v) := by
  obtain ⟨c, hits, scan, hc, hquery, hkeys, hquery', hscan⟩ := h.exists_answers v
  refine ⟨c, hits, scan, hc, hquery, hkeys, hquery', hscan, ?_⟩
  rw [hkeys.eq_iff hscan]
  exact forall_congr' fun r => forall_congr' fun _ => forall_congr' fun u =>
    forall_congr' fun _ => Value.sameKey_iff_queryEq

/-- Two large integers in a column. -/
def largeRows : List Row := [[.int 9007199254740992], [.int 9007199254740993]]

/-- A workspace over these rows with an index on the column. -/
def largeWorkspace : Workspace :=
  .ofRows ⟨[⟨"a", .int, []⟩]⟩ largeRows ((∅ : TableIndexes).insert "a"
    (.build "a" .attribute {} (ColumnIndex.column largeRows 0)))

theorem keyed_largeWorkspace :
    largeWorkspace.Keyed "a" (.build "a" .attribute {} (ColumnIndex.column largeRows 0)) where
  ids := by decide
  found := by simp [largeWorkspace, ofRows, WorkingCopy.ofRows, Schema.hasField, Schema.indexOf?]
  kind := by decide +kernel
  serves := ColumnIndex.serves_build rfl .attribute {} largeRows
  intact := ColumnIndex.intact_build _ _ _ (ColumnIndex.nodup_column largeRows 0)

/-- The answers about the second integer. -/
theorem query_equals_large :
    ∃ c hits scan, largeWorkspace.copy.schema.indexOf? "a" = some c ∧
      largeWorkspace.query (.equals "a" (.int 9007199254740993)) = .ok hits ∧
      Locates largeWorkspace.copy.rows c (fun u => u.SameKey (.int 9007199254740993)) hits ∧
      (largeWorkspace.withoutIndex "a").query (.equals "a" (.int 9007199254740993)) = .ok scan ∧
      Locates largeWorkspace.copy.rows c (fun u => u.queryEq (.int 9007199254740993) = true) scan ∧
      (hits = scan ↔ ∀ r ∈ largeWorkspace.copy.rows, ∀ u, r.values[c]? = some u →
        ¬ u.Confused (.int 9007199254740993)) :=
  query_equals keyed_largeWorkspace _

/-- The index finds both integers, the scan only the one that was asked for. -/
theorem index_confuses_large :
    (largeWorkspace.query (.equals "a" (.int 9007199254740993))).toOption = some [0, 1] ∧
      ((largeWorkspace.withoutIndex "a").query (.equals "a" (.int 9007199254740993))).toOption =
        some [1] :=
  ⟨by decide +kernel, by decide +kernel⟩

/-- Among values with keys of their own the index finds what the scan finds. -/
theorem query_equals_of_precise (h : w.Keyed name index) {v : Value} (hv : v.Precise)
    (hrows : ∀ r ∈ w.copy.rows, ∀ u ∈ r.values, u.Precise) :
    w.query (.equals name v) = (w.withoutIndex name).query (.equals name v) := by
  obtain ⟨c, hits, scan, -, hquery, hkeys, hquery', hscan⟩ := h.exists_answers v
  have hagree : hits = scan := (hkeys.eq_iff hscan).mpr fun r hr u hu =>
    Value.sameKey_iff_queryEq.mpr ((hrows r hr u (List.mem_of_getElem? hu)).not_confused hv)
  rw [hquery, hquery', hagree]

end Workspace

end SpatialStore
