import SpatialStore.Geometry.Segments
import SpatialStore.Proofs.Double.Order
import SpatialStore.Query.Expr

/-!
# Every segment once

The segments of a geometry are the pairs of consecutive coordinates of its lines and rings, which
are gone through in their order, collections with all that is nested in them
(`Geometry.segments_eq`). Of segments that coincide in either direction only the first is kept, in
its own direction, and none that is only a point (`Geometry.multiSegments`).

Coordinates coincide if their numbers are equal, where the zeros are one number and NaN is another
one. Segments are told apart by the ranks of their ends, the lower end first. These agree exactly
for segments that coincide (`Segment.key_eq_iff`), since of two different ends only one is lower. A
segment with NaN in an end is never a point, even if its ends coincide; whether a segment is a point
does not depend on which of the coinciding ones is looked at (`Segment.Proper.of_coincides`), so
nothing is lost by looking only at the first.
-/

namespace SpatialStore

/-! ### Segments that coincide -/

namespace Coord

/-- Numbers that are equal, or both NaN, on both axes. -/
def Coincides (a b : Coord) : Prop :=
  ((a.x == b.x) = true ∨ a.x.isNaN = true ∧ b.x.isNaN = true) ∧
    ((a.y == b.y) = true ∨ a.y.isNaN = true ∧ b.y.isNaN = true)

theorem coincides_iff {a b : Coord} : a.Coincides b ↔ a.ranks = b.ranks := by
  rw [Coincides, ← Double.rank_eq_iff, ← Double.rank_eq_iff, ranks, ranks, Prod.mk.injEq]

/-- No number of the coordinate is NaN. -/
def Numeric (a : Coord) : Prop := a.x.isNaN = false ∧ a.y.isNaN = false

theorem Coincides.numeric {a b : Coord} (h : a.Coincides b) (hb : b.Numeric) : a.Numeric := by
  obtain ⟨hx, hy⟩ := Prod.mk.inj (coincides_iff.mp h)
  exact ⟨Bool.eq_false_iff.mpr fun ha => Bool.eq_false_iff.mp hb.1 (Double.isNaN_of_rank_eq hx ha),
    Bool.eq_false_iff.mpr fun ha => Bool.eq_false_iff.mp hb.2 (Double.isNaN_of_rank_eq hy ha)⟩

/-- Equal coordinates are those that coincide and have no NaN. -/
theorem same_iff {a b : Coord} : a.same b = true ↔ a.Coincides b ∧ a.Numeric := by
  constructor
  · intro h
    obtain ⟨hx, hy⟩ := Bool.and_eq_true_iff.mp h
    exact ⟨⟨.inl hx, .inl hy⟩, (Double.beq_iff_rank.mp hx).1, (Double.beq_iff_rank.mp hy).1⟩
  · rintro ⟨⟨hx, hy⟩, hnumx, hnumy⟩
    have number {x y : Float} (h : (x == y) = true ∨ x.isNaN = true ∧ y.isNaN = true)
        (hnum : x.isNaN = false) : (x == y) = true :=
      h.resolve_right fun h => Bool.false_ne_true (hnum.symm.trans h.1)
    exact Bool.and_eq_true_iff.mpr ⟨number hx hnumx, number hy hnumy⟩

end Coord

namespace Segment

/-- The same ends, in one direction or the other. -/
def Coincides (s t : Segment Coord) : Prop :=
  s.start.Coincides t.start ∧ s.stop.Coincides t.stop ∨
    s.start.Coincides t.stop ∧ s.stop.Coincides t.start

/-- More than a point. -/
def Proper (s : Segment Coord) : Prop := s.start.same s.stop = false

variable {s t : Segment Coord}

/-- Segments have the same key exactly if they coincide. -/
theorem key_eq_iff : s.key = t.key ↔ s.Coincides t := by
  simp only [Coincides, Coord.coincides_iff, key]
  generalize s.start.ranks = a, s.stop.ranks = b, t.start.ranks = c, t.stop.ranks = d
  obtain ⟨a₁, a₂⟩ := a
  obtain ⟨b₁, b₂⟩ := b
  obtain ⟨c₁, c₂⟩ := c
  obtain ⟨d₁, d₂⟩ := d
  split_ifs <;> simp only [Prod.mk.injEq] <;> omega

theorem Coincides.symm (h : s.Coincides t) : t.Coincides s := by
  rw [← key_eq_iff] at h ⊢
  exact h.symm

/-- A segment that coincides with one that is more than a point is more than a point. -/
theorem Proper.of_coincides (hs : s.Proper) (h : s.Coincides t) : t.Proper := by
  refine Bool.eq_false_iff.mpr fun ht => Bool.eq_false_iff.mp hs ?_
  obtain ⟨hends, hnumeric⟩ := Coord.same_iff.mp ht
  rcases h with ⟨hstart, hstop⟩ | ⟨hstart, hstop⟩
  · refine Coord.same_iff.mpr ⟨?_, hstart.numeric hnumeric⟩
    rw [Coord.coincides_iff] at hends hstart hstop ⊢
    exact hstart.trans (hends.trans hstop.symm)
  · have hnumeric' : t.stop.Numeric := by
      refine Coord.Coincides.numeric ?_ hnumeric
      rw [Coord.coincides_iff] at hends ⊢
      exact hends.symm
    refine Coord.same_iff.mpr ⟨?_, hstart.numeric hnumeric'⟩
    rw [Coord.coincides_iff] at hends hstart hstop ⊢
    exact hstart.trans (hends.symm.trans hstop.symm)

/-! ### First occurrences -/

/-- The places of the segments that are more than points and coincide with none before them. -/
structure FirstPlaces (all : List (Segment Coord)) (places : List Nat) : Prop where
  ascending : places.Pairwise (· < ·)
  mem_iff : ∀ {i : Nat}, i ∈ places ↔ ∃ s, all[i]? = some s ∧ s.Proper ∧
    ∀ j < i, ∀ t ∈ all[j]?, ¬ t.Coincides s

/-- Such a segment, if some keys were seen before. -/
private def FirstAt (seen : List ((Int × Int) × (Int × Int))) (all : List (Segment Coord))
    (i : Nat) (s : Segment Coord) : Prop :=
  all[i]? = some s ∧ s.Proper ∧ s.key ∉ seen ∧ ∀ j < i, ∀ t ∈ all[j]?, ¬ t.Coincides s

variable {seen : List ((Int × Int) × (Int × Int))} {all rest kept : List (Segment Coord)}
  {places : List Nat}

private theorem firstAt_zero :
    FirstAt seen (s :: rest) 0 t ↔ s = t ∧ t.Proper ∧ t.key ∉ seen := by
  simp [FirstAt]

private theorem firstAt_succ {i : Nat} :
    FirstAt seen (s :: rest) (i + 1) t ↔ ¬ s.Coincides t ∧ FirstAt seen rest i t := by
  simp only [FirstAt, Nat.forall_lt_succ_left', List.getElem?_cons_zero, List.getElem?_cons_succ,
    Option.mem_some_iff, forall_eq']
  tauto

/-- What is kept are the segments at their first places, those that were seen left out. -/
private theorem exists_places (seen : List ((Int × Int) × (Int × Int)))
    (all : List (Segment Coord)) :
    ∃ places : List Nat, places.Pairwise (· < ·) ∧
      (distinct seen all).map some = places.map (all[·]?) ∧
      ∀ i, i ∈ places ↔ ∃ s, FirstAt seen all i s := by
  induction all generalizing seen with
  | nil => exact ⟨[], .nil, rfl, fun i => by simp [FirstAt]⟩
  | cons s rest ih =>
    rw [distinct]
    split_ifs with hdrop
    · obtain ⟨places, hascending, hmap, hmem⟩ := ih seen
      refine ⟨places.map (· + 1), ?_, ?_, fun i => ?_⟩
      · exact List.pairwise_map.mpr (hascending.imp Nat.succ_lt_succ)
      · simp [hmap]
      · -- the segment coincides with no other that counts
        have hother {i : Nat} {t : Segment Coord} (ht : FirstAt seen rest i t) :
            ¬ s.Coincides t := by
          intro hst
          rcases hdrop with hpoint | hseen
          · have hs : s.Proper := ht.2.1.of_coincides hst.symm
            exact Bool.false_ne_true (hs.symm.trans hpoint)
          · exact ht.2.2.1 (key_eq_iff.mpr hst ▸ hseen)
        cases i with
        | zero =>
          have hnot : ¬ (s.Proper ∧ s.key ∉ seen) := by
            rintro ⟨hs, hkey⟩
            exact hdrop.elim (fun hpoint => Bool.false_ne_true (hs.symm.trans hpoint)) hkey
          simpa [firstAt_zero] using hnot
        | succ i =>
          have hiff (t : Segment Coord) : ¬ s.Coincides t ∧ FirstAt seen rest i t ↔
              FirstAt seen rest i t := and_iff_right_of_imp hother
          simp [firstAt_succ, hmem, hiff]
    · obtain ⟨places, hascending, hmap, hmem⟩ := ih (s.key :: seen)
      rw [not_or, Bool.not_eq_true] at hdrop
      refine ⟨0 :: places.map (· + 1), ?_, ?_, fun i => ?_⟩
      · refine List.pairwise_cons.mpr ⟨?_, ?_⟩
        · simp
        · exact List.pairwise_map.mpr (hascending.imp Nat.succ_lt_succ)
      · simp [hmap]
      · cases i with
        | zero => simpa [firstAt_zero, Proper] using hdrop
        | succ i =>
          have hiff (t : Segment Coord) : FirstAt (s.key :: seen) rest i t ↔
              ¬ s.Coincides t ∧ FirstAt seen rest i t := by
            simp only [FirstAt, List.mem_cons, not_or, ← key_eq_iff]
            tauto
          simp [firstAt_succ, hmem, hiff]

theorem exists_firstPlaces (all : List (Segment Coord)) :
    ∃ places, FirstPlaces all places ∧ (distinct [] all).map some = places.map (all[·]?) := by
  obtain ⟨places, hascending, hmap, hmem⟩ := exists_places [] all
  refine ⟨places, ⟨hascending, fun {i} => ?_⟩, hmap⟩
  simp [hmem, FirstAt]

section FirstPlaces

variable (h : FirstPlaces all places) (hkept : kept.map some = places.map (all[·]?))

include h hkept

theorem FirstPlaces.mem_kept : s ∈ kept ↔
    ∃ i : Nat, all[i]? = some s ∧ s.Proper ∧ ∀ j < i, ∀ t ∈ all[j]?, ¬ t.Coincides s := by
  have hmem : s ∈ kept ↔ ∃ i ∈ places, all[i]? = some s := by
    rw [← List.mem_map_of_injective (Option.some_injective _), hkept, List.mem_map]
  rw [hmem]
  constructor
  · rintro ⟨i, hi, hs⟩
    obtain ⟨s', hs', hfirst⟩ := h.mem_iff.mp hi
    obtain rfl := Option.some.inj (hs.symm.trans hs')
    exact ⟨i, hs, hfirst⟩
  · rintro ⟨i, hs, hfirst⟩
    exact ⟨i, h.mem_iff.mpr ⟨s, hs, hfirst⟩, hs⟩

/-- The first of the segments that coincide with a given one is kept. -/
theorem FirstPlaces.exists_coincides (hs : s ∈ all) (hproper : s.Proper) :
    ∃ t ∈ kept, t.Coincides s := by
  classical
  obtain ⟨i, hi⟩ := List.mem_iff_getElem?.mp hs
  have hsome : ∃ (i : Nat) (t : Segment Coord), all[i]? = some t ∧ t.Coincides s :=
    ⟨i, s, hi, key_eq_iff.mp rfl⟩
  obtain ⟨t, ht, hts⟩ := Nat.find_spec hsome
  refine ⟨t, (h.mem_kept hkept).mpr ⟨_, ht, hproper.of_coincides hts.symm, ?_⟩, hts⟩
  intro j hj u hu hut
  rw [← key_eq_iff] at hut hts
  exact Nat.find_min hsome hj ⟨u, hu, key_eq_iff.mp (hut.trans hts)⟩

theorem FirstPlaces.pairwise : kept.Pairwise fun s t => ¬ s.Coincides t := by
  have hplaces : places.Pairwise fun i j =>
      ∀ s ∈ all[i]?, ∀ t ∈ all[j]?, ¬ s.Coincides t := by
    refine h.ascending.imp_of_mem fun {i j} _ hj hlt s hs t ht => ?_
    obtain ⟨t', ht', -, hfirst⟩ := h.mem_iff.mp hj
    obtain rfl := Option.some.inj (ht'.symm.trans ht)
    exact hfirst i hlt s hs
  have hmap : (places.map (all[·]?)).Pairwise fun a b =>
      ∀ s ∈ a, ∀ t ∈ b, ¬ s.Coincides t := List.pairwise_map.mpr hplaces
  rw [← hkept, List.pairwise_map] at hmap
  simpa using hmap

end FirstPlaces

/-- Segments that are apart already are all kept. -/
theorem distinct_eq_self (hproper : ∀ s ∈ all, s.Proper ∧ s.key ∉ seen)
    (hapart : all.Pairwise fun s t => ¬ s.Coincides t) : distinct seen all = all := by
  induction all generalizing seen with
  | nil => rfl
  | cons s rest ih =>
    obtain ⟨⟨hs, hkey⟩, hrest⟩ := List.forall_mem_cons.mp hproper
    obtain ⟨hfirst, hapart⟩ := List.pairwise_cons.mp hapart
    rw [distinct, if_neg (not_or.mpr ⟨Bool.eq_false_iff.mp hs, hkey⟩)]
    refine congrArg (s :: ·) (ih (fun t ht => ⟨(hrest t ht).1, ?_⟩) hapart)
    rw [List.mem_cons, not_or, key_eq_iff]
    exact ⟨fun hts => hfirst t ht hts.symm, (hrest t ht).2⟩

/-! ### Lines and rings -/

/-- The segment joins a coordinate of a path to the next one. -/
def On (s : Segment Coord) (path : List Coord) : Prop :=
  ∃ i, path[i]? = some s.start ∧ path[i + 1]? = some s.stop

/-- The segments of a path in order. -/
theorem getElem?_ofPath {path : List Coord} {i : Nat} :
    (ofPath path)[i]? = some s ↔ path[i]? = some s.start ∧ path[i + 1]? = some s.stop := by
  induction path generalizing i with
  | nil => simp [ofPath]
  | cons a rest ih =>
    cases rest with
    | nil => simp [ofPath]
    | cons b rest =>
      cases i with
      | zero =>
        obtain ⟨c, d⟩ := s
        simp [ofPath]
      | succ i =>
        rw [ofPath, List.getElem?_cons_succ, ih]
        rfl

theorem mem_ofPath {path : List Coord} : s ∈ ofPath path ↔ s.On path := by
  rw [List.mem_iff_getElem?]
  exact exists_congr fun i => getElem?_ofPath

end Segment

namespace Geometry

mutual

/-- The lines and rings of a geometry, in order: of a polygon the exterior and then the holes. -/
def paths : Geometry → List (List Coord)
  | .point _ | .multiPoint _ => []
  | .line a b => [[a, b]]
  | .lineString cs => [cs]
  | .polygon p => p.rings
  | .multiLineString ls => ls
  | .multiPolygon ps => ps.flatMap Polygon.rings
  | .rect r => [r.ring]
  | .triangle a b c => [triangleRing a b c]
  | .collection gs => pathsOfAll gs

/-- The lines and rings of a list of geometries. -/
def pathsOfAll : List Geometry → List (List Coord)
  | [] => []
  | g :: gs => g.paths ++ pathsOfAll gs

end

mutual

theorem segments_eq (g : Geometry) : g.segments = g.paths.flatMap Segment.ofPath := by
  cases g with
  | point | multiPoint => rfl
  | line | lineString | rect | triangle => simp [segments, paths, Segment.ofPath]
  | polygon | multiLineString => rfl
  | multiPolygon ps => simp [segments, paths, List.flatMap_assoc]
  | collection gs =>
    rw [segments, paths]
    exact segmentsOfAll_eq gs

theorem segmentsOfAll_eq (gs : List Geometry) :
    segmentsOfAll gs = (pathsOfAll gs).flatMap Segment.ofPath := by
  cases gs with
  | nil => rfl
  | cons g gs =>
    rw [segmentsOfAll, pathsOfAll, List.flatMap_append, segments_eq g, segmentsOfAll_eq gs]

end

/-- Line strings of two coordinates have themselves as segments. -/
theorem segments_ofEnds (kept : List (Segment Coord)) :
    (multiLineString (kept.map fun s => [s.start, s.stop])).segments = kept := by
  simp [segments, List.flatMap_map, Segment.ofPath]

/-- Some segments of a geometry: each one that is more than a point once, in whichever direction,
at the first place where it occurs. -/
structure KeptOnce (g : Geometry) (kept : List (Segment Coord)) : Prop where
  original : ∀ s ∈ kept, s.Proper ∧ ∃ path ∈ g.paths, s.On path
  complete : ∀ path ∈ g.paths, ∀ s : Segment Coord, s.On path → s.Proper →
    ∃ t ∈ kept, t.Coincides s
  once : kept.Pairwise fun s t => ¬ s.Coincides t
  ordered : ∃ places, Segment.FirstPlaces (g.paths.flatMap Segment.ofPath) places ∧
    kept.map some = places.map fun i => (g.paths.flatMap Segment.ofPath)[i]?

theorem keptOnce_distinct (g : Geometry) : g.KeptOnce (Segment.distinct [] g.segments) := by
  have hmem {s : Segment Coord} : s ∈ g.segments ↔ ∃ path ∈ g.paths, s.On path := by
    simp only [segments_eq, List.mem_flatMap, Segment.mem_ofPath]
  obtain ⟨places, hfirst, hkept⟩ := Segment.exists_firstPlaces g.segments
  constructor
  case original =>
    intro s hs
    obtain ⟨i, hi, hproper, -⟩ := (hfirst.mem_kept hkept).mp hs
    exact ⟨hproper, hmem.mp (List.mem_of_getElem? hi)⟩
  case complete =>
    intro path hpath s hs hproper
    exact hfirst.exists_coincides hkept (hmem.mpr ⟨path, hpath, hs⟩) hproper
  case once => exact hfirst.pairwise hkept
  case ordered =>
    rw [segments_eq] at hfirst hkept
    rw [segments_eq]
    exact ⟨places, hfirst, hkept⟩

theorem distinctSegments_idem (g : Geometry) :
    g.distinctSegments.distinctSegments = g.distinctSegments := by
  have honce := g.keptOnce_distinct
  rw [distinctSegments, distinctSegments, segments_ofEnds]
  rw [Segment.distinct_eq_self (fun s hs => ⟨(honce.original s hs).1, by simp⟩) honce.once]

/-- The segments of a geometry as line strings of two coordinates, each once. Doing it again changes
nothing. -/
theorem multiSegments (g : Geometry) :
    ∃ kept, g.KeptOnce kept ∧
      SpatialFunction.toMultiSegments.apply (.geometry g) =
        .geometry (.multiLineString (kept.map fun s => [s.start, s.stop])) ∧
      SpatialFunction.toMultiSegments.apply
          (SpatialFunction.toMultiSegments.apply (.geometry g)) =
        SpatialFunction.toMultiSegments.apply (.geometry g) :=
  ⟨_, g.keptOnce_distinct, rfl, congrArg Value.geometry g.distinctSegments_idem⟩

end Geometry

end SpatialStore
