import SpatialStore.Proofs.Double.Rounding
import SpatialStore.Proofs.Editing.Equality
import SpatialStore.Query.Expr

/-!
# Comparing several values

Two values are compared exactly if they are of the same type, but an integer that meets a double is
rounded first. For two values this makes no difference: turning them round turns their order round
(`Value.compare?_swap`). Three values need not be in order. Different integers can have the same
nearest double, and that double equals both of them, although they do not equal each other. Such
values are `Blurred`, and no others are: all other values that ascend from the first to the second
and from there to the third ascend from the first to the third as well (`Value.consistency`).
Rounding keeps the order of integers, so at worst what should be smaller or greater comes out equal.

In the same way values that are linked by equalities are equal, however long the chain, unless they
are different integers with the same double; then a list of predicates can hold that says that they
differ. Integers of at most 53 digits are never concerned (`Value.Precise.not_blurred`).
-/

namespace SpatialStore

/-! ### Steps of an order -/

/-- Two steps that do not descend do not descend together, and stay level only if both do. -/
def Climbs (first second both : Ordering) : Prop :=
  first ≠ .gt → second ≠ .gt → both ≠ .gt ∧ (both = .eq → first = .eq ∧ second = .eq)

theorem climbs_compare {α : Type} [Ord α] [Std.TransOrd α] (x y z : α) :
    Climbs (compare x y) (compare y z) (compare x z) := by
  intro hxy hyz
  have hxy' : (compare x y).isLE = true := Ordering.isLE_iff_ne_gt.mpr hxy
  have hyz' : (compare y z).isLE = true := Ordering.isLE_iff_ne_gt.mpr hyz
  refine ⟨Ordering.isLE_iff_ne_gt.mp (Std.TransCmp.isLE_trans hxy' hyz'), fun hxz => ?_⟩
  constructor
  · cases hfirst : compare x y with
    | eq => rfl
    | gt => exact absurd hfirst hxy
    | lt => exact nomatch hxz.symm.trans (Std.TransCmp.lt_of_lt_of_isLE hfirst hyz')
  · cases hsecond : compare y z with
    | eq => rfl
    | gt => exact absurd hsecond hyz
    | lt => exact nomatch hxz.symm.trans (Std.TransCmp.lt_of_isLE_of_lt hxy' hsecond)

/-- Steps of several orders on integers. -/
theorem climbs_int {a b c d e f : Int} : Climbs (compare a b) (compare c d) (compare e f) ↔
    (a ≤ b → c ≤ d → e ≤ f ∧ (e = f → a = b ∧ c = d)) := by
  simp only [Climbs, Int.compare_ne_gt, Int.compare_eq_eq]

namespace Value

variable {a b c : Value} {o p : Ordering}

/-! ### Two values -/

/-- The order of two values: exact for values of one type, and for two numbers of which one is a
double the order of their doubles. -/
inductive Compared : Value → Value → Ordering → Prop
  | bools (x y : Bool) : Compared (.bool x) (.bool y) (compare x y)
  | strings (s t : String) : Compared (.string s) (.string t) (compare s t)
  | ints (i j : Int64) : Compared (.int i) (.int j) (compare i.toInt j.toInt)
  | doubles {x y : Float} : x.isNaN = false → y.isNaN = false →
      Compared (.double x) (.double y) (compare (Double.rank x) (Double.rank y))
  | fromInt (i : Int64) {y : Float} : y.isNaN = false →
      Compared (.int i) (.double y)
        (compare (Double.rank (Double.ofInt i.toInt)) (Double.rank y))
  | toInt {x : Float} (j : Int64) : x.isNaN = false →
      Compared (.double x) (.int j)
        (compare (Double.rank x) (Double.rank (Double.ofInt j.toInt)))

theorem compare?_eq_some_iff : a.compare? b = some o ↔ Compared a b o := by
  constructor
  · intro h
    have hdoubles {x y : Float} (h : Double.compare? x y = some o) :=
      Double.compare?_eq_some_iff.mp h
    match a, b with
    | .bool x, .bool y =>
      obtain rfl := Option.some.inj h
      exact .bools x y
    | .string s, .string t =>
      obtain rfl := Option.some.inj h
      exact .strings s t
    | .int i, .int j =>
      obtain rfl := Option.some.inj h
      exact .ints i j
    | .double x, .double y =>
      obtain ⟨hx, hy, rfl⟩ := hdoubles h
      exact .doubles hx hy
    | .int i, .double y =>
      obtain ⟨-, hy, rfl⟩ := hdoubles h
      exact .fromInt i hy
    | .double x, .int j =>
      obtain ⟨hx, -, rfl⟩ := hdoubles h
      exact .toInt j hx
  · intro h
    cases h with
    | bools | strings | ints => rfl
    | doubles hx hy => exact Double.compare?_eq_compare hx hy
    | fromInt i hy => exact Double.compare?_eq_compare (Double.isNaN_ofInt64 i) hy
    | toInt j hx => exact Double.compare?_eq_compare hx (Double.isNaN_ofInt64 j)

theorem Compared.swap (h : Compared a b o) : Compared b a o.swap := by
  cases h with
  | bools x y =>
    rw [← Std.OrientedCmp.eq_swap]
    exact .bools y x
  | strings s t =>
    rw [← Std.OrientedCmp.eq_swap]
    exact .strings t s
  | ints i j =>
    rw [← Std.OrientedCmp.eq_swap]
    exact .ints j i
  | doubles hx hy =>
    rw [← Std.OrientedCmp.eq_swap]
    exact .doubles hy hx
  | fromInt i hy =>
    rw [← Std.OrientedCmp.eq_swap]
    exact .toInt i hy
  | toInt j hx =>
    rw [← Std.OrientedCmp.eq_swap]
    exact .fromInt j hx

/-- Turning two values round turns their order round. -/
theorem compare?_swap (a b : Value) : b.compare? a = (a.compare? b).map Ordering.swap := by
  cases h : a.compare? b with
  | some o => exact compare?_eq_some_iff.mpr (compare?_eq_some_iff.mp h).swap
  | none =>
    cases hback : b.compare? a with
    | none => rfl
    | some o =>
      have hthere := compare?_eq_some_iff.mpr (compare?_eq_some_iff.mp hback).swap
      cases h.symm.trans hthere

/-! ### Three values -/

/-- If the values ascend from the first to the second and from there to the third, then they do so
from the first to the third, and these two are equal only if all are. -/
def Chained (a b c : Value) : Prop :=
  ∀ {o p : Ordering}, a.compare? b = some o → b.compare? c = some p → o ≠ .gt → p ≠ .gt →
    ∃ q, a.compare? c = some q ∧ q ≠ .gt ∧ (q = .eq → o = .eq ∧ p = .eq)

/-- A double equals what both integers are rounded to. -/
def NearestToBoth (x : Float) (i j : Int64) : Prop :=
  (Double.ofInt i.toInt == x) = true ∧ (Double.ofInt j.toInt == x) = true

/-- Values that rounding has put out of order: two integers that differ and a double that equals
both. -/
inductive Blurred : Value → Value → Value → Prop
  /-- Between the integers, the double hides that they descend. -/
  | between {i j : Int64} {x : Float} : j.toInt < i.toInt → NearestToBoth x i j →
      Blurred (.int i) (.double x) (.int j)
  /-- Before or after them, it hides that they ascend. -/
  | before {i j : Int64} {x : Float} : i.toInt < j.toInt → NearestToBoth x i j →
      Blurred (.double x) (.int i) (.int j)
  | after {i j : Int64} {x : Float} : i.toInt < j.toInt → NearestToBoth x i j →
      Blurred (.int i) (.int j) (.double x)

/-- All orders are defined for values out of order. -/
theorem Blurred.compared (h : Blurred a b c) :
    (∃ o, a.compare? b = some o) ∧ ∃ p, b.compare? c = some p := by
  have number {i j : Int64} {x : Float} (h : NearestToBoth x i j) : x.isNaN = false :=
    (Double.beq_iff_rank.mp h.1).2.1
  simp only [compare?_eq_some_iff]
  cases h with
  | between _ h => exact ⟨⟨_, .fromInt _ (number h)⟩, _, .toInt _ (number h)⟩
  | before _ h => exact ⟨⟨_, .toInt _ (number h)⟩, _, .ints _ _⟩
  | after _ h => exact ⟨⟨_, .ints _ _⟩, _, .fromInt _ (number h)⟩

theorem chained_iff_climbs {q : Ordering} (ho : Compared a b o) (hp : Compared b c p)
    (hq : Compared a c q) : Chained a b c ↔ Climbs o p q := by
  rw [← compare?_eq_some_iff] at ho hp hq
  constructor
  · intro h hfirst hsecond
    obtain ⟨q', hq', hboth⟩ := h ho hp hfirst hsecond
    obtain rfl := Option.some.inj (hq.symm.trans hq')
    exact hboth
  · intro h o' p' ho' hp' hfirst hsecond
    obtain rfl := Option.some.inj (ho.symm.trans ho')
    obtain rfl := Option.some.inj (hp.symm.trans hp')
    exact ⟨q, hq, h hfirst hsecond⟩

private theorem nearestToBoth_iff {x : Float} {i j : Int64} (hx : x.isNaN = false) :
    NearestToBoth x i j ↔ Double.rank (Double.ofInt i.toInt) = Double.rank x ∧
      Double.rank (Double.ofInt j.toInt) = Double.rank x := by
  simp only [NearestToBoth, Double.beq_iff_rank, hx, Double.isNaN_ofInt64, true_and]

private theorem rank_ofInt64_le {i j : Int64} (h : i.toInt ≤ j.toInt) :
    Double.rank (Double.ofInt i.toInt) ≤ Double.rank (Double.ofInt j.toInt) := by
  have hle := Double.ofInt_le_ofInt (Double.natAbs_toInt_lt i) (Double.natAbs_toInt_lt j) h
  exact (Double.le_iff_rank.mp hle).2.2

/-- Values are in order exactly if they are not blurred. -/
theorem chained_iff (a b c : Value) : Chained a b c ↔ ¬ Blurred a b c := by
  by_cases hdefined : (∃ o, a.compare? b = some o) ∧ ∃ p, b.compare? c = some p
  swap
  · refine iff_of_true ?_ fun h => hdefined h.compared
    intro o p ho hp
    exact absurd ⟨⟨o, ho⟩, p, hp⟩ hdefined
  obtain ⟨⟨o, ho⟩, p, hp⟩ := hdefined
  rw [compare?_eq_some_iff] at ho hp
  -- of one kind or without two integers there is a single order that decides
  have of_climbs {q : Ordering} (hq : Compared a c q) (hclimbs : Climbs o p q)
      (hnot : ¬ Blurred a b c) : Chained a b c ↔ ¬ Blurred a b c :=
    iff_of_true ((chained_iff_climbs ho hp hq).mpr hclimbs) hnot
  cases ho with
  | bools x y =>
    cases hp with
    | bools _ z => exact of_climbs (.bools x z) (climbs_compare x y z) nofun
  | strings s t =>
    cases hp with
    | strings _ u => exact of_climbs (.strings s u) (climbs_compare s t u) nofun
  | doubles hx hy =>
    cases hp with
    | doubles _ hz => exact of_climbs (.doubles hx hz) (climbs_compare _ _ _) nofun
    | toInt k _ => exact of_climbs (.toInt k hx) (climbs_compare _ _ _) nofun
  | ints i j =>
    cases hp with
    | ints _ k => exact of_climbs (.ints i k) (climbs_compare _ _ _) nofun
    | fromInt _ hz =>
      have hblurred {z : Float} : Blurred (.int i) (.int j) (.double z) ↔
          i.toInt < j.toInt ∧ NearestToBoth z i j :=
        ⟨fun | .after hlt hnearest => ⟨hlt, hnearest⟩, fun h => .after h.1 h.2⟩
      have hmono := @rank_ofInt64_le i j
      rw [chained_iff_climbs (.ints i j) (.fromInt j hz) (.fromInt i hz), climbs_int, hblurred,
        nearestToBoth_iff hz]
      omega
  | fromInt i hy =>
    cases hp with
    | doubles _ hz => exact of_climbs (.fromInt i hz) (climbs_compare _ _ _) nofun
    | toInt k _ =>
      have hblurred {y : Float} : Blurred (.int i) (.double y) (.int k) ↔
          k.toInt < i.toInt ∧ NearestToBoth y i k :=
        ⟨fun | .between hlt hnearest => ⟨hlt, hnearest⟩, fun h => .between h.1 h.2⟩
      have hmono := @rank_ofInt64_le k i
      rw [chained_iff_climbs (.fromInt i hy) (.toInt k hy) (.ints i k), climbs_int, hblurred,
        nearestToBoth_iff hy]
      omega
  | toInt j hx =>
    cases hp with
    | fromInt _ hz => exact of_climbs (.doubles hx hz) (climbs_compare _ _ _) nofun
    | ints _ k =>
      have hblurred {x : Float} : Blurred (.double x) (.int j) (.int k) ↔
          j.toInt < k.toInt ∧ NearestToBoth x j k :=
        ⟨fun | .before hlt hnearest => ⟨hlt, hnearest⟩, fun h => .before h.1 h.2⟩
      have hmono := @rank_ofInt64_le j k
      rw [chained_iff_climbs (.toInt j hx) (.ints j k) (.toInt k hx), climbs_int, hblurred,
        nearestToBoth_iff hx]
      omega

/-- Integers of at most 53 digits are told apart. -/
theorem Precise.not_blurred (ha : a.Precise) (hb : b.Precise) (hc : c.Precise) :
    ¬ Blurred a b c := by
  have apart {i j : Int64} {x : Float} (hi : i.toInt.natAbs < 2 ^ 53)
      (hj : j.toInt.natAbs < 2 ^ 53) (hnearest : NearestToBoth x i j) : i.toInt = j.toInt := by
    obtain ⟨hi', hx, hix⟩ := Double.beq_iff_rank.mp hnearest.1
    obtain ⟨hj', -, hjx⟩ := Double.beq_iff_rank.mp hnearest.2
    exact Double.ofInt_inj hi hj (Double.beq_iff_rank.mpr ⟨hi', hj', hix.trans hjx.symm⟩)
  intro h
  cases h with
  | between hlt hnearest => exact absurd (apart ha hc hnearest) (Int.ne_of_gt hlt)
  | before hlt hnearest => exact absurd (apart hb hc hnearest) (Int.ne_of_lt hlt)
  | after hlt hnearest => exact absurd (apart ha hb hnearest) (Int.ne_of_lt hlt)

/-! ### Chains of equalities -/

/-- Truth values, integers, strings and doubles other than NaN. -/
def Ordered : Value → Prop
  | .bool _ | .int _ | .string _ => True
  | .double x => x.isNaN = false
  | .null | .geometry _ => False

theorem Ordered.queryEq_eq (ha : a.Ordered) (b : Value) :
    a.queryEq b = (a.compare? b == some .eq) := by
  cases a <;> cases b <;> first | rfl | exact absurd ha id

theorem Ordered.isNull_eq (ha : a.Ordered) : a.isNull = false := by
  cases a <;> first | rfl | exact absurd ha id

theorem Ordered.compare?_self (ha : a.Ordered) : a.compare? a = some .eq := by
  cases a with
  | bool | int | string => exact congrArg some Std.ReflCmp.compare_self
  | double x => exact Double.compare?_eq_iff.mpr (Double.beq_iff_rank.mpr ⟨ha, ha, rfl⟩)
  | null | geometry => exact absurd ha id

/-- Values of one type, or two numbers. -/
def Alike (a b : Value) : Prop :=
  a.type? = b.type? ∨ (∃ x, a.toDouble? = some x) ∧ ∃ y, b.toDouble? = some y

/-- Only values of types that do not go together have no order. -/
theorem Ordered.exists_compared_iff (ha : a.Ordered) (hb : b.Ordered) :
    (∃ o, a.compare? b = some o) ↔ a.Alike b := by
  constructor
  · rintro ⟨o, ho⟩
    cases compare?_eq_some_iff.mp ho with
    | bools | strings | ints | doubles => exact .inl rfl
    | fromInt | toInt => exact .inr ⟨⟨_, rfl⟩, _, rfl⟩
  · intro h
    simp only [compare?_eq_some_iff]
    cases a <;> cases b <;> simp only [Alike, type?, toDouble?, reduceCtorEq, exists_false,
      and_false, false_and, or_self, Option.some.injEq] at h
    case bool.bool x y => exact ⟨_, .bools x y⟩
    case string.string s t => exact ⟨_, .strings s t⟩
    case int.int i j => exact ⟨_, .ints i j⟩
    case double.double => exact ⟨_, .doubles ha hb⟩
    case int.double i _ => exact ⟨_, .fromInt i hb⟩
    case double.int _ j => exact ⟨_, .toInt j ha⟩
    all_goals exact absurd ha id

theorem SameKey.trans (h : a.SameKey b) (h' : b.SameKey c) : a.SameKey c := by
  obtain ⟨k, l, hk, hl, horder⟩ := h
  obtain ⟨l', m, hl', hm, horder'⟩ := h'
  obtain rfl := Option.some.inj (hl.symm.trans hl')
  exact ⟨k, m, hk, hm, Std.TransCmp.eq_trans horder horder'⟩

/-- Values that are linked by equalities have one key. -/
theorem Ordered.sameKey_of_transGen (ha : a.Ordered)
    (h : Relation.TransGen (fun x y => x.queryEq y = true) a c) : a.SameKey c := by
  induction h with
  | single h =>
    refine ScalarKey.order_of_queryEq h (.inl ?_)
    rintro g rfl
    exact ha
  | tail _ h ih =>
    refine ih.trans (ScalarKey.order_of_queryEq h (.inl ?_))
    rintro g rfl
    obtain ⟨_, _, -, hnone, -⟩ := ih
    cases hnone

end Value

namespace Comparison

variable {a b : Value}

theorem apply_eq_iff : Comparison.eq.apply a b = .bool true ↔ a.queryEq b = true := by
  cases a <;> cases b <;> simp [apply, Value.isNull, Value.queryEq]

theorem apply_ne_iff (ha : a.isNull = false) (hb : b.isNull = false) :
    Comparison.ne.apply a b = .bool true ↔ ¬ a.queryEq b = true := by
  simp [apply, ha, hb]

end Comparison

namespace Value

variable {a b c : Value}

/-- How far the comparisons of three values fit together. -/
structure Consistency (a b c : Value) : Prop where
  compared : (∃ o, a.compare? b = some o) ↔ a.Alike b
  reversed : b.compare? a = (a.compare? b).map Ordering.swap
  chained : Chained a b c ↔ ¬ Blurred a b c
  reflexive : a.queryEq a = true
  symmetric : b.queryEq a = a.queryEq b
  /-- Different integers with the same double are not equal, but a chain of equalities can link
  them. -/
  linked : Relation.TransGen (fun x y => x.queryEq y = true) a c →
    (a.queryEq c = true ↔ ¬ a.Confused c)
  /-- Then all equalities of a chain hold, and the ends also differ. -/
  contradicted : Relation.TransGen (fun x y => Comparison.eq.apply x y = .bool true) a c →
    (Comparison.ne.apply a c = .bool true ↔ a.Confused c)

theorem consistency (ha : a.Ordered) (hb : b.Ordered) (hc : c.Ordered) : Consistency a b c := by
  have linked (h : Relation.TransGen (fun x y => x.queryEq y = true) a c) :
      a.queryEq c = true ↔ ¬ a.Confused c := by
    have hkey := ha.sameKey_of_transGen h
    rw [← sameKey_iff_queryEq]
    exact ⟨fun heq => iff_of_true hkey heq, fun hiff => hiff.mp hkey⟩
  constructor
  case compared => exact ha.exists_compared_iff hb
  case reversed => exact compare?_swap a b
  case chained => exact chained_iff a b c
  case reflexive =>
    rw [ha.queryEq_eq, ha.compare?_self]
    rfl
  case symmetric =>
    rw [ha.queryEq_eq, hb.queryEq_eq, compare?_swap a b]
    rcases a.compare? b with _ | _ | _ | _ <;> rfl
  case linked => exact linked
  case contradicted =>
    intro h
    simp only [Comparison.apply_eq_iff] at h
    rw [Comparison.apply_ne_iff ha.isNull_eq hc.isNull_eq, linked h, not_not]

/-- Two neighbouring integers and the double that both are rounded to. -/
theorem consistency_large :
    Consistency (.int 9007199254740993) (.double 9007199254740992) (.int 9007199254740992) :=
  consistency trivial rfl trivial

/-- An integer equals a double that equals a smaller integer. -/
theorem compare?_large :
    ¬ Chained (.int 9007199254740993) (.double 9007199254740992) (.int 9007199254740992) ∧
      Comparison.eq.apply (.int 9007199254740993) (.double 9007199254740992) = .bool true ∧
      Comparison.eq.apply (.double 9007199254740992) (.int 9007199254740992) = .bool true ∧
      Comparison.ne.apply (.int 9007199254740993) (.int 9007199254740992) = .bool true := by
  have hfirst : compare? (.int 9007199254740993) (.double 9007199254740992) = some .eq := by
    decide +kernel
  have hsecond : compare? (.double 9007199254740992) (.int 9007199254740992) = some .eq := by
    decide +kernel
  have hboth : compare? (.int 9007199254740993) (.int 9007199254740992) = some .gt := by
    decide +kernel
  have hint : Ordered (.int 9007199254740993) := trivial
  have hdouble : Ordered (.double 9007199254740992) := rfl
  refine ⟨fun h => ?_, ?_, ?_, ?_⟩
  · obtain ⟨q, hq, hne, -⟩ := h hfirst hsecond (by decide) (by decide)
    exact hne (Option.some.inj (hq.symm.trans hboth))
  · rw [Comparison.apply_eq_iff, hint.queryEq_eq, hfirst]
    rfl
  · rw [Comparison.apply_eq_iff, hdouble.queryEq_eq, hsecond]
    rfl
  · rw [Comparison.apply_ne_iff rfl rfl, hint.queryEq_eq, hboth]
    decide

end Value

end SpatialStore
