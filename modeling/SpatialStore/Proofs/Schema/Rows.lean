import Mathlib.Data.List.Forall2
import Mathlib.Data.List.InsertIdx
import SpatialStore.Editing.Violation
import SpatialStore.Proofs.Result
import SpatialStore.Proofs.Schema.Names

/-!
# Rows that fit a schema

A row *fits* a schema when it has one value for each field, of a type that the field takes. While
a table is edited just this is checked (`Schema.checkRow_eq_ok`), and it is kept when a column is
put in, taken out or renamed together with its field.

When the table is committed the constraints are looked at as well. A field *admits* a value of a
type that fits which is as all constraints ask (`Field.Admits`), and a violation is reported exactly
if a value of a row is not admitted by its field. It is that of the first such row and in it of the
first such field (`Schema.firstViolation?_eq_none_iff`, `Schema.exists_of_firstViolation?`). If the
row fits, then a constraint is violated, not the type (`Field.violates_of_fits`).
-/

namespace SpatialStore

/-- The row has one value for each field, of a type that fits it. -/
def Schema.Fits (s : Schema) (row : Row) : Prop :=
  List.Forall₂ (fun v f => Value.fits v f.type = true) row s.fields

/-- A null fits every type. -/
theorem Value.fits_null (t : DataType) : Value.fits .null t = true := rfl

theorem Field.checkType_eq_ok {f : Field} {v : Value} :
    f.checkType v = .ok () ↔ v.fits f.type = true := by
  rw [Field.checkType]
  split_ifs with h <;> simp [h]

namespace Schema

variable {s : Schema} {row : Row} {i c : Nat} {f : Field} {v : Value}

theorem Fits.length (h : s.Fits row) : row.length = s.count := h.length_eq

/-- A value of the row fits the field in its place. -/
theorem Fits.value (h : s.Fits row) (hf : s.fields[c]? = some f) (hv : row[c]? = some v) :
    v.fits f.type = true := by
  obtain ⟨hc, rfl⟩ := List.getElem?_eq_some_iff.mp hf
  obtain ⟨hc', rfl⟩ := List.getElem?_eq_some_iff.mp hv
  exact (List.forall₂_iff_get.mp h).2 c hc' hc

/-! ### Changing columns -/

section Columns

variable {α β : Type} {R : α → β → Prop} {as : List α} {bs : List β} {a : α} {b : β}

private theorem forall₂_insertIdx (h : List.Forall₂ R as bs) (hab : R a b) (i : Nat) :
    List.Forall₂ R (as.insertIdx i a) (bs.insertIdx i b) := by
  induction h generalizing i with
  | nil =>
    cases i with
    | zero => exact .cons hab .nil
    | succ i => exact .nil
  | cons h hs ih =>
    cases i with
    | zero => exact .cons hab (.cons h hs)
    | succ i => exact .cons h (ih i)

private theorem forall₂_eraseIdx (h : List.Forall₂ R as bs) (i : Nat) :
    List.Forall₂ R (as.eraseIdx i) (bs.eraseIdx i) := by
  induction h generalizing i with
  | nil => exact .nil
  | cons h hs ih =>
    cases i with
    | zero => exact hs
    | succ i => exact .cons h (ih i)

private theorem forall₂_set_left (h : List.Forall₂ R as bs) {i : Nat}
    (hab : ∀ b ∈ bs[i]?, R a b) : List.Forall₂ R (as.set i a) bs := by
  induction h generalizing i with
  | nil => exact .nil
  | cons h hs ih =>
    cases i with
    | zero => exact .cons (hab _ rfl) hs
    | succ i => exact .cons h (ih hab)

private theorem forall₂_set_right (h : List.Forall₂ R as bs) {i : Nat}
    (hab : ∀ a ∈ as[i]?, R a b) : List.Forall₂ R as (bs.set i b) :=
  (forall₂_set_left h.flip hab).flip

end Columns

theorem Fits.insertIdx (h : s.Fits row) (hv : v.fits f.type = true) (i : Nat) :
    Fits ⟨s.fields.insertIdx i f⟩ (row.insertIdx i v) :=
  forall₂_insertIdx h hv i

theorem Fits.eraseIdx (h : s.Fits row) (i : Nat) :
    Fits ⟨s.fields.eraseIdx i⟩ (row.eraseIdx i) :=
  forall₂_eraseIdx h i

/-- A value is stored in a place where it fits. -/
theorem Fits.set (h : s.Fits row) (hv : ∀ f ∈ s.fields[c]?, v.fits f.type = true) :
    s.Fits (row.set c v) :=
  forall₂_set_left h hv

/-- A field keeps its type under another name. -/
theorem Fits.rename (h : s.Fits row) (hf : s.fields[i]? = some f) (name : String) :
    Fits ⟨s.fields.set i { f with name }⟩ row := by
  refine forall₂_set_right h fun v hv => ?_
  have hfits : v.fits f.type = true := h.value hf hv
  exact hfits

/-! ### Checks while editing -/

theorem checkTypes_eq_ok {fields : List Field} (hlength : row.length = fields.length) :
    checkTypes fields row = .ok () ↔
      List.Forall₂ (fun v f => Value.fits v f.type = true) row fields := by
  induction fields generalizing row with
  | nil =>
    obtain rfl := List.eq_nil_of_length_eq_zero hlength
    exact iff_of_true rfl .nil
  | cons f fields ih =>
    obtain _ | ⟨v, row⟩ := row
    · cases hlength
    rw [checkTypes, List.forall₂_cons, ← Field.checkType_eq_ok, ← ih (Nat.succ.inj hlength)]
    cases f.checkType v with
    | error err => simp [bind, Except.bind]
    | ok => simp [bind, Except.bind]

/-- While a table is edited, the rows that are let in are those that fit. -/
theorem checkRow_eq_ok : s.checkRow row = .ok () ↔ s.Fits row := by
  rw [checkRow]
  split_ifs with hlength
  · exact checkTypes_eq_ok hlength
  · exact iff_of_false (by simp) fun h => hlength h.length

end Schema

/-! ### Violations -/

/-- What a constraint asks of a value; of values of other types it asks nothing. -/
def Constraint.Asks : Constraint → Value → Prop
  | .notNull, v => v ≠ .null
  | .length max, v => ∀ s, v = .string s → s.length ≤ max
  | .family f, v => ∀ g, v = .geometry g → g.family? = some f
  | .dimension max, v => ∀ g d, v = .geometry g → g.dimension? = some d → d ≤ max

theorem Constraint.admits_iff {c : Constraint} {v : Value} : c.admits v = true ↔ c.Asks v := by
  cases c with
  | notNull => cases v <;> simp [admits, Asks, Value.isNull]
  | length | family => cases v <;> simp [admits, Asks]
  | dimension max =>
    cases v with
    | geometry g =>
      rw [admits]
      constructor
      · rintro h _ d ⟨⟩ hd
        simpa [hd] using h
      · intro h
        cases hd : g.dimension? with
        | none => rfl
        | some d => simpa using h g d rfl hd
    | _ => simp [admits, Asks]

theorem Value.fits_iff {v : Value} {t : DataType} : v.fits t = true ↔
    v.type? = none ∨ v.type? = some t ∨ v.type? = some .int ∧ t = .double := by
  cases v <;> cases t <;> simp [fits, type?]

namespace Field

variable {f : Field} {v : Value} {reason : String}

/-- The field can hold the value: its type is that of the field, or the value is null, or an integer
for a field of doubles, and it is as all constraints ask. -/
structure Admits (f : Field) (v : Value) : Prop where
  type : v.type? = none ∨ v.type? = some f.type ∨ v.type? = some .int ∧ f.type = .double
  constraints : ∀ c ∈ f.constraints, c.Asks v

/-- Values are refused exactly if they are not admitted. -/
theorem violation?_eq_none_iff : f.violation? v = none ↔ f.Admits v := by
  rw [violation?]
  split_ifs with hfits
  · rw [Option.map_eq_none_iff, List.find?_eq_none]
    constructor
    · intro h
      refine ⟨Value.fits_iff.mp hfits, fun c hc => Constraint.admits_iff.mp ?_⟩
      simpa using h c hc
    · intro h c hc
      simpa using Constraint.admits_iff.mpr (h.constraints c hc)
  · exact iff_of_false (by simp) fun h => hfits (Value.fits_iff.mpr h.type)

theorem not_admits_of_violation? (h : f.violation? v = some reason) : ¬ f.Admits v := by
  rw [← violation?_eq_none_iff, h]
  exact Option.some_ne_none reason

/-- A value that fits the type violates a field only by one of its constraints. -/
theorem violates_of_fits (hv : v.fits f.type = true) (h : f.violation? v = some reason) :
    ∃ c ∈ f.constraints, c.admits v = false ∧ reason = v.text ++ " violates " ++ c.text := by
  rw [violation?, if_pos hv] at h
  obtain ⟨c, hc, rfl⟩ := Option.map_eq_some_iff.mp h
  have hadmits := List.find?_some hc
  exact ⟨c, List.mem_of_find?_eq_some hc, by simpa using hadmits, rfl⟩

end Field

namespace Schema

variable {s : Schema} {fields : List Field} {row : Row} {rows : List Row} {c n start : Nat}
  {field reason : String}

/-- A value of the row is not admitted by the field of its column. -/
def Refuses (fields : List Field) (row : Row) (c : Nat) : Prop :=
  ∃ (f : Field) (v : Value), fields[c]? = some f ∧ row[c]? = some v ∧ ¬ f.Admits v

/-- A value of the rows is not admitted by the field of its column. -/
def Unfit (s : Schema) (rows : List Row) (n c : Nat) : Prop :=
  ∃ row, rows[n]? = some row ∧ Refuses s.fields row c

/-- It is in the first row with such a value, and there in the first column with one. -/
structure FirstUnfit (s : Schema) (rows : List Row) (n c : Nat) : Prop where
  unfit : s.Unfit rows n c
  first : ∀ {n' c' : Nat}, s.Unfit rows n' c' → n < n' ∨ n = n' ∧ c ≤ c'

theorem not_refuses_zero {f : Field} {v : Value} (h : f.violation? v = none) :
    ¬ Refuses (f :: fields) (v :: row) 0 := by
  rintro ⟨f', v', hf, hv, hnot⟩
  cases hf
  cases hv
  exact hnot (Field.violation?_eq_none_iff.mp h)

theorem rowViolation?_eq_none_iff :
    rowViolation? fields row = none ↔ ∀ c, ¬ Refuses fields row c := by
  induction fields generalizing row with
  | nil => simp [rowViolation?, Refuses]
  | cons f fields ih =>
    obtain _ | ⟨v, row⟩ := row
    · simp [rowViolation?, Refuses]
    rw [rowViolation?]
    cases hv : f.violation? v with
    | some reason =>
      refine iff_of_false (by simp) fun h => h 0 ⟨f, v, rfl, rfl, ?_⟩
      exact Field.not_admits_of_violation? hv
    | none =>
      refine ih.trans ⟨fun h c => ?_, fun h c => h (c + 1)⟩
      obtain _ | c := c
      · exact not_refuses_zero hv
      · exact h c

/-- The field that is reported is the first that does not admit its value. -/
theorem exists_of_rowViolation? (h : rowViolation? fields row = some (field, reason)) :
    ∃ (c : Nat) (f : Field) (v : Value), fields[c]? = some f ∧ row[c]? = some v ∧ f.name = field ∧
      f.violation? v = some reason ∧ ∀ c', Refuses fields row c' → c ≤ c' := by
  induction fields generalizing row with
  | nil => cases h
  | cons f fields ih =>
    obtain _ | ⟨v, row⟩ := row
    · cases h
    rw [rowViolation?] at h
    cases hv : f.violation? v with
    | some _ =>
      rw [hv] at h
      cases h
      exact ⟨0, f, v, rfl, rfl, rfl, hv, fun c' _ => Nat.zero_le c'⟩
    | none =>
      rw [hv] at h
      obtain ⟨c, g, u, hg, hu, hname, hviolation, hfirst⟩ := ih h
      refine ⟨c + 1, g, u, hg, hu, hname, hviolation, fun c' hc' => ?_⟩
      obtain _ | c' := c'
      · exact absurd hc' (not_refuses_zero hv)
      · exact Nat.succ_le_succ (hfirst c' hc')

theorem violationFrom?_eq_none_iff :
    s.violationFrom? start rows = none ↔ ∀ row ∈ rows, rowViolation? s.fields row = none := by
  induction rows generalizing start with
  | nil => simp [violationFrom?]
  | cons row rows ih =>
    rw [violationFrom?, List.forall_mem_cons, ← @ih (start + 1)]
    cases rowViolation? s.fields row <;> simp

/-- The row that is reported is the first with a violation. -/
theorem exists_of_violationFrom? (h : s.violationFrom? start rows = some (n, field, reason)) :
    ∃ i row, n = start + i ∧ rows[i]? = some row ∧
      rowViolation? s.fields row = some (field, reason) ∧
      ∀ j < i, ∀ row' ∈ rows[j]?, rowViolation? s.fields row' = none := by
  induction rows generalizing start with
  | nil => cases h
  | cons row rows ih =>
    rw [violationFrom?] at h
    cases hrow : rowViolation? s.fields row with
    | some r =>
      rw [hrow] at h
      cases h
      exact ⟨0, row, rfl, rfl, hrow, fun j hj => absurd hj (Nat.not_lt_zero j)⟩
    | none =>
      rw [hrow] at h
      obtain ⟨i, row', rfl, hi, hviolation, hfirst⟩ := ih h
      refine ⟨i + 1, row', by omega, hi, hviolation, fun j hj => ?_⟩
      obtain _ | j := j
      · rintro _ ⟨⟩
        exact hrow
      · exact hfirst j (Nat.lt_of_succ_lt_succ hj)

/-- No violation is reported exactly if all values are admitted. -/
theorem firstViolation?_eq_none_iff :
    s.firstViolation? rows = none ↔ ∀ n c, ¬ s.Unfit rows n c := by
  rw [firstViolation?, violationFrom?_eq_none_iff]
  simp only [rowViolation?_eq_none_iff]
  constructor
  · rintro h n c ⟨row, hrow, hc⟩
    exact h row (List.mem_of_getElem? hrow) c hc
  · intro h row hrow c hc
    obtain ⟨n, hn⟩ := List.mem_iff_getElem?.mp hrow
    exact h n c ⟨row, hn, hc⟩

/-- What is reported as a violation is the first value that its field does not admit. -/
theorem exists_of_firstViolation? (h : s.firstViolation? rows = some (n, field, reason)) :
    ∃ (row : Row) (c : Nat) (f : Field) (v : Value), rows[n]? = some row ∧
      s.fields[c]? = some f ∧ row[c]? = some v ∧
      f.name = field ∧ f.violation? v = some reason ∧ s.FirstUnfit rows n c := by
  obtain ⟨i, row, rfl, hi, hrow, hbefore⟩ := exists_of_violationFrom? h
  obtain ⟨c, f, v, hf, hv, hname, hviolation, hfirst⟩ := exists_of_rowViolation? hrow
  rw [Nat.zero_add]
  have hunfit : s.Unfit rows i c :=
    ⟨row, hi, f, v, hf, hv, Field.not_admits_of_violation? hviolation⟩
  refine ⟨row, c, f, v, hi, hf, hv, hname, hviolation, hunfit, fun {n' c'} hother => ?_⟩
  obtain ⟨row', hrow', hc'⟩ := hother
  rcases Nat.lt_trichotomy i n' with hlt | rfl | hgt
  · exact .inl hlt
  · obtain rfl := Option.some.inj (hi.symm.trans hrow')
    exact .inr ⟨rfl, hfirst c' hc'⟩
  · have hnone := hbefore n' hgt row' hrow'
    rw [rowViolation?_eq_none_iff] at hnone
    exact absurd hc' (hnone c')

end Schema

end SpatialStore
