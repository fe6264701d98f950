import SpatialStore.Geometry.Envelope
import SpatialStore.Proofs.Double.Order

/-!
# Hulls of envelopes

The hull of some envelopes is the smallest envelope that covers them. `Envelope.Hull` says this
side by side: every side of the hull is a side of one of the envelopes, and no envelope reaches
beyond it. Sides that are NaN do not count, so hulls exist for all envelopes, and unions of hulls
are hulls (`Hull.union`, `Hull.flatMap`).

What searching needs of a hull is that it contains every numeric envelope of the family
(`Hull.contains`), and so meets every window that one of them meets
(`intersects_of_contains`). A hull is unique up to the sign of zeros (`Hull.same`).
-/

namespace SpatialStore.Envelope

open Double (Extreme lesser_picks greater_picks)

/-- No side of the envelope is NaN. -/
def Numeric (e : Envelope) : Prop :=
  (e.minX.isNaN = false ∧ e.minY.isNaN = false) ∧ e.maxX.isNaN = false ∧ e.maxY.isNaN = false

instance (e : Envelope) : Decidable e.Numeric :=
  inferInstanceAs (Decidable (_ ∧ _))

/-- Whether two envelopes have equal sides, where the two zeros are equal. -/
def same (a b : Envelope) : Bool :=
  a.minX == b.minX && a.minY == b.minY && a.maxX == b.maxX && a.maxY == b.maxY

/-- Every side of `u` is the outermost of the corresponding sides of `es`. -/
structure Hull (u : Envelope) (es : List Envelope) : Prop where
  minX : Extreme (· ≤ ·) u.minX (es.map (·.minX))
  minY : Extreme (· ≤ ·) u.minY (es.map (·.minY))
  maxX : Extreme (· ≥ ·) u.maxX (es.map (·.maxX))
  maxY : Extreme (· ≥ ·) u.maxY (es.map (·.maxY))

variable {u v e w : Envelope} {es fs : List Envelope}

/-! ### Building hulls -/

theorem Hull.singleton (e : Envelope) : Hull e [e] where
  minX := .singleton lesser_picks _
  minY := .singleton lesser_picks _
  maxX := .singleton greater_picks _
  maxY := .singleton greater_picks _

/-- The union of two hulls is the hull of both families. -/
theorem Hull.union (hu : Hull u es) (hv : Hull v fs) : Hull (u.union v) (es ++ fs) := by
  constructor <;> rw [List.map_append]
  · exact hu.minX.append lesser_picks hv.minX
  · exact hu.minY.append lesser_picks hv.minY
  · exact hu.maxX.append greater_picks hv.maxX
  · exact hu.maxY.append greater_picks hv.maxY

/-- A hull does not depend on order and repetitions. -/
theorem Hull.of_mem_iff (hu : Hull u es) (h : ∀ e, e ∈ es ↔ e ∈ fs) : Hull u fs := by
  have hmap (side : Envelope → Float) (x : Float) : x ∈ es.map side ↔ x ∈ fs.map side := by
    simp only [List.mem_map, h]
  exact ⟨hu.minX.of_mem_iff (hmap _), hu.minY.of_mem_iff (hmap _), hu.maxX.of_mem_iff (hmap _),
    hu.maxY.of_mem_iff (hmap _)⟩

theorem Hull.perm (hu : Hull u es) (h : es.Perm fs) : Hull u fs :=
  hu.of_mem_iff fun _ => h.mem_iff

theorem Hull.foldl_union (hu : Hull u es) (fs : List Envelope) :
    Hull (fs.foldl Envelope.union u) (es ++ fs) := by
  induction fs generalizing u es with
  | nil => simpa using hu
  | cons f fs ih => simpa using ih (hu.union (.singleton f))

/-- The union of a list is its hull. -/
theorem hull_of_unionAll (h : unionAll es = some u) : Hull u es := by
  cases es with
  | nil => cases h
  | cons e es =>
    obtain rfl := Option.some.inj h
    exact (Hull.singleton e).foldl_union es

theorem unionAll_eq_none_iff : unionAll es = none ↔ es = [] := by
  cases es <;> simp [unionAll]

/-- The hull of hulls is the hull of everything. -/
theorem Hull.flatMap {α : Type} {as : List α} {box : α → Envelope} {all : α → List Envelope}
    (hu : Hull u (as.map box)) (h : ∀ a ∈ as, Hull (box a) (all a)) :
    Hull u (as.flatMap all) := by
  obtain ⟨h₁, h₂, h₃, h₄⟩ := hu
  rw [List.map_map] at h₁ h₂ h₃ h₄
  constructor <;> rw [List.map_flatMap]
  · exact h₁.flatMap lesser_picks fun a ha => (h a ha).minX
  · exact h₂.flatMap lesser_picks fun a ha => (h a ha).minY
  · exact h₃.flatMap greater_picks fun a ha => (h a ha).maxX
  · exact h₄.flatMap greater_picks fun a ha => (h a ha).maxY

theorem Hull.ne_nil (hu : Hull u es) : es ≠ [] := by
  rintro rfl
  exact absurd hu.minX.mem List.not_mem_nil

/-! ### Using hulls -/

/-- A hull contains the numeric envelopes of its family. -/
theorem Hull.contains (hu : Hull u es) (he : e ∈ es) (hnum : e.Numeric) :
    u.contains e = true := by
  obtain ⟨⟨h₁, h₂⟩, h₃, h₄⟩ := hnum
  have hminX := hu.minX.bound _ (List.mem_map_of_mem he) h₁
  have hminY := hu.minY.bound _ (List.mem_map_of_mem he) h₂
  have hmaxX := hu.maxX.bound _ (List.mem_map_of_mem he) h₃
  have hmaxY := hu.maxY.bound _ (List.mem_map_of_mem he) h₄
  simp only [Envelope.contains, Bool.and_eq_true, decide_eq_true_eq]
  exact ⟨⟨⟨hminX, hminY⟩, hmaxX⟩, hmaxY⟩

/-- Envelopes that meet are numeric. -/
theorem numeric_of_intersects (h : e.intersects w = true) : e.Numeric ∧ w.Numeric := by
  simp only [intersects, Bool.and_eq_true, decide_eq_true_eq, Double.le_iff_rank] at h
  exact ⟨⟨⟨h.1.1.1.1, h.1.2.1⟩, h.1.1.2.2.1, h.2.2.1⟩,
    ⟨⟨h.1.1.2.1, h.2.1⟩, h.1.1.1.2.1, h.1.2.2.1⟩⟩

/-- What meets an envelope meets everything that contains it. -/
theorem intersects_of_contains (hc : u.contains e = true) (h : e.intersects w = true) :
    u.intersects w = true := by
  simp only [Envelope.contains, intersects, Bool.and_eq_true, decide_eq_true_eq] at hc h ⊢
  obtain ⟨⟨⟨h₁, h₂⟩, h₃⟩, h₄⟩ := h
  obtain ⟨⟨⟨c₁, c₂⟩, c₃⟩, c₄⟩ := hc
  exact ⟨⟨⟨Double.le_trans c₁ h₁, Double.le_trans h₂ c₃⟩, Double.le_trans c₂ h₃⟩,
    Double.le_trans h₄ c₄⟩

/-- A family of numeric envelopes has one hull only. -/
theorem Hull.same (hu : Hull u es) (hv : Hull v es) (hnum : ∀ e ∈ es, e.Numeric) :
    u.same v = true := by
  -- on each side, both are the outermost of the same numbers
  have side {r : Float → Float → Prop} {p : Envelope → Float} {x y : Float}
      (hp : ∀ e, e.Numeric → (p e).isNaN = false) (hx : Extreme r x (es.map p))
      (hy : Extreme r y (es.map p)) : r x y ∧ r y x := by
    obtain ⟨e, he, rfl⟩ := List.mem_map.mp hx.mem
    obtain ⟨f, hf, rfl⟩ := List.mem_map.mp hy.mem
    exact ⟨hx.bound _ hy.mem (hp f (hnum f hf)), hy.bound _ hx.mem (hp e (hnum e he))⟩
  have h₁ := side (fun e h => h.1.1) hu.minX hv.minX
  have h₂ := side (fun e h => h.1.2) hu.minY hv.minY
  have h₃ := side (fun e h => h.2.1) hu.maxX hv.maxX
  have h₄ := side (fun e h => h.2.2) hu.maxY hv.maxY
  simp only [Envelope.same, Bool.and_eq_true]
  exact ⟨⟨⟨Double.beq_of_le_of_le h₁.1 h₁.2, Double.beq_of_le_of_le h₂.1 h₂.2⟩,
    Double.beq_of_le_of_le h₃.2 h₃.1⟩, Double.beq_of_le_of_le h₄.2 h₄.1⟩

end SpatialStore.Envelope
