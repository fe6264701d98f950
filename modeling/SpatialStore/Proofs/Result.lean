import Mathlib.Data.List.Perm.Basic

/-!
# Results

When a chain of steps that may fail succeeds, every step of it does. A step for every element of a
list succeeds when it does for each, and then the order of the list is the order of the results.
-/

namespace SpatialStore.Result

variable {ε α β γ : Type} {x : Except ε α} {y : Except ε β} {b : β}

theorem bind_eq_ok {f : α → Except ε β} : (x >>= f) = .ok b ↔ ∃ a, x = .ok a ∧ f a = .ok b := by
  cases x with
  | error e =>
    constructor
    · rintro ⟨⟩
    · rintro ⟨_, ⟨⟩, _⟩
  | ok a =>
    constructor
    · exact fun h => ⟨a, rfl, h⟩
    · rintro ⟨_, ⟨⟩, h⟩
      exact h

theorem bind_of_eq_ok {a : α} {f : α → Except ε β} (h : x = .ok a) : (x >>= f) = f a := by
  rw [h]
  rfl

theorem bind_of_eq_error {e : ε} {f : α → Except ε β} (h : x = .error e) :
    (x >>= f) = .error e := by
  rw [h]
  rfl

theorem map_eq_ok {f : α → β} : x.map f = .ok b ↔ ∃ a, x = .ok a ∧ f a = b := by
  cases x with
  | error e =>
    constructor
    · rintro ⟨⟩
    · rintro ⟨_, ⟨⟩, _⟩
  | ok a =>
    constructor
    · exact fun h => ⟨a, rfl, Except.ok.inj h⟩
    · rintro ⟨_, ⟨⟩, rfl⟩
      rfl

theorem exists_pure {f : α → β} :
    (∃ b, (do return f (← x)) = (.ok b : Except ε β)) ↔ ∃ a, x = .ok a := by
  cases x with
  | error e =>
    constructor
    · rintro ⟨_, ⟨⟩⟩
    · rintro ⟨_, ⟨⟩⟩
  | ok a => exact ⟨fun _ => ⟨a, rfl⟩, fun _ => ⟨f a, rfl⟩⟩

theorem exists_pure₂ {f : α → β → γ} :
    (∃ c, (do return f (← x) (← y)) = (.ok c : Except ε γ)) ↔
      (∃ a, x = .ok a) ∧ ∃ b, y = .ok b := by
  cases x with
  | error e =>
    constructor
    · rintro ⟨_, ⟨⟩⟩
    · rintro ⟨⟨_, ⟨⟩⟩, _⟩
  | ok a =>
    refine Iff.trans ?_ (and_iff_right ⟨a, rfl⟩).symm
    exact exists_pure

/-! ### Lists of results -/

variable {f : α → Except ε β} {xs xs' : List α} {ys : List β}

theorem mapM_eq_ok : xs.mapM f = .ok ys ↔ List.Forall₂ (fun x y => f x = .ok y) xs ys := by
  induction xs generalizing ys with
  | nil =>
    rw [List.mapM_nil, List.forall₂_nil_left_iff]
    exact ⟨fun h => (Except.ok.inj h).symm, fun h => congrArg Except.ok h.symm⟩
  | cons x xs ih =>
    rw [List.mapM_cons, List.forall₂_cons_left_iff]
    constructor
    · intro h
      obtain ⟨y, hy, h⟩ := bind_eq_ok.mp h
      obtain ⟨zs, hzs, h⟩ := bind_eq_ok.mp h
      exact ⟨y, zs, hy, ih.mp hzs, (Except.ok.inj h).symm⟩
    · rintro ⟨y, zs, hy, hzs, rfl⟩
      rw [hy, ih.mpr hzs]
      rfl

/-- Every element has a result. -/
theorem exists_of_mem {x : α} (h : xs.mapM f = .ok ys) (hx : x ∈ xs) : ∃ y ∈ ys, f x = .ok y := by
  rw [mapM_eq_ok] at h
  induction h with
  | nil => cases hx
  | @cons z y _ ys hz _ ih =>
    rcases List.mem_cons.mp hx with rfl | hx
    · exact ⟨y, List.mem_cons_self, hz⟩
    · obtain ⟨y', hy', hx'⟩ := ih hx
      exact ⟨y', List.mem_cons_of_mem y hy', hx'⟩

/-- Every result is that of an element. -/
theorem exists_of_mem_result {y : β} (h : xs.mapM f = .ok ys) (hy : y ∈ ys) :
    ∃ x ∈ xs, f x = .ok y := by
  rw [mapM_eq_ok] at h
  induction h with
  | nil => cases hy
  | @cons x z xs _ hx _ ih =>
    rcases List.mem_cons.mp hy with rfl | hy
    · exact ⟨x, List.mem_cons_self, hx⟩
    · obtain ⟨x', hx', hy'⟩ := ih hy
      exact ⟨x', List.mem_cons_of_mem x hx', hy'⟩

theorem exists_mapM_iff : (∃ ys, xs.mapM f = .ok ys) ↔ ∀ x ∈ xs, ∃ y, f x = .ok y := by
  constructor
  · rintro ⟨ys, h⟩ x hx
    obtain ⟨y, -, hy⟩ := exists_of_mem h hx
    exact ⟨y, hy⟩
  · intro h
    induction xs with
    | nil => exact ⟨[], rfl⟩
    | cons x xs ih =>
      obtain ⟨y, hy⟩ := h x List.mem_cons_self
      obtain ⟨ys, hys⟩ := ih fun z hz => h z (List.mem_cons_of_mem x hz)
      exact ⟨y :: ys, mapM_eq_ok.mpr (.cons hy (mapM_eq_ok.mp hys))⟩

theorem mapM_congr {g : α → Except ε β} (h : ∀ x ∈ xs, f x = g x) : xs.mapM f = xs.mapM g := by
  induction xs with
  | nil => rfl
  | cons x xs ih =>
    obtain ⟨hx, hxs⟩ := List.forall_mem_cons.mp h
    rw [List.mapM_cons, List.mapM_cons, hx, ih hxs]

/-- Steps that each depend on a condition succeed when all the conditions hold. -/
theorem mapM_eq_ok_of {P : α → Prop} {g : α → β} (h : ∀ x y, f x = .ok y ↔ P x ∧ y = g x) :
    xs.mapM f = .ok ys ↔ (∀ x ∈ xs, P x) ∧ ys = xs.map g := by
  rw [mapM_eq_ok]
  simp only [h]
  constructor
  · intro hys
    induction hys with
    | nil => exact ⟨fun x hx => absurd hx List.not_mem_nil, rfl⟩
    | cons hxy _ ih =>
      obtain ⟨hx, rfl⟩ := hxy
      obtain ⟨hxs, rfl⟩ := ih
      exact ⟨List.forall_mem_cons.mpr ⟨hx, hxs⟩, rfl⟩
  · rintro ⟨hxs, rfl⟩
    exact List.forall₂_map_right_iff.mpr (List.forall₂_same.mpr fun x hx => ⟨hxs x hx, rfl⟩)

/-- Steps that succeed and keep a property lead to a result that has it, and the last step decides
what else is true of the result. -/
theorem exists_foldlM {σ : Type} {P Q : σ → Prop} {f : σ → α → Except ε σ} {s : σ}
    (hstep : ∀ x ∈ xs, ∀ s, P s → ∃ t, f s x = .ok t ∧ P t ∧ Q t) (hs : P s) :
    ∃ t, xs.foldlM f s = .ok t ∧ P t ∧ (xs ≠ [] → Q t) := by
  induction xs generalizing s with
  | nil => exact ⟨s, rfl, hs, fun h => absurd rfl h⟩
  | cons x xs ih =>
    obtain ⟨hx, hxs⟩ := List.forall_mem_cons.mp hstep
    obtain ⟨t, ht, hPt, hQt⟩ := hx s hs
    obtain ⟨u, hu, hPu, hQu⟩ := ih hxs hPt
    refine ⟨u, ?_, hPu, fun _ => ?_⟩
    · rw [List.foldlM_cons, bind_of_eq_ok ht, hu]
    · cases xs with
      | nil =>
        cases hu
        exact hQt
      | cons y ys => exact hQu (List.cons_ne_nil y ys)

/-- Steps that succeed, keep a property and lead on in the sense of `R` do so together, and what
each step establishes is true in the end if leading on preserves it. A step may also need a
condition of its own, `A x`, that the steps before it keep. -/
theorem exists_foldlM_pairwise {σ : Type} {P : σ → Prop} {R : σ → σ → Prop} {A Q : α → σ → Prop}
    {L : α → α → Prop} {f : σ → α → Except ε σ} {s : σ} (hrefl : ∀ s, P s → R s s)
    (htrans : ∀ s t u, R s t → R t u → R s u) (hkeep : ∀ x s t, R s t → Q x s → Q x t)
    (hstep : ∀ x ∈ xs, ∀ s, P s → A x s →
      ∃ t, f s x = .ok t ∧ P t ∧ R s t ∧ Q x t ∧ ∀ y, L x y → A y s → A y t)
    (hxs : xs.Pairwise L) (hs : P s) (hA : ∀ x ∈ xs, A x s) :
    ∃ t, xs.foldlM f s = .ok t ∧ P t ∧ R s t ∧ ∀ x ∈ xs, Q x t := by
  induction xs generalizing s with
  | nil => exact ⟨s, rfl, hs, hrefl s hs, fun x hx => absurd hx List.not_mem_nil⟩
  | cons x xs ih =>
    obtain ⟨hx, hxs'⟩ := List.forall_mem_cons.mp hstep
    obtain ⟨hlater, hpairs⟩ := List.pairwise_cons.mp hxs
    obtain ⟨hAx, hAxs⟩ := List.forall_mem_cons.mp hA
    obtain ⟨t, ht, hPt, hRt, hQt, hAt⟩ := hx s hs hAx
    obtain ⟨u, hu, hPu, hRu, hQu⟩ :=
      ih hxs' hpairs hPt fun y hy => hAt y (hlater y hy) (hAxs y hy)
    refine ⟨u, ?_, hPu, htrans s t u hRt hRu, List.forall_mem_cons.mpr ⟨?_, hQu⟩⟩
    · rw [List.foldlM_cons, bind_of_eq_ok ht, hu]
    · exact hkeep x t u hRu hQt

/-- Steps without a condition of their own. -/
theorem exists_foldlM_forall {σ : Type} {P : σ → Prop} {R : σ → σ → Prop} {Q : α → σ → Prop}
    {f : σ → α → Except ε σ} {s : σ} (hrefl : ∀ s, P s → R s s)
    (htrans : ∀ s t u, R s t → R t u → R s u) (hkeep : ∀ x s t, R s t → Q x s → Q x t)
    (hstep : ∀ x ∈ xs, ∀ s, P s → ∃ t, f s x = .ok t ∧ P t ∧ R s t ∧ Q x t) (hs : P s) :
    ∃ t, xs.foldlM f s = .ok t ∧ P t ∧ R s t ∧ ∀ x ∈ xs, Q x t := by
  refine exists_foldlM_pairwise (A := fun _ _ => True) (L := fun _ _ => True) hrefl htrans hkeep
    (fun x hx s hs _ => ?_) (List.pairwise_of_forall fun _ _ => trivial) hs fun _ _ => trivial
  obtain ⟨t, ht, hPt, hRt, hQt⟩ := hstep x hx s hs
  exact ⟨t, ht, hPt, hRt, hQt, fun _ _ _ => trivial⟩

/-- A property that every step keeps holds of the result. -/
theorem foldlM_keeps {σ : Type} {P : σ → Prop} {f : σ → α → Except ε σ} {s t : σ}
    (hstep : ∀ x ∈ xs, ∀ s t, P s → f s x = .ok t → P t) (hs : P s)
    (h : xs.foldlM f s = .ok t) : P t := by
  induction xs generalizing s with
  | nil =>
    cases h
    exact hs
  | cons x xs ih =>
    obtain ⟨hx, hxs⟩ := List.forall_mem_cons.mp hstep
    obtain ⟨u, hu, h⟩ := bind_eq_ok.mp h
    exact ih hxs (hx s u hs hu) h

end SpatialStore.Result
