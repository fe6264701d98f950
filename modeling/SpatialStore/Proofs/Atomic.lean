import Mathlib.Logic.Basic

/-!
# Atomic actions

An action on state that is changed in place may fail half-way, and then what it has changed stays
changed. It is *atomic* if that never shows: whenever it fails, the state is what it was.

Atomic actions are not closed under composition, because the second one may fail when the first has
already changed the state. An action is atomic if everything that can fail in it comes before
everything that changes the state: first what only reads, then at most one part that may fail and
is atomic itself (`ReadOnly.bind_atomic`), then what never fails (`Atomic.bind_certain`).
-/

namespace SpatialStore

open MonadExcept (ofExcept)

variable {ε σ α β : Type}

/-- Whenever the action fails, the state is what it was. -/
def Atomic (m : EStateM ε σ α) : Prop := ∀ s err t, m.run s = .error err t → t = s

/-- The action changes nothing, whether it fails or not. -/
structure ReadOnly (m : EStateM ε σ α) : Prop where
  atomic : Atomic m
  unchanged : ∀ {s t : σ} {a : α}, m.run s = .ok a t → t = s

/-- The action never fails. -/
def Certain (m : EStateM ε σ α) : Prop := ∀ s, ∃ a t, m.run s = .ok a t

/-! ### Composition -/

variable {m : EStateM ε σ α} {f : α → EStateM ε σ β}

theorem run_bind_ok {s t : σ} {a : α} (h : m.run s = .ok a t) : (m >>= f).run s = (f a).run t := by
  change EStateM.bind m f s = _
  rw [EStateM.bind, show m s = .ok a t from h]
  rfl

theorem run_bind_error {s t : σ} {err : ε} (h : m.run s = .error err t) :
    (m >>= f).run s = .error err t := by
  change EStateM.bind m f s = _
  rw [EStateM.bind, show m s = .error err t from h]

theorem Certain.atomic (h : Certain m) : Atomic m := by
  intro s err t hfail
  obtain ⟨a, u, hok⟩ := h s
  cases hok.symm.trans hfail

theorem Certain.bind (h : Certain m) (hf : ∀ a, Certain (f a)) : Certain (m >>= f) := by
  intro s
  obtain ⟨a, t, hok⟩ := h s
  obtain ⟨b, u, hok'⟩ := hf a t
  exact ⟨b, u, (run_bind_ok hok).trans hok'⟩

theorem ReadOnly.bind_atomic (h : ReadOnly m) (hf : ∀ a, Atomic (f a)) : Atomic (m >>= f) := by
  intro s err t hfail
  cases hm : m.run s with
  | ok a u =>
    obtain rfl := h.unchanged hm
    rw [run_bind_ok hm] at hfail
    exact hf a u err t hfail
  | error err' u =>
    rw [run_bind_error hm] at hfail
    cases hfail
    exact h.atomic s err t hm

theorem ReadOnly.bind (h : ReadOnly m) (hf : ∀ a, ReadOnly (f a)) : ReadOnly (m >>= f) := by
  refine ⟨h.bind_atomic fun a => (hf a).atomic, fun {s t b} hok => ?_⟩
  cases hm : m.run s with
  | ok a u =>
    obtain rfl := h.unchanged hm
    rw [run_bind_ok hm] at hok
    exact (hf a).unchanged hok
  | error err u =>
    rw [run_bind_error hm] at hok
    cases hok

theorem Atomic.bind_certain (h : Atomic m) (hf : ∀ a, Certain (f a)) : Atomic (m >>= f) := by
  intro s err t hfail
  cases hm : m.run s with
  | ok a u =>
    obtain ⟨b, v, hok⟩ := hf a u
    rw [run_bind_ok hm, hok] at hfail
    cases hfail
  | error err' u =>
    rw [run_bind_error hm] at hfail
    cases hfail
    exact h s err t hm

/-! ### Single actions -/

theorem certain_pure (a : α) : Certain (pure a : EStateM ε σ α) := fun s => ⟨a, s, rfl⟩

theorem certain_get : Certain (get : EStateM ε σ σ) := fun s => ⟨s, s, rfl⟩

theorem certain_modify (g : σ → σ) : Certain (modify g : EStateM ε σ PUnit) :=
  fun s => ⟨⟨⟩, g s, rfl⟩

theorem readOnly_pure (a : α) : ReadOnly (pure a : EStateM ε σ α) :=
  ⟨(certain_pure a).atomic, by rintro s t b ⟨⟩; rfl⟩

theorem readOnly_get : ReadOnly (get : EStateM ε σ σ) :=
  ⟨by rintro s err t ⟨⟩, by rintro s t b ⟨⟩; rfl⟩

theorem readOnly_throw (err : ε) : ReadOnly (throw err : EStateM ε σ α) :=
  ⟨by rintro s err' t ⟨⟩; rfl, by rintro s t b ⟨⟩⟩

theorem readOnly_ofExcept (x : Except ε α) : ReadOnly (ofExcept x : EStateM ε σ α) := by
  cases x with
  | ok a => exact readOnly_pure a
  | error err => exact readOnly_throw err

/-! ### Taking and giving back -/

theorem run_tryCatch_ok {s t : σ} {a : α} (h : m.run s = .ok a t) (handle : ε → EStateM ε σ α) :
    (tryCatch m handle).run s = .ok a t :=
  congrArg (fun r => EStateM.tryCatch (fun _ => r) handle s) h

theorem run_tryCatch_error {s t : σ} {err : ε} (h : m.run s = .error err t)
    (handle : ε → EStateM ε σ α) : (tryCatch m handle).run s = (handle err).run t :=
  congrArg (fun r => EStateM.tryCatch (fun _ => r) handle s) h

/-- What was taken from the state before an atomic action is given back when the action fails. -/
theorem Atomic.give_back {s t : σ} {err : ε} {take back : σ → σ} (h : Atomic m)
    (hs : back (take s) = s) (hf : ∀ a, Certain (f a))
    (hfail : (do
      modify take
      let a ← tryCatch m fun err => do
        modify back
        throw err
      f a : EStateM ε σ β).run s = .error err t) : t = s := by
  cases hm : m.run (take s) with
  | ok a u =>
    obtain ⟨b, v, hok⟩ := hf a u
    cases ((run_bind_ok (run_tryCatch_ok hm _)).trans hok).symm.trans hfail
  | error err' u =>
    have htry : (tryCatch m fun err => do
        modify back
        throw err : EStateM ε σ α).run (take s) = .error err' (back u) := run_tryCatch_error hm _
    obtain rfl := h (take s) err' u hm
    cases (run_bind_error htry).symm.trans hfail
    exact hs

/-! ### Outcomes -/

/-- What an action leads to. In which state it fails is left out. -/
def outcome (m : EStateM ε σ α) (s : σ) : Except ε (α × σ) :=
  match m.run s with
  | .ok a t => .ok (a, t)
  | .error err _ => .error err

theorem outcome_bind (m : EStateM ε σ α) (f : α → EStateM ε σ β) (s : σ) :
    outcome (m >>= f) s = outcome m s >>= fun r => outcome (f r.1) r.2 := by
  cases hm : m.run s with
  | ok a t =>
    rw [outcome, outcome, run_bind_ok hm, hm]
    rfl
  | error err t =>
    rw [outcome, outcome, run_bind_error hm, hm]
    rfl

theorem outcome_bind_of_ok {s t : σ} {a : α} (h : outcome m s = .ok (a, t)) :
    outcome (m >>= f) s = outcome (f a) t := by
  rw [outcome_bind, h]
  rfl

theorem outcome_get_bind (f : σ → EStateM ε σ β) (s : σ) :
    outcome (get >>= f) s = outcome (f s) s := rfl

theorem outcome_modify_bind (g : σ → σ) (f : PUnit → EStateM ε σ β) (s : σ) :
    outcome (modify g >>= f) s = outcome (f ⟨⟩) (g s) := rfl

theorem outcome_ofExcept (x : Except ε α) (s : σ) :
    outcome (ofExcept x) s = x.map fun a => (a, s) := by
  cases x <;> rfl

/-- Giving something back before failing does not change what is left. -/
theorem outcome_tryCatch (m : EStateM ε σ α) (back : σ → σ) (s : σ) :
    outcome (tryCatch m fun err => do
      modify back
      throw err) s = outcome m s := by
  cases hm : m.run s with
  | ok a t => rw [outcome, outcome, run_tryCatch_ok hm, hm]
  | error err t =>
    rw [outcome, outcome, run_tryCatch_error hm, hm]
    rfl

/-- An atomic action is determined by its outcome. -/
theorem Atomic.run_eq {s : σ} (h : Atomic m) : m.run s = match outcome m s with
      | .ok (a, t) => .ok a t
      | .error err => .error err s := by
  cases hm : m.run s with
  | ok a t => rw [outcome, hm]
  | error err t =>
    rw [outcome, hm, h s err t hm]

end SpatialStore
